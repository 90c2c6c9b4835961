import Mathlib.Data.List.Forall2
import Retouch.Proofs.Scan

/-! The dialects agree on where tokens begin and end. Types bring no lexemes of their
own: a typed dialect cuts a text as the untyped one beside it does, and only resolves
more words to keywords. Elements begin with an angle bracket and nothing else does, so
that in a text without one the dialects with elements read what the others read. -/

namespace Retouch.Syntax

/-! ### Types -/

/-- A kind in an untyped dialect, and the kind of the same word in a typed one. -/
def PromotedKind (word : String) (k k' : Kind) : Prop :=
  k' = k ∨ (k = .identifier ∧ k' = .keyword ∧ word ∈ typedContextual)

theorem keywordPosition_congr {before before' : Option Lexeme} (after : Option Lexeme)
    (h : before'.map Lexeme.text = before.map Lexeme.text) :
    keywordPosition before' after = keywordPosition before after := by
  have hany (o : Option Lexeme) : o.any (fun l => l.text ∈ [".", "?."]) =
      (o.map Lexeme.text).any (· ∈ [".", "?."]) := by cases o <;> rfl
  rw [keywordPosition, keywordPosition, hany, hany, h]

section
variable {d d' : Dialect} {before before' : Option Lexeme}

theorem isContextual_untyped (hd : d.isTyped = false) (word : String) :
    d.isContextual word = decide (word ∈ contextual) := by simp [Dialect.isContextual, hd]

theorem isContextual_typed (hd : d.isTyped = true) (word : String) :
    d.isContextual word = (decide (word ∈ contextual) || decide (word ∈ typedContextual)) := by
  simp [Dialect.isContextual, hd]

theorem resolvedKind_promoted (hd : d.isTyped = false) (hd' : d'.isTyped = true)
    (hb : before'.map Lexeme.text = before.map Lexeme.text) (l : Lexeme)
    (after : Option Lexeme) :
    PromotedKind l.text (resolvedKind d before l after) (resolvedKind d' before' l after) := by
  unfold resolvedKind
  rw [keywordPosition_congr after hb, isContextual_untyped hd, isContextual_typed hd']
  by_cases hk : l.kind = .identifier
  · by_cases hc : l.text ∈ contextual
    · exact .inl (by simp [hc])
    · by_cases ht : l.text ∈ typedContextual
      · cases hp : keywordPosition before after with
        | false => exact .inl (by simp)
        | true => exact .inr ⟨by simp [hc, hk], by simp [hk, ht], ht⟩
      · exact .inl (by simp [hc, ht])
  · exact .inl (by simp [hk])

/-- The lexemes of an untyped dialect beside those of a typed one. -/
def PromotedLexeme (a b : Lexeme) : Prop := b.text = a.text ∧ PromotedKind a.text a.kind b.kind

theorem resolve_promoted (hd : d.isTyped = false) (hd' : d'.isTyped = true)
    (hb : before'.map Lexeme.text = before.map Lexeme.text) (ls : List Lexeme) :
    List.Forall₂ PromotedLexeme (resolve d before ls) (resolve d' before' ls) := by
  -- the two passes see the same texts behind them, though not the same kinds
  induction ls generalizing before before' with
  | nil => exact .nil
  | cons l ls ih =>
    have hkind := resolvedKind_promoted hd hd' hb l (firstSignificant ls)
    refine .cons ⟨rfl, hkind⟩ (ih ?_)
    cases l.isTrivia
    · rfl
    · exact hb

end

/-- A token of an untyped dialect and the one that the typed dialect beside it has in
its place. -/
structure Promoted (a b : Token) : Prop where
  text : b.text = a.text
  start : b.start = a.start
  stop : b.stop = a.stop
  kind : PromotedKind a.text a.kind b.kind

theorem placed_promoted {ls ls' : List Lexeme} (h : List.Forall₂ PromotedLexeme ls ls')
    (p : Place) : List.Forall₂ Promoted (placed p ls) (placed p ls') := by
  induction h generalizing p with
  | nil => exact .nil
  | @cons a b ls ls' hab _ ih =>
    have hpast : p.past b.text.toList = p.past a.text.toList := by rw [hab.1]
    refine .cons ⟨hab.1, rfl, hpast, hab.2⟩ ?_
    rw [hpast]
    exact ih _

theorem tokenize_promoted {d d' : Dialect} (hd : d.isTyped = false) (hd' : d'.isTyped = true)
    (he : d'.hasElements = d.hasElements) (source : String) :
    List.Forall₂ Promoted (tokenize d source) (tokenize d' source) := by
  rw [tokenize, tokenize, lexemes_eq, lexemes_eq, he]
  exact placed_promoted (resolve_promoted hd hd' rfl _) _

/-- Where a token begins and ends. -/
def Token.places (t : Token) : Place × Place := (t.start, t.stop)

theorem places_of_promoted {ts us : List Token} (h : List.Forall₂ Promoted ts us) :
    us.map Token.places = ts.map Token.places := by
  induction h with
  | nil => rfl
  | cons hab _ ih => rw [List.map_cons, List.map_cons, ih, Token.places, Token.places, hab.start,
      hab.stop]

/-! ### Elements -/

/-- Whether elements can begin matters at an angle bracket only, whatever is open. -/
theorem nextStep_elements {c : Char} (hc : c ≠ '<') (before : Option Lexeme)
    (stack : List Context) (r : List Char) :
    nextStep true before stack c r = nextStep false before stack c r := by
  have hcode (stack : List Context) :
      codeStep true before stack c r = codeStep false before stack c r := by
    simp [codeStep, hc]
  cases stack with
  | nil => exact hcode []
  | cons context outer =>
    cases context with
    | tag closing => rfl
    | children => rfl
    | brace => exact hcode _
    | substitution => exact hcode _
    | container => exact hcode _

theorem scan_elements {cs : List Char} (h : '<' ∉ cs) (before : Option Lexeme)
    (stack : List Context) : scan true before stack cs = scan false before stack cs := by
  fun_induction scan false before stack cs with
  | case1 => rw [scan]
  | case2 before stack c r s l ih =>
    simp only [List.mem_cons, not_or] at h
    rw [scan, nextStep_elements (Ne.symm h.1)]
    exact congrArg (l :: ·) (ih fun hm => h.2 (List.mem_of_mem_drop hm))

theorem tokenize_without_angle {d d' : Dialect} (ht : d'.isTyped = d.isTyped)
    (hd : d.hasElements = false) (hd' : d'.hasElements = true) {source : String}
    (h : '<' ∉ source.toList) : tokenize d' source = tokenize d source := by
  have hkind (before : Option Lexeme) (l : Lexeme) (after : Option Lexeme) :
      resolvedKind d' before l after = resolvedKind d before l after := by
    rw [resolvedKind, resolvedKind, Dialect.isContextual, Dialect.isContextual, ht]
  have hresolve (before : Option Lexeme) (ls : List Lexeme) :
      resolve d' before ls = resolve d before ls := by
    induction ls generalizing before with
    | nil => rfl
    | cons l ls ih => simp only [resolve, hkind, ih]
  rw [tokenize, tokenize, lexemes_eq, lexemes_eq, hd, hd', scan_elements h, hresolve]

/-! ### All four -/

/-- The untyped and the typed dialects agree on the places of all tokens, and differ in
kind at most where a word of the typed dialects becomes a keyword. Without an angle
bracket in the text all four agree on the places, and elements make no difference. -/
theorem tokenize_dialects (source : String) :
    List.Forall₂ Promoted (tokenize .js source) (tokenize .ts source) ∧
      List.Forall₂ Promoted (tokenize .jsx source) (tokenize .tsx source) ∧
      ('<' ∉ source.toList →
        (∀ d d' : Dialect,
          (tokenize d source).map Token.places = (tokenize d' source).map Token.places) ∧
        tokenize .jsx source = tokenize .js source ∧
        tokenize .tsx source = tokenize .ts source) := by
  have hts := @tokenize_promoted .js .ts rfl rfl rfl source
  have htsx := @tokenize_promoted .jsx .tsx rfl rfl rfl source
  refine ⟨hts, htsx, fun h => ?_⟩
  have hjsx := @tokenize_without_angle .js .jsx rfl rfl rfl _ h
  have htyped := @tokenize_without_angle .ts .tsx rfl rfl rfl _ h
  have hplaces (d : Dialect) :
      (tokenize d source).map Token.places = (tokenize .js source).map Token.places := by
    cases d with
    | js => rfl
    | jsx => rw [hjsx]
    | ts => exact places_of_promoted hts
    | tsx => rw [htyped, places_of_promoted hts]
  exact ⟨fun d d' => (hplaces d).trans (hplaces d').symm, hjsx, htyped⟩

/-- A text in which the dialects with types find two more keywords, and elements are
looked for in vain. -/
theorem tokenize_dialects_alias :
    '<' ∉ "type A = keyof B;".toList ∧
      tokenize .tsx "type A = keyof B;" = tokenize .ts "type A = keyof B;" ∧
      (tokenize .jsx "type A = keyof B;").map Token.places =
        (tokenize .ts "type A = keyof B;").map Token.places ∧
      (tokenize .jsx "type A = keyof B;").map Token.kind ≠
        (tokenize .ts "type A = keyof B;").map Token.kind := by
  have h : '<' ∉ "type A = keyof B;".toList := by decide
  obtain ⟨hplaces, -, htsx⟩ := (tokenize_dialects "type A = keyof B;").2.2 h
  exact ⟨h, htsx, hplaces _ _, by decide +kernel⟩

end Retouch.Syntax
