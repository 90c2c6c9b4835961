import Retouch.Proofs.ErasureOutcome

/-! Tokens that the pass keeps. Most are idle: whatever stands around them, a visit
erases nothing. An expression without types is quiet while nothing is erased, and so
it is behind any kept token, because brackets are told by the kept token before them.

Names of types, with dots and array suffixes, are made of idle tokens. So they stay as
they are where the pass does not take them for types. -/

namespace Retouch.Syntax.Token

/-- A word that names a property, which may be reserved. -/
def IsProperty (t : Token) : Prop :=
  t.kind = .identifier ∨ t.kind = .keyword ∧ t.text ∈ reserved

end Retouch.Syntax.Token

namespace Retouch.Code
open Syntax Erase Plain

variable {c : Code} {p q : Nat} {t o : Token} {ts rest : List Token} {early : Nat → Bool}
  {e : Erasure} {s : String}

/-- Behind a kept token the brackets at `p` are read as if nothing were erased. -/
theorem declaresFunction_of_kept (hp : 0 < p) (h : e.covers (p - 1) = false) :
    c.declaresFunction e p = c.declaresFunction [] p := by
  obtain ⟨p, rfl⟩ := Nat.exists_eq_add_of_lt hp
  rw [Nat.zero_add, Nat.add_sub_cancel] at h
  have hlast : ∀ e' : Erasure, e'.covers p = false → lastKept e' (0 + p + 1) = some p := by
    intro e' he'
    rw [Nat.zero_add, lastKept, he']
    rfl
  rw [declaresFunction, declaresFunction, hlast e h, hlast [] rfl]

theorem Visits.of_kept {spans : Erasure} {next : Nat} (h : c.Visits [] p spans next) (hp : 0 < p)
    (hkept : e.covers (p - 1) = false) : c.Visits e p spans next := by
  have hspans : c.punctSpans e p = c.punctSpans [] p := by
    unfold punctSpans signatureSpans
    rw [declaresFunction_of_kept hp hkept]
  unfold Visits visit at h ⊢
  rwa [hspans]

/-- Kept tokens behind a kept one, which are quiet while nothing is erased. -/
theorem From.crosses_quietOn (hf : c.From p (o :: (ts ++ rest))) (ho : c.Quiet p)
    (hts : c.QuietOn (p + 1) (p + 1 + ts.length)) : c.Crosses p (keep o :: mark false ts)
      fun _ => false := by
  intro e he
  have hlen : p + (keep o :: mark false ts).length = p + 1 + ts.length := by simp; omega
  rw [hlen] at he ⊢
  have hsize : p + 1 + ts.length ≤ c.size := by
    have hl := congrArg List.length hf
    rw [List.length_drop, List.length_cons, List.length_append, Array.length_toList] at hl
    unfold Code.size
    omega
  have hrun : ∀ n ≤ ts.length, c.erasureFrom e p = c.erasureFrom e (p + 1 + n) := by
    intro n hn
    induction n with
    | zero => exact (ho e).erasureFrom hf.lt_size (he p (by omega) (by omega))
    | succ n ih =>
      have hvisit := (hts (p + 1 + n) (by omega) (by omega)).of_kept (e := e) (by omega)
        (he _ (by omega) (by omega))
      rw [ih (by omega), hvisit.erasureFrom (by omega) (he _ (by omega) (by omega))]
      rfl
  exact ⟨e, hrun ts.length (Nat.le_refl _), fun k => by simp⟩

/-! ### Spelling -/

/-- Code whose tokens are spelled as scanning spells them: only marks, blanks and free
text begin like marks. -/
structure Spelt (c : Code) : Prop where
  head : ∀ {i : Nat} {t : Token}, c.tokens[i]? = some t → ¬ t.kind.IsLoose →
    t.text.toList.head?.any beginsSolid = true

theorem spelt_tokenize (source : String) :
    (Code.ofTokens (significant (tokenize .ts source))).Spelt where
  head {i t} ht hk := by
    have hm : t ∈ significant (tokenize .ts source) :=
      List.mem_of_getElem? (by simpa [Code.ofTokens] using ht)
    exact tokenize_begins_solid (List.mem_of_mem_filter hm) hk

theorem From.text_ne {m : String} (hf : c.From p (t :: rest)) (hc : c.Spelt)
    (ht : ¬ t.kind.IsLoose) (hm : m.toList.head?.any beginsSolid = false := by decide) :
    c.text p ≠ m := by
  rintro rfl
  have hhead := hc.head hf.getElem? ht
  rw [← hf.text, hm] at hhead
  cases hhead

/-! ### Idle tokens -/

/-- A visit of this token erases nothing, wherever it stands. -/
structure Idle (t : Token) : Prop where
  quiet : ∀ {c : Code} {p : Nat} {rest : List Token}, c.From p (t :: rest) → c.Quiet p

theorem From.crosses_idle (hf : c.From p (ts ++ rest)) (h : ∀ t ∈ ts, Idle t)
    (hearly : ∀ k, p ≤ k → k < p + ts.length → early k = false) :
    c.Crosses p (mark false ts) early := by
  induction ts generalizing p with
  | nil => exact .nil
  | cons t ts ih =>
    rw [List.length_cons] at hearly
    exact .cons (hf.crosses_keep (hearly p (by omega) (by omega)) ((h t (by simp)).quiet hf))
      (ih hf.tail (fun u hu => h u (by simp [hu])) fun k hk hk' => hearly k (by omega) (by omega))

theorem From.quietOn_idle (hf : c.From p (ts ++ rest)) (h : ∀ t ∈ ts, Idle t) :
    c.QuietOn p (p + ts.length) := by
  induction ts generalizing p with
  | nil => exact quietOn_refl
  | cons t ts ih =>
    exact .cons ((h t (by simp)).quiet hf) (ih hf.tail fun u hu => h u (by simp [hu]))

/-! ### Words that may be reserved -/

theorem declarationLast_eq_none (h : c.text p ∉ declarationWords) :
    c.declarationLast p = none := by
  unfold declarationLast
  split
  · split <;> simp_all [declarationWords]
  · rfl

/-- No annotation of a variable begins here. -/
def Unannotated (c : Code) (q : Nat) : Prop :=
  c.text q ≠ ":" ∧ (c.text q = "!" → c.text (q + 1) ≠ ":")

theorem Unannotated.declaratorSpans {last : Nat} (h : c.Unannotated (last + 1))
    (hlast : c.bindingLast (p + 1) = some last) : c.declaratorSpans p = [] := by
  have hcolon : c.punct (last + 1) ":" = false := punct_eq_false h.1
  by_cases hbang : c.text (last + 1) = "!"
  · have hnext : c.punct (last + 2) ":" = false := punct_eq_false (h.2 hbang)
    simp [Code.declaratorSpans, hlast, hnext, hcolon]
  · simp [Code.declaratorSpans, hlast, punct_eq_false hbang, hcolon]

/-- What a class or a declaration of types would go on with. -/
def headWords : List String := ["<", "class", "extends", "implements"] ++ declarationWords

/-- A property can end before `q`, also one whose name is a reserved word: nothing
there belongs to a declaration that the word could begin. -/
structure Onward (c : Code) (q : Nat) : Prop where
  follow : c.Follow q
  kind : c.kind? q ≠ some .identifier
  text : c.text q ∉ headWords
  unannotated : c.Unannotated q
  index : ∀ close, c.text q = "[" → c.partner q = some close → c.Unannotated (close + 1)

theorem From.onward_punct (hf : c.From q (t :: rest)) (ht : t.IsPunct s)
    (hs : s ∉ ":" :: "!" :: "[" :: headWords) (hq : c.Follow q) : c.Onward q := by
  have htext : c.text q ∉ ":" :: "!" :: "[" :: headWords := by rwa [hf.text, ht.2]
  simp only [List.mem_cons, not_or] at htext
  exact ⟨hq, by simp [hf.kind?, ht.1], htext.2.2.2, ⟨htext.1, fun hb => absurd hb htext.2.1⟩,
    fun _ hi => absurd hi htext.2.2.1⟩

theorem Onward.classSpans (h : c.Onward (p + 1)) : c.classSpans p = some [] := by
  have hword : ∀ w ∈ headWords, c.text (p + 1) ≠ w := fun w hw he => h.text (he ▸ hw)
  have hbrace : c.punct (p + 1) "\x7b" = false :=
    punct_eq_false fun he => h.follow.stop (by simp [he])
  have hparameters : c.classParameters (p + 1) = some ([], p + 1) := by
    simp [classParameters, punct_eq_false (hword "<" (by decide))]
  have hclause : c.implementsClause (p + 1) = some ([], p + 1) := by
    simp [implementsClause, word_eq_false (hword "implements" (by decide))]
  have hbody : c.classBody (p + 1) = some [] := by
    unfold classBody
    split
    · simp [hbrace]
    · rfl
  simp [Code.classSpans, h.kind, hparameters, word_eq_false (hword "extends" (by decide)), hclause,
    hbody]

theorem Onward.declaratorSpans (h : c.Onward (p + 1)) : c.declaratorSpans p = [] := by
  have hbrace : c.text (p + 1) ≠ "\x7b" := fun he => h.follow.stop (by simp [he])
  cases hlast : c.bindingLast (p + 1) with
  | none => simp [Code.declaratorSpans, hlast]
  | some last =>
    by_cases hsquare : c.text (p + 1) = "["
    · have hpartner : c.partner (p + 1) = some last := by simpa [bindingLast, hsquare] using hlast
      exact (h.index last hsquare hpartner).declaratorSpans hlast
    · simp [bindingLast, hbrace, hsquare, h.kind] at hlast

/-- There no word declares anything, and no word casts where no expression ends before
it. -/
theorem From.quiet_word (hf : c.From p (t :: rest)) (ht : t.IsProperty) (h : c.Onward (p + 1))
    (hcast : t.text ∈ ["as", "satisfies"] → c.endsExpression (p - 1) = false) : c.Quiet p := by
  have hname : c.isName p = true := by
    rcases ht with ht | ht <;> simp [hf.isName, ht]
  have hword : ∀ w ∈ headWords, c.text (p + 1) ≠ w := fun w hw he => h.text (he ▸ hw)
  have hstatement : c.typeStatementLast p = none := by
    unfold typeStatementLast
    split
    · exact declarationLast_eq_none fun hm => h.text (List.mem_append_right _ hm)
    · unfold declarationLast
      split
      · rename_i hk
        have hreserved : c.text p ∈ reserved := by
          rw [hf.text]
          rcases ht with ht | ht
          · simp [hf.kind?, ht] at hk
          · exact ht.2
        split
        · simp [h.kind]
        · rename_i he
          exact absurd hreserved (by rw [he]; decide)
        · rename_i he
          exact absurd hreserved (by rw [he]; decide)
        · rfl
      · rfl
  refine Code.quiet_name hname hstatement (fun hm => ?_) ?_
  · rw [hf.text] at hm
    simp [isCast, hcast hm]
  · have hclass : c.word (p + 1) "class" = false := word_eq_false (hword "class" (by decide))
    unfold wordSpans
    split <;> simp [hclass, h.declaratorSpans, h.classSpans]

end Retouch.Code

namespace Retouch
open Syntax Code Token

variable {t : Token} {s : String}

theorem Syntax.Token.IsPlain.idle (h : t.IsPlain) : Idle t := ⟨fun hf => hf.quiet_plain h⟩

theorem Syntax.Token.IsKeyword.idle (h : t.IsKeyword s) (hs : s ∉ activeWords := by decide) :
    Idle t := ⟨fun hf => hf.quiet_keyword h hs⟩

theorem Syntax.Token.IsPunct.idle (h : t.IsPunct s) (hs : s ∉ ["!", "(", "<"] := by decide) :
    Idle t := ⟨fun hf => hf.quiet_punct h hs⟩

theorem Syntax.Token.IsLiteral.idle (h : t.IsLiteral) : Idle t := ⟨fun hf => hf.quiet_literal h⟩

theorem Syntax.Token.IsTypeName.idle (h : t.IsTypeName) : Idle t := by
  rcases h with h | ⟨s, hs, h⟩
  · exact h.idle
  · exact h.idle ((by decide : ∀ s ∈ ["void", "null", "true", "false", "this"],
      s ∉ activeWords) s hs)

theorem Syntax.Token.IsTypeName.solid (h : t.IsTypeName) : ¬ t.kind.IsLoose := by
  rcases h with h | ⟨s, -, h⟩
  · exact h.solid
  · exact h.word.solid

/-! ### Names of types -/

/-- A dotted name, or an array type over one. -/
inductive IsNamed : List Token → Prop
  | name {ts} : IsType .name 0 ts → IsNamed ts
  | array {ts t o z} : IsNamed (ts ++ [t]) → t.stop.line = o.start.line → IsPunct o "[" →
      IsPunct z "]" → IsNamed (ts ++ [t, o, z])

variable {ts : List Token}

theorem IsType.name_tokens (h : IsType .name 0 ts) : ∀ t ∈ ts, IsTypeName t ∨ IsPunct t "." := by
  generalize hp : TypePart.name = part at h
  generalize hn : 0 = n at h
  induction h with
  | name ht => simp [ht]
  | dotted ht hd _ ih => simpa [ht, hd] using ih rfl rfl
  | _ => cases hp

theorem IsType.idle_name (h : IsType .name 0 ts) : ∀ t ∈ ts, Idle t :=
  fun t ht => (h.name_tokens t ht).elim (·.idle) (·.idle)

theorem IsNamed.suffixed (h : IsNamed ts) : IsType .suffixed 0 ts := by
  induction h with
  | name h => exact .primary (.named h)
  | array _ hl ho hz ih => exact .index ih hl ho .nil hz

theorem IsNamed.isType (h : IsNamed ts) : IsType .whole 0 ts :=
  .whole (.union (.member (.suffixed h.suffixed)))

theorem IsNamed.idle (h : IsNamed ts) : ∀ t ∈ ts, Idle t := by
  induction h with
  | name h => exact h.idle_name
  | @array ts t o z _ _ ho hz ih =>
    intro u hu
    simp only [List.mem_append, List.mem_cons, List.not_mem_nil, or_false] at hu ih
    rcases hu with hu | hu | rfl | rfl
    · exact ih u (.inl hu)
    · exact ih u (.inr hu)
    · exact ho.idle
    · exact hz.idle

end Retouch
