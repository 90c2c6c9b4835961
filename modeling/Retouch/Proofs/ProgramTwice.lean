import Retouch.Proofs.SecondErasure
import Retouch.Proofs.ProgramErasure

/-! Typed programs are erased once and for all. What is left of one is a program
without types, made of names, reserved words, literals and brackets that match; such
tokens read the same whatever is blanked out around them. So a second pass leaves the
text as it is. -/

namespace Retouch.Erase
open Syntax Text

/-! ### Tokens that read the same anywhere -/

/-- A token whose reading depends on nothing around it, brackets apart. -/
structure Firm (d : Dialect) (t : Token) : Prop where
  slash : t.text.toList.head? ≠ some '/'
  template : t.kind ≠ .template
  keyword : t.kind = .keyword → t.text ∈ reserved
  name : t.kind = .identifier → d.isContextual t.text = false

/-- What is open after some tokens. -/
def nests (stack : List Context) : List Token → Option (List Context)
  | [] => some stack
  | t :: ts => (nest stack (scanned t)).bind fun opened => nests opened ts

theorem nests_append (stack : List Context) (ts us : List Token) :
    nests stack (ts ++ us) = (nests stack ts).bind fun opened => nests opened us := by
  induction ts generalizing stack with
  | nil => rfl
  | cons t ts ih =>
    rw [List.cons_append, nests, nests, Option.bind_assoc]
    exact Option.bind_congr fun opened _ => ih opened

section
variable {d : Dialect} {stack : List Context} {t : Token} {ts : List Token} {ps : List Piece}

theorem Firm.scanned (h : Firm d t) : scanned t = t.lexeme := by
  unfold Erase.scanned Token.lexeme
  split
  · rename_i hk
    rw [hk, show wordKind t.text = .keyword from if_pos (h.keyword hk)]
  · rfl

theorem nest_other (hk : t.kind ≠ .template) (ho : opener? t = none) (hc : closer? t = none) :
    nest stack t.lexeme = some stack := by
  unfold nest
  split
  · rename_i hk'
    exact absurd hk' hk
  · rename_i hk'
    have hopen : t.text ≠ "\x7b" := by
      intro ht
      simp [opener?, show t.kind = .punctuator from hk', ht] at ho
    have hclose : t.text ≠ "\x7d" := by
      intro ht
      simp [closer?, show t.kind = .punctuator from hk', ht] at hc
    exact (if_neg hopen).trans (if_neg hclose)
  · rfl

/-- What is open behind an opening bracket. -/
def behind (b : Bracket) (stack : List Context) : List Context :=
  if b = .curly then .brace :: stack else stack

theorem nest_opener {b : Bracket} (h : opener? t = some b) :
    nest stack t.lexeme = some (behind b stack) := by
  obtain ⟨kind, text, start, stop⟩ := t
  unfold opener? at h
  dsimp only at h
  split at h
  · rename_i hk
    subst hk
    split at h <;> cases h <;> rfl
  · cases h

theorem nest_closer {b : Bracket} (h : closer? t = some b) :
    nest (behind b stack) t.lexeme = some stack := by
  obtain ⟨kind, text, start, stop⟩ := t
  unfold closer? at h
  dsimp only at h
  split at h
  · rename_i hk
    subst hk
    split at h <;> cases h <;> rfl
  · cases h

/-- Brackets that match leave open what was open before. -/
theorem nests_balanced (h : Balanced ts) (hf : ∀ t ∈ ts, Firm d t) :
    nests stack ts = some stack := by
  induction h generalizing stack with
  | nil => rfl
  | @plain t ts ho hc _ ih =>
    have ht := hf t (by simp)
    rw [nests, ht.scanned, nest_other ht.template ho hc]
    exact ih fun u hu => hf u (by simp [hu])
  | @group o c b xs ys ho hc _ _ ihx ihy =>
    have hfo := hf o (by simp)
    have hfc := hf c (by simp)
    rw [nests, hfo.scanned, nest_opener ho, Option.bind_some, nests_append,
      ihx fun u hu => hf u (by simp [hu]), Option.bind_some, nests, hfc.scanned, nest_closer hc]
    exact ihy fun u hu => hf u (by simp [hu])

theorem resolve_firm (h : ∀ t ∈ ts, Firm d t) (before : Option Lexeme) :
    resolve d before (ts.map Token.lexeme) = ts.map Token.lexeme := by
  induction ts generalizing before with
  | nil => rfl
  | cons t ts ih =>
    have hkind : ∀ after, resolvedKind d before t.lexeme after = t.lexeme.kind := by
      intro after
      unfold resolvedKind
      split
      · rename_i hc
        simp only [Bool.and_eq_true, decide_eq_true_eq] at hc
        have hno : d.isContextual t.lexeme.text = false := (h t (by simp)).name hc.1.1
        rw [hno] at hc
        simp at hc
      · rfl
    rw [List.map_cons, resolve, hkind, ih fun u hu => h u (by simp [hu])]

theorem readsAlike_firm (h : ∀ p ∈ ps, p.hidden = false → Firm d p.token)
    (before before' : Option Lexeme) :
    readsAlike false before before' stack ps =
      (nests stack ((ps.filter (!·.hidden)).map Piece.token)).isSome := by
  induction ps generalizing before before' stack with
  | nil => rfl
  | cons p ps ih =>
    have hps : ∀ p ∈ ps, p.hidden = false → Firm d p.token := fun q hq => h q (by simp [hq])
    obtain ⟨t, _ | _⟩ := p
    · have ht := h ⟨t, false⟩ (by simp) rfl
      have hslash := ht.slash
      simp only [readsAlike, List.filter_cons_of_pos, Bool.not_false, List.map_cons, nests]
      cases hn : nest stack (scanned t) with
      | none => simp
      | some opened => simp [hslash, ih hps]
    · rw [readsAlike, ih hps]
      rfl

/-- Firm tokens with brackets that match read as before. -/
theorem rereadsAlike_firm (hd : d.hasElements = false) (h : ∀ t ∈ keptTokens ps, Firm d t)
    (hb : Balanced (keptTokens ps)) : RereadsAlike d ps where
  marks := by
    rw [hd, readsAlike_firm (d := d), show List.map _ _ = keptTokens ps from rfl,
      nests_balanced hb h]
    · rfl
    · intro p hp hh
      exact h p.token (List.mem_map_of_mem (List.mem_filter.mpr ⟨hp, by simp [hh]⟩))
  words := by
    rw [List.map_congr_left fun t ht => (h t ht).scanned, resolve_firm h]

end

/-! ### What is left of a typed program -/

/-- The tokens of the pieces that are kept. -/
def core (ps : List Piece) : List Token := (ps.filter (!·.hidden)).map Piece.token

@[simp] theorem core_nil : core [] = [] := rfl

@[simp] theorem core_keep (t : Token) (ps : List Piece) : core (keep t :: ps) = t :: core ps := rfl

@[simp] theorem core_append (ps qs : List Piece) : core (ps ++ qs) = core ps ++ core qs := by
  simp [core]

@[simp] theorem core_hide (ts : List Token) : core (hide ts) = [] := by
  simp [core, hide]

/-- The tokens that typed programs are made of without their types. -/
def IsCore (t : Token) : Prop :=
  t.IsPlain ∨ (∃ s ∈ ["const", "let", "function", "return"], t.IsKeyword s) ∨
    (∃ s ∈ ["(", ")", ",", "=", ";", "\x7b", "\x7d"], t.IsPunct s) ∨ t.IsLiteral

/-- The part of a program without types that is left of an expression. -/
def ExpressionPart.plain : ExpressionPart → Plain.Part
  | single => .single
  | arguments => .items false

theorem IsExpression.plain {part : ExpressionPart} {ps : List Piece} (h : IsExpression part ps) :
    Plain.IsExpression part.plain (core ps) := by
  induction h with
  | name h => exact .atom (.inl h)
  | literal h => exact .atom (.inr (.inr (h.imp_right .inl)))
  | call hf ho _ hz ih =>
    simpa [ExpressionPart.plain] using Plain.IsExpression.call (.atom (.inl hf)) ho ih hz
  | cast ho _ _ _ hz ih => simpa [ExpressionPart.plain] using Plain.IsExpression.group ho ih hz
  | none => exact .none
  | last _ ih => exact .last (.value ih)
  | more _ hd _ ihe iha =>
    simpa [ExpressionPart.plain] using Plain.IsExpression.more (.value ihe) hd iha

theorem IsParameter.plain {ps : List Piece} (h : IsParameter ps) :
    Plain.IsPattern (.item false) (core ps) := by
  cases h with
  | annotated hx | optional hx => simpa using Plain.IsPattern.element (.name hx)
  | defaulted hx _ _ he hes =>
    simpa using Plain.IsPattern.initialised (.element (.name hx)) he hes.plain

theorem IsParameters.plain {ps : List Piece} (h : IsParameters ps) :
    Plain.IsPattern (.items false) (core ps) := by
  induction h with
  | none => exact .none
  | last h => exact .last h.plain
  | more h hd _ ih => simpa using Plain.IsPattern.more h.plain hd ih

/-- Before statements without types stands what is left of statements with types. -/
theorem IsStatement.plain {part : StatementPart} {ps : List Piece} (h : IsStatement part ps)
    {us : List Token} (hus : Plain.IsStatement .many us) :
    Plain.IsStatement .many (core ps ++ us) := by
  have hdeclarator : ∀ {k : Token}, k.IsKeyword "const" ∨ k.IsKeyword "let" → k.IsDeclarator := by
    rintro k (hk | hk)
    · exact ⟨_, by simp, hk⟩
    · exact ⟨_, by simp, hk⟩
  induction h generalizing us with
  | declared hk hx _ _ hs =>
    have hbinding := Plain.IsPattern.last (.element (.name hx))
    have h := Plain.IsStatement.simple (.declaration (hdeclarator hk) hbinding (by simp)) hs
    simpa using h.more hus
  | initialised hk hx _ _ he hes hs =>
    have hbinding := Plain.IsPattern.last (.initialised (.element (.name hx)) he hes.plain)
    have h := Plain.IsStatement.simple (.declaration (hdeclarator hk) hbinding (by simp)) hs
    simpa using h.more hus
  | synonym | interface => simpa using hus
  | function hk hf _ ho hps hz _ _ hb _ hr hes hs he ih =>
    have hreturn := Plain.IsStatement.simple (.giveBackValue hr hes.plain) hs
    have hbody := ih (.more hreturn .none)
    have h := Plain.IsStatement.function hk hf ho hps.plain hz hb hbody he
    simpa using h.more hus
  | none => exact hus
  | more _ _ ihx ihy => simpa using ihx (ihy hus)

theorem IsStatement.balanced_core {part : StatementPart} {ps : List Piece}
    (h : IsStatement part ps) : Balanced (core ps) := by
  induction h with
  | declared hk hx _ _ hs =>
    have hk' := hk.elim (·.inert.balanced) (·.inert.balanced)
    simpa using Balanced.cons hk' (.cons hx.inert.balanced hs.balanced)
  | initialised hk hx _ _ he hes hs =>
    have hk' := hk.elim (·.inert.balanced) (·.inert.balanced)
    simpa using Balanced.cons hk' (.cons hx.inert.balanced
      (.cons he.balanced (hes.plain.balanced.append hs.balanced)))
  | synonym | interface => simpa using Balanced.nil
  | function hk hf _ ho hps hz _ _ hb _ hr hes hs he ih =>
    have hbody := Balanced.bracketed (hb.opens .curly) (he.closes .curly)
      (ih.append (.cons hr.inert.balanced (hes.plain.balanced.append hs.balanced)))
    have hlist := Balanced.bracketed (ho.opens .round) (hz.closes .round) hps.plain.balanced
    simpa using Balanced.cons hk.inert.balanced (.cons hf.inert.balanced (hlist.append hbody))
  | none => exact .nil
  | more _ _ ihx ihy => simpa using ihx.append ihy

section
variable {t : Token} {s : String} {ps : List Piece}

theorem IsCore.keyword (h : t.IsKeyword s)
    (hs : s ∈ ["const", "let", "function", "return"] := by simp) : IsCore t :=
  .inr (.inl ⟨s, hs, h⟩)

theorem IsCore.punct (h : t.IsPunct s)
    (hs : s ∈ ["(", ")", ",", "=", ";", "\x7b", "\x7d"] := by simp) : IsCore t :=
  .inr (.inr (.inl ⟨s, hs, h⟩))

theorem IsExpression.isCore {part : ExpressionPart} (h : IsExpression part ps) :
    ∀ t ∈ core ps, IsCore t := by
  induction h with
  | name h => simpa using .inl h
  | literal h => simpa using .inr (.inr (.inr h))
  | call hf ho _ hz ih =>
    simpa [or_imp, forall_and] using ⟨.inl hf, .punct ho, ih, .punct hz⟩
  | cast ho _ _ _ hz ih =>
    simpa [or_imp, forall_and] using ⟨.punct ho, ih, .punct hz⟩
  | none => simp
  | last _ ih => exact ih
  | more _ hd _ ihe iha =>
    simpa [or_imp, forall_and] using ⟨ihe, .punct hd, iha⟩

theorem IsParameter.isCore (h : IsParameter ps) : ∀ t ∈ core ps, IsCore t := by
  cases h with
  | annotated hx | optional hx => simpa using .inl hx
  | defaulted hx _ _ he hes =>
    simpa [or_imp, forall_and] using ⟨.inl hx, .punct he, hes.isCore⟩

theorem IsParameters.isCore (h : IsParameters ps) : ∀ t ∈ core ps, IsCore t := by
  induction h with
  | none => simp
  | last h => exact h.isCore
  | more h hd _ ih => simpa [or_imp, forall_and] using ⟨h.isCore, .punct hd, ih⟩

theorem IsStatement.isCore {part : StatementPart} (h : IsStatement part ps) :
    ∀ t ∈ core ps, IsCore t := by
  induction h with
  | declared hk hx _ _ hs =>
    have hk' : IsCore _ := hk.elim (.keyword ·) (.keyword ·)
    simpa [or_imp, forall_and] using ⟨hk', .inl hx, .punct hs⟩
  | initialised hk hx _ _ he hes hs =>
    have hk' : IsCore _ := hk.elim (.keyword ·) (.keyword ·)
    simpa [or_imp, forall_and] using ⟨hk', .inl hx, .punct he, hes.isCore, .punct hs⟩
  | synonym | interface => simp
  | function hk hf _ ho hps hz _ _ hb _ hr hes hs he ih =>
    simpa [or_imp, forall_and] using ⟨.keyword hk, .inl hf, .punct ho, hps.isCore, .punct hz,
      .punct hb, ih, .keyword hr, hes.isCore, .punct hs, .punct he⟩
  | none => simp
  | more _ _ ihx ihy => simpa [or_imp, forall_and] using ⟨ihx, ihy⟩

end

theorem IsCore.firm {source : String} {t : Token} (h : IsCore t) (hm : t ∈ tokenize .ts source) :
    Firm .ts t := by
  have hslash : t.kind.IsSpelled → t.text.toList.head? ≠ some '/' := by
    intro hk hs
    have hb := tokenize_begins_spelled hm hk
    rw [hs] at hb
    cases hb
  rcases h with h | ⟨s, hs, h⟩ | ⟨s, hs, h⟩ | h
  · refine ⟨hslash (.inl h.1), by rw [h.1]; decide, fun hk => ?_, fun _ => ?_⟩
    · rw [h.1] at hk
      cases hk
    · simp [Dialect.isContextual, h.2.2.1, h.2.2.2]
  · have hreserved : ∀ s ∈ ["const", "let", "function", "return"], s ∈ reserved := by decide
    refine ⟨hslash (.inr (.inl h.1)), by rw [h.1]; decide, fun _ => ?_, fun hk => ?_⟩
    · rw [h.2]
      exact hreserved s hs
    · rw [h.1] at hk
      cases hk
  · have hmarks : ∀ s ∈ ["(", ")", ",", "=", ";", "\x7b", "\x7d"],
        s.toList.head? ≠ some '/' := by decide
    refine ⟨by rw [h.2]; exact hmarks s hs, by rw [h.1]; decide, fun hk => ?_, fun hk => ?_⟩
    · rw [h.1] at hk
      cases hk
    · rw [h.1] at hk
      cases hk
  · have hkind : t.kind ≠ .keyword ∧ t.kind ≠ .identifier ∧ t.kind ≠ .template := by
      rcases h with h | h <;> rw [h] <;> decide
    exact ⟨hslash (.inr (.inr h)), hkind.2.2, fun hk => absurd hk hkind.1,
      fun hk => absurd hk hkind.2.1⟩

/-- Typed programs are erased once and for all. -/
theorem eraseTypes_program_twice {source : String} {ps : List Piece} (h : IsStatement .body ps)
    (hs : significant (tokenize .ts source) = tokensOf ps) :
    ∃ out, eraseTypes .ts source = some out ∧ eraseTypes .ts out = some out := by
  have hf : (Code.ofTokens (significant (tokenize .ts source))).From 0 (tokensOf ps) := by
    simp [Code.From, Code.ofTokens, hs]
  obtain ⟨e, he, hc⟩ := h.erasure (Code.lexed_tokenize source) hf
  have hlen : (significant (tokenize .ts source)).length = ps.length := by
    rw [hs, List.length_map]
  have hsig : significantPieces (erasedPieces .ts source e) = ps := by
    refine significantPieces_pieces hs fun k hk => ?_
    rw [← hc]
    simp [Code.isErased, Code.size, Code.ofTokens, hlen, hk]
  have hkept : keptTokens (erasedPieces .ts source e) = core ps := by
    rw [keptTokens, hsig, core]
  have htokens : (erasedPieces .ts source e).map Piece.token = tokenize .ts source :=
    pieces_tokens ..
  have hfirm : ∀ t ∈ keptTokens (erasedPieces .ts source e), Firm .ts t := by
    rw [hkept]
    intro t ht
    have hsource : t ∈ significant (tokenize .ts source) := by
      obtain ⟨p, hp, rfl⟩ := List.mem_map.mp ht
      rw [hs]
      exact List.mem_map_of_mem (List.mem_of_mem_filter hp)
    exact (h.isCore t ht).firm (List.mem_of_mem_filter hsource)
  have hread : RereadsAlike .ts (erasedPieces .ts source e) :=
    rereadsAlike_firm rfl hfirm (by rw [hkept]; exact h.balanced_core)
  have hplain : Plain.IsStatement .many (keptTokens (erasedPieces .ts source e)) := by
    rw [hkept, ← List.append_nil (core ps)]
    exact h.plain .none
  have hiff := eraseTypes_faded_iff rfl htokens String.toList_ofList hread
  exact ⟨_, eraseTypes_erasedPieces rfl he, hiff.mpr (bare_of_plain htokens hplain)⟩

end Retouch.Erase
