import Retouch.Proofs.Spelling
import Retouch.Proofs.TypedProgram
import Retouch.Proofs.TypeReach

/-! How the pass crosses a stretch of marked tokens. `Crosses c p ps early` says
that the pass, coming to `p` with exactly the `early` tokens of the stretch erased,
leaves the stretch with its hidden tokens erased and no others. Stretches compose,
so each kind of visit is looked at once. -/

namespace Retouch.Erase
open Retouch.Syntax

/-! ### Marks -/

/-- Whether the piece with index `k` is hidden, when the pieces begin at `p`. -/
def hides (ps : List Piece) (p k : Nat) : Bool := p ≤ k && ps[k - p]?.any Piece.hidden

@[simp] theorem hides_nil (p k : Nat) : hides [] p k = false := by simp [hides]

theorem hides_cons (x : Piece) (ps : List Piece) (p k : Nat) :
    hides (x :: ps) p k = ((k = p && x.hidden) || hides ps (p + 1) k) := by
  unfold hides
  rcases Nat.lt_trichotomy k p with h | rfl | h
  · simp [show ¬ p ≤ k by omega, show ¬ k = p by omega, show ¬ p + 1 ≤ k by omega]
  · simp [show ¬ k + 1 ≤ k by omega]
  · obtain ⟨j, rfl⟩ := Nat.exists_eq_add_of_lt h
    simp [show p + j + 1 - p = j + 1 by omega, show p + j + 1 - (p + 1) = j by omega,
      show p ≤ p + j + 1 by omega, show p + 1 ≤ p + j + 1 by omega,
      show ¬ p + j + 1 = p by omega]

@[simp] theorem hides_keep (t : Token) (ps : List Piece) (p k : Nat) :
    hides (keep t :: ps) p k = hides ps (p + 1) k := by
  simp [hides_cons, keep]

theorem hides_append (xs ys : List Piece) (p k : Nat) :
    hides (xs ++ ys) p k = (hides xs p k || hides ys (p + xs.length) k) := by
  induction xs generalizing p with
  | nil => simp
  | cons x xs ih =>
    rw [List.cons_append, hides_cons, hides_cons, ih, Bool.or_assoc, List.length_cons,
      show p + 1 + xs.length = p + (xs.length + 1) by omega]

theorem hides_hide (ts : List Token) (p k : Nat) :
    hides (hide ts) p k = (p ≤ k && k < p + ts.length) := by
  unfold hides hide
  by_cases hp : p ≤ k
  · simp only [hp, decide_true, Bool.true_and, List.getElem?_map]
    by_cases hk : k - p < ts.length
    · simp [hk, show k < p + ts.length by omega]
    · simp [hk, show ¬ k < p + ts.length by omega]
  · simp [hp]

theorem hides_bounds {ps : List Piece} {p k : Nat} (h : hides ps p k = true) :
    p ≤ k ∧ k < p + ps.length := by
  unfold hides at h
  simp only [Bool.and_eq_true, decide_eq_true_eq, Option.any_eq_true] at h
  obtain ⟨hp, x, hx, -⟩ := h
  have := (List.getElem?_eq_some_iff.mp hx).1
  omega

theorem hides_eq_false {ps : List Piece} {p k : Nat} (h : k < p ∨ p + ps.length ≤ k) :
    hides ps p k = false := by
  refine Bool.eq_false_iff.mpr fun ht => ?_
  have := hides_bounds ht
  omega

theorem covers_upTo {first stop : Nat} (h : first < stop) (k : Nat) :
    Erasure.covers [.upTo first stop] k = (first ≤ k && k < stop) := by
  have : (k ≤ stop - 1) = (k < stop) := by
    rw [eq_iff_iff]
    omega
  simp [Erasure.covers, Span.covers, Span.upTo, this]

theorem covers_single_upTo {first stop : Nat} (h : first + 1 < stop) (k : Nat) :
    Erasure.covers [.single first, .upTo (first + 1) stop] k = (first ≤ k && k < stop) := by
  simp only [Erasure.covers, List.any_cons, List.any_nil, Bool.or_false, Span.covers, Span.single,
    Span.upTo]
  rw [Bool.eq_iff_iff]
  simp only [Bool.or_eq_true, Bool.and_eq_true, decide_eq_true_eq]
  omega

end Retouch.Erase

namespace Retouch.Code
open Syntax Erase

variable {c : Code} {p q : Nat} {t : Token} {ts rest : List Token} {xs ys : List Piece}
  {early : Nat → Bool} {e : Erasure}

/-! ### One visit -/

/-- A visit of token `p` erases `spans` and goes on at `next`. -/
def Visits (c : Code) (e : Erasure) (p : Nat) (spans : Erasure) (next : Nat) : Prop :=
  (c.visit e p).map (fun v => (v.spans, v.next)) = some (spans, next)

theorem erasureFrom_covered (hp : p < c.size) (h : e.covers p = true) :
    c.erasureFrom e p = c.erasureFrom e (p + 1) := by
  rw [erasureFrom]
  simp [hp, h]

theorem Visits.erasureFrom {spans : Erasure} {next : Nat} (hv : c.Visits e p spans next)
    (hp : p < c.size) (h : e.covers p = false) :
    c.erasureFrom e p = c.erasureFrom (spans ++ e) next := by
  obtain ⟨v, hvisit, he⟩ := Option.map_eq_some_iff.mp hv
  cases he
  rw [Code.erasureFrom, dif_pos hp, h, hvisit]
  rfl

/-- Words that begin a statement of types. -/
def declarationWords : List String := ["export", "interface", "type", "declare"]

theorem typeStatementLast_eq_none (h : c.isName p = true → c.text p ∉ declarationWords) :
    c.typeStatementLast p = none := by
  by_cases hn : c.isName p = true
  · have ht := h hn
    have he : c.word p "export" = false := word_eq_false fun he => ht (by rw [he]; decide)
    unfold typeStatementLast declarationLast
    rw [he]
    simp only [Bool.false_eq_true, if_false]
    split
    · split <;> simp_all [declarationWords]
    · rfl
  · have hk : ¬ c.kind? p = some .keyword := fun hk => hn (by simp [isName, hk])
    simp [typeStatementLast, declarationLast, word, hn, hk]

theorem visits_statement {last : Nat} (hs : c.startsStatement p = true)
    (hl : c.typeStatementLast p = some last) (e : Erasure) :
    c.Visits e p [⟨p, last⟩] (last + 1) := by
  have hl' : (if c.startsStatement p then c.typeStatementLast p else none) = some last := by
    rw [if_pos hs, hl]
  unfold Visits visit
  split
  · rename_i last' h'
    obtain rfl : last' = last := Option.some.inj (h'.symm.trans hl')
    rfl
  · rename_i h'
    rw [hl'] at h'
    cases h'

/-- What a visit does where no statement of types begins. -/
def visitWord (c : Code) (e : Erasure) (p : Nat) : Option (Erasure × Nat) :=
  if c.isName p then
    if c.text p ∈ ["as", "satisfies"] && c.isCast p then
      some ([.upTo p (c.typeEnd (p + 1))], c.typeEnd (p + 1))
    else (c.wordSpans p).map (·, p + 1)
  else if c.kind? p = some .punctuator then some (c.punctSpans e p, p + 1)
  else some ([], p + 1)

theorem map_visit_of_not_statement
    (hl : (if c.startsStatement p then c.typeStatementLast p else none) = none) (e : Erasure) :
    (c.visit e p).map (fun v => (v.spans, v.next)) = c.visitWord e p := by
  unfold visit visitWord
  split
  · rename_i h'
    rw [hl] at h'
    cases h'
  · split
    · split
      · rfl
      · cases c.wordSpans p <;> rfl
    · split <;> rfl

theorem map_visit_of_none (h : c.typeStatementLast p = none) (e : Erasure) :
    (c.visit e p).map (fun v => (v.spans, v.next)) = c.visitWord e p :=
  map_visit_of_not_statement (by rw [h, ite_self]) e

theorem map_visit (h : c.isName p = true → c.text p ∉ declarationWords) (e : Erasure) :
    (c.visit e p).map (fun v => (v.spans, v.next)) = c.visitWord e p :=
  map_visit_of_none (typeStatementLast_eq_none h) e

/-! ### Visits without effect -/

/-- A visit of token `p` erases nothing and goes on with the next token. -/
def Quiet (c : Code) (p : Nat) : Prop := ∀ e, c.Visits e p [] (p + 1)

/-- Words that a visit may erase something for. -/
def activeWords : List String :=
  ["as", "satisfies", "abstract", "const", "let", "var", "class"] ++ declarationWords

/-- A name that begins no statement of types, casts nothing and stands before no
annotation. -/
theorem quiet_name (hn : c.isName p = true) (hs : c.typeStatementLast p = none)
    (hcast : c.text p ∈ ["as", "satisfies"] → c.isCast p = false)
    (hw : c.wordSpans p = some []) : c.Quiet p := by
  intro e
  have hno : (c.text p ∈ ["as", "satisfies"] && c.isCast p) = false := by
    simpa only [Bool.and_eq_false_imp, decide_eq_true_eq] using hcast
  rw [Visits, map_visit_of_none hs, visitWord, if_pos hn, hno, hw]
  rfl

theorem quiet_word (hn : c.isName p = true) (ht : c.text p ∉ activeWords) : c.Quiet p := by
  simp only [activeWords, List.mem_append, not_or] at ht
  have hcast : c.text p ∉ ["as", "satisfies"] := fun h => ht.1 (by simp_all)
  have hw : c.wordSpans p = some [] := by
    unfold wordSpans
    split <;> simp_all
  exact quiet_name hn (typeStatementLast_eq_none fun _ => ht.2) (fun h => absurd h hcast) hw

theorem From.quiet_plain (hf : c.From p (t :: rest)) (ht : t.IsPlain) : c.Quiet p := by
  refine quiet_word (by simp [hf.isName, ht.1]) ?_
  rw [hf.text]
  exact ht.notMem (by decide)

theorem From.quiet_keyword {s : String} (hf : c.From p (t :: rest)) (ht : t.IsKeyword s)
    (hs : s ∉ activeWords) : c.Quiet p :=
  quiet_word (by simp [hf.isName, ht.1]) (by rwa [hf.text, ht.2])

theorem From.quiet_literal (hf : c.From p (t :: rest)) (ht : t.IsLiteral) : c.Quiet p := by
  intro e
  have hn : c.isName p = false := by rcases ht with hk | hk <;> simp [hf.isName, hk]
  have hp : ¬ c.kind? p = some .punctuator := by rcases ht with hk | hk <;> simp [hf.kind?, hk]
  rw [Visits, map_visit (fun h => by simp [hn] at h), visitWord, hn, if_neg hp]
  rfl

theorem From.visits_punct {s : String} (hf : c.From p (t :: rest)) (ht : t.IsPunct s)
    (e : Erasure) : c.Visits e p (c.punctSpans e p) (p + 1) := by
  have hn : c.isName p = false := by simp [hf.isName, ht.1]
  rw [Visits, map_visit (fun h => by simp [hn] at h), visitWord, hn, hf.kind?, ht.1]
  rfl

theorem From.quiet_punct {s : String} (hf : c.From p (t :: rest)) (ht : t.IsPunct s)
    (hs : s ∉ ["!", "(", "<"]) : c.Quiet p := by
  intro e
  have hspans : c.punctSpans e p = [] := by
    unfold punctSpans
    rw [hf.text, ht.2]
    split <;> simp_all
  rw [← hspans]
  exact hf.visits_punct ht e

/-- Brackets that neither an arrow, a return type nor a body follows are a call or
a group. -/
theorem From.quiet_group {o z : Token} (hf : c.From p (o :: (ts ++ z :: rest)))
    (ho : o.IsPunct "(") (ht : Balanced ts) (hz : z.IsPunct ")")
    (hstop : c.text (p + 1 + ts.length + 1) ∉ ["=>", ":", "\x7b"]) : c.Quiet p := by
  intro e
  have hspans : c.punctSpans e p = [] := by
    have hpartner := hf.partner_closer (ho.opens .round) ht (hz.closes .round)
    unfold punctSpans
    rw [hf.text, ho.2]
    simp only [signatureSpans, hpartner]
    split <;> simp_all
  rw [← hspans]
  exact hf.visits_punct ho e

/-! ### Stretches -/

/-- The pass crosses the pieces at `p`, of which the `early` ones are erased
already, and erases exactly the hidden ones. -/
def Crosses (c : Code) (p : Nat) (ps : List Piece) (early : Nat → Bool) : Prop :=
  ∀ e : Erasure, (∀ k, p ≤ k → k < p + ps.length → e.covers k = early k) →
    ∃ e', c.erasureFrom e p = c.erasureFrom e' (p + ps.length) ∧
      ∀ k, e'.covers k = (e.covers k || hides ps p k)

theorem Crosses.nil : c.Crosses p [] early := fun e _ => ⟨e, rfl, by simp⟩

theorem Crosses.congr {other : Nat → Bool} (h : c.Crosses p xs early)
    (ho : ∀ k, p ≤ k → k < p + xs.length → other k = early k) : c.Crosses p xs other :=
  fun e he => h e fun k hp hk => (he k hp hk).trans (ho k hp hk)

theorem Crosses.append (hx : c.Crosses p xs early) (hy : c.Crosses (p + xs.length) ys early) :
    c.Crosses p (xs ++ ys) early := by
  intro e he
  rw [List.length_append] at he ⊢
  obtain ⟨e₁, h₁, hc₁⟩ := hx e fun k hp hk => he k hp (by omega)
  obtain ⟨e₂, h₂, hc₂⟩ := hy e₁ fun k hp hk => by
    rw [hc₁, hides_eq_false (Or.inr hp), Bool.or_false]
    exact he k (by omega) (by omega)
  refine ⟨e₂, by rw [h₁, h₂, Nat.add_assoc], fun k => ?_⟩
  rw [hc₂, hc₁, hides_append, Bool.or_assoc]

theorem Crosses.cons {x : Piece} (hx : c.Crosses p [x] early) (hy : c.Crosses (p + 1) ys early) :
    c.Crosses p (x :: ys) early := hx.append hy

/-- Tokens that are erased already are passed over. -/
theorem From.crosses_hidden (hf : c.From p (ts ++ rest))
    (h : ∀ k, p ≤ k → k < p + ts.length → early k = true) : c.Crosses p (hide ts) early := by
  induction ts generalizing p with
  | nil => exact .nil
  | cons t ts ih =>
    have hrest := ih hf.tail fun k hp hk => h k (by omega) (by rw [List.length_cons]; omega)
    have hfirst : c.Crosses p [⟨t, true⟩] early := by
      intro e he
      have hc : e.covers p = true := by
        rw [he p (by omega) (by simp), h p (by omega) (by simp)]
      refine ⟨e, erasureFrom_covered hf.lt_size hc, fun k => ?_⟩
      rw [hides_cons, hides_nil]
      by_cases hk : k = p
      · simp [hk, hc]
      · simp [hk]
    exact hfirst.append hrest

/-- A visit that erases `spans` and goes on behind the pieces `xs`. -/
theorem From.crosses_visit {spans : Erasure} (x : Piece) (xs ys : List Piece)
    (hf : c.From p (t :: rest)) (hp : early p = false)
    (hv : ∀ e, c.Visits e p spans (p + (x :: xs).length))
    (hy : c.Crosses (p + (x :: xs).length) ys fun k => early k || spans.covers k)
    (hs : ∀ k, (spans.covers k || hides ys (p + (x :: xs).length) k) = hides (x :: xs ++ ys) p k) :
    c.Crosses p (x :: xs ++ ys) early := by
  intro e he
  rw [List.length_append] at he ⊢
  have h₀ : e.covers p = false := by rw [he p (by omega) (by rw [List.length_cons]; omega), hp]
  obtain ⟨e₁, h₁, hc₁⟩ := hy (spans ++ e) fun k hk hk' => by
    rw [Erasure.covers_append, he k (by omega) (by omega), Bool.or_comm]
  refine ⟨e₁, by rw [(hv e).erasureFrom hf.lt_size h₀, h₁, Nat.add_assoc], fun k => ?_⟩
  rw [hc₁, Erasure.covers_append, ← hs, Bool.or_comm (spans.covers k), Bool.or_assoc]

theorem From.crosses_keep (hf : c.From p (t :: rest)) (hp : early p = false) (hq : c.Quiet p) :
    c.Crosses p [keep t] early :=
  hf.crosses_visit (keep t) [] [] hp hq .nil (by simp)

/-! ### Import and export clauses -/

/-- Every list of specifiers that opens before `p` is closed before `p`. -/
def Clear (c : Code) (p : Nat) : Prop :=
  ∀ o close, o < p → c.opensClause o = true → c.partner o = some close → close < p

theorem opensClause_eq_false (h : c.text p ≠ "\x7b") : c.opensClause p = false := by
  simp [opensClause, punct_eq_false h]

theorem Clear.succ (h : c.Clear p) (ho : c.opensClause p = false) : c.Clear (p + 1) := by
  intro o close hlt hopen hp
  by_cases he : o = p
  · rw [he, ho] at hopen
    cases hopen
  · have := h o close (by omega) hopen hp
    omega

theorem Clear.append (h : c.Clear p) (hf : c.From p (ts ++ rest)) (hb : Balanced ts) :
    c.Clear (p + ts.length) := by
  intro o close hlt hopen hp
  by_cases ho : o < p
  · have := h o close ho hopen hp
    omega
  · exact hf.partner_lt hb (by omega) hlt hp

theorem Clear.cons (h : c.Clear p) (hf : c.From p (t :: rest)) (hb : Balanced [t]) :
    c.Clear (p + 1) := h.append hf hb

theorem Clear.punct {s : String} (h : c.Clear p) (hf : c.From p (t :: rest)) (ht : t.IsPunct s)
    (hs : s ≠ "\x7b") : c.Clear (p + 1) :=
  h.succ (opensClause_eq_false (by rwa [hf.text, ht.2]))

theorem Clear.inClause (h : c.Clear p) (hp : c.text p ≠ "\x7b") : c.inClause p = false := by
  refine Bool.eq_false_iff.mpr fun hc => ?_
  simp only [Code.inClause, List.any_eq_true, List.mem_range, Bool.and_eq_true,
    Option.any_eq_true, decide_eq_true_eq] at hc
  obtain ⟨o, ho, hopen, close, hclose, hle⟩ := hc
  by_cases he : o = p
  · rw [he, opensClause_eq_false hp] at hopen
    cases hopen
  · have := h o close (by omega) hopen hclose
    omega

/-! ### What the scanner says -/

/-- Code whose tokens have the kinds that scanning gives them. -/
structure Lexed (c : Code) : Prop where
  spelled : ∀ {i : Nat} {t : Token}, c.tokens[i]? = some t → t.kind.IsSpelled →
    t.text ∉ listMarks
  keyword : ∀ {i : Nat} {t u : Token}, c.tokens[i]? = some t → c.tokens[i + 1]? = some u →
    t.IsWord "type" → u.kind = .identifier → i = 0 ∨ c.text (i - 1) ∉ [".", "?."] →
    t.kind = .keyword

theorem lexed_tokenize (source : String) :
    (Code.ofTokens (significant (tokenize .ts source))).Lexed where
  spelled {i t} ht hk := by
    have hm : t ∈ significant (tokenize .ts source) :=
      List.mem_of_getElem? (by simpa [Code.ofTokens] using ht)
    exact tokenize_spelled (List.mem_of_mem_filter hm) hk
  keyword {i t u} ht hu hw hk hb := by
    simp only [Code.ofTokens, List.getElem?_toArray] at ht hu
    refine tokenize_keyword ht hu hw.1 (by rw [hw.2]; decide)
      (by simp [continuesClause, Token.lexeme, hk]) ?_
    rcases hb with hb | hb
    · exact Or.inl hb
    · have hi : i - 1 < (significant (tokenize .ts source)).length := by
        have := (List.getElem?_eq_some_iff.mp ht).1
        omega
      refine Or.inr ⟨_, List.getElem?_eq_getElem hi, ?_⟩
      simpa [Code.ofTokens, Code.text, hi] using hb

theorem From.notMem_listMarks (hf : c.From p (t :: rest)) (hlex : c.Lexed)
    (hk : t.kind.IsSpelled) : c.text p ∉ listMarks := by
  rw [hf.text]
  exact hlex.spelled hf.getElem? hk

/-! ### Visits that erase -/

theorem From.endsExpression (hf : c.From p (t :: rest)) (ht : EndsExpression t) :
    c.endsExpression p = true := by
  rcases ht with hk | (hk | hk) | ⟨hk, ht⟩
  · simp [Code.endsExpression, hf.kind?, hk]
  · simp [Code.endsExpression, hf.kind?, hk]
  · simp [Code.endsExpression, hf.kind?, hk]
  · simp [Code.endsExpression, hf.kind?, hf.text, hk, ht]

/-- A visit that erases a stretch at once and goes on behind it. -/
theorem From.crosses_jump (spans : Erasure) (hf : c.From p (t :: (ts ++ rest)))
    (hp : early p = false) (hv : ∀ e, c.Visits e p spans (p + 1 + ts.length))
    (hs : ∀ k, spans.covers k = (p ≤ k && k < p + 1 + ts.length)) :
    c.Crosses p (hide (t :: ts)) early := by
  have hlen : p + (hide (t :: ts)).length = p + 1 + ts.length := by simp; omega
  have h := hf.crosses_visit ⟨t, true⟩ (hide ts) [] hp (fun e => hlen ▸ hv e) .nil fun k => by
    have hh := hides_hide (t :: ts) p k
    rw [List.length_cons, show p + (ts.length + 1) = p + 1 + ts.length by omega] at hh
    rw [hs, hides_nil, Bool.or_false, List.append_nil, ← hh]
    rfl
  rwa [List.append_nil] at h

/-- A cast goes together with its type. -/
theorem From.crosses_cast {a : Token} {s : String} (hf : c.From p (a :: (ts ++ rest)))
    (ha : a.IsWord s) (hs : s ∈ ["as", "satisfies"]) (htype : c.typeEnd (p + 1) = p + 1 + ts.length)
    (hlen : 0 < ts.length) (hclear : c.Clear p) (h0 : 0 < p)
    (hend : c.endsExpression (p - 1) = true) (hp : early p = false) :
    c.Crosses p (hide (a :: ts)) early := by
  have hn : c.isName p = true := by rcases ha.1 with hk | hk <;> simp [hf.isName, hk]
  have hwords : ∀ s ∈ ["as", "satisfies"], s ∉ "\x7b" :: declarationWords := by decide
  have htext : c.text p ∉ "\x7b" :: declarationWords := by
    rw [hf.text, ha.2]
    exact hwords s hs
  rw [List.mem_cons, not_or] at htext
  have hcast : c.isCast p = true := by
    simp [isCast, h0, hclear.inClause htext.1, hend, htype, hlen]
  have hmem : c.text p ∈ ["as", "satisfies"] := by rwa [hf.text, ha.2]
  refine hf.crosses_jump [.upTo p (p + 1 + ts.length)] hp (fun e => ?_)
    fun k => covers_upTo (by omega) k
  rw [Visits, map_visit (fun _ => htext.2), visitWord, if_pos hn, if_pos (by simp [hcast, hmem]),
    htype]

/-- A statement of types goes as a whole. -/
theorem From.crosses_statement (hf : c.From p (t :: (ts ++ rest)))
    (hs : c.startsStatement p = true) (hl : c.typeStatementLast p = some (p + ts.length))
    (hp : early p = false) : c.Crosses p (hide (t :: ts)) early := by
  refine hf.crosses_jump [⟨p, p + ts.length⟩] hp (fun e => ?_) fun k => ?_
  · rw [show p + 1 + ts.length = p + ts.length + 1 by omega]
    exact visits_statement hs hl e
  · have : (k ≤ p + ts.length) = (k < p + 1 + ts.length) := by
      rw [eq_iff_iff]
      omega
    simp [Erasure.covers, Span.covers, this]

/-- An annotated binding loses its annotation. -/
theorem From.crosses_binding {k x d : Token} (hf : c.From p (k :: x :: d :: (ts ++ rest)))
    (hlex : c.Lexed) (hk : k.IsKeyword "const" ∨ k.IsKeyword "let") (hx : x.IsPlain)
    (hd : d.IsPunct ":") (ht : IsType .whole 0 ts)
    (hstop : c.text (p + 3 + ts.length) ∉ typeJoints) :
    c.Crosses p (keep k :: keep x :: hide (d :: ts)) fun _ => false := by
  have hspans : c.declaratorSpans p = [.upTo (p + 2) (p + 3 + ts.length)] := by
    have hcolon : c.punct (p + 2) ":" = true := by simp [hf.tail.tail.punct, hd.1, hd.2]
    have hbang : c.punct (p + 2) "!" = false := by simp [hf.tail.tail.punct, hd.2]
    have hlast : c.bindingLast (p + 1) = some (p + 1) := by
      have hmark := hf.tail.notMem_listMarks hlex (Or.inl hx.1)
      simp only [listMarks, List.mem_cons, List.not_mem_nil, or_false, not_or] at hmark
      simp [bindingLast, hmark, hf.tail.kind?, hx.1]
    simp [declaratorSpans, hlast, hbang, hcolon, hf.tail.tail.tail.typeEnd ht hstop]
  have hv : ∀ e, c.Visits e p [.upTo (p + 2) (p + 3 + ts.length)] (p + 1) := by
    intro e
    rcases hk with hk | hk
    all_goals
      have hw : c.wordSpans p = some [.upTo (p + 2) (p + 3 + ts.length)] := by
        simp [wordSpans, hf.kind?, hf.text, hk.1, hk.2, hspans]
      rw [Visits, map_visit (fun _ => by rw [hf.text, hk.2]; decide), visitWord, hf.isName, hk.1,
        hf.text, hk.2, hw]
      rfl
  have hcov := fun k => covers_upTo (show p + 2 < p + 3 + ts.length by omega) k
  refine hf.crosses_visit (keep k) [] (keep x :: hide (d :: ts)) rfl hv ?_ fun k => ?_
  · refine Crosses.append (hf.tail.crosses_keep ?_ (hf.tail.quiet_plain hx)) ?_
    · simp [hcov]
    · refine hf.tail.tail.crosses_hidden fun k hk hk' => ?_
      simp only [List.length_cons, List.length_nil] at hk hk'
      simp [hcov, show p + 2 ≤ k by omega, show k < p + 3 + ts.length by omega]
  · simp only [hcov, List.singleton_append, List.length_cons, List.length_nil, hides_keep,
      hides_hide]
    rw [Bool.eq_iff_iff]
    simp only [Bool.or_eq_true, Bool.and_eq_true, decide_eq_true_eq]
    omega

/-- Type parameters between a name and a parameter list go. -/
theorem From.crosses_generics {f o z : Token} (hf : c.From p (f :: o :: (ts ++ z :: rest)))
    (hk : f.kind = .identifier) (ho : o.IsPunct "<") (hg : Scanned 1 ts) (hz : z.IsPunct "(")
    (hp : early (p + 1) = false) : c.Crosses (p + 1) (hide (o :: ts)) early := by
  have hend : c.angleEnd (p + 1) = some (p + 2 + ts.length) := hf.tail.angleEnd ho hg
  have hparen : c.punct (p + 2 + ts.length) "(" = true := by
    rw [hf.tail.tail.append.punct]
    simp [hz.1, hz.2]
  have hcov := fun k => covers_upTo (show p + 1 < p + 2 + ts.length by omega) k
  have hv : ∀ e, c.Visits e (p + 1) [.upTo (p + 1) (p + 2 + ts.length)] (p + 1 + 1) := by
    intro e
    have hspans : c.punctSpans e (p + 1) = [.upTo (p + 1) (p + 2 + ts.length)] := by
      simp [punctSpans, hf.tail.text, ho.2, typeArgumentSpans, hf.kind?, hk, hend, hparen]
    rw [← hspans]
    exact hf.tail.visits_punct ho e
  have hrest : c.Crosses (p + 1 + 1) (hide ts) fun k =>
      early k || Erasure.covers [.upTo (p + 1) (p + 2 + ts.length)] k :=
    hf.tail.tail.crosses_hidden fun k hk hk' => by
      rw [hcov]
      simp [show p + 1 ≤ k by omega, show k < p + 2 + ts.length by omega]
  refine hf.tail.crosses_visit ⟨o, true⟩ [] (hide ts) hp hv hrest fun k => ?_
  have hh := hides_hide (o :: ts) (p + 1) k
  rw [List.length_cons, show p + 1 + (ts.length + 1) = p + 2 + ts.length by omega] at hh
  have hh' : hides ([⟨o, true⟩] ++ hide ts) (p + 1) k = hides (hide (o :: ts)) (p + 1) k := rfl
  rw [hcov, hh', hh, hides_hide]
  simp only [List.length_cons, List.length_nil]
  rw [Bool.eq_iff_iff]
  simp only [Bool.or_eq_true, Bool.and_eq_true, decide_eq_true_eq]
  omega

/-! ### Declarations of types and of functions -/

section
variable {k x o z d b : Token} {us : List Token}

theorem From.typeStatementLast_synonym {a s : Token}
    (hf : c.From p (k :: x :: a :: (ts ++ s :: rest))) (hk : k.IsKeyword "type")
    (hx : x.kind = .identifier) (ha : a.IsPunct "=")
    (ht : IsType .whole 0 ts) (hs : s.IsPunct ";") :
    c.typeStatementLast p = some (p + 3 + ts.length) := by
  have hend := hf.tail.tail.tail.append
  have htype := hf.tail.tail.tail.typeEnd ht (by rw [hend.text, hs.2]; decide)
  have hlast : c.statementLast (p + 3 + ts.length) = p + 3 + ts.length := by
    rw [statementLast, hend.punct, if_pos (by simp [hs.1, hs.2])]
  simp [typeStatementLast, declarationLast, aliasLast, hf.word, hf.kind?, hf.text, hk.1, hk.2,
    hf.tail.kind?, hx, hf.tail.tail.punct, ha.1, ha.2, htype, hlast]

theorem From.typeStatementLast_interface (hf : c.From p (k :: x :: o :: (ts ++ z :: rest)))
    (hk : k.IsKeyword "interface") (hx : x.kind = .identifier) (ho : o.IsPunct "\x7b")
    (ht : Balanced ts) (hz : z.IsPunct "\x7d") :
    c.typeStatementLast p = some (p + 3 + ts.length) := by
  have hbrace : c.findPunct (p + 2) "\x7b" = some (p + 2) := by
    rw [findPunct, dif_pos hf.tail.tail.lt_size, hf.tail.tail.punct,
      if_pos (by simp [ho.1, ho.2])]
  have hpartner := hf.tail.tail.partner_closer (ho.opens .curly) ht (hz.closes .curly)
  simp [typeStatementLast, declarationLast, hf.word, hf.kind?, hf.text, hk.1, hk.2, hf.tail.kind?,
    hx, hbrace, hpartner]

/-- The last kept token, past a stretch that is erased. -/
theorem lastKept_eq {j n : Nat} (hj : j < n) (hfree : e.covers j = false)
    (hcov : ∀ i, j < i → i < n → e.covers i = true) : lastKept e n = some j := by
  induction n with
  | zero => omega
  | succ n ih =>
    rw [lastKept]
    by_cases he : j = n
    · rw [← he, hfree]
      rfl
    · rw [hcov n (by omega) (by omega), if_pos rfl]
      exact ih (by omega) fun i hi hi' => hcov i hi (by omega)

/-- The parameter list of a function with a return type and a body. -/
theorem From.visits_signature (hf : c.From p (o :: (us ++ z :: d :: (ts ++ b :: rest))))
    (ho : o.IsPunct "(") (hu : Balanced us) (hz : z.IsPunct ")") (hd : d.IsPunct ":")
    (ht : IsType .whole 0 ts) (hb : b.IsPunct "\x7b") (hfun : c.declaresFunction e p = true) :
    c.Visits e p (c.parameterSpans (p + 1 + us.length) (p + 1) .front ++
      [.upTo (p + 1 + us.length + 1) (p + 1 + us.length + 2 + ts.length)]) (p + 1) := by
  have hcolon := hf.tail.append.tail
  have hbrace := hcolon.tail.append
  have hpartner := hf.partner_closer (ho.opens .round) hu (hz.closes .round)
  have htype : c.typeEnd (p + 1 + us.length + 2) = p + 1 + us.length + 2 + ts.length :=
    hcolon.tail.typeEnd ht (by rw [hbrace.text, hb.2]; decide)
  have hopen : c.punct (p + 1 + us.length + 2 + ts.length) "\x7b" = true := by
    rw [hbrace.punct]
    simp [hb.1, hb.2]
  have hspans : c.punctSpans e p = c.parameterSpans (p + 1 + us.length) (p + 1) .front ++
      [.upTo (p + 1 + us.length + 1) (p + 1 + us.length + 2 + ts.length)] := by
    simp [punctSpans, hf.text, ho.2, signatureSpans, hpartner, hcolon.text, hd.2, htype, hopen,
      hfun]
  rw [← hspans]
  exact hf.visits_punct ho e

/-- Braces behind a type hold no specifiers. -/
theorem From.opensClause_eq_false (hf : c.From p (t :: rest)) (ht : t.EndsType) :
    c.opensClause (p + 1) = false := by
  have hword : ∀ s ∈ ["import", "export", "type"], c.word p s = false := by
    intro s hs
    have hn := ht.2 s hs
    rw [hf.word]
    refine Bool.eq_false_iff.mpr fun h => hn ?_
    simpa [Token.IsWord] using h
  have hcomma : c.punct p "," = false := by
    rw [hf.punct]
    refine Bool.eq_false_iff.mpr fun h => ht.1 ?_
    simpa [Token.IsPunct] using h
  simp [opensClause, hcomma, hword]

end

/-! ### Parameter lists, token by token -/

section
variable {close i : Nat} {state : ParameterState}

theorem parameterSpans_close : c.parameterSpans close close state = [] := by
  rw [parameterSpans.eq_def, dif_neg (Nat.lt_irrefl close)]

theorem parameterSpans_front (hi : i < close) (ht : c.text i ∉ "this" :: modifiers) :
    c.parameterSpans close i .front = c.parameterSpans close i .name := by
  simp only [List.mem_cons, not_or] at ht
  have hm : c.modifiersEnd i = i := by
    rw [modifiersEnd]
    simp [ht.2]
  rw [parameterSpans.eq_def, dif_pos hi]
  simp [hm, word_eq_false ht.1]

theorem parameterSpans_skip (hi : i < close) (hs : state ≠ .front) (ht : c.text i ∉ listMarks) :
    c.parameterSpans close i state = c.parameterSpans close (i + 1) state := by
  rw [parameterSpans.eq_def, dif_pos hi]
  cases state with
  | front => exact absurd rfl hs
  | name => dsimp only; split <;> simp_all [listMarks]
  | default => dsimp only; split <;> simp_all [listMarks]

theorem parameterSpans_group {z : Nat} (hi : i < close) (hs : state ≠ .front)
    (ht : c.text i ∈ ["(", "[", "\x7b"]) (hp : c.partner i = some z) :
    c.parameterSpans close i state = c.parameterSpans close (z + 1) state := by
  simp only [List.mem_cons, List.not_mem_nil, or_false] at ht
  rw [parameterSpans.eq_def, dif_pos hi]
  cases state with
  | front => exact absurd rfl hs
  | name => rcases ht with ht | ht | ht <;> simp [ht, afterGroup, hp]
  | default => rcases ht with ht | ht | ht <;> simp [ht, afterGroup, hp]

theorem parameterSpans_comma (hi : i < close) (hs : state ≠ .front) (ht : c.text i = ",") :
    c.parameterSpans close i state = c.parameterSpans close (i + 1) .front := by
  rw [parameterSpans.eq_def, dif_pos hi]
  cases state with
  | front => exact absurd rfl hs
  | name => simp [ht]
  | default => simp [ht]

theorem parameterSpans_equals (hi : i < close) (hs : state ≠ .front) (ht : c.text i = "=") :
    c.parameterSpans close i state = c.parameterSpans close (i + 1) .default := by
  rw [parameterSpans.eq_def, dif_pos hi]
  cases state with
  | front => exact absurd rfl hs
  | name => simp [ht]
  | default => simp [ht]

theorem parameterSpans_question (hi : i < close) (ht : c.text i = "?")
    (hn : c.text (i + 1) = ":") :
    c.parameterSpans close i .name = .single i :: c.parameterSpans close (i + 1) .name := by
  rw [parameterSpans.eq_def, dif_pos hi]
  simp [ht, hn]

theorem parameterSpans_colon (hi : i < close) (ht : c.text i = ":") :
    c.parameterSpans close i .name = .upTo i (c.typeEnd (i + 1)) ::
      c.parameterSpans close (c.typeEnd (i + 1)) .name := by
  rw [parameterSpans.eq_def, dif_pos hi]
  simp [ht]

/-- The name of a parameter. -/
theorem From.parameterSpans_name (hf : c.From p (t :: rest)) (ht : t.IsPlain) (hlex : c.Lexed)
    (hp : p < close) :
    c.parameterSpans close p .front = c.parameterSpans close (p + 1) .name := by
  have hmark := hf.notMem_listMarks hlex (Or.inl ht.1)
  have hword : c.text p ∉ "this" :: modifiers := by
    rw [hf.text]
    exact ht.notMem (by decide)
  rw [parameterSpans_front hp hword, parameterSpans_skip hp (by decide) hmark]

end

end Retouch.Code
