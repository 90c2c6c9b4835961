import Mathlib.Logic.Basic
import Retouch.Proofs.Extent
import Retouch.Proofs.Spelling

/-! Texts that differ in some of their names are scanned in lockstep. `Drift` relates
two such texts; each step of the scanner takes the same from both, or a name from
one and the other name from the other, and leaves texts that drift again. The scan
as a whole follows by its own induction. -/

namespace Retouch.Syntax
open Retouch.Text

theorem beq_of_isNameStart {c d : Char} (hc : isNameStart c = true) (hd : isNameStart d = false) :
    (c == d) = false := by
  refine beq_eq_false_iff_ne.mpr ?_
  rintro rfl
  simp [hc] at hd

/-! ### Texts that differ in names -/

/-- The characters of a name that is no reserved word. -/
structure IsFreeWord (w : List Char) : Prop where
  start : w.head?.any isNameStart = true
  chars : ∀ c ∈ w, isNameChar c = true
  free : String.ofList w ∉ reserved

theorem IsFreeWord.eq_cons {w : List Char} (h : IsFreeWord w) :
    ∃ c r, w = c :: r ∧ isNameStart c = true := by
  cases w with
  | nil => exact absurd h.start (by simp)
  | cons c r => exact ⟨c, r, rfl, by simpa using h.start⟩

/-- Two texts that differ in names only. The flag tells that the character before
could begin a name, so that no other name begins here. A name ends where no
character continues it. -/
inductive Drift : Bool → List Char → List Char → Prop
  | nil (b : Bool) : Drift b [] []
  | keep {b : Bool} {c : Char} {r r' : List Char} :
      Drift (isNameStart c) r r' → Drift b (c :: r) (c :: r')
  | rename {w w' r r' : List Char} : IsFreeWord w → IsFreeWord w' →
      r.head?.any isNameChar = false → Drift true r r' → Drift false (w ++ r) (w' ++ r')

namespace Drift
variable {b : Bool} {x x' : List Char}

theorem refl (b : Bool) (x : List Char) : Drift b x x := by
  induction x generalizing b with
  | nil => exact .nil b
  | cons c x ih => exact .keep (ih _)

theorem head_eq (h : Drift true x x') : x'.head? = x.head? := by
  cases h <;> rfl

/-- The first characters are the same, or both begin a name. -/
theorem heads (h : Drift b x x') : x'.head? = x.head? ∨
    ∃ c r c' r', x = c :: r ∧ x' = c' :: r' ∧ isNameStart c = true ∧ isNameStart c' = true := by
  cases h with
  | nil | keep => exact .inl rfl
  | rename hw hw' =>
    obtain ⟨c, w, rfl, hc⟩ := hw.eq_cons
    obtain ⟨c', w', rfl, hc'⟩ := hw'.eq_cons
    exact .inr ⟨c, _, c', _, rfl, rfl, hc, hc'⟩

theorem head_any (h : Drift b x x') {p : Char → Bool}
    (hp : ∀ c, isNameStart c = true → p c = false) : x'.head?.any p = x.head?.any p := by
  rcases h.heads with he | ⟨c, r, c', r', rfl, rfl, hc, hc'⟩
  · rw [he]
  · simp [hp c hc, hp c' hc']

theorem head_of_not_start (h : Drift b x x') {d : Char} (hx : x.head? = some d)
    (hd : isNameStart d = false) : x'.head? = some d := by
  rcases h.heads with he | ⟨c, r, c', r', rfl, rfl, hc, hc'⟩
  · rw [he, hx]
  · obtain rfl : c = d := by simpa using hx
    simp [hc] at hd

theorem eq_nil (h : Drift b [] x') : x' = [] := by
  rcases h.heads with he | ⟨c, r, c', r', hx, -⟩
  · exact List.head?_eq_none_iff.mp he
  · cases hx

/-- Behind the same text the drift goes on. -/
theorem keeps (t : List Char) (h : Drift (t.getLast?.elim b isNameStart) x x') :
    Drift b (t ++ x) (t ++ x') := by
  induction t generalizing b with
  | nil => exact h
  | cons c t ih =>
    refine .keep (ih ?_)
    rw [List.getLast?_cons] at h
    cases ht : t.getLast? <;> simpa [ht] using h

theorem weaken (h : Drift true x x') : Drift b x x' := by
  cases h with
  | nil => exact .nil b
  | keep h => exact .keep h

/-- A mark without letters is at the front of both texts or of neither. -/
theorem isPrefixOf_eq {m : List Char} (hm : m.any isNameStart = false) (h : Drift b x x') :
    m.isPrefixOf x' = m.isPrefixOf x := by
  induction m generalizing b x x' with
  | nil => simp
  | cons c m ih =>
    obtain ⟨hc, hm⟩ := Bool.or_eq_false_iff.mp hm
    cases h with
    | nil => rfl
    | @keep b d r r' h => simp only [List.isPrefixOf, ih hm h]
    | rename hw hw' =>
      obtain ⟨d, w, rfl, hd⟩ := hw.eq_cons
      obtain ⟨d', w', rfl, hd'⟩ := hw'.eq_cons
      simp [List.isPrefixOf, BEq.comm (a := c), beq_of_isNameStart hd hc,
        beq_of_isNameStart hd' hc]

/-- A word and one more character, where no other name begins. -/
theorem isPrefixOf_word {m : List Char} {e : Char} (hm : m.all isNameStart = true)
    (h : Drift true x x') : (m ++ [e]).isPrefixOf x' = (m ++ [e]).isPrefixOf x := by
  induction m generalizing x x' with
  | nil =>
    cases h with
    | nil => rfl
    | keep h => simp [List.isPrefixOf]
  | cons c m ih =>
    obtain ⟨hc, hm⟩ := Bool.and_eq_true_iff.mp hm
    cases h with
    | nil => rfl
    | @keep b d r r' h =>
      simp only [List.cons_append, List.isPrefixOf]
      by_cases hcd : c = d
      · subst hcd
        rw [hc] at h
        rw [ih hm h]
      · rw [beq_eq_false_iff_ne.mpr hcd, Bool.false_and, Bool.false_and]

/-- A run that stops at the end of a common text stops there in both. -/
theorem stops (h : Drift b x x') {p : Char → Bool}
    (hp : (∀ c, isNameStart c = true → p c = true) ∨ ∀ c, isNameStart c = true → p c = false)
    (hx : x.head?.any p = false) : x'.head?.any p = false := by
  rcases hp with hp | hp
  · rcases h.heads with he | ⟨c, r, c', r', rfl, rfl, hc, hc'⟩
    · rw [he, hx]
    · simp [hp c hc] at hx
  · rw [h.head_any hp, hx]

theorem of_cons {c : Char} {r : List Char} (h : Drift b (c :: r) x') (hc : isNameStart c = false) :
    ∃ r', x' = c :: r' ∧ Drift false r r' := by
  generalize hx : c :: r = x at h
  cases h with
  | nil => cases hx
  | keep h =>
    obtain ⟨rfl, rfl⟩ := List.cons.inj hx
    exact ⟨_, rfl, hc ▸ h⟩
  | rename hw =>
    obtain ⟨d, w, rfl, hd⟩ := hw.eq_cons
    obtain ⟨rfl, -⟩ := List.cons.inj hx
    simp [hc] at hd

/-! ### Looking past names -/

/-- What a run of characters is followed by, if the run takes names whole or stops
before them. -/
theorem dropWhile (h : Drift b x x') {p : Char → Bool}
    (hp : (∀ c, isNameChar c = true → p c = true) ∨ ∀ c, isNameStart c = true → p c = false) :
    ∃ b', Drift b' (x.dropWhile p) (x'.dropWhile p) := by
  induction h with
  | nil b => exact ⟨b, .nil b⟩
  | @keep b c r r' h ih =>
    rw [List.dropWhile_cons, List.dropWhile_cons]
    split
    · exact ih
    · exact ⟨b, .keep h⟩
  | rename hw hw' hr h ih =>
    rcases hp with hp | hp
    · rw [List.dropWhile_append_of_pos fun c hc => hp c (hw.chars c hc),
        List.dropWhile_append_of_pos fun c hc => hp c (hw'.chars c hc)]
      exact ih
    · have hself : ∀ {w r : List Char}, IsFreeWord w → (w ++ r).dropWhile p = w ++ r := by
        intro w r hw
        obtain ⟨c, w, rfl, hc⟩ := hw.eq_cons
        rw [List.cons_append, List.dropWhile_cons, hp c hc]
        rfl
      rw [hself hw, hself hw']
      exact ⟨false, .rename hw hw' hr h⟩

theorem trimStart (h : Drift b x x') : ∃ b', Drift b' (Text.trimStart x) (Text.trimStart x') :=
  h.dropWhile (.inr fun _ => isBlank_of_isNameStart)

end Drift

/-- A whole word that is not reserved is not the one that bounds a type parameter. -/
theorem IsFreeWord.not_extends {w r : List Char} (hw : IsFreeWord w)
    (hr : r.head?.any isNameChar = false) : "extends ".toList.isPrefixOf (w ++ r) = false := by
  refine Bool.eq_false_iff.mpr fun hp => ?_
  obtain ⟨z, hz⟩ := List.isPrefixOf_iff_prefix.mp hp
  have htake : ∀ {u v : List Char}, u.all isNameChar = true →
      v.head?.any isNameChar = false → (u ++ v).take (run isNameChar (u ++ v)) = u := by
    intro u v hu hv
    rw [run_append_eq.mpr ⟨List.all_eq_true.mp hu, hv⟩, List.take_left]
  have hword : w = "extends".toList := by
    rw [← htake (List.all_eq_true.mpr hw.chars) hr, ← hz]
    exact htake (u := "extends".toList) (v := ' ' :: z) (by decide)
      (show isNameChar ' ' = false by decide)
  have hfree := hw.free
  rw [hword] at hfree
  revert hfree
  decide

namespace Drift
variable {b : Bool} {x x' : List Char}

theorem isPrefixOf_extends (h : Drift b x x') :
    "extends ".toList.isPrefixOf x' = "extends ".toList.isPrefixOf x := by
  cases h with
  | nil => rfl
  | rename hw hw' hr h =>
    rw [hw.not_extends hr, hw'.not_extends (by rw [h.head_eq, hr])]
  | @keep b c r r' h =>
    have he : "extends ".toList = 'e' :: ("xtends".toList ++ [' ']) := rfl
    rw [he, List.isPrefixOf, List.isPrefixOf]
    by_cases hc : 'e' = c
    · subst hc
      rw [isPrefixOf_word (by decide) (show Drift true r r' from h)]
    · rw [beq_eq_false_iff_ne.mpr hc, Bool.false_and, Bool.false_and]

theorem elementBegins {before before' : Option Lexeme}
    (hb : expressionMayBegin before' = expressionMayBegin before) (h : Drift b x x') :
    Syntax.elementBegins before' x' = Syntax.elementBegins before x := by
  obtain ⟨b₁, h₁⟩ := h.dropWhile (p := isTagNameChar) (.inl fun c hc => by simp [isTagNameChar, hc])
  obtain ⟨b₂, h₂⟩ := h₁.trimStart
  have hcomma := h₂.isPrefixOf_eq (m := [',']) (by decide)
  unfold Syntax.elementBegins
  rw [hb]
  rcases h.heads with he | ⟨c, r, c', r', rfl, rfl, hc, hc'⟩
  · cases x with
    | nil => rw [h.eq_nil]
    | cons f r =>
      obtain ⟨r', rfl⟩ := List.head?_eq_some_iff.mp he
      simp only [hcomma, h₂.isPrefixOf_extends]
  · simp only [beq_of_isNameStart hc (d := '>') rfl, beq_of_isNameStart hc' (d := '>') rfl, hc, hc',
      hcomma, h₂.isPrefixOf_extends]

end Drift

/-- Whether an optional chain stands before a digit, without the match. -/
def chainBeforeDigit (x : List Char) : Bool :=
  ['?', '.'].isPrefixOf x && (x.drop 2).head?.any isDigit

theorem operatorAt_eq (x : List Char) :
    operatorAt x = operators.find? fun op =>
      op.toList.isPrefixOf x && !(chainBeforeDigit x && op == "?.") := by
  unfold operatorAt chainBeforeDigit
  dsimp only
  split
  · simp [List.isPrefixOf]
  · rename_i h
    have hchain : (['?', '.'].isPrefixOf x && (x.drop 2).head?.any isDigit) = false := by
      rcases x with _ | ⟨a, _ | ⟨b, _ | ⟨d, r⟩⟩⟩ <;> simp [List.isPrefixOf]
      rintro rfl rfl
      exact (h d r rfl).elim
    rw [hchain]

/-- The operator at the front depends on which operators the text begins with, and behind
an optional chain on whether a digit follows. -/
theorem operatorAt_congr {x x' : List Char}
    (hp : ∀ op ∈ operators, op.toList.isPrefixOf x' = op.toList.isPrefixOf x)
    (hd : ∀ y, x = '?' :: '.' :: y →
      ∃ y', x' = '?' :: '.' :: y' ∧ y'.head?.any isDigit = y.head?.any isDigit) :
    operatorAt x' = operatorAt x := by
  have hchain : chainBeforeDigit x' = chainBeforeDigit x := by
    have hmark : ['?', '.'].isPrefixOf x' = ['?', '.'].isPrefixOf x := hp "?." (by decide)
    rw [chainBeforeDigit, chainBeforeDigit, hmark]
    cases hx : ['?', '.'].isPrefixOf x with
    | false => rfl
    | true =>
      obtain ⟨y, rfl⟩ := List.isPrefixOf_iff_prefix.mp hx
      obtain ⟨y', rfl, hy⟩ := hd y rfl
      exact hy
  rw [operatorAt_eq, operatorAt_eq, hchain, ← List.head?_filter, ← List.head?_filter]
  exact congrArg List.head? (List.filter_congr fun op hop => by rw [hp op hop])

theorem operators_no_letters :
    ∀ op ∈ operators, op.toList.any isNameStart = false := by
  decide

theorem exponent_eq_zero_iff (e s : Char) (r : List Char) :
    exponent (e :: s :: r) = 0 ↔
      ((e == 'e' || e == 'E') && ((s == '+' || s == '-') && r.head?.any isDigit || isDigit s)) =
        false := by
  rw [exponent_cons_cons]
  split
  · rename_i hc
    simp [hc]
  · rename_i hc
    simp only [Bool.eq_false_iff.mpr hc]

namespace Drift
variable {b : Bool} {x x' : List Char}

theorem operatorAt (h : Drift b x x') : Syntax.operatorAt x' = Syntax.operatorAt x := by
  refine operatorAt_congr (fun op hop => h.isPrefixOf_eq (operators_no_letters op hop)) ?_
  rintro y rfl
  obtain ⟨_, rfl, h₁⟩ := h.of_cons (by decide)
  obtain ⟨y', rfl, h₂⟩ := h₁.of_cons (by decide)
  exact ⟨y', rfl, h₂.head_any fun _ => isDigit_of_isNameStart⟩

/-- No exponent begins in one text that does not begin in the other. -/
theorem exponent (h : Drift true x x') (hx : Syntax.exponent x = 0) : Syntax.exponent x' = 0 := by
  cases h with
  | nil => exact hx
  | @keep _ e r r' h =>
    cases r with
    | nil => rw [h.eq_nil]; rfl
    | cons s r =>
      rw [exponent_eq_zero_iff] at hx
      generalize hr : s :: r = t at h
      generalize isNameStart e = b at h
      cases h with
      | nil => cases hr
      | keep h =>
        obtain ⟨rfl, rfl⟩ := List.cons.inj hr
        rw [exponent_eq_zero_iff, h.head_any fun _ => isDigit_of_isNameStart, hx]
      | rename hw hw' =>
        obtain ⟨s', w, rfl, hs'⟩ := hw'.eq_cons
        rw [List.cons_append, exponent_eq_zero_iff, beq_of_isNameStart hs' rfl,
          beq_of_isNameStart hs' rfl, isDigit_of_isNameStart hs']
        simp

end Drift

/-! ### One lexeme -/

/-- Whether no name can begin right after a lexeme: the lexeme ends in a character
that would belong to the name, or it is a number, which names may follow. -/
def Lexeme.isSticky (l : Lexeme) : Bool :=
  l.kind == .number || l.text.toList.getLast?.any isNameStart

/-- A choice by the same test, branch by branch. -/
theorem ite_eq_of_imp {p : Prop} [Decidable p] {x y s x' y' s' : Step}
    (h : (if p then x else y) = s) (hpos : p → x = s → x' = s') (hneg : ¬ p → y = s → y' = s') :
    (if p then x' else y') = s' := by
  by_cases hp : p
  · rw [if_pos hp] at h ⊢
    exact hpos hp h
  · rw [if_neg hp] at h ⊢
    exact hneg hp h

theorem length_take_of_drop {x : List Char} {n : Nat} (h : x.drop n ≠ []) :
    (x.take n).length = n := by
  have hlt := List.length_pos_iff.mpr h
  rw [List.length_drop] at hlt
  rw [List.length_take]
  omega

theorem Drift.behind {s : Step} {c : Char} {r y : List Char}
    (h : Drift (s.lexeme c r).isSticky (r.drop s.more) y) :
    Drift (isNameStart c) r (r.take s.more ++ y) := by
  have hk : Drift (isNameStart c) (r.take s.more ++ r.drop s.more) (r.take s.more ++ y) := by
    refine Drift.keeps _ ?_
    cases hs : (s.lexeme c r).isSticky with
    | true => exact (hs ▸ h).weaken
    | false =>
      rw [hs] at h
      have hlast : (r.take s.more).getLast?.elim (isNameStart c) isNameStart = false := by
        simp only [Lexeme.isSticky, Step.lexeme, String.toList_ofList, List.getLast?_cons,
          Option.any_some, Bool.or_eq_false_iff] at hs
        cases ht : (r.take s.more).getLast? <;> simpa [ht] using hs.2
      rwa [hlast]
  rwa [List.take_append_drop] at hk

section
variable {elements : Bool} {before before' : Option Lexeme} {stack : List Context} {c d : Char}
  {r y : List Char} {s : Step}

/-- What a lexeme of code depends on behind its own characters. With `y` in the place
of all that follows the lexeme, every test that may look there answers as before. -/
structure Exchangeable (elements : Bool) (before : Option Lexeme) (s : Step) (c : Char)
    (r y : List Char) : Prop where
  slash : ['/'].isPrefixOf (r.take s.more ++ y) = ['/'].isPrefixOf r
  star : ['*'].isPrefixOf (r.take s.more ++ y) = ['*'].isPrefixOf r
  digit : (r.take s.more ++ y).head?.any isDigit = r.head?.any isDigit
  element : elements = true → elementBegins before (r.take s.more ++ y) = elementBegins before r
  operator : operatorAt (c :: (r.take s.more ++ y)) = operatorAt (c :: r)
  blank : (r.drop s.more).head?.any isBlank = false → y.head?.any isBlank = false
  lineEnd : (r.drop s.more).head?.any (· != '\n') = false → y.head?.any (· != '\n') = false
  name : (r.drop s.more).head?.any isNameChar = false → y.head?.any isNameChar = false
  line : (r.drop s.more).head? = some '\n' → y.head? = some '\n'
  number : s.kind = .number → s.more = numberLiteral c r →
    numberLiteral c (r.take s.more ++ y) = s.more

theorem punctuatorStep_congr (h : operatorAt (c :: y) = operatorAt (c :: r)) :
    punctuatorStep stack c y = punctuatorStep stack c r := by
  unfold punctuatorStep
  rw [h]

/-- The next lexeme of code stays when what follows it is exchanged. -/
theorem codeStep_exchange (hs : codeStep elements before stack c r = s)
    (hd : (r.drop s.more).head? = some d) (hy : Exchangeable elements before s c r y) :
    codeStep elements before stack c (r.take s.more ++ y) = s := by
  have hne : r.drop s.more ≠ [] := by
    intro hnil
    simp [hnil] at hd
  have hlen : (r.take s.more).length = s.more := length_take_of_drop hne
  have hline : d = '\n' → y.head? = some '\n' := by
    rintro rfl
    exact hy.line hd
  have helement : (c = '<' && elements && elementBegins before (r.take s.more ++ y)) =
      (c = '<' && elements && elementBegins before r) := by
    cases elements with
    | false => simp
    | true => rw [hy.element rfl]
  unfold codeStep at hs ⊢
  rw [hy.slash, hy.star, hy.digit, helement]
  -- every test answers as before, so what is left is the extent of each lexeme
  refine ite_eq_of_imp hs (fun h₁ hs => ?_) fun h₁ hs => ?_
  · subst hs
    rw [run_take (hy.blank (run_cut _ r).2)]
  refine ite_eq_of_imp hs (fun h₂ hs => ?_) fun h₂ hs => ?_
  · subst hs
    rw [run_take (hy.lineEnd (run_cut _ r).2)]
  refine ite_eq_of_imp hs (fun h₃ hs => ?_) fun h₃ hs => ?_
  · subst hs
    rw [Bool.and_eq_true] at h₃
    obtain ⟨r, rfl⟩ := List.isPrefixOf_iff_prefix.mp h₃.2
    simp only [List.tail_cons, Nat.add_comm 1, List.drop_succ_cons,
      List.take_succ_cons, List.cons_append] at hne ⊢
    rw [(blockComment_take y hne).1]
  refine ite_eq_of_imp hs (fun h₄ hs => ?_) fun h₄ hs => ?_
  · subst hs
    dsimp only at hy hlen ⊢
    rw [run_take (hy.name (run_cut _ r).2), List.take_left' hlen]
  refine ite_eq_of_imp hs (fun h₅ hs => ?_) fun h₅ hs => ?_
  · subst hs
    rw [show numberLiteral c (_ ++ y) = _ from hy.number rfl rfl]
  refine ite_eq_of_imp hs (fun h₆ hs => ?_) fun h₆ hs => ?_
  · subst hs
    rw [(quoted_take hd hline).1]
  refine ite_eq_of_imp hs (fun h₇ hs => ?_) fun h₇ hs => ?_
  · subst hs
    dsimp only at hne ⊢
    rw [(templateChunk_take y hne).1]
  refine ite_eq_of_imp hs (fun h₈ hs => ?_) fun h₈ hs => ?_
  · subst hs
    dsimp only at hne ⊢
    rw [(templateChunk_take y hne).1]
  refine ite_eq_of_imp hs (fun h₉ hs => ?_) fun h₉ hs => ?_
  · exact hs
  refine ite_eq_of_imp hs (fun h₁₀ hs => ?_) fun h₁₀ hs => ?_
  · exact hs
  refine ite_eq_of_imp hs (fun h₁₁ hs => ?_) fun h₁₁ hs => ?_
  · subst hs
    rw [regexLiteral_take hd (hy.name (regexLiteral_cut r)) hline]
  exact (punctuatorStep_congr hy.operator).trans hs

theorem Drift.numberLiteral (hy : Drift true (r.drop (numberLiteral c r)) y)
    (hne : r.drop (numberLiteral c r) ≠ []) :
    Syntax.numberLiteral c (r.take (Syntax.numberLiteral c r) ++ y) = Syntax.numberLiteral c r := by
  have hsettle := settles_numberLiteral (c := c) (.inl hy.head_eq) hy.exponent
    (fun e => (Drift.keep hy.weaken : Drift true (e :: _) (e :: y)).exponent)
    (r.take (Syntax.numberLiteral c r)) (by
      rw [List.take_append_drop]
      exact Nat.le_of_eq (length_take_of_drop hne).symm)
  rwa [List.take_append_drop] at hsettle

theorem codeStep_drift (hs : codeStep elements before stack c r = s)
    (hd : (r.drop s.more).head? = some d)
    (hy : Drift (s.lexeme c r).isSticky (r.drop s.more) y) :
    codeStep elements before stack c (r.take s.more ++ y) = s := by
  have hr : Drift (isNameStart c) r (r.take s.more ++ y) := hy.behind
  refine codeStep_exchange hs hd
    { slash := hr.isPrefixOf_eq (by decide)
      star := hr.isPrefixOf_eq (by decide)
      digit := hr.head_any fun _ => isDigit_of_isNameStart
      element := fun _ => hr.elementBegins rfl
      operator := (Drift.keep hr : Drift false (c :: r) _).operatorAt
      blank := hy.stops (.inr fun _ => isBlank_of_isNameStart)
      lineEnd := hy.stops (.inl fun _ h => by rw [bne, beq_of_isNameStart h rfl]; rfl)
      name := hy.stops (.inl fun _ => isNameChar_of_isNameStart)
      line := fun hline => hy.head_of_not_start hline rfl
      number := ?_ }
  intro hk hn
  have hy' : Drift true (r.drop s.more) y := by
    rwa [show (s.lexeme c r).isSticky = true by simp [Lexeme.isSticky, Step.lexeme, hk]] at hy
  rw [hn] at hd hy' ⊢
  refine hy'.numberLiteral fun hnil => ?_
  simp [hnil] at hd

theorem tagStep_drift {closing : Bool} {outer : List Context} (hs : tagStep closing outer c r = s)
    (hne : r.drop s.more ≠ []) (hy : Drift (s.lexeme c r).isSticky (r.drop s.more) y) :
    tagStep closing outer c (r.take s.more ++ y) = s := by
  have hr : Drift (isNameStart c) r (r.take s.more ++ y) := hy.behind
  unfold tagStep at hs ⊢
  dsimp only at hs ⊢
  rw [hr.isPrefixOf_eq (by decide), hr.isPrefixOf_eq (by decide)]
  refine ite_eq_of_imp hs (fun h₁ hs => ?_) fun h₁ hs => ?_
  · subst hs
    rw [run_take (hy.stops (.inr fun _ => isBlank_of_isNameStart) (run_cut _ r).2)]
  refine ite_eq_of_imp hs (fun h₂ hs => ?_) fun h₂ hs => ?_
  · subst hs
    rw [Bool.and_eq_true] at h₂
    obtain ⟨r, rfl⟩ := List.isPrefixOf_iff_prefix.mp h₂.2
    simp only [List.tail_cons, Nat.add_comm 1, List.drop_succ_cons, List.take_succ_cons,
      List.cons_append] at hne ⊢
    rw [(blockComment_take y hne).1]
  refine ite_eq_of_imp hs (fun h₃ hs => ?_) fun h₃ hs => ?_
  · subst hs
    rw [run_take (hy.stops (.inl fun _ h => by rw [isNameChar_of_isNameStart h]; rfl)
      (run_cut _ r).2)]
  refine ite_eq_of_imp hs (fun h₄ hs => ?_) fun h₄ hs => ?_
  · subst hs
    dsimp only at hne ⊢
    obtain ⟨d, x, hx⟩ : ∃ d x, r.drop (run (· != c) r) = d :: x := by
      refine List.exists_cons_of_ne_nil fun hnil => hne ?_
      rw [← List.drop_drop, hnil, List.drop_nil]
    have hquote : d = c := by
      have hcut := (run_cut (· != c) r).2
      simpa [hx] using hcut
    rw [List.take_add, hx, List.take_succ_cons, List.take_zero, List.append_assoc, run_take]
    simp [hquote]
  exact hs

theorem childrenStep_drift {outer : List Context} (hs : childrenStep outer c r = s)
    (hne : r.drop s.more ≠ []) (hy : Drift (s.lexeme c r).isSticky (r.drop s.more) y) :
    childrenStep outer c (r.take s.more ++ y) = s := by
  obtain ⟨b, hr⟩ := hy.behind.trimStart
  unfold childrenStep at hs ⊢
  dsimp only at hs ⊢
  rw [hr.isPrefixOf_eq (by decide)]
  refine ite_eq_of_imp hs (fun h₁ hs => ?_) fun h₁ hs => ?_
  · exact hs
  refine ite_eq_of_imp hs (fun h₂ hs => ?_) fun h₂ hs => ?_
  · exact hs
  subst hs
  dsimp only at hy hne ⊢
  rw [run_take (hy.stops (.inl fun _ h => by
    rw [bne, bne, beq_of_isNameStart h rfl, beq_of_isNameStart h rfl]; rfl) (run_cut _ r).2),
    List.take_left' (length_take_of_drop hne)]

theorem nextStep_before (hb : expressionMayBegin before' = expressionMayBegin before) :
    nextStep elements before' stack c r = nextStep elements before stack c r := by
  unfold nextStep
  split
  · rfl
  · rfl
  · unfold codeStep
    rw [(Drift.refl true r).elementBegins hb, hb]

/-- The next lexeme stays when the names behind it drift. -/
theorem nextStep_drift (hs : nextStep elements before stack c r = s)
    (hb : expressionMayBegin before' = expressionMayBegin before)
    (hy : Drift (s.lexeme c r).isSticky (r.drop s.more) y) :
    nextStep elements before' stack c (r.take s.more ++ y) = s := by
  rw [nextStep_before hb]
  cases hd : (r.drop s.more).head? with
  | none =>
    rw [List.head?_eq_none_iff] at hd
    rw [hd] at hy
    rw [hy.eq_nil, List.append_nil, List.take_of_length_le (List.drop_eq_nil_iff.mp hd), hs]
  | some d =>
    have hne : r.drop s.more ≠ [] := by
      intro hnil
      simp [hnil] at hd
    unfold nextStep at hs ⊢
    split at hs
    · exact tagStep_drift hs hne hy
    · exact childrenStep_drift hs hne hy
    · exact codeStep_drift hs hd hy

/-! ### Names among the lexemes -/

/-- Whether the next lexeme is one of code. -/
def inCode : List Context → Bool
  | .tag _ :: _ | .children :: _ => false
  | _ => true

theorem nextStep_of_inCode (h : inCode stack = true) :
    nextStep elements before stack c r = codeStep elements before stack c r := by
  unfold nextStep
  split
  · cases h
  · cases h
  · rfl

theorem codeStep_word (hc : isNameStart c = true) :
    codeStep elements before stack c r =
      ⟨wordKind (String.ofList (c :: r.take (run isNameChar r))), run isNameChar r, stack⟩ := by
  have hslash : c ≠ '/' := by
    rintro rfl
    cases hc
  rw [codeStep, isBlank_of_isNameStart hc, hc]
  simp only [hslash, decide_false, Bool.false_and, Bool.false_eq_true, if_false, if_true]

/-- A word where nothing continues it is the next lexeme of code. -/
theorem nextStep_word {w : List Char} (hstack : inCode stack = true) (hc : isNameStart c = true)
    (hw : ∀ x ∈ w, isNameChar x = true) (hy : y.head?.any isNameChar = false) :
    nextStep elements before stack c (w ++ y) =
      ⟨wordKind (String.ofList (c :: w)), w.length, stack⟩ := by
  rw [nextStep_of_inCode hstack, codeStep_word hc, run_append_eq.mpr ⟨hw, hy⟩, List.take_left]

/-- A free word is a name there. -/
theorem nextStep_name {w : List Char} (hstack : inCode stack = true) (hw : IsFreeWord (c :: w))
    (hy : y.head?.any isNameChar = false) :
    nextStep elements before stack c (w ++ y) = ⟨.identifier, w.length, stack⟩ := by
  have hkind : wordKind (String.ofList (c :: w)) = .identifier := if_neg hw.free
  rw [nextStep_word hstack (by simpa using hw.start) (fun x hx => hw.chars x (by simp [hx])) hy,
    hkind]

theorem wordKind_identifier {word : String} (h : wordKind word = .identifier) :
    word ∉ reserved := by
  intro hm
  simp [wordKind, hm] at h

theorem codeStep_identifier (h : (codeStep elements before stack c r).kind = .identifier) :
    IsFreeWord (c :: r.take (run isNameChar r)) ∧
      codeStep elements before stack c r = ⟨.identifier, run isNameChar r, stack⟩ := by
  by_cases hc : isNameStart c = true
  · rw [codeStep_word hc] at h ⊢
    refine ⟨⟨by simpa using hc, ?_, wordKind_identifier h⟩, by rw [show wordKind _ = _ from h]⟩
    intro x hx
    rcases List.mem_cons.mp hx with rfl | hx
    · exact isNameChar_of_isNameStart hc
    · exact (run_cut isNameChar r).1 x hx
  · have hbegins := codeStep_begins elements before stack c r
    rw [h] at hbegins
    exact absurd hbegins hc

/-- Only a whole free word in code is a name. -/
theorem nextStep_identifier (h : (nextStep elements before stack c r).kind = .identifier) :
    inCode stack = true ∧ IsFreeWord (c :: r.take (run isNameChar r)) ∧
      nextStep elements before stack c r = ⟨.identifier, run isNameChar r, stack⟩ := by
  cases hstack : inCode stack with
  | true =>
    rw [nextStep_of_inCode hstack] at h ⊢
    exact ⟨rfl, codeStep_identifier h⟩
  | false =>
    unfold nextStep at h
    split at h
    · exact absurd h (tagStep_kind_ne _ _ c r)
    · exact absurd h (childrenStep_kind_ne _ c r)
    · simp_all [inCode]

theorem any_last {t : List Char} {e : Char} (h : t.getLast? = some e)
    (he : isNameStart e = false) (c : Char) : (c :: t).getLast?.any isNameStart = false := by
  simp [List.getLast?_cons, h, he]

theorem any_last_of_all {t : List Char} (h : ∀ e ∈ t, isNameStart e = false) :
    t.getLast?.any isNameStart = false := by
  cases ht : t.getLast? with
  | none => rfl
  | some e => exact h e (List.mem_of_getLast? ht)

/-- The run that ended before a character that could begin a name took none of them. -/
theorem run_stop {p : Char → Bool} (hd : (r.drop (run p r)).head? = some d)
    (hp : p d = true) : False := by
  have hcut := (run_cut p r).2
  rw [hd, Option.any_some, hp] at hcut
  cases hcut

theorem punctuatorStep_apart (hs : punctuatorStep stack c r = s) (hc : isNameStart c = false) :
    (c :: r.take s.more).getLast?.any isNameStart = false := by
  have hone : (c :: r.take 0).getLast?.any isNameStart = false := by simpa using hc
  unfold punctuatorStep at hs
  split at hs
  · rename_i op hop
    subst hs
    rw [operatorAt_eq] at hop
    have hfit := List.find?_some hop
    rw [Bool.and_eq_true] at hfit
    obtain ⟨z, hz⟩ := List.isPrefixOf_iff_prefix.mp hfit.1
    have hmem : op ∈ operators := List.mem_of_find?_eq_some hop
    have htext : c :: r.take (op.length - 1) = op.toList := by
      have hlen : op.toList.length = op.length := String.length_toList
      have hlong : ∀ op ∈ operators, op.toList ≠ [] := by decide
      obtain ⟨e, t, ht⟩ := List.exists_cons_of_ne_nil (hlong op hmem)
      rw [ht, List.length_cons] at hlen
      rw [ht, List.cons_append, List.cons.injEq] at hz
      rw [ht, ← hlen, ← hz.1, ← hz.2, Nat.add_sub_cancel, List.take_left]
    rw [htext]
    refine any_last_of_all fun e he => ?_
    simpa using List.any_eq_false.mp (operators_no_letters op hmem) e he
  · subst hs
    exact hone

theorem codeStep_apart (hs : codeStep elements before stack c r = s)
    (hd : (r.drop s.more).head? = some d) (hname : isNameStart d = true) (hk : s.kind ≠ .number) :
    (c :: r.take s.more).getLast?.any isNameStart = false := by
  have hne : r.drop s.more ≠ [] := by
    intro hnil
    simp [hnil] at hd
  have hline : d ≠ '\n' := by
    rintro rfl
    cases hname
  unfold codeStep at hs
  obtain ⟨h₁, rfl⟩ | ⟨h₁, hs⟩ := ite_eq_iff.mp hs
  · refine any_last_of_all fun e he => Bool.eq_false_iff.mpr fun hstart => ?_
    have hblank : isBlank e = true := by
      rcases List.mem_cons.mp he with rfl | he
      · exact h₁
      · exact (run_cut isBlank r).1 e he
    rw [isBlank_of_isNameStart hstart] at hblank
    cases hblank
  obtain ⟨h₂, rfl⟩ | ⟨h₂, hs⟩ := ite_eq_iff.mp hs
  · exact (run_stop hd (by simpa using hline)).elim
  obtain ⟨h₃, rfl⟩ | ⟨h₃, hs⟩ := ite_eq_iff.mp hs
  · rw [Bool.and_eq_true] at h₃
    obtain ⟨r, rfl⟩ := List.isPrefixOf_iff_prefix.mp h₃.2
    simp only [List.cons_append, List.nil_append, List.tail_cons, Nat.add_comm 1,
      List.drop_succ_cons, List.take_succ_cons] at hne ⊢
    rw [List.getLast?_cons_cons]
    exact any_last (blockComment_take [] hne).2 rfl '*'
  obtain ⟨h₄, rfl⟩ | ⟨h₄, hs⟩ := ite_eq_iff.mp hs
  · exact (run_stop hd (isNameChar_of_isNameStart hname)).elim
  have hone : (c :: r.take 0).getLast?.any isNameStart = false := by simpa using h₄
  obtain ⟨h₅, rfl⟩ | ⟨h₅, hs⟩ := ite_eq_iff.mp hs
  · exact absurd rfl hk
  obtain ⟨h₆, rfl⟩ | ⟨h₆, hs⟩ := ite_eq_iff.mp hs
  · have hlast := (quoted_take (y := r.drop (quoted c r)) hd fun h => absurd h hline).2
    exact any_last (hlast.resolve_left hline) (by simpa using h₄) c
  obtain ⟨h₇, rfl⟩ | ⟨h₇, hs⟩ := ite_eq_iff.mp hs
  · rcases (templateChunk_take [] hne).2 with hlast | hlast <;> exact any_last hlast rfl c
  obtain ⟨h₈, rfl⟩ | ⟨h₈, hs⟩ := ite_eq_iff.mp hs
  · rcases (templateChunk_take [] hne).2 with hlast | hlast <;> exact any_last hlast rfl c
  obtain ⟨h₉, rfl⟩ | ⟨h₉, hs⟩ := ite_eq_iff.mp hs
  · exact hone
  obtain ⟨h₁₀, rfl⟩ | ⟨h₁₀, hs⟩ := ite_eq_iff.mp hs
  · exact hone
  obtain ⟨h₁₁, rfl⟩ | ⟨h₁₁, hs⟩ := ite_eq_iff.mp hs
  · have hcut := regexLiteral_cut r
    rw [hd, Option.any_some, isNameChar_of_isNameStart hname] at hcut
    cases hcut
  exact punctuatorStep_apart hs (by simpa using h₄)

theorem tagStep_apart {closing : Bool} {outer : List Context} (hs : tagStep closing outer c r = s)
    (hstack : inCode s.stack = true) : (c :: r.take s.more).getLast?.any isNameStart = false := by
  unfold tagStep at hs
  dsimp only at hs
  have hstay : ∀ {k : Kind} {n : Nat}, (⟨k, n, .tag closing :: outer⟩ : Step) ≠ s := by
    rintro k n rfl
    cases hstack
  obtain ⟨-, hs⟩ | ⟨h₁, hs⟩ := ite_eq_iff.mp hs
  · exact absurd hs hstay
  obtain ⟨-, hs⟩ | ⟨h₂, hs⟩ := ite_eq_iff.mp hs
  · exact absurd hs hstay
  obtain ⟨-, hs⟩ | ⟨h₃, hs⟩ := ite_eq_iff.mp hs
  · exact absurd hs hstay
  have hone : (c :: r.take 0).getLast?.any isNameStart = false := by simpa using h₃
  obtain ⟨-, hs⟩ | ⟨h₄, hs⟩ := ite_eq_iff.mp hs
  · exact absurd hs hstay
  obtain ⟨h₅, rfl⟩ | ⟨h₅, hs⟩ := ite_eq_iff.mp hs
  · exact hone
  obtain ⟨h₆, rfl⟩ | ⟨h₆, hs⟩ := ite_eq_iff.mp hs
  · rw [Bool.and_eq_true] at h₆
    obtain ⟨z, rfl⟩ := List.isPrefixOf_iff_prefix.mp h₆.2
    rfl
  obtain ⟨h₇, rfl⟩ | ⟨h₇, hs⟩ := ite_eq_iff.mp hs
  · exact hone
  exact absurd hs hstay

theorem childrenStep_apart {outer : List Context} (hs : childrenStep outer c r = s)
    (hstack : inCode s.stack = true) : (c :: r.take s.more).getLast?.any isNameStart = false := by
  unfold childrenStep at hs
  dsimp only at hs
  split at hs
  · subst hs
    cases hstack
  · split at hs
    · rename_i hc
      subst hs hc
      rfl
    · subst hs
      cases hstack

/-- A name right after a lexeme of another kind than a number meets no character
that could have belonged to it. -/
theorem nextStep_apart (hs : nextStep elements before stack c r = s)
    (hd : (r.drop s.more).head? = some d) (hname : isNameStart d = true)
    (hstack : inCode s.stack = true) (hk : s.kind ≠ .number) :
    (s.lexeme c r).isSticky = false := by
  have hlast : (c :: r.take s.more).getLast?.any isNameStart = false := by
    unfold nextStep at hs
    split at hs
    · exact tagStep_apart hs hstack
    · exact childrenStep_apart hs hstack
    · exact codeStep_apart hs hd hname hk
  simpa [Lexeme.isSticky, Step.lexeme, hk] using hlast

end

/-! ### Whole texts -/

/-- Two lexeme lists that differ in the texts of names. The flag tells that a
number stands before, where no name is changed. -/
inductive Renames : Bool → List Lexeme → List Lexeme → Prop
  | nil (b : Bool) : Renames b [] []
  | keep {b : Bool} {l : Lexeme} {ls ls' : List Lexeme} :
      Renames (l.kind == .number) ls ls' → Renames b (l :: ls) (l :: ls')
  | rename {l : Lexeme} {ls ls' : List Lexeme} {name : String} : l.kind = .identifier →
      IsFreeWord name.toList → Renames false ls ls' →
      Renames false (l :: ls) (⟨.identifier, name⟩ :: ls')

/-- The text of a lexeme list. -/
def spelled (ls : List Lexeme) : List Char := ls.flatMap fun l => l.text.toList

theorem take_drop_exchange {x y : List Char} {n : Nat} (h : x.drop n = [] → y = []) :
    (x.take n ++ y).take n = x.take n ∧ (x.take n ++ y).drop n = y := by
  by_cases hx : x.drop n = []
  · rw [h hx, List.append_nil, List.take_take, Nat.min_self, List.drop_take_self]
    exact ⟨rfl, rfl⟩
  · have hlen := length_take_of_drop hx
    exact ⟨List.take_left' hlen, List.drop_left' hlen⟩

section
variable {elements : Bool} {before before' : Option Lexeme} {stack : List Context} {c : Char}
  {r cs : List Char}

theorem scan_head_identifier {l : Lexeme} (hl : (scan elements before stack cs).head? = some l)
    (hk : l.kind = .identifier) :
    inCode stack = true ∧ ∃ d, cs.head? = some d ∧ isNameStart d = true := by
  cases cs with
  | nil => simp [scan] at hl
  | cons d r =>
    rw [scan, List.head?_cons, Option.some.injEq] at hl
    subst hl
    obtain ⟨hcode, hw, -⟩ := nextStep_identifier hk
    exact ⟨hcode, d, rfl, by simpa using hw.start⟩

theorem not_identifier_after_sticky
    (hs : ((nextStep elements before stack c r).lexeme c r).isSticky = true)
    (hn : ((nextStep elements before stack c r).kind == .number) = false) {l : Lexeme}
    (hl : (scan elements before' (nextStep elements before stack c r).stack
      (r.drop (nextStep elements before stack c r).more)).head? = some l) :
    l.kind ≠ .identifier := by
  intro hk
  obtain ⟨hcode, d, hd, hstart⟩ := scan_head_identifier hl hk
  rw [nextStep_apart rfl hd hstart hcode (by simpa using hn)] at hs
  cases hs

theorem not_identifier_after_word {l : Lexeme}
    (hl : (scan elements before stack (r.drop (run isNameChar r))).head? = some l) :
    l.kind ≠ .identifier := by
  intro hk
  obtain ⟨-, d, hd, hstart⟩ := scan_head_identifier hl hk
  exact run_stop hd (isNameChar_of_isNameStart hstart)

/-- Texts whose lexemes differ in names differ in names. -/
theorem scan_drift {b f : Bool} {ls : List Lexeme}
    (h : Renames b (scan elements before stack cs) ls)
    (hf : f = true → b = false →
      ∀ l, (scan elements before stack cs).head? = some l → l.kind ≠ .identifier) :
    Drift f cs (spelled ls) := by
  fun_induction scan elements before stack cs generalizing b f ls with
  | case1 =>
    cases h
    exact .nil f
  | case2 before stack c r s =>
    rename_i l ih
    cases h with
    | @keep _ _ _ ls h =>
      have htext : spelled (l :: ls) = c :: (r.take s.more ++ spelled ls) := by
        simp [spelled, l, String.toList_ofList]
      rw [htext]
      exact .keep (Drift.behind (ih h fun hs hn _ => not_identifier_after_sticky hs hn))
    | @rename _ _ ls name hk hname h =>
      have hfalse : f = false := by
        cases f with
        | false => rfl
        | true => exact absurd hk (hf rfl rfl l rfl)
      obtain ⟨-, hw, hstep⟩ := nextStep_identifier hk
      have hmore : s.more = run isNameChar r := congrArg Step.more hstep
      have hcs : c :: r = (c :: r.take s.more) ++ r.drop s.more := by simp
      rw [hfalse, hcs]
      rw [hmore] at ih h ⊢
      exact .rename hw hname (run_cut isNameChar r).2
        (ih h fun _ _ _ => not_identifier_after_word)

theorem expressionMayBegin_lastSignificant
    (hb : expressionMayBegin before' = expressionMayBegin before) (l : Lexeme) :
    expressionMayBegin (lastSignificant before' l) =
      expressionMayBegin (lastSignificant before l) := by
  unfold lastSignificant
  split
  · exact hb
  · rfl

/-- A text with some names changed has the same lexemes with these names changed. -/
theorem scan_renamed {b : Bool} {ls : List Lexeme}
    (h : Renames b (scan elements before stack cs) ls)
    (hb : expressionMayBegin before' = expressionMayBegin before) :
    scan elements before' stack (spelled ls) = ls := by
  fun_induction scan elements before stack cs generalizing b before' ls with
  | case1 =>
    cases h
    rw [spelled, List.flatMap_nil, scan]
  | case2 before stack c r s =>
    rename_i l ih
    cases h with
    | @keep _ _ _ ls h =>
      have hdrift : Drift (s.lexeme c r).isSticky (r.drop s.more) (spelled ls) :=
        scan_drift h fun hs hn _ => not_identifier_after_sticky hs hn
      have hcut := take_drop_exchange (x := r) (y := spelled ls) (n := s.more) fun hnil => by
        rw [hnil] at hdrift
        exact hdrift.eq_nil
      have htext : spelled (l :: ls) = c :: (r.take s.more ++ spelled ls) := by
        simp [spelled, l, String.toList_ofList]
      have hstep : nextStep elements before' stack c (r.take s.more ++ spelled ls) = s :=
        nextStep_drift rfl hb hdrift
      rw [htext, scan, hstep, hcut.1, hcut.2]
      exact congrArg (l :: ·) (ih h (expressionMayBegin_lastSignificant hb l))
    | @rename _ _ ls name hk hname h =>
      obtain ⟨hcode, -, hstep⟩ := nextStep_identifier hk
      have hmore : s.more = run isNameChar r := congrArg Step.more hstep
      have hstack : s.stack = stack := congrArg Step.stack hstep
      rw [hmore] at ih h
      have hdrift : Drift true (r.drop (run isNameChar r)) (spelled ls) :=
        scan_drift h fun _ _ _ => not_identifier_after_word
      have hstop : (spelled ls).head?.any isNameChar = false := by
        rw [hdrift.head_eq]
        exact (run_cut isNameChar r).2
      obtain ⟨c', w, hw, -⟩ := hname.eq_cons
      have htext : spelled (⟨.identifier, name⟩ :: ls) = c' :: (w ++ spelled ls) := by
        simp [spelled, hw]
      have hname' : String.ofList (c' :: w) = name := by rw [← hw, String.ofList_toList]
      rw [htext, scan, nextStep_name hcode (hw ▸ hname) hstop]
      simp only [List.take_left, List.drop_left, hname', List.cons.injEq, true_and]
      rw [← hstack]
      refine ih h ?_
      -- a name is a name: nothing that begins an expression may follow either
      have hl : lastSignificant before l = some l := if_neg (by rw [hk]; decide)
      rw [hl]
      simp [lastSignificant, expressionMayBegin, Kind.isTrivia, hk]

end

end Retouch.Syntax
