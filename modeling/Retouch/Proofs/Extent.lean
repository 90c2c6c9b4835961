import Retouch.Proofs.Scan

/-! How far a lexeme reaches, and what decides it. A scanner that stops before the
end of the text stops because of what it has read or because of the next character.
So its answer stays when everything after that character is exchanged, and often
even when the character itself is: this is what makes a change to one name
invisible from the lexemes around it. -/

namespace Retouch.Syntax
open Retouch.Text

/-! ### Characters that begin names -/

/-- No run has a blank in it. -/
def sparesBlanks (runs : List (Nat × Nat)) : Bool :=
  runs.all fun a => blankRuns.all fun b => a.1 + a.2 ≤ b.1 || b.1 + b.2 ≤ a.1

theorem alphabeticRuns_sparesBlanks : sparesBlanks alphabeticRuns = true := by decide +kernel

theorem numericRuns_sparesBlanks : sparesBlanks numericRuns = true := by decide +kernel

theorem isBlank_of_inRuns {runs : List (Nat × Nat)} {c : Char} (hapart : sparesBlanks runs = true)
    (h : inRuns runs c.toNat = true) : isBlank c = false := by
  rw [inRuns, List.any_eq_true] at h
  obtain ⟨a, ha, hc⟩ := h
  rw [isBlank, inRuns, List.any_eq_false]
  intro b hb
  have hab := List.all_eq_true.mp (List.all_eq_true.mp hapart a ha) b hb
  simp only [Bool.or_eq_true, Bool.and_eq_true, decide_eq_true_eq] at hab hc ⊢
  omega

theorem isAsciiLetter_bounds {c : Char} (h : isAsciiLetter c = true) :
    (97 ≤ c.toNat ∧ c.toNat ≤ 122) ∨ (65 ≤ c.toNat ∧ c.toNat ≤ 90) := by
  simp only [isAsciiLetter, Char.le_def, UInt32.le_iff_toNat_le, Bool.or_eq_true,
    Bool.and_eq_true, decide_eq_true_eq] at h
  exact h

theorem isDigit_bounds {c : Char} (h : isDigit c = true) : 48 ≤ c.toNat ∧ c.toNat ≤ 57 := by
  simp only [isDigit, Char.le_def, UInt32.le_iff_toNat_le, Bool.and_eq_true,
    decide_eq_true_eq] at h
  exact h

theorem isBlank_of_isNameChar {c : Char} (h : isNameChar c = true) : isBlank c = false := by
  simp only [isNameChar, Bool.or_eq_true, beq_iff_eq] at h
  rcases h with (((h | rfl) | rfl) | rfl) | rfl
  · unfold isAlphanumeric at h
    split at h
    · have hb : (97 ≤ c.toNat ∧ c.toNat ≤ 122) ∨ (65 ≤ c.toNat ∧ c.toNat ≤ 90) ∨
          (48 ≤ c.toNat ∧ c.toNat ≤ 57) := by
        rcases Bool.or_eq_true _ _ ▸ h with h | h
        · exact (isAsciiLetter_bounds h).imp_right .inl
        · exact .inr (.inr (isDigit_bounds h))
      simp [isBlank, inRuns, blankRuns]
      omega
    · rcases Bool.or_eq_true _ _ ▸ h with h | h
      · exact isBlank_of_inRuns alphabeticRuns_sparesBlanks h
      · exact isBlank_of_inRuns numericRuns_sparesBlanks h
  all_goals decide

theorem isBlank_of_isNameStart {c : Char} (h : isNameStart c = true) : isBlank c = false :=
  isBlank_of_isNameChar (isNameChar_of_isNameStart h)

theorem isDigit_of_isNameStart {c : Char} (h : isNameStart c = true) : isDigit c = false := by
  refine Bool.eq_false_iff.mpr fun hc => ?_
  obtain ⟨hlow, hhigh⟩ := isDigit_bounds hc
  have hascii : c.toNat < 128 := by omega
  simp only [isNameStart, Bool.or_eq_true, beq_iff_eq, isAlphabetic, hascii, if_true] at h
  rcases h with (h | rfl) | rfl
  · have hb := isAsciiLetter_bounds h
    omega
  · revert hc; decide
  · revert hc; decide

/-! ### Runs -/

theorem run_append_eq {p : Char → Bool} {t y : List Char} :
    run p (t ++ y) = t.length ↔ (∀ c ∈ t, p c = true) ∧ y.head?.any p = false := by
  induction t with
  | nil => cases y <;> simp [run, List.takeWhile_cons]
  | cons c t ih =>
    simp only [run, List.cons_append, List.takeWhile_cons] at ih ⊢
    by_cases hc : p c = true
    · simp [hc, ih]
    · simp [hc]

/-- A run and what is left after it. -/
theorem run_cut (p : Char → Bool) (x : List Char) :
    (∀ c ∈ x.take (run p x), p c = true) ∧ (x.drop (run p x)).head?.any p = false := by
  have h : run p (x.take (run p x) ++ x.drop (run p x)) = (x.take (run p x)).length := by
    rw [List.take_append_drop, List.length_take, Nat.min_eq_left]
    exact (List.takeWhile_prefix p).length_le
  exact run_append_eq.mp h

theorem run_take {p : Char → Bool} {x y : List Char} (h : y.head?.any p = false) :
    run p (x.take (run p x) ++ y) = run p x := by
  rw [run_append_eq.mpr ⟨(run_cut p x).1, h⟩, List.length_take, Nat.min_eq_left]
  exact (List.takeWhile_prefix p).length_le

/-! ### Literals and comments

Each of these ends at a mark of its own, which belongs to it, or at a line feed,
which does not, or with the text. -/

theorem blockComment_pos {x : List Char} (h : x ≠ []) : 0 < blockComment x := by
  fun_cases blockComment x with
  | case1 => contradiction
  | case2 => exact Nat.two_pos
  | case3 => omega

theorem blockComment_take {x : List Char} (y : List Char) (h : x.drop (blockComment x) ≠ []) :
    blockComment (x.take (blockComment x) ++ y) = blockComment x ∧
      (x.take (blockComment x)).getLast? = some '/' := by
  fun_induction blockComment x with
  | case1 => simp at h
  | case2 r => exact ⟨rfl, rfl⟩
  | case3 c r hc ih =>
    rw [Nat.add_comm, List.drop_succ_cons] at h
    rw [Nat.add_comm, List.take_succ_cons]
    obtain ⟨hstop, hlast⟩ := ih h
    refine ⟨?_, by simp [List.getLast?_cons, hlast]⟩
    rw [List.cons_append, blockComment, hstop, Nat.add_comm]
    -- the next character is inside the comment, so the two marks meet no more than before
    intro r' hc' hr'
    cases r with
    | nil => simp at h
    | cons d r =>
      obtain ⟨n, hn⟩ := Nat.exists_eq_add_one.mpr (blockComment_pos (List.cons_ne_nil d r))
      rw [hn, List.take_succ_cons, List.cons_append, List.cons.injEq] at hr'
      exact hc r hc' (by rw [hr'.1])

/-- A backslash that is neither the last character nor before another is none. -/
theorem ne_backslash {c : Char} {r : List Char} (hlast : c = '\\' → r = [] → False)
    (hnext : ∀ d r', c = '\\' → r = d :: r' → False) : c ≠ '\\' := by
  intro hc
  cases r with
  | nil => exact hlast hc rfl
  | cons d r' => exact hnext d r' hc rfl

theorem quoted_cons {quote c : Char} (hc : c ≠ '\\') (r : List Char) :
    quoted quote (c :: r) =
      if c = '\n' then 0 else if c = quote then 1 else 1 + quoted quote r := by
  rw [quoted]
  · exact fun h _ => hc h
  · exact fun _ _ h _ => hc h

theorem quoted_take {quote : Char} {x y : List Char} {d : Char}
    (hd : (x.drop (quoted quote x)).head? = some d) (hy : d = '\n' → y.head? = some '\n') :
    quoted quote (x.take (quoted quote x) ++ y) = quoted quote x ∧
      (d = '\n' ∨ (x.take (quoted quote x)).getLast? = some quote) := by
  fun_induction quoted quote x with
  | case1 => simp at hd
  | case2 => simp at hd
  | case3 e r ih =>
    rw [Nat.add_comm, List.drop_succ_cons, List.drop_succ_cons] at hd
    rw [Nat.add_comm, List.take_succ_cons, List.take_succ_cons]
    obtain ⟨hstop, hlast⟩ := ih hd
    refine ⟨?_, hlast.imp_right fun h => by simp [List.getLast?_cons, h]⟩
    rw [List.cons_append, List.cons_append, quoted, hstop, Nat.add_comm]
  | case4 r =>
    obtain rfl : '\n' = d := by simpa using hd
    obtain ⟨y', rfl⟩ := List.head?_eq_some_iff.mp (hy rfl)
    exact ⟨quoted_cons (by decide) y', .inl rfl⟩
  | case5 r hlast hnext hn =>
    refine ⟨?_, .inr rfl⟩
    rw [List.take_succ_cons, List.cons_append, quoted_cons (ne_backslash hlast hnext), if_neg hn,
      if_pos rfl]
  | case6 c r hlast hnext hn hq ih =>
    rw [Nat.add_comm, List.drop_succ_cons] at hd
    rw [Nat.add_comm, List.take_succ_cons]
    obtain ⟨hstop, hquote⟩ := ih hd
    refine ⟨?_, hquote.imp_right fun h => by simp [List.getLast?_cons, h]⟩
    rw [List.cons_append, quoted_cons (ne_backslash hlast hnext), if_neg hn, if_neg hq, hstop,
      Nat.add_comm]

theorem regexBody_cons {c : Char} (hc : c ≠ '\\') (inClass : Bool) (r : List Char) :
    regexBody inClass (c :: r) =
      if c = '\n' then 0
      else if c = '[' then 1 + regexBody true r
      else if c = ']' then 1 + regexBody false r
      else if c = '/' && !inClass then 1
      else 1 + regexBody inClass r := by
  rw [regexBody]
  · exact fun h _ => hc h
  · exact fun _ _ h _ => hc h

theorem regexBody_take {inClass : Bool} {x y : List Char} {d : Char}
    (hd : (x.drop (regexBody inClass x)).head? = some d) (hy : d = '\n' → y.head? = some '\n') :
    regexBody inClass (x.take (regexBody inClass x) ++ y) = regexBody inClass x := by
  fun_induction regexBody inClass x with
  | case1 => simp at hd
  | case2 => simp at hd
  | case3 inClass e r ih =>
    rw [Nat.add_comm, List.drop_succ_cons, List.drop_succ_cons] at hd
    rw [Nat.add_comm, List.take_succ_cons, List.take_succ_cons, List.cons_append,
      List.cons_append, regexBody, ih hd, Nat.add_comm]
  | case4 inClass r =>
    obtain rfl : '\n' = d := by simpa using hd
    obtain ⟨y', rfl⟩ := List.head?_eq_some_iff.mp (hy rfl)
    exact regexBody_cons (by decide) inClass y'
  | case7 inClass c r hlast hnext hn ho hc hs =>
    rw [List.take_succ_cons, List.cons_append, regexBody_cons (ne_backslash hlast hnext), if_neg hn,
      if_neg ho, if_neg hc, if_pos hs]
  | case5 inClass r hlast hnext hn ih =>
    rw [Nat.add_comm, List.drop_succ_cons] at hd
    rw [Nat.add_comm, List.take_succ_cons, List.cons_append,
      regexBody_cons (ne_backslash hlast hnext), if_neg hn, if_pos rfl, ih hd, Nat.add_comm]
  | case6 inClass r hlast hnext hn ho ih =>
    rw [Nat.add_comm, List.drop_succ_cons] at hd
    rw [Nat.add_comm, List.take_succ_cons, List.cons_append,
      regexBody_cons (ne_backslash hlast hnext), if_neg hn, if_neg ho, if_pos rfl, ih hd,
      Nat.add_comm]
  | case8 inClass c r hlast hnext hn ho hc hs ih =>
    rw [Nat.add_comm, List.drop_succ_cons] at hd
    rw [Nat.add_comm, List.take_succ_cons, List.cons_append,
      regexBody_cons (ne_backslash hlast hnext), if_neg hn, if_neg ho, if_neg hc, if_neg hs, ih hd,
      Nat.add_comm]

theorem templateChunk_pos {x : List Char} (h : x ≠ []) : 0 < (templateChunk x).1 := by
  fun_cases templateChunk x with
  | case1 => contradiction
  | case2 => exact Nat.one_pos
  | case3 => exact Nat.lt_add_right _ Nat.two_pos
  | case4 => exact Nat.one_pos
  | case5 => exact Nat.two_pos
  | case6 => exact Nat.lt_add_right _ Nat.one_pos

theorem templateChunk_take {x : List Char} (y : List Char)
    (h : x.drop (templateChunk x).1 ≠ []) :
    templateChunk (x.take (templateChunk x).1 ++ y) = templateChunk x ∧
      ((x.take (templateChunk x).1).getLast? = some '`' ∨
        (x.take (templateChunk x).1).getLast? = some '\x7b') := by
  fun_induction templateChunk x with
  | case1 => simp at h
  | case2 => simp at h
  | case3 e r n opens hr ih =>
    rw [hr] at ih
    rw [Nat.add_comm, List.drop_succ_cons, List.drop_succ_cons] at h
    obtain ⟨hstop, hlast⟩ := ih h
    rw [Nat.add_comm, List.take_succ_cons, List.take_succ_cons]
    refine ⟨?_, hlast.imp (fun h => by simp [List.getLast?_cons, h])
      fun h => by simp [List.getLast?_cons, h]⟩
    rw [List.cons_append, List.cons_append, templateChunk, hstop, Nat.add_comm]
  | case4 r => exact ⟨rfl, .inl rfl⟩
  | case5 r => exact ⟨rfl, .inr rfl⟩
  | case6 c r hlast hnext hend hopen n opens hr ih =>
    have hpos : r ≠ [] → 0 < n := fun hne => by
      have hp := templateChunk_pos hne
      rwa [hr] at hp
    rw [hr] at ih
    rw [Nat.add_comm, List.drop_succ_cons] at h
    obtain ⟨hstop, hmark⟩ := ih h
    rw [Nat.add_comm, List.take_succ_cons]
    refine ⟨?_, hmark.imp (fun h => by simp [List.getLast?_cons, h])
      fun h => by simp [List.getLast?_cons, h]⟩
    rw [List.cons_append, templateChunk, hstop, Nat.add_comm]
    · exact fun hc _ => ne_backslash hlast hnext hc
    · exact fun _ _ hc _ => ne_backslash hlast hnext hc
    · exact hend
    · -- the next character is inside the chunk, so no substitution opens here
      intro r' hc hr'
      cases r with
      | nil => simp at h
      | cons d r =>
        obtain ⟨m, hm⟩ := Nat.exists_eq_add_one.mpr (hpos (List.cons_ne_nil d r))
        rw [hm, List.take_succ_cons, List.cons_append, List.cons.injEq] at hr'
        exact hopen r hc (by rw [hr'.1])

theorem regexLiteral_cut (x : List Char) :
    (x.drop (regexLiteral x)).head?.any isNameChar = false := by
  rw [regexLiteral, ← List.drop_drop]
  exact (run_cut isNameChar _).2

theorem regexLiteral_take {x y : List Char} {d : Char}
    (hd : (x.drop (regexLiteral x)).head? = some d) (hflags : y.head?.any isNameChar = false)
    (hline : d = '\n' → y.head? = some '\n') :
    regexLiteral (x.take (regexLiteral x) ++ y) = regexLiteral x := by
  simp only [regexLiteral] at hd ⊢
  generalize hn : regexBody false x = n at hd ⊢
  generalize hk : run isNameChar (x.drop n) = k at hd ⊢
  rw [← List.drop_drop] at hd
  have hle : n ≤ x.length := by
    refine Nat.le_of_not_lt fun hlt => ?_
    rw [List.drop_eq_nil_of_le (Nat.le_of_lt hlt)] at hd
    simp at hd
  obtain ⟨d', t, ht⟩ : ∃ d' t, x.drop n = d' :: t := by
    cases hx : x.drop n with
    | nil => simp [hx] at hd
    | cons d' t => exact ⟨d', t, rfl⟩
  -- a line feed behind the pattern is still there, since no flag is one
  have hhead : d' = '\n' → ((x.drop n).take k ++ y).head? = some '\n' := by
    rintro rfl
    cases k with
    | zero =>
      rw [ht] at hd
      exact hline (Option.some.inj hd).symm
    | succ k => rw [ht]; rfl
  have hbody : regexBody false (x.take n ++ ((x.drop n).take k ++ y)) = n := by
    have h := @regexBody_take false x ((x.drop n).take k ++ y) d' (by rw [hn, ht]; rfl) hhead
    rwa [hn] at h
  rw [List.take_add, List.append_assoc, hbody, List.drop_append_of_le_length (by simp [hle]),
    List.drop_take_self, List.nil_append, ← hk, run_take hflags]

/-! ### Numbers -/

/-- A scanner that stops within `u` stops there whether `y` or `y'` follows. -/
def Settles (f : List Char → Nat) (y y' : List Char) : Prop :=
  ∀ u, f (u ++ y) ≤ u.length → f (u ++ y') = f (u ++ y)

/-- One text begins like another, or with a space. -/
def BeginsLike (y y' : List Char) : Prop := y'.head? = y.head? ∨ y'.head? = some ' '

theorem BeginsLike.stops {p : Char → Bool} {y y' : List Char} (h : BeginsLike y y')
    (hp : p ' ' = false) (hy : y.head?.any p = false) : y'.head?.any p = false := by
  rcases h with h | h
  · rw [h, hy]
  · rw [h, Option.any_some, hp]

theorem BeginsLike.any {p : Char → Bool} {y y' : List Char} (h : BeginsLike y y')
    (hp : p ' ' = false) (hy : y'.head?.any p = true) : y.head?.any p = true := by
  cases hp' : y.head?.any p with
  | true => rfl
  | false => exact absurd hy (by simp [h.stops hp hp'])

theorem settles_run {p : Char → Bool} {y y' : List Char} (hh : BeginsLike y y')
    (hp : p ' ' = false) : Settles (run p) y y' := by
  intro u h
  induction u with
  | nil =>
    have hy : run p y = 0 := Nat.le_zero.mp h
    have hstop := (run_append_eq (t := [])).mp hy
    exact (run_append_eq (t := []).mpr ⟨by simp, hh.stops hp hstop.2⟩).trans hy.symm
  | cons c u ih =>
    simp only [run, List.cons_append, List.takeWhile_cons, List.length_cons] at h ih ⊢
    split
    · rename_i hc
      rw [if_pos hc, List.length_cons] at h
      simp [ih (by omega)]
    · rfl

/-- One scanner after another. -/
theorem Settles.andThen {f g : List Char → Nat} {y y' : List Char} (hf : Settles f y y')
    (hg : Settles g y y') : Settles (fun x => f x + g (x.drop (f x))) y y' := by
  intro u h
  dsimp only at h ⊢
  have hfu : f (u ++ y) ≤ u.length := by omega
  rw [hf u hfu]
  rw [List.drop_append_of_le_length hfu] at h ⊢
  rw [List.drop_append_of_le_length hfu, hg _ (by rw [List.length_drop]; omega)]

/-- A scanner behind a mark that may be missing. -/
theorem Settles.afterMark {f g : List Char → Nat} {m : Char} {y y' : List Char} (hnil : f [] = 0)
    (hcons : ∀ c r, f (c :: r) = if c = m then 1 + g r else 0)
    (hh : BeginsLike y y') (hm : (' ' == m) = false) (hg : Settles g y y') : Settles f y y' := by
  have hstop : ∀ x, x.head?.any (· == m) = false → f x = 0 := by
    intro x hx
    rcases x with _ | ⟨c, r⟩
    · exact hnil
    · rw [hcons, if_neg (by simpa using hx)]
  intro u h
  rcases u with _ | ⟨c, u⟩
  · rw [List.nil_append] at h
    have hy : y.head?.any (· == m) = false := by
      rcases y with _ | ⟨d, y⟩
      · rfl
      · refine Bool.eq_false_iff.mpr fun hd => ?_
        rw [hcons, if_pos (by simpa using hd)] at h
        simp at h
    exact (hstop y' (hh.stops hm hy)).trans (hstop y hy).symm
  · rw [List.cons_append, hcons, List.length_cons] at h
    rw [List.cons_append, List.cons_append, hcons, hcons]
    split at h
    · rename_i hc
      rw [if_pos hc, if_pos hc, hg u (by omega)]
    · rename_i hc
      rw [if_neg hc, if_neg hc]

theorem fraction_cons (c : Char) (r : List Char) :
    fraction (c :: r) = if c = '.' then 1 + run isDigitOrGap r else 0 := by
  unfold fraction
  split <;> simp_all

theorem bigSuffix_cons (c : Char) (r : List Char) :
    bigSuffix (c :: r) = if c = 'n' then 1 + 0 else 0 := by
  unfold bigSuffix
  split <;> simp_all

theorem exponent_cons_cons (e s : Char) (r : List Char) :
    exponent (e :: s :: r) =
      if (e == 'e' || e == 'E') && ((s == '+' || s == '-') && r.head?.any isDigit || isDigit s) then
        2 + run isDigitOrGap r
      else 0 := by
  cases r with
  | nil =>
    rw [exponent]
    simp [run]
  | cons d r =>
    rw [exponent, List.head?_cons, Option.any_some]
    cases hd : isDigit d with
    | false => simp
    | true =>
      have hrun : run isDigitOrGap (d :: r) = 1 + run isDigitOrGap r := by
        simp [run, isDigitOrGap, hd, Nat.add_comm]
      rw [hrun, ← Nat.add_assoc]
      cases (e == 'e' || e == 'E') <;> cases (s == '+' || s == '-') <;> cases isDigit s <;> simp

theorem exponent_le_one {x : List Char} : exponent x ≤ 1 → exponent x = 0 := by
  fun_cases exponent x <;> omega

theorem settles_exponent {y y' : List Char} (hh : BeginsLike y y')
    (h₀ : exponent y = 0 → exponent y' = 0)
    (h₁ : ∀ e, exponent (e :: y) = 0 → exponent (e :: y') = 0) : Settles exponent y y' := by
  have hrun : Settles (run isDigitOrGap) y y' := settles_run hh rfl
  intro u h
  rcases u with _ | ⟨e, _ | ⟨s, u⟩⟩
  · have hy : exponent y = 0 := Nat.le_zero.mp h
    exact (h₀ hy).trans hy.symm
  · have hy : exponent (e :: y) = 0 := exponent_le_one h
    exact (h₁ e hy).trans hy.symm
  · rw [List.cons_append, List.cons_append, exponent_cons_cons, List.length_cons,
      List.length_cons] at h
    rw [List.cons_append, List.cons_append, List.cons_append, List.cons_append,
      exponent_cons_cons, exponent_cons_cons]
    -- a digit after the sign belongs to the exponent, so it is not what follows
    have hcond : ((e == 'e' || e == 'E') &&
          ((s == '+' || s == '-') && (u ++ y').head?.any isDigit || isDigit s)) =
        ((e == 'e' || e == 'E') &&
          ((s == '+' || s == '-') && (u ++ y).head?.any isDigit || isDigit s)) := by
      rcases u with _ | ⟨d, u⟩
      · rw [List.nil_append, List.nil_append] at *
        cases hd : y.head?.any isDigit with
        | false => rw [hh.stops rfl hd]
        | true =>
          have hpos : 0 < run isDigitOrGap y := by
            rcases y with _ | ⟨d, y⟩
            · cases hd
            · simp [run, isDigitOrGap, show isDigit d = true by simpa using hd]
          have hno : ((e == 'e' || e == 'E') &&
              ((s == '+' || s == '-') && true || isDigit s)) = false := by
            refine Bool.eq_false_iff.mpr fun hc => ?_
            rw [hd, if_pos hc] at h
            simp at h
            omega
          rw [hno]
          revert hno
          generalize (e == 'e' || e == 'E') = a
          generalize (s == '+' || s == '-') = b
          cases a <;> cases b <;> simp
      · rfl
    rw [hcond]
    split at h
    · rename_i hc
      rw [if_pos hc, if_pos hc, hrun u (by omega)]
    · rename_i hc
      rw [if_neg hc, if_neg hc]

theorem settles_decimalNumber {c : Char} {y y' : List Char} (hh : BeginsLike y y')
    (h₀ : exponent y = 0 → exponent y' = 0)
    (h₁ : ∀ e, exponent (e :: y) = 0 → exponent (e :: y') = 0) :
    Settles (decimalNumber c) y y' := by
  have hwhole : Settles (run isDigitOrGap) y y' := settles_run hh rfl
  have hfrac : Settles (fun x => if c = '.' then 0 else fraction x) y y' := by
    split
    · intro u _
      rfl
    · exact Settles.afterMark rfl fraction_cons hh rfl hwhole
  have hsuffix : Settles bigSuffix y y' :=
    Settles.afterMark rfl bigSuffix_cons hh rfl (fun _ _ => rfl)
  exact ((hwhole.andThen hfrac).andThen (settles_exponent hh h₀ h₁)).andThen hsuffix

theorem numberLiteral_eq (c : Char) (r : List Char) :
    numberLiteral c r =
      if c = '0' && r.head?.any isRadixMark then
        1 + run (fun x => isAsciiLetter x || isDigit x || x == '_') r.tail
      else decimalNumber c r := by
  cases r with
  | nil =>
    rw [numberLiteral]
    simp [decimalNumber, run, fraction, exponent, bigSuffix]
  | cons m r => rfl

theorem settles_numberLiteral {c : Char} {y y' : List Char} (hh : BeginsLike y y')
    (h₀ : exponent y = 0 → exponent y' = 0)
    (h₁ : ∀ e, exponent (e :: y) = 0 → exponent (e :: y') = 0) :
    Settles (numberLiteral c) y y' := by
  have hdecimal : Settles (decimalNumber c) y y' := settles_decimalNumber hh h₀ h₁
  intro u h
  rcases u with _ | ⟨m, u⟩
  · rw [List.nil_append, numberLiteral_eq] at h
    rw [List.nil_append, List.nil_append, numberLiteral_eq, numberLiteral_eq]
    split at h
    · simp at h
    · rename_i hc
      have hc' : ¬ (decide (c = '0') && y'.head?.any isRadixMark) = true := by
        intro hc'
        rw [Bool.and_eq_true] at hc hc'
        exact hc ⟨hc'.1, hh.any rfl hc'.2⟩
      rw [if_neg hc, if_neg hc']
      exact hdecimal [] h
  · simp only [List.cons_append, numberLiteral] at h ⊢
    split at h
    · rename_i hm
      rw [if_pos hm, if_pos hm]
      rw [List.length_cons] at h
      exact congrArg (1 + ·) (settles_run hh rfl u (by omega))
    · rename_i hm
      rw [if_neg hm, if_neg hm]
      exact hdecimal (m :: u) h

end Retouch.Syntax
