import Mathlib
import Retouch.Number.Basic

/-! Whole numbers among the doubles. Below `2 ^ 53` every natural number is a double,
so that comparing and adding such numbers is exact; above, rounding keeps a number on
the same side of `2 ^ 53`. -/

namespace Retouch.Number

/-! ### Powers and mantissas -/

theorem scale_natCast (base k : Nat) : scale base (k : Int) = base ^ k := rfl

theorem scale_neg_natCast (base k : Nat) : scale base (-(k : Int)) = 1 := by
  have h : (-(k : Int)).toNat = 0 := by omega
  rw [scale, h]
  rfl

theorem reduce_even {m : Nat} (hm : m ≠ 0) (e : Int) : reduce (m * 2) e = reduce m (e + 1) := by
  have h : m * 2 ≠ 0 ∧ m * 2 % 2 = 0 := by omega
  rw [reduce, dif_pos h, Nat.mul_div_cancel _ Nat.two_pos]

/-- Factors of two in the mantissa count as factors of two in the power. -/
theorem reduce_mul_pow {m : Nat} (hm : m ≠ 0) (k : Nat) (e : Int) :
    reduce (m * 2 ^ k) e = reduce m (e + k) := by
  induction k generalizing e with
  | zero => simp
  | succ k ih =>
    have hk : m * 2 ^ k ≠ 0 := Nat.mul_ne_zero hm (Nat.ne_of_gt (Nat.two_pow_pos k))
    rw [Nat.pow_succ, ← Nat.mul_assoc, reduce_even hk, ih]
    congr 1
    omega

/-- Reducing moves factors of two from the mantissa to the power. -/
theorem reduce_spec (m : Nat) (e : Int) :
    ∃ k : Nat, (reduce m e).2 = e + k ∧ m = (reduce m e).1 * 2 ^ k := by
  fun_induction reduce m e with
  | case1 m e h ih =>
    obtain ⟨k, hpower, hvalue⟩ := ih
    refine ⟨k + 1, by omega, ?_⟩
    rw [Nat.pow_succ, ← Nat.mul_assoc, ← hvalue]
    omega
  | case2 m e h => exact ⟨0, by simp, by simp⟩

/-- The integer that a mantissa and a power make. -/
theorem toInt?_ofScaled (negative : Bool) (m k : Nat) :
    (ofScaled negative m k).toInt? =
      some (if negative then -((m * 2 ^ k : Nat) : Int) else (m * 2 ^ k : Nat)) := by
  unfold ofScaled
  split
  · rename_i hm
    cases negative <;> simp [hm, zero, toInt?]
  · obtain ⟨j, hpower, hvalue⟩ := reduce_spec m k
    generalize reduce m k = r at hpower hvalue
    obtain ⟨m', e'⟩ := r
    dsimp only at hpower hvalue ⊢
    have he : e' = ((k + j : Nat) : Int) := by omega
    have hmul : m * 2 ^ k = m' * 2 ^ (k + j) := by
      rw [hvalue, Nat.mul_assoc, ← Nat.pow_add, Nat.add_comm]
    rw [he, toInt?, if_pos (Int.natCast_nonneg _), scale_natCast, hmul, Int.natCast_mul]
    cases negative with
    | false => rfl
    | true => exact congrArg some (Int.neg_mul _ _)

/-! ### Rounding whole numbers -/

theorem roundDiv_one (n : Nat) : roundDiv n 1 = n := by
  simp [roundDiv, Nat.mod_one]

/-- A quotient is rounded to one of its two neighbours. -/
theorem div_le_roundDiv (a b : Nat) : a / b ≤ roundDiv a b := by
  unfold roundDiv
  dsimp only
  split
  · exact Nat.le_refl _
  · split
    · exact Nat.le_succ _
    · split
      · exact Nat.le_refl _
      · exact Nat.le_succ _

/-- The rounding when the first guess at the exponent is right. -/
theorem ofRatio_guess (negative : Bool) {a : Nat} (ha : a ≠ 0) {e : Int}
    (hguess : (Nat.log2 a : Int) - 52 = e) (hwide : isNarrow a 1 e = false)
    (hleast : leastExponent ≤ e) :
    ofRatio negative a 1 =
      if scale 2 1024 ≤ scaledDiv a 1 e * scale 2 e then .infinite negative
      else ofScaled negative (scaledDiv a 1 e) e := by
  have hlog : (Nat.log2 a : Int) - Nat.log2 1 - 52 = e := by
    rw [show Nat.log2 1 = 0 by decide]
    omega
  rw [ofRatio, if_neg ha]
  dsimp only
  rw [hlog, hwide, if_neg Bool.false_ne_true, if_neg (Int.not_lt.mpr hleast)]

/-- A number that fits a significand is its own rounding. -/
theorem ofRatio_exact (negative : Bool) {n : Nat} (h : n < 2 ^ 53) :
    ofRatio negative n 1 = ofScaled negative n 0 := by
  by_cases hn : n = 0
  · rw [ofRatio, ofScaled, if_pos hn, if_pos hn]
  -- the significand is widened by `k` bits, which reducing takes back
  obtain ⟨k, hk⟩ : ∃ k : Nat, Nat.log2 n + k = 52 :=
    ⟨52 - Nat.log2 n, by have := (Nat.log2_lt hn).mpr h; omega⟩
  have hwide : 2 ^ 52 ≤ n * 2 ^ k := by
    rw [← hk, Nat.pow_add]
    exact Nat.mul_le_mul_right _ (Nat.log2_self_le hn)
  have hfits : n * 2 ^ k < 2 ^ 53 := by
    have hlog : n < 2 ^ (Nat.log2 n + 1) := Nat.lt_log2_self
    calc n * 2 ^ k < 2 ^ (Nat.log2 n + 1) * 2 ^ k :=
          Nat.mul_lt_mul_of_pos_right hlog (Nat.two_pow_pos k)
      _ = 2 ^ 53 := by rw [← Nat.pow_add]; congr 1; omega
  have hnarrow : isNarrow n 1 (-(k : Int)) = false := by
    rw [isNarrow, Int.neg_neg, scale_natCast, scale_neg_natCast, decide_eq_false_iff_not]
    exact Nat.not_lt.mpr hwide
  have hdiv : scaledDiv n 1 (-(k : Int)) = n * 2 ^ k := by
    unfold scaledDiv
    split
    · obtain rfl : k = 0 := by omega
      simp [scale, roundDiv_one]
    · rw [Int.neg_neg, scale_natCast, roundDiv_one]
  have hsmall : ¬ scale 2 1024 ≤ n * 2 ^ k * scale 2 (-(k : Int)) := by
    have hlarge {e : Int} (he : 53 ≤ e.toNat) : 2 ^ 53 ≤ scale 2 e :=
      Nat.pow_le_pow_right Nat.two_pos he
    have hmax : 2 ^ 53 ≤ scale 2 1024 := hlarge (by decide)
    rw [scale_neg_natCast]
    omega
  have hne : n * 2 ^ k ≠ 0 := Nat.mul_ne_zero hn (Nat.ne_of_gt (Nat.two_pow_pos k))
  rw [ofRatio_guess negative hn (by omega) hnarrow (by rw [leastExponent]; omega), hdiv,
    if_neg hsmall, ofScaled, if_neg hne, ofScaled, if_neg hn, reduce_mul_pow hn, Int.add_left_neg]

/-- A number that fits no significand keeps at least its leading bits. -/
theorem ofRatio_large (negative : Bool) {n : Nat} (h : 2 ^ 53 ≤ n) :
    ofRatio negative n 1 = .infinite negative ∨
      ∃ m k : Nat, 2 ^ 53 ≤ m * 2 ^ k ∧ ofRatio negative n 1 = ofScaled negative m k := by
  have hn : n ≠ 0 := by
    have := Nat.two_pow_pos 53
    omega
  obtain ⟨k, hk⟩ : ∃ k : Nat, Nat.log2 n = 52 + (k + 1) :=
    ⟨Nat.log2 n - 53, by have := (Nat.le_log2 hn).mpr h; omega⟩
  have hlead : 2 ^ 52 * 2 ^ (k + 1) ≤ n := by
    rw [← Nat.pow_add, ← hk]
    exact Nat.log2_self_le hn
  have hnarrow : isNarrow n 1 ((k + 1 : Nat) : Int) = false := by
    rw [isNarrow, scale_natCast, scale_neg_natCast, decide_eq_false_iff_not, Nat.mul_one,
      Nat.one_mul]
    exact Nat.not_lt.mpr hlead
  have hround : 2 ^ 52 ≤ scaledDiv n 1 ((k + 1 : Nat) : Int) := by
    rw [scaledDiv, if_pos (Int.natCast_nonneg _), scale_natCast, Nat.one_mul]
    exact Nat.le_trans ((Nat.le_div_iff_mul_le (Nat.two_pow_pos _)).mpr hlead)
      (div_le_roundDiv _ _)
  rw [ofRatio_guess negative hn (by omega) hnarrow (by rw [leastExponent]; omega)]
  generalize scaledDiv n 1 ((k + 1 : Nat) : Int) = m at hround
  split
  · exact .inl rfl
  · refine .inr ⟨m, k + 1, ?_, rfl⟩
    have hpow : 2 ^ 1 ≤ 2 ^ (k + 1) := Nat.pow_le_pow_right Nat.two_pos (by omega)
    exact Nat.mul_le_mul hround hpow

theorem toInt?_ofNat {n : Nat} (h : n < 2 ^ 53) : (ofNat n).toInt? = some (n : Int) := by
  rw [ofNat, ofRatio_exact false h]
  simpa using toInt?_ofScaled false n 0

/-! ### Comparing -/

/-- A power as a multiple of the smaller one of two. -/
theorem pow_eq_scale_mul {e f k : Nat} (hk : min e f ≤ k) :
    ((2 ^ k : Nat) : Int) = scale 2 ((k : Int) - min (e : Int) f) * (2 ^ min e f : Nat) := by
  have hdiff : ((k : Int) - min (e : Int) f) = ((k - min e f : Nat) : Int) := by omega
  rw [hdiff, scale_natCast, ← Int.natCast_mul, ← Nat.pow_add, Nat.sub_add_cancel hk]

theorem less_of_toInt? {x y : Number} {m n : Int} (hx : x.toInt? = some m)
    (hy : y.toInt? = some n) : x.less y = decide (m < n) := by
  cases x with
  | nan => cases hx
  | infinite negative => cases hx
  | finite a e =>
    cases y with
    | nan => cases hy
    | infinite negative => cases hy
    | finite b f =>
      simp only [toInt?, Option.ite_none_right_eq_some, Option.some.injEq] at hx hy
      obtain ⟨he, rfl⟩ := hx
      obtain ⟨hf, rfl⟩ := hy
      obtain ⟨e, rfl⟩ := Int.eq_ofNat_of_zero_le he
      obtain ⟨f, rfl⟩ := Int.eq_ofNat_of_zero_le hf
      have hpos : (0 : Int) < (2 ^ min e f : Nat) := Int.natCast_pos.mpr (Nat.two_pow_pos _)
      rw [scale_natCast, scale_natCast, pow_eq_scale_mul (Nat.min_le_left e f),
        pow_eq_scale_mul (Nat.min_le_right e f), ← Int.mul_assoc, ← Int.mul_assoc]
      exact decide_eq_decide.mpr (Int.mul_lt_mul_right hpos).symm

theorem toInt?_ofNat_large {n : Nat} (h : 2 ^ 53 ≤ n) :
    ofNat n = .infinite false ∨ ∃ v : Nat, 2 ^ 53 ≤ v ∧ (ofNat n).toInt? = some (v : Int) := by
  rw [ofNat]
  refine (ofRatio_large false h).imp_right ?_
  rintro ⟨m, k, hm, he⟩
  refine ⟨m * 2 ^ k, hm, ?_⟩
  rw [he, toInt?_ofScaled]
  rfl

/-- Comparing with a number below `2 ^ 53` is exact, however large the other one is. -/
theorem less_ofNat (m : Nat) {n : Nat} (hn : n < 2 ^ 53) :
    (ofNat m).less (ofNat n) = decide (m < n) := by
  by_cases hm : m < 2 ^ 53
  · rw [less_of_toInt? (toInt?_ofNat hm) (toInt?_ofNat hn)]
    exact decide_eq_decide.mpr Int.ofNat_lt
  · have hno : ¬ m < n := by omega
    rw [decide_eq_false hno]
    rcases toInt?_ofNat_large (Nat.not_lt.mp hm) with hinf | ⟨v, hv, hvalue⟩
    · have hfinite := toInt?_ofNat hn
      rw [hinf]
      cases hx : ofNat n with
      | finite a e => rfl
      | nan => rfl
      | infinite negative => rw [hx] at hfinite; cases hfinite
    · rw [less_of_toInt? hvalue (toInt?_ofNat hn), decide_eq_false_iff_not]
      omega

theorem same_iff {x y : Number} (hx : x ≠ .nan) : x.same y = true ↔ x = y := by
  cases x <;> simp_all [same]

theorem same_ofNat (m : Nat) {n : Nat} (hn : n < 2 ^ 53) :
    (ofNat m).same (ofNat n) = decide (m = n) := by
  have hint := toInt?_ofNat hn
  have hnan : ofNat m ≠ .nan := by
    by_cases hm : m < 2 ^ 53
    · intro h
      have hvalue := toInt?_ofNat hm
      rw [h] at hvalue
      cases hvalue
    · rcases toInt?_ofNat_large (Nat.not_lt.mp hm) with h | ⟨v, -, hvalue⟩
      · rw [h]
        exact Number.noConfusion
      · intro h
        rw [h] at hvalue
        cases hvalue
  rw [Bool.eq_iff_iff, same_iff hnan, decide_eq_true_eq]
  refine ⟨fun h => ?_, fun h => by rw [h]⟩
  by_cases hm : m < 2 ^ 53
  · have hvalue := toInt?_ofNat hm
    rw [h, hint, Option.some.injEq] at hvalue
    omega
  · rcases toInt?_ofNat_large (Nat.not_lt.mp hm) with hinf | ⟨v, hv, hvalue⟩
    · rw [← h, hinf] at hint
      cases hint
    · rw [h, hint, Option.some.injEq] at hvalue
      omega

/-! ### Counting from the end -/

theorem toNat?_of_toInt? {x : Number} {n : Int} (hx : x.toInt? = some n) :
    x.toNat? = if 0 ≤ n then some n.toNat else none := by
  cases x with
  | nan => cases hx
  | infinite negative => cases hx
  | finite a e =>
    simp only [toInt?, Option.ite_none_right_eq_some, Option.some.injEq] at hx
    obtain ⟨he, rfl⟩ := hx
    obtain ⟨e, rfl⟩ := Int.eq_ofNat_of_zero_le he
    have hpos : (0 : Int) < (2 ^ e : Nat) := Int.natCast_pos.mpr (Nat.two_pow_pos e)
    rw [toNat?, scale_natCast]
    by_cases ha : 0 ≤ a
    · obtain ⟨a, rfl⟩ := Int.eq_ofNat_of_zero_le ha
      rw [← Int.natCast_mul, if_pos (by simp), if_pos (Int.natCast_nonneg _)]
      rfl
    · have hneg : ¬ 0 ≤ a * (2 ^ e : Nat) := by
        have := Int.mul_neg_of_neg_of_pos (Int.not_le.mp ha) hpos
        omega
      rw [if_neg (by simp [ha]), if_neg hneg]

/-- A sum with a natural number below `2 ^ 53` is the rounded sum. -/
theorem ofNat_add {size : Nat} (h : size < 2 ^ 53) {x : Number} {n : Int}
    (hx : x.toInt? = some n) :
    (ofNat size).add x = ofRatio (size + n < 0) (size + n).natAbs 1 := by
  have hsize := toInt?_ofNat h
  cases x with
  | nan => cases hx
  | infinite negative => cases hx
  | finite b f =>
    cases hs : ofNat size with
    | nan => rw [hs] at hsize; cases hsize
    | infinite negative => rw [hs] at hsize; cases hsize
    | finite a e =>
      rw [hs] at hsize
      simp only [toInt?, Option.ite_none_right_eq_some, Option.some.injEq] at hx hsize
      obtain ⟨he, ha⟩ := hsize
      obtain ⟨hf, rfl⟩ := hx
      obtain ⟨e, rfl⟩ := Int.eq_ofNat_of_zero_le he
      obtain ⟨f, rfl⟩ := Int.eq_ofNat_of_zero_le hf
      rw [add]
      rw [scale_natCast] at ha ⊢
      have hlow : min (e : Int) f = ((min e f : Nat) : Int) := by omega
      have hpos : (0 : Int) < (2 ^ min e f : Nat) := Int.natCast_pos.mpr (Nat.two_pow_pos _)
      rw [← ha, pow_eq_scale_mul (Nat.min_le_left e f), pow_eq_scale_mul (Nat.min_le_right e f),
        ← Int.mul_assoc, ← Int.mul_assoc, ← Int.add_mul]
      generalize a * (scale 2 ((e : Int) - min (e : Int) f) : Int) +
        b * (scale 2 ((f : Int) - min (e : Int) f) : Int) = sum
      rw [hlow, scale_natCast, scale_neg_natCast, Int.natAbs_mul, Int.natAbs_natCast]
      congr 1
      refine decide_eq_decide.mpr ⟨fun hneg => Int.mul_neg_of_neg_of_pos hneg hpos, fun hneg => ?_⟩
      refine Int.not_le.mp fun hle => ?_
      have := Int.mul_nonneg hle (Int.le_of_lt hpos)
      omega

/-- A sum below zero names nothing, and any other sum below `2 ^ 53` itself. -/
theorem toNat?_ofNat_add {size : Nat} (h : size < 2 ^ 53) {x : Number} {n : Int}
    (hx : x.toInt? = some n) (hn : n < 0) :
    ((ofNat size).add x).toNat? = if 0 ≤ size + n then some (size + n).toNat else none := by
  rw [ofNat_add h hx]
  by_cases hneg : (size : Int) + n < 0
  · rw [decide_eq_true hneg, if_neg (by omega)]
    by_cases hfits : ((size : Int) + n).natAbs < 2 ^ 53
    · have hint := toInt?_ofScaled true ((size : Int) + n).natAbs 0
      rw [ofRatio_exact true hfits]
      refine (toNat?_of_toInt? hint).trans (if_neg ?_)
      simp only [Nat.pow_zero, Nat.mul_one, if_true]
      omega
    · rcases ofRatio_large true (Nat.not_lt.mp hfits) with hinf | ⟨m, k, hm, he⟩
      · rw [hinf]
        rfl
      · rw [he, toNat?_of_toInt? (toInt?_ofScaled true m k), if_neg]
        have := Nat.two_pow_pos 53
        simp only [if_true]
        omega
  · have hfits : ((size : Int) + n).natAbs < 2 ^ 53 := by omega
    have hint := toInt?_ofScaled false ((size : Int) + n).natAbs 0
    simp only [Nat.pow_zero, Nat.mul_one, Bool.false_eq_true, if_false] at hint
    rw [decide_eq_false hneg, if_pos (by omega), ofRatio_exact false hfits]
    refine (toNat?_of_toInt? hint).trans ((if_pos (Int.natCast_nonneg _)).trans ?_)
    congr 1
    omega

end Retouch.Number
