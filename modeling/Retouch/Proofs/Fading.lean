import Retouch.Proofs.ErasedLayout
import Retouch.Proofs.Lockstep

/-! How far a lexeme reaches when text behind it is blanked out. Blanking puts
spaces in the place of characters and keeps the ends of lines, so a lexeme that is
kept stops where it stopped: a space continues none, and what ended it at a line
feed is still there. Operators need more care, since a longer one is preferred: none
comes up that was not there before. -/

namespace Retouch.Erase
open Syntax Text

/-! ### Texts with characters blanked out -/

/-- The second text is the first with some characters blanked out. -/
def Faded (x y : List Char) : Prop := List.Forall₂ Stands x y

namespace Faded
variable {x y : List Char}

theorem refl (x : List Char) : Faded x x := List.forall₂_same.mpr fun _ _ => .inl rfl

theorem keeps (t : List Char) (h : Faded x y) : Faded (t ++ x) (t ++ y) :=
  List.rel_append (refl t) h

theorem eq_nil (h : Faded [] y) : y = [] := List.forall₂_nil_left_iff.mp h

theorem beginsLike (h : Faded x y) : BeginsLike x y := by
  cases h with
  | nil => exact .inl rfl
  | cons hab _ =>
    rcases hab with rfl | ⟨rfl, -⟩
    · exact .inl rfl
    · exact .inr rfl

theorem newline (h : Faded x y) (hx : x.head? = some '\n') : y.head? = some '\n' := by
  cases h with
  | nil => cases hx
  | cons hab _ =>
    obtain rfl := Option.some.inj hx
    rcases hab with rfl | ⟨-, hn, -⟩
    · rfl
    · exact absurd rfl hn

theorem drop (h : Faded x y) (n : Nat) : Faded (x.drop n) (y.drop n) := List.forall₂_drop n h

/-- A mark at the front was there before. -/
theorem isPrefixOf {m : List Char} (hm : ' ' ∉ m) (h : Faded x y) (hy : m.isPrefixOf y = true) :
    m.isPrefixOf x = true := by
  induction m generalizing x y with
  | nil => simp
  | cons c m ih =>
    cases h with
    | nil => cases hy
    | @cons a b x y hab h =>
      simp only [List.isPrefixOf, Bool.and_eq_true, beq_iff_eq] at hy ⊢
      obtain ⟨rfl, hy⟩ := hy
      rcases hab with rfl | ⟨rfl, -⟩
      · exact ⟨rfl, ih (fun hs => hm (by simp [hs])) h hy⟩
      · simp at hm

/-- No exponent begins that did not begin before. -/
theorem exponent (h : Faded x y) (hx : Syntax.exponent x = 0) : Syntax.exponent y = 0 := by
  rcases h with _ | ⟨he, _ | ⟨hs, h⟩⟩
  · rfl
  · rfl
  · rw [exponent_eq_zero_iff] at hx ⊢
    rcases he with rfl | ⟨rfl, -⟩
    · rcases hs with rfl | ⟨rfl, -⟩
      · refine Bool.eq_false_iff.mpr fun hy => Bool.eq_false_iff.mp hx ?_
        simp only [Bool.and_eq_true, Bool.or_eq_true] at hy ⊢
        exact hy.imp_right (Or.imp_left (And.imp_right (BeginsLike.any (beginsLike h) rfl)))
      · simp [isDigit]
    · simp
end Faded

/-! ### Extents -/

section
variable {r y : List Char} {n : Nat}

/-- At the end of the text nothing changes. -/
theorem Faded.take_append (h : Faded (r.drop n) y) (hnil : r.drop n = []) : r.take n ++ y = r := by
  rw [hnil] at h
  rw [h.eq_nil, List.append_nil, List.take_of_length_le (List.drop_eq_nil_iff.mp hnil)]

theorem run_faded {p : Char → Bool} (hp : p ' ' = false) (h : Faded (r.drop (run p r)) y) :
    run p (r.take (run p r) ++ y) = run p r :=
  run_take (h.beginsLike.stops hp (run_cut p r).2)

theorem length_take_run (p : Char → Bool) (r : List Char) : (r.take (run p r)).length = run p r :=
  List.length_take_of_le (List.takeWhile_prefix p).length_le

theorem lineComment_faded (h : Faded (r.drop (run (· != '\n') r)) y) :
    run (· != '\n') (r.take (run (· != '\n') r) ++ y) = run (· != '\n') r := by
  refine run_take ?_
  have hcut := (run_cut (· != '\n') r).2
  cases hd : (r.drop (run (· != '\n') r)).head? with
  | none =>
    rw [List.head?_eq_none_iff] at hd
    rw [hd] at h
    rw [h.eq_nil]
    rfl
  | some d =>
    rw [hd] at hcut
    obtain rfl : d = '\n' := by simpa using hcut
    rw [h.newline hd]
    rfl

theorem blockComment_faded (h : Faded (r.drop (blockComment r)) y) :
    blockComment (r.take (blockComment r) ++ y) = blockComment r := by
  by_cases hnil : r.drop (blockComment r) = []
  · rw [h.take_append hnil]
  · exact (blockComment_take y hnil).1

theorem quoted_faded {quote : Char} (h : Faded (r.drop (quoted quote r)) y) :
    quoted quote (r.take (quoted quote r) ++ y) = quoted quote r := by
  cases hd : (r.drop (quoted quote r)).head? with
  | none => rw [h.take_append (List.head?_eq_none_iff.mp hd)]
  | some d => exact (quoted_take hd fun hline => h.newline (hline ▸ hd)).1

theorem templateChunk_faded (h : Faded (r.drop (templateChunk r).1) y) :
    templateChunk (r.take (templateChunk r).1 ++ y) = templateChunk r := by
  by_cases hnil : r.drop (templateChunk r).1 = []
  · rw [h.take_append hnil]
  · exact (templateChunk_take y hnil).1

theorem regexLiteral_faded (h : Faded (r.drop (regexLiteral r)) y) :
    regexLiteral (r.take (regexLiteral r) ++ y) = regexLiteral r := by
  cases hd : (r.drop (regexLiteral r)).head? with
  | none => rw [h.take_append (List.head?_eq_none_iff.mp hd)]
  | some d =>
    exact regexLiteral_take hd (h.beginsLike.stops rfl (regexLiteral_cut r))
      fun hline => h.newline (hline ▸ hd)

theorem numberLiteral_faded {c : Char} (h : Faded (r.drop (numberLiteral c r)) y) :
    numberLiteral c (r.take (numberLiteral c r) ++ y) = numberLiteral c r := by
  by_cases hnil : r.drop (numberLiteral c r) = []
  · rw [h.take_append hnil]
  · have hsettle := settles_numberLiteral (c := c) h.beginsLike h.exponent
      (fun e => (h.keeps [e]).exponent) (r.take (numberLiteral c r))
    rw [List.take_append_drop] at hsettle
    exact hsettle (Nat.le_of_eq (length_take_of_drop hnil).symm)

end

/-! ### Operators -/

theorem operators_no_space : ∀ op ∈ operators, ' ' ∉ op.toList := by decide

theorem operators_chain : ∀ op ∈ operators, ['?', '.'].isPrefixOf op.toList = true → op = "?." := by
  decide

theorem operators_long : ∀ op ∈ operators, 2 ≤ op.toList.length := by decide

/-- An operator that begins with a less-than sign goes on with a mark. -/
theorem operators_less : ∀ op ∈ operators, op.toList.head? = some '<' →
    op.toList.tail.head? = some '<' ∨ op.toList.tail.head? = some '=' := by
  decide

section
variable {x x' : List Char} {op : String}

theorem operatorAt_mem (h : operatorAt x = some op) :
    op ∈ operators ∧ op.toList.isPrefixOf x = true ∧
      (chainBeforeDigit x && op == "?.") = false := by
  rw [operatorAt_eq] at h
  have hp := List.find?_some h
  rw [Bool.and_eq_true, Bool.not_eq_true'] at hp
  exact ⟨List.mem_of_find?_eq_some h, hp⟩

theorem Faded.chainBeforeDigit (h : Faded x x') (hx : Syntax.chainBeforeDigit x' = true) :
    Syntax.chainBeforeDigit x = true := by
  unfold Syntax.chainBeforeDigit at hx ⊢
  rw [Bool.and_eq_true] at hx ⊢
  exact ⟨h.isPrefixOf (by decide) hx.1, (h.drop 2).beginsLike.any rfl hx.2⟩

/-- What is an operator in the faded text was one before, unless a digit after an
optional chain is gone. -/
theorem Faded.operator (h : Faded x x')
    (hchain : ['?', '.'].isPrefixOf x' = true → Syntax.chainBeforeDigit x = true →
      Syntax.chainBeforeDigit x' = true) (hop : op ∈ operators)
    (hx : (op.toList.isPrefixOf x' && !(Syntax.chainBeforeDigit x' && op == "?.")) = true) :
    (op.toList.isPrefixOf x && !(Syntax.chainBeforeDigit x && op == "?.")) = true := by
  simp only [Bool.and_eq_true, Bool.not_eq_true', Bool.and_eq_false_imp] at hx ⊢
  refine ⟨h.isPrefixOf (operators_no_space op hop) hx.1, fun hc => ?_⟩
  refine Bool.eq_false_iff.mpr fun he => ?_
  have hchain' := hchain (by simpa [beq_iff_eq.mp he] using hx.1) hc
  exact absurd he (Bool.eq_false_iff.mp (hx.2 hchain'))

theorem Faded.operatorAt_none (h : Faded x x')
    (hchain : ['?', '.'].isPrefixOf x' = true → Syntax.chainBeforeDigit x = true →
      Syntax.chainBeforeDigit x' = true) (hn : operatorAt x = none) : operatorAt x' = none := by
  rw [operatorAt_eq, List.find?_eq_none] at hn ⊢
  exact fun op hop hx => hn op hop (h.operator hchain hop hx)

theorem Faded.operatorAt_some (h : Faded x x') (ho : operatorAt x = some op)
    (hp : op.toList.isPrefixOf x' = true) : operatorAt x' = some op := by
  obtain ⟨hop, hpx, hno⟩ := operatorAt_mem ho
  -- a chain before a digit is no operator, and no other one begins as it does
  have hchain : Syntax.chainBeforeDigit x = false := by
    refine Bool.eq_false_iff.mpr fun hc => ?_
    have hfront := List.isPrefixOf_iff_prefix.mp (Bool.and_eq_true_iff.mp hc).1
    have hq := List.prefix_of_prefix_length_le hfront (List.isPrefixOf_iff_prefix.mp hpx)
      (operators_long op hop)
    rw [hc, operators_chain op hop (List.isPrefixOf_iff_prefix.mpr hq)] at hno
    cases hno
  have hchain' : Syntax.chainBeforeDigit x' = false :=
    Bool.eq_false_iff.mpr fun hc => Bool.eq_false_iff.mp hchain (h.chainBeforeDigit hc)
  rw [operatorAt_eq, List.find?_eq_some_iff_append] at ho ⊢
  obtain ⟨-, before, after, hlist, hbefore⟩ := ho
  refine ⟨by simp [hp, hchain'], before, after, hlist, fun o hb => ?_⟩
  have hmem : o ∈ operators := by rw [hlist]; simp [hb]
  have hno' := hbefore o hb
  rw [Bool.not_eq_true'] at hno' ⊢
  refine Bool.eq_false_iff.mpr fun hx => Bool.eq_false_iff.mp hno' ?_
  exact h.operator (fun _ hc => absurd hc (Bool.eq_false_iff.mp hchain)) hmem hx

end

end Retouch.Erase
