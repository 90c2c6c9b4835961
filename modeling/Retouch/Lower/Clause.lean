import Retouch.Code.Basic

/-! The parts of import and export clauses. -/

namespace Retouch.Code

/-- The first `needle` from `i` on that stands on the nesting level of depth 0.
A semicolon on that level ends the search. -/
def findOnLevel (c : Code) (needle : String) (i : Nat) (depth : Int) : Option Nat :=
  if _h : i < c.size then
    if depth = 0 && c.text i = needle then some i
    else
      match c.text i with
      | "\x7b" | "(" | "[" => c.findOnLevel needle (i + 1) (depth + 1)
      | "\x7d" | ")" | "]" => c.findOnLevel needle (i + 1) (depth - 1)
      | ";" => if depth = 0 then none else c.findOnLevel needle (i + 1) depth
      | _ => c.findOnLevel needle (i + 1) depth
  else none
termination_by c.size - i

/-- The first `needle` at or after `k` on the same nesting level (`find`). -/
def find (c : Code) (k : Nat) (needle : String) : Option Nat := c.findOnLevel needle k 0

theorem findOnLevel_bounds {c : Code} {needle : String} {i j : Nat} {depth : Int}
    (h : c.findOnLevel needle i depth = some j) : i ≤ j ∧ j < c.size := by
  fun_induction findOnLevel c needle i depth with
  | case1 i depth hi hn => simp only [Option.some.injEq] at h; omega
  | case2 => simp_all; omega
  | case3 => simp_all; omega
  | case4 => simp_all; omega
  | case5 => simp_all; omega
  | case6 => simp_all; omega
  | case7 => simp_all; omega
  | case8 => simp at h
  | case9 => simp_all; omega
  | case10 => simp_all; omega
  | case11 => simp at h

theorem find_bounds {c : Code} {k j : Nat} {needle : String} (h : c.find k needle = some j) :
    k ≤ j ∧ j < c.size := findOnLevel_bounds h

/-- One entry of a specifier list: the name on the far side, and the name here. -/
structure Specifier where
  imported : String
  localName : String
  deriving DecidableEq, Repr

/-- The specifiers from `i` up to the closing brace (`specifiers`). Entries of types only
are left out. -/
def specifiers (c : Code) (close i : Nat) : List Specifier :=
  if _h : i < close then
    if c.text i = "," then c.specifiers close (i + 1)
    else if c.text i = "type" && c.text (i + 1) ∉ [",", "\x7d", "as"] then
      if c.text (i + 2) = "as" then c.specifiers close (i + 4) else c.specifiers close (i + 2)
    else if c.text (i + 1) = "as" then
      ⟨c.text i, c.text (i + 2)⟩ :: c.specifiers close (i + 3)
    else ⟨c.text i, c.text i⟩ :: c.specifiers close (i + 1)
  else []
termination_by close - i

end Retouch.Code
