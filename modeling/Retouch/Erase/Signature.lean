import Retouch.Erase.Span

/-! Annotations of parameter lists and return types. -/

namespace Retouch.Code
open Syntax Erase

/-- Modifiers that only the type system knows (`MODIFIERS`). -/
def modifiers : List String :=
  ["public", "private", "protected", "readonly", "declare", "abstract", "override"]

/-- The nearest token before `k` that is not erased. -/
def lastKept (erased : Erasure) : Nat → Option Nat
  | 0 => none
  | k + 1 => if erased.covers k then lastKept erased k else some k

/-- Whether the bracket at `k` opens the parameters of a declaration, and not a call or a
group (`declares_function`): a name, or a word that takes parameters, stands before it. -/
def declaresFunction (c : Code) (erased : Erasure) (k : Nat) : Bool :=
  match lastKept erased k with
  | none => false
  | some before =>
    match c.kind? before with
    | some .identifier => true
    | some .keyword => c.text before ∈ ["function", "catch", "get", "set"]
    | _ => false

/-- Past the modifiers at the front of a parameter. -/
def modifiersEnd (c : Code) (i : Nat) : Nat :=
  if h : c.isName i && c.text i ∈ modifiers &&
      (c.isName (i + 1) || c.text (i + 1) ∈ ["\x7b", "["]) then
    c.modifiersEnd (i + 1)
  else i
termination_by c.size - i
decreasing_by
  simp only [Bool.and_eq_true] at h
  have := lt_size_of_isName h.1.1
  omega

theorem le_modifiersEnd (c : Code) (i : Nat) : i ≤ c.modifiersEnd i := by
  fun_induction modifiersEnd c i with
  | case1 i h ih => omega
  | case2 => omega

/-- Just past a bracketed group at `i`, or past `i` when the bracket is open. -/
def afterGroup (c : Code) (i : Nat) : Nat := ((c.partner i).getD i) + 1

theorem lt_afterGroup (c : Code) (i : Nat) : i < c.afterGroup i := by
  unfold afterGroup
  cases h : c.partner i with
  | none => simp
  | some close => have := partner_bounds h; simp; omega

/-- Past the annotated parameter `this` at `i` and the comma after it. -/
def afterThis (c : Code) (i : Nat) : Nat :=
  if c.punct (c.typeEnd (i + 2)) "," then c.typeEnd (i + 2) + 1 else c.typeEnd (i + 2)

theorem le_afterThis (c : Code) (i : Nat) : i + 2 ≤ c.afterThis i := by
  have := le_typeEnd c (i + 2)
  unfold afterThis
  split <;> omega

/-- Where a parameter list stands: at the front of a parameter, after its name,
or in its default value, where colons and question marks are code. -/
inductive ParameterState where
  | front
  | name
  | default
  deriving DecidableEq, Repr

/-- What to erase of the parameters from `i` up to the closing bracket (the loop of
`parameters`). A parameter `this` goes together with the comma after it. -/
def parameterSpans (c : Code) (close i : Nat) (state : ParameterState) : Erasure :=
  if _hi : i < close then
    match state with
    | .front =>
      have _hm := le_modifiersEnd c i
      let erasedModifiers := if i < c.modifiersEnd i then [Span.upTo i (c.modifiersEnd i)] else []
      if c.word (c.modifiersEnd i) "this" && c.punct (c.modifiersEnd i + 1) ":" then
        have _ht := le_afterThis c (c.modifiersEnd i)
        erasedModifiers ++ Span.upTo (c.modifiersEnd i) (c.afterThis (c.modifiersEnd i)) ::
          c.parameterSpans close (c.afterThis (c.modifiersEnd i)) .front
      else erasedModifiers ++ c.parameterSpans close (c.modifiersEnd i) .name
    | state =>
      have _hg := lt_afterGroup c i
      have _ht := le_typeEnd c (i + 1)
      match c.text i with
      | "(" | "[" | "\x7b" => c.parameterSpans close (c.afterGroup i) state
      | "," => c.parameterSpans close (i + 1) .front
      | "=" => c.parameterSpans close (i + 1) .default
      | "?" =>
        if state = .name && c.text (i + 1) ∈ [":", ",", ")"] then
          .single i :: c.parameterSpans close (i + 1) state
        else c.parameterSpans close (i + 1) state
      | ":" =>
        if state = .name then
          .upTo i (c.typeEnd (i + 1)) :: c.parameterSpans close (c.typeEnd (i + 1)) state
        else c.parameterSpans close (i + 1) state
      | _ => c.parameterSpans close (i + 1) state
  else []
termination_by (close - i, if state = .front then 1 else 0)
decreasing_by
  all_goals
    simp only [Prod.lex_def]
    simp
    omega

/-- What to erase of the parameter list that opens at `k` and of the return type after it
(`parameters`). Nothing, when it is a call or a group. -/
def signatureSpans (c : Code) (erased : Erasure) (k : Nat) : Erasure :=
  match c.partner k with
  | none => []
  | some close =>
    match c.text (close + 1) with
    | "=>" => c.parameterSpans close (k + 1) .front
    | ":" =>
      let stop := c.typeEnd (close + 2)
      if c.punct stop "=>" || (c.punct stop "\x7b" && c.declaresFunction erased k) then
        c.parameterSpans close (k + 1) .front ++ [Span.upTo (close + 1) stop]
      else []
    | "\x7b" => if c.declaresFunction erased k then c.parameterSpans close (k + 1) .front else []
    | _ => []

end Retouch.Code
