import Retouch.Lower.Statement
import Retouch.Erase.Layout

/-! Whole programs without import and export statements. Only statements outside
every brace count; what stands between them is kept as it is. -/

namespace Retouch.Code
open Syntax Lower

/-- Brace depth after token `k`; a closing brace too many does not count. -/
def depthAfter (c : Code) (depth k : Nat) : Nat :=
  if c.punct k "\x7b" then depth + 1
  else if c.punct k "\x7d" then depth - 1
  else depth

/-- Whether token `k` is a keyword outside braces and no member of anything. -/
def topLevel (c : Code) (depth k : Nat) : Bool :=
  depth = 0 && c.kind? k = some .keyword && !(0 < k && c.text (k - 1) ∈ [".", "?."])

/-- What becomes of token `k` and the statement that it begins. -/
def stepAt (c : Code) (depth count k : Nat) : Except LoweringError (Step k) :=
  if c.topLevel depth k then
    match c.text k with
    | "import" => .ok (if c.text (k + 1) ∈ ["(", "."] then .keep k else c.importStep count k)
    | "export" => c.exportStep k
    | _ => .ok (.keep k)
  else .ok (.keep k)

/-- The edits and deferred lines of the tokens from `k` on (the loop of `lower`). -/
def lowerFrom (c : Code) (depth count k : Nat) : Except LoweringError (List Edit × List String) :=
  if _h : k < c.size then
    match c.stepAt (c.depthAfter depth k) count k with
    | .error e => .error e
    | .ok ⟨edit, deferred, numbered, next, _⟩ =>
      match c.lowerFrom (c.depthAfter depth k) (if numbered then count + 1 else count) next with
      | .error e => .error e
      | .ok (edits, lines) => .ok (edit.toList ++ edits, deferred ++ lines)
  else .ok ([], [])
termination_by c.size - k

end Retouch.Code

namespace Retouch.Lower
open Syntax

structure Lowered where
  code : String
  /-- Whether any statement was replaced. -/
  isModule : Bool
  deriving DecidableEq, Repr

/-- The deferred lines, on lines of their own after the code. -/
def withTrailer (code : List Char) (lines : List String) : List Char :=
  if lines.isEmpty then code
  else
    (if code.getLast? = some '\n' then code else code ++ ['\n']) ++
      lines.flatMap fun l => l.toList ++ ['\n']

def lower (d : Dialect) (source : String) : Except LoweringError Lowered :=
  match (Code.ofTokens (significant (tokenize d source))).lowerFrom 0 0 0 with
  | .error e => .error e
  | .ok (edits, lines) =>
    .ok ⟨String.ofList (withTrailer (splice 0 source.toList edits) lines),
      !edits.isEmpty || !lines.isEmpty⟩

/-- Erase types, then lower. -/
def compile (d : Dialect) (source : String) : Option (Except LoweringError Lowered) :=
  (Erase.eraseTypes d source).map (lower d)

end Retouch.Lower
