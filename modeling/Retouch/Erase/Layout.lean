import Retouch.Erase.Pass
import Retouch.Syntax.Tokenize
import Retouch.Text.Bytes

/-! The program text with its type syntax blanked out. Every erased character
becomes one space and line ends stay, so what is kept does not move. Erased tokens
that follow each other are blanked together with what stands between them. -/

namespace Retouch
open Syntax Text

namespace Code

/-- The last of the erased tokens that follow each other from `k` on. -/
def runLast (c : Code) (erased : Nat → Bool) (k : Nat) : Nat :=
  if k + 1 < c.size ∧ erased (k + 1) = true then c.runLast erased (k + 1) else k
termination_by c.size - k

theorem le_runLast (c : Code) (erased : Nat → Bool) (k : Nat) : k ≤ c.runLast erased k := by
  fun_induction runLast c erased k with
  | case1 k h ih => omega
  | case2 k h => omega

/-- The byte at which token `k` starts, and the one behind it. -/
def startOf (c : Code) (k : Nat) : Nat := (c.tokens[k]?.map (·.start.offset)).getD 0

def stopOf (c : Code) (k : Nat) : Nat := (c.tokens[k]?.map (·.stop.offset)).getD 0

/-- The stretches of the text to blank, in bytes: one for each run of erased tokens from
`k` on. -/
def blanks (c : Code) (erased : Nat → Bool) (k : Nat) : List (Nat × Nat) :=
  if k < c.size then
    if erased k then
      (c.startOf k, c.stopOf (c.runLast erased k)) :: c.blanks erased (c.runLast erased k + 1)
    else c.blanks erased (k + 1)
  else []
termination_by c.size - k
decreasing_by
  · have := c.le_runLast erased k
    omega
  · omega

end Code

namespace Erase

def blank (c : Char) : Char := if c = '\n' ∨ c = '\r' then c else ' '

/-- The source from byte `cursor` on, with stretches of it blanked. -/
def rebuilt (source : List Char) (cursor : Nat) : List (Nat × Nat) → List Char
  | [] => dropBytes cursor source
  | (start, stop) :: rest =>
    slice cursor start source ++ (slice start stop source).map blank ++ rebuilt source stop rest

/-- The source with its erased tokens blanked out (`finish`). -/
def finish (c : Code) (erased : Nat → Bool) (source : String) : String :=
  String.ofList (rebuilt source.toList 0 (c.blanks erased 0))

/-- The source without its type syntax (`strip_types`); untyped dialects have none. `none`
when the scan of a class in it never ends. -/
def eraseTypes (d : Dialect) (source : String) : Option String :=
  if d.isTyped then
    let code := Code.ofTokens (significant (tokenize d source))
    code.erasure.map fun e => finish code (code.isErased e) source
  else some source

end Erase

end Retouch
