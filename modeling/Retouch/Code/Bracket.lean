import Retouch.Syntax.Token

/-! Which closing bracket belongs to an opening one (`match_brackets`). Reading on from the opener,
every further opener is put on a stack and every closer that fits the top takes
it off; a closer that does not fit is passed over. The partner is the closer
that takes off the opener itself. An opener that is never closed keeps all
openers around it from being closed too. -/

namespace Retouch
open Syntax

inductive Bracket where
  | round
  | square
  | curly
  deriving DecidableEq, Repr

def opener? (t : Token) : Option Bracket :=
  if t.kind = .punctuator then
    match t.text with
    | "(" => some .round
    | "[" => some .square
    | "\x7b" => some .curly
    | _ => none
  else none

def closer? (t : Token) : Option Bracket :=
  if t.kind = .punctuator then
    match t.text with
    | ")" => some .round
    | "]" => some .square
    | "\x7d" => some .curly
    | _ => none
  else none

/-- The stack of open brackets after one more token, innermost first. -/
def afterToken (stack : List Bracket) (t : Token) : List Bracket :=
  match opener? t with
  | some b => b :: stack
  | none => if (closer? t).isSome && closer? t = stack.head? then stack.tail else stack

/-- How many tokens stand before the one that empties the stack. -/
def distance (stack : List Bracket) : List Token → Option Nat
  | [] => none
  | t :: ts =>
    match afterToken stack t with
    | [] => some 0
    | b :: bs => (distance (b :: bs) ts).map (· + 1)

/-- Partners of the tokens of a list whose first token has index `k` (`match_brackets`). -/
def partnersFrom (k : Nat) : List Token → List (Option Nat)
  | [] => []
  | t :: ts =>
    (match opener? t with
      | some b => (distance [b] ts).map (k + 1 + ·)
      | none => none) :: partnersFrom (k + 1) ts

theorem distance_lt {stack : List Bracket} {ts : List Token} {n : Nat}
    (h : distance stack ts = some n) : n < ts.length := by
  induction ts generalizing stack n with
  | nil => simp [distance] at h
  | cons t ts ih =>
    simp only [distance] at h
    split at h
    · simp only [Option.some.injEq] at h
      simp [← h]
    · obtain ⟨m, hm, rfl⟩ := Option.map_eq_some_iff.mp h
      simpa using ih hm

@[simp] theorem partnersFrom_length (k : Nat) (ts : List Token) :
    (partnersFrom k ts).length = ts.length := by
  induction ts generalizing k with
  | nil => rfl
  | cons t ts ih => simp [partnersFrom, ih]

theorem partnersFrom_bounds {k : Nat} {ts : List Token} {i close : Nat}
    (h : (partnersFrom k ts)[i]? = some (some close)) :
    k + i < close ∧ close < k + ts.length := by
  induction ts generalizing k i with
  | nil => simp [partnersFrom] at h
  | cons t ts ih =>
    cases i with
    | zero =>
      simp only [partnersFrom, List.getElem?_cons_zero, Option.some.injEq] at h
      split at h
      · obtain ⟨m, hm, rfl⟩ := Option.map_eq_some_iff.mp h
        have := distance_lt hm
        simp only [List.length_cons]
        omega
      · simp at h
    | succ i =>
      simp only [partnersFrom, List.getElem?_cons_succ] at h
      have := ih h
      simp only [List.length_cons]
      omega

end Retouch
