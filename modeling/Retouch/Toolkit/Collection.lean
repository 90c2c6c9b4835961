import Retouch.Toolkit.Document

/-! Collections: ascending lists of tokens of one document. Every way to make a
collection from another keeps the order and adds nothing, with one exception: a key
that names no element may still lead to something. The collection then holds a
number that need not be in it, or that is no token at all; every use of the latter
is a fault. -/

namespace Retouch.Toolkit
open Syntax

/-- Whether a position lies before a place (`before`). -/
def positionBefore (position : Value) (p : Place) : Except Fault Bool := do
  let line := position.member "line"
  if ← isLess line (.number (.ofNat p.line)) then return true
  if line.same (.number (.ofNat p.line)) then
    isLess (position.member "column") (.number (.ofNat p.column))
  else return false

/-- The tokens that pass a test. The first test that fails ends the search. -/
def sift (test : Nat → Except Fault Bool) : List Nat → Except Fault (List Nat)
  | [] => .ok []
  | i :: rest => do
    let kept ← test i
    let more ← sift test rest
    return if kept then i :: more else more

/-- Which element of a collection of `size` tokens a number names. A negative number
counts from the end. -/
def elementAt (size : Nat) (n : Number) : Option Nat :=
  if n.less .zero then ((Number.ofNat size).add n).toNat? else n.toNat?

namespace Document
variable {M : Type}

/-- Fail when a collection holds what is no token. The fault names the field that
its use would read. -/
def reach (doc : Document M) (members : List Nat) (field : String) : Except Fault PUnit :=
  if members.all (· < doc.size) then .ok () else .error (.unreadable field false)

/-- The tokens of a type that meet a condition (`Collection.find`). -/
def find (doc : Document M) (members : List Nat) (type condition : Value) :
    Except Fault (List Nat) := do
  doc.reach members "node"
  return members.filter fun i =>
    ((doc.node i).get "type").same type && accepts (doc.node i).read? condition

/-- What a key names in a collection. Besides the elements there is the size, and
there are functions, which are no tokens. -/
def keyed (doc : Document M) (members : List Nat) (key : String) : List Nat :=
  if key = "length" then [members.length]
  else if (Member.ofArray? .arrayBase key).isSome then [doc.size]
  else ((Value.positionOf? key).bind (members[·]?)).toList

/-- The element that an index names, alone. What is not a number is a key, unless it
counts as negative (`Collection.at`). -/
def elementOf (doc : Document M) (members : List Nat) (n : Value) : Except Fault (List Nat) := do
  match n with
  | .number x => return ((elementAt members.length x).bind (members[·]?)).toList
  | n =>
    if ← isLess n (.number .zero) then return []
    match ← textOf n with
    | .text key => return doc.keyed members key
    | .loose _ => return []

/-- Whether token `i` is significant and does not begin after a position. -/
def reaches (doc : Document M) (position : Value) (i : Nat) : Except Fault Bool :=
  match doc.entries[i]? with
  | some e =>
    if e.token.isTrivia then .ok false else (positionBefore position e.token.start).map not
  | none => .ok false

/-- The last significant token that begins no later than a position, alone
(`Collection.closestTo`). -/
def closestTo (doc : Document M) (members : List Nat) (position : Value) :
    Except Fault (List Nat) := do
  if !position.truthy then return []
  doc.reach members "type"
  return (← sift (doc.reaches position) members).getLast?.toList

end Document

end Retouch.Toolkit
