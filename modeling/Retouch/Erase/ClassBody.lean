import Retouch.Erase.Signature

/-! Class headers and class bodies. The scan of a body can stop making progress:
when a line begins with a token that cannot begin a member, and the line before
it could have ended a member there, the scan stays where it is. Such a class has
no erasure, and neither has the program around it; `none` stands for that. -/

namespace Retouch.Code
open Syntax Erase

/-- Words before a member's name that erasure keeps (`MEMBER_PREFIXES`). -/
def memberWords : List String := ["static", "async", "get", "set", "accessor"]

/-- Whether the word at `k` stands before a member's name and is not that name
(`member_name_follows`). -/
def nameFollows (c : Code) (k : Nat) : Bool :=
  c.isName (k + 1) || c.kind? (k + 1) = some .string || c.text (k + 1) ∈ ["[", "#", "*"]

/-- The modifiers of the member at `i`: what to erase of them, and where the
name stands. -/
def memberLead (c : Code) (i : Nat) : Erasure × Nat :=
  if _h : i < c.size then
    if c.isName i && c.text i ∈ modifiers && c.nameFollows i then
      let (spans, j) := c.memberLead (i + 1)
      (.single i :: spans, j)
    else if c.isName i && c.text i ∈ memberWords && c.nameFollows i then c.memberLead (i + 1)
    else if c.punct i "*" then c.memberLead (i + 1)
    else ([], i)
  else ([], i)
termination_by c.size - i

/-- Past the name of a member at `i`, or the index where the scan goes on when
no member begins there. -/
def memberName (c : Code) (i : Nat) : Except Nat Nat :=
  match c.text i with
  | "[" =>
    match c.partner i with
    | some close => .ok (close + 1)
    | none => .error (i + 1)
  | "#" => .ok (i + 2)
  | _ =>
    if c.isName i || c.kind? i = some .string || c.kind? i = some .number then .ok (i + 1)
    else .error i

/-- The marker and the annotation after a member's name, and where the scan
goes on. -/
def memberTail (c : Code) (after : Nat) : Erasure × Nat :=
  let marked := (c.punct after "?" || c.punct after "!") &&
    c.text (after + 1) ∈ [":", "(", ";", "=", "\x7d"]
  let colon := if marked then after + 1 else after
  let marker := if marked then [Span.single after] else []
  if c.punct colon ":" then
    let stop := c.typeEnd (colon + 1)
    (marker ++ [Span.upTo colon stop], stop)
  else (marker, colon)

/-- What to erase of the member at `i`, and where the scan goes on (`member`). -/
def member (c : Code) (i : Nat) : Erasure × Nat :=
  let (lead, j) := c.memberLead i
  match c.memberName j with
  | .error next => (lead, next)
  | .ok after =>
    let (tail, next) := c.memberTail after
    (lead ++ tail, next)

/-- What to erase of a class body from `i` up to its closing brace (`members`); `start` says
that a member begins here. -/
def memberSpans (c : Code) (close i : Nat) (start : Bool) : Option Erasure :=
  if _hi : i < close then
    if start || (c.freshLine i && c.endsExpression (i - 1)) then
      let (spans, next) := c.member i
      if _hn : i < next then (c.memberSpans close next false).map (spans ++ ·)
      else if start then (c.memberSpans close i false).map (spans ++ ·)
      else none
    else
      have _hg := lt_afterGroup c i
      match c.text i with
      | "(" | "[" => c.memberSpans close (c.afterGroup i) false
      | "\x7b" => c.memberSpans close (c.afterGroup i) true
      | ";" => c.memberSpans close (i + 1) true
      | _ => c.memberSpans close (i + 1) false
  else some []
termination_by (close - i, if start then 1 else 0)
decreasing_by
  all_goals
    simp only [Prod.lex_def]
    simp_all
    try omega

/-- The superclass of a class from `n` on: its type arguments, and where the
next clause or the body stands. -/
def heritage (c : Code) (n : Nat) : Erasure × Nat :=
  if _hn : n < c.size then
    if c.punct n "\x7b" || c.word n "implements" then ([], n)
    else
      have _hg := lt_afterGroup c n
      match ha : if c.punct n "<" then c.angleEnd n else none with
      | some stop =>
        let (spans, m) := c.heritage stop
        (.upTo n stop :: spans, m)
      | none =>
        if c.text n ∈ ["(", "["] then c.heritage (c.afterGroup n) else c.heritage (n + 1)
  else ([], n)
termination_by c.size - n
decreasing_by
  · split at ha
    · have := angleEnd_bounds ha
      omega
    · simp at ha
  · omega
  · omega

/-- The `implements` clause of a class at `n`: what to erase, and where the body
opens. -/
def implementsClause (c : Code) (n : Nat) : Option (Erasure × Nat) :=
  if c.word n "implements" then
    (c.findPunct n "\x7b").map fun brace => ([.upTo n brace], brace)
  else some ([], n)

/-- The type parameters of a class at `n`, when the tokens there can be some. -/
def classParameters (c : Code) (n : Nat) : Option (Erasure × Nat) :=
  if c.punct n "<" then (c.angleEnd n).map fun stop => ([.upTo n stop], stop)
  else some ([], n)

/-- The body of a class whose opening brace should stand at `n`. -/
def classBody (c : Code) (n : Nat) : Option Erasure :=
  match c.partner n with
  | some close => if c.punct n "\x7b" then c.memberSpans close (n + 1) true else some []
  | none => some []

/-- What to erase of the class whose keyword stands at `k` (`class`). -/
def classSpans (c : Code) (k : Nat) : Option Erasure :=
  let named := if c.kind? (k + 1) = some .identifier then k + 2 else k + 1
  match c.classParameters named with
  | none => some []
  | some (parameters, n) =>
    let (arguments, m) := if c.word n "extends" then c.heritage (n + 1) else ([], n)
    match c.implementsClause m with
    | none => some (parameters ++ arguments)
    | some (clause, body) =>
      (c.classBody body).map fun members => parameters ++ arguments ++ clause ++ members

end Retouch.Code
