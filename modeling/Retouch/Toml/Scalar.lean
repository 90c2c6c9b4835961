import Retouch.Text.Classes

/-! The spellings of numbers, truth values and dates. Only the extent matters: no
setting takes such a value. -/

namespace Retouch.Toml
open Text

def isHexDigit (c : Char) : Bool := isDigit c || ('a' ≤ c && c ≤ 'f') || ('A' ≤ c && c ≤ 'F')

/-- Digits with single underscores between them. -/
def isDigitRun (ok : Char → Bool) : List Char → Bool
  | [] => false
  | [c] => ok c
  | c :: '_' :: rest => ok c && isDigitRun ok rest
  | c :: rest => ok c && isDigitRun ok rest

def withoutSign : List Char → List Char
  | '+' :: cs => cs
  | '-' :: cs => cs
  | cs => cs

/-- A run of decimal digits that begins with zero only if it is zero. -/
def isWhole (cs : List Char) : Bool :=
  isDigitRun isDigit cs && (cs.head? ≠ some '0' || cs.length = 1)

def isInteger (cs : List Char) : Bool :=
  match cs with
  | '0' :: 'x' :: ds => isDigitRun isHexDigit ds
  | '0' :: 'o' :: ds => isDigitRun (fun c => '0' ≤ c && c ≤ '7') ds
  | '0' :: 'b' :: ds => isDigitRun (fun c => c = '0' || c = '1') ds
  | _ => isWhole (withoutSign cs)

def isExponent (cs : List Char) : Bool := isDigitRun isDigit (withoutSign cs)

def isFloat (cs : List Char) : Bool :=
  let body := withoutSign cs
  if body = "inf".toList || body = "nan".toList then true
  else
    let whole := body.takeWhile fun c => isDigit c || c = '_'
    let rest := body.drop whole.length
    isWhole whole &&
      match rest with
      | '.' :: more =>
        let frac := more.takeWhile fun c => isDigit c || c = '_'
        isDigitRun isDigit frac &&
          match more.drop frac.length with
          | [] => true
          | c :: ex => (c = 'e' || c = 'E') && isExponent ex
      | c :: ex => (c = 'e' || c = 'E') && isExponent ex
      | [] => false

/-- Whether a text has the shape of a pattern in which `0` stands for a digit. -/
def hasShape : List Char → List Char → Bool
  | [], [] => true
  | p :: ps, c :: cs => (if p = '0' then isDigit c else p = c) && hasShape ps cs
  | _, _ => false

def isDate (cs : List Char) : Bool := hasShape "0000-00-00".toList cs

def isTime (cs : List Char) : Bool :=
  hasShape "00:00:00".toList (cs.take 8) &&
    match cs.drop 8 with
    | [] => true
    | '.' :: frac => !frac.isEmpty && frac.all isDigit
    | _ => false

/-- A time of day with or without the distance from universal time. -/
def isOffsetTime (cs : List Char) : Bool :=
  let time := cs.takeWhile fun c => isDigit c || c = ':' || c = '.'
  isTime time &&
    match cs.drop time.length with
    | [] => true
    | ['Z'] => true
    | ['z'] => true
    | _ :: zone => hasShape "00:00".toList zone && (cs.drop time.length).head? ≠ some 'Z'

def isDateTime (cs : List Char) : Bool :=
  isDate (cs.take 10) &&
    match cs.drop 10 with
    | [] => true
    | c :: time => (c = 'T' || c = 't') && isOffsetTime time

def isScalarChar (c : Char) : Bool :=
  isDigit c || isAsciiLetter c || c = '+' || c = '-' || c = '_' || c = '.' || c = ':'

def isScalar (cs : List Char) : Bool :=
  cs = "true".toList || cs = "false".toList || isInteger cs || isFloat cs || isDateTime cs ||
    isTime cs

/-- What follows a scalar at the front of a text. A blank may stand between a
date and a time. -/
def afterScalar? (cs : List Char) : Option (List Char) :=
  let word := cs.takeWhile isScalarChar
  let rest := cs.drop word.length
  if !isScalar word then none
  else
    match rest with
    | ' ' :: more =>
      let time := more.takeWhile isScalarChar
      if isDate word && isOffsetTime time then some (more.drop time.length) else some rest
    | _ => some rest

end Retouch.Toml
