import Retouch.Text.Quoted
import Retouch.Text.Units

/-! Text as scripts hold it: any sequence of 16-bit units. Almost always that is text
proper, and it is kept as such. Only a sequence in which a surrogate stands alone is
kept by its units; it can be joined, measured and quoted, but not written down. -/

namespace Retouch

inductive Wide where
  | text (s : String)
  | loose (units : List Nat)
  deriving DecidableEq, Repr, Inhabited

namespace Wide
open Text

def units : Wide → List Nat
  | text s => s.toList.flatMap charUnits
  | loose us => us

def ofUnits (us : List Nat) : Wide :=
  match Text.ofUnits us with
  | some cs => text (String.ofList cs)
  | none => loose us

def text? : Wide → Option String
  | text s => some s
  | loose _ => none

/-- The length in units. -/
def length : Wide → Nat
  | text s => unitLength s
  | loose us => us.length

def reverse (w : Wide) : Wide := ofUnits w.units.reverse

/-- Texts one after the other. Surrogates may find their partners. -/
def join (ws : List Wide) : Wide :=
  match ws.mapM text? with
  | some ss => text (String.join ss)
  | none => ofUnits (ws.flatMap units)

/-- Texts one after the other, with a separator between. -/
def intercalate (separator : String) (ws : List Wide) : Wide :=
  join (ws.intersperse (text separator))

/-- Whether a sequence of units comes before another in the order of a dictionary. -/
def unitsBefore : List Nat → List Nat → Bool
  | _, [] => false
  | [], _ :: _ => true
  | a :: as, b :: bs => a < b || (a = b && unitsBefore as bs)

def before (a b : Wide) : Bool := unitsBefore a.units b.units

/-- A character, or a surrogate that stands alone. -/
inductive Piece where
  | char (c : Char)
  | lone (unit : Nat)
  deriving DecidableEq, Repr

def Piece.ofUnit (u : Nat) : Piece :=
  if isHighUnit u || isLowUnit u then lone u else char (Char.ofNat u)

def Piece.escaped : Piece → List Char
  | char c => escapeChar c
  | lone u => unicodeEscape u

def Piece.isChar : Piece → Bool
  | char _ => true
  | lone _ => false

/-- A piece to show to a reader: a lone surrogate has no character. -/
def Piece.shown : Piece → Char
  | char c => c
  | lone _ => '\ufffd'

/-- The characters of a sequence of units, and the surrogates between them. -/
def pieces : List Nat → List Piece
  | [] => []
  | [u] => [.ofUnit u]
  | u :: v :: vs =>
    if isHighUnit u && isLowUnit v then .char (pairedChar u v) :: pieces vs
    else .ofUnit u :: pieces (v :: vs)

/-- The text between quotes, where a lone surrogate is written by its number. -/
def quote : Wide → String
  | text s => Text.quote s
  | loose us => String.ofList ('"' :: ((pieces us).flatMap Piece.escaped ++ ['"']))

/-- How many bytes the text before the first lone surrogate takes. -/
def properBytes (w : Wide) : Nat :=
  ((pieces w.units).takeWhile Piece.isChar).foldr (fun p n => p.shown.utf8Size + n) 0

def shown : Wide → String
  | text s => s
  | loose us => String.ofList ((pieces us).map Piece.shown)

end Wide

end Retouch
