import Retouch.Number.Notation
import Retouch.Number.Read
import Retouch.Text.Wide

/-! Data that scripts hand around, with the conversions that scripts apply to it
without asking: to text, to a number, to a truth value. Structured data becomes
text by its `toString`; where a field of that name stands in the way there is no
text, and no number. -/

namespace Retouch

inductive Value where
  | undefined
  | null
  | bool (b : Bool)
  | number (n : Number)
  | text (s : String)
  /-- A unit sequence that is no text, because a surrogate stands alone. -/
  | loose (units : List Nat)
  | array (items : List Value)
  | object (fields : List (String × Value))
  deriving Repr, Inhabited

namespace Value

/-- The word for what kind of data a value is. -/
def typeName : Value → String
  | undefined => "undefined"
  | null | array _ | object _ => "object"
  | bool _ => "boolean"
  | number _ => "number"
  | text _ | loose _ => "string"

def isObject : Value → Bool
  | array _ | object _ => true
  | _ => false

def truthy : Value → Bool
  | undefined | null => false
  | bool b => b
  | number n => n ≠ .nan && n ≠ .zero
  | text s => s ≠ ""
  | loose us => !us.isEmpty
  | array _ | object _ => true

def ofWide : Wide → Value
  | .text s => text s
  | .loose us => loose us

/-- The text that a value is. -/
def wide? : Value → Option Wide
  | text s => some (.text s)
  | loose us => some (.loose us)
  | _ => none

mutual

/-- A value as text. Arrays are their items with commas between; items that are
absent are empty. -/
def toWide? : Value → Option Wide
  | undefined => some (.text "undefined")
  | null => some (.text "null")
  | bool b => some (.text (if b then "true" else "false"))
  | number n => some (.text n.toText)
  | text s => some (.text s)
  | loose us => some (.loose us)
  | array items => (itemWides? items).map (Wide.intercalate ",")
  | object fields =>
    if fields.any (·.1 = "toString") then none else some (.text "[object Object]")

def itemWides? : List Value → Option (List Wide)
  | [] => some []
  | .undefined :: vs | .null :: vs => (itemWides? vs).map (.text "" :: ·)
  | v :: vs =>
    match v.toWide?, itemWides? vs with
    | some w, some ws => some (w :: ws)
    | _, _ => none

end

mutual

/-- A value in the notation of the wire. Numbers that are not finite are null, and
fields without a value are left out. -/
def toJson : Value → String
  | undefined | null => "null"
  | bool b => if b then "true" else "false"
  | number n =>
    match n with
    | .finite .. => n.toText
    | _ => "null"
  | text s => Text.quote s
  | loose us => (Wide.loose us).quote
  | array items => "[" ++ ",".intercalate (itemJsons items) ++ "]"
  | object fields => "\x7b" ++ ",".intercalate (fieldJsons fields) ++ "\x7d"

def itemJsons : List Value → List String
  | [] => []
  | v :: vs => v.toJson :: itemJsons vs

def fieldJsons : List (String × Value) → List String
  | [] => []
  | (_, .undefined) :: fs => fieldJsons fs
  | (k, v) :: fs => (Text.quote k ++ ":" ++ v.toJson) :: fieldJsons fs

end

/-- Text as a number. -/
def wideNumber : Wide → Number
  | .text s => .ofText s
  | .loose _ => .nan

/-- A value as a number. Structured data goes by its text. -/
def toNumber? : Value → Option Number
  | undefined => some .nan
  | null => some .zero
  | bool b => some (if b then .ofNat 1 else .zero)
  | number n => some n
  | v => v.toWide?.map wideNumber

/-- The value itself, or the text of structured data. -/
def toScalar? (v : Value) : Option Value :=
  if v.isObject then v.toWide?.map ofWide else some v

/-- Equality without conversion. Two pieces of structured data are never the
same, whatever they hold. -/
def same : Value → Value → Bool
  | undefined, undefined | null, null => true
  | bool a, bool b => a = b
  | number a, number b => a.same b
  | text a, text b => a = b
  | loose a, loose b => a = b
  | _, _ => false

/-- `a < b` for values that are not structured: two texts compare by their units,
anything else as numbers. -/
def scalarLess? (a b : Value) : Option Bool :=
  match a.wide?, b.wide? with
  | some v, some w => some (v.before w)
  | _, _ =>
    match a.toNumber?, b.toNumber? with
    | some m, some n => some (m.less n)
    | _, _ => none

/-- `a < b`. -/
def less? (a b : Value) : Option Bool :=
  match a.toScalar?, b.toScalar? with
  | some a', some b' => scalarLess? a' b'
  | _, _ => none

/-- The array position that a text names: digits without a leading zero. -/
def positionOf? (key : String) : Option Nat :=
  match key.toList with
  | ['0'] => some 0
  | c :: cs =>
    if c ≠ '0' && (c :: cs).all Text.isDigit then some (Number.digitsValue (c :: cs)) else none
  | [] => none

def lookup? (fields : List (String × Value)) (key : String) : Option Value :=
  (fields.find? (·.1 = key)).map (·.2)

def lookup (fields : List (String × Value)) (key : String) : Value :=
  (lookup? fields key).getD undefined

/-- A unit of text, alone. -/
def ofUnit (u : Nat) : Value := ofWide (.ofUnits [u])

/-- What a value holds itself: fields, items, or the units of a text. -/
def own? (v : Value) (key : String) : Option Value :=
  match v with
  | object fields => lookup? fields key
  | array items =>
    if key = "length" then some (number (.ofNat items.length))
    else (positionOf? key).bind (items[·]?)
  | v => v.wide?.bind fun w =>
    if key = "length" then some (number (.ofNat w.length))
    else ((positionOf? key).bind (w.units[·]?)).map ofUnit

/-- A member of a value; `undefined` where there is none. -/
def member (v : Value) (key : String) : Value := (v.own? key).getD undefined

/-- Whether the key of a field is an array position; such fields come first, in
order of the position. -/
def fieldBefore (a b : String × Value) : Bool :=
  match positionOf? a.1, positionOf? b.1 with
  | some m, some n => m ≤ n
  | some _, none => true
  | none, some _ => false
  | none, none => true

/-- Structured data from fields in the order in which they were written. -/
def ofFields (fields : List (String × Value)) : Value := object (fields.mergeSort fieldBefore)

/-- The fields that a search condition lists. Text lists its units, an array its
items. -/
def listedFields : Value → List (String × Value)
  | object fields => fields
  | array items => items.mapIdx fun i v => (toString i, v)
  | text s => (Wide.text s).units.mapIdx fun i u => (toString i, ofUnit u)
  | loose us => us.mapIdx fun i u => (toString i, ofUnit u)
  | _ => []

end Value

end Retouch
