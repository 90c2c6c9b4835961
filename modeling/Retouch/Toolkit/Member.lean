import Retouch.Value

/-! Members of structured data. Besides what it holds itself, data has members that
it inherits: the functions of all objects, those of arrays, and under one key what
it inherits them from. -/

namespace Retouch.Toolkit

/-- The key of what an object inherits from. -/
def baseKey : String := "__proto__"

/-- The functions that all objects share. -/
def commonFunctions : List String :=
  ["hasOwnProperty", "isPrototypeOf", "propertyIsEnumerable", "toLocaleString", "toString",
   "valueOf", "__defineGetter__", "__defineSetter__", "__lookupGetter__", "__lookupSetter__"]

/-- The functions that all functions share. -/
def callFunctions : List String := ["apply", "bind", "call"]

/-- The functions that all arrays share. -/
def arrayFunctions : List String :=
  ["at", "concat", "copyWithin", "entries", "every", "fill", "filter", "find", "findIndex",
   "findLast", "findLastIndex", "flat", "flatMap", "forEach", "includes", "indexOf", "join",
   "keys", "lastIndexOf", "map", "pop", "push", "reduce", "reduceRight", "reverse", "shift",
   "slice", "some", "sort", "splice", "toReversed", "toSorted", "toSpliced", "unshift", "values",
   "with"]

/-- A function that scripts can hold but that is not theirs, by its text. -/
structure Builtin where
  text : String
  isConstructor : Bool
  deriving DecidableEq, Repr

namespace Builtin

/-- The text of a function that shows no more than its name. -/
def closedText (name : String) : String :=
  "function " ++ name ++ "() \x7b\n    [native code]\n\x7d"

def method (name : String) : Builtin := ⟨closedText name, false⟩

def maker (name : String) : Builtin := ⟨closedText name, true⟩

end Builtin

inductive Member where
  | value (v : Value)
  | function (f : Builtin)
  /-- What all objects inherit from. -/
  | commonBase
  /-- What all arrays inherit from. -/
  | arrayBase
  deriving Repr

namespace Member

/-- What an object inherits from a base. The maker is the function that makes objects
of its kind. -/
def common? (base : Member) (maker key : String) : Option Member :=
  if key = baseKey then some base
  else if key = "constructor" then some (function (.maker maker))
  else if key ∈ commonFunctions then some (function (.method key))
  else none

/-- What an array inherits from a base. -/
def ofArray? (base : Member) (key : String) : Option Member :=
  if key ∈ arrayFunctions then some (function (.method key)) else common? base "Array" key

/-- What a function inherits. -/
def ofFunction? (key : String) : Option Member :=
  if key ∈ callFunctions then some (function (.method key))
  else common? (function (.method "")) "Function" key

/-- The function that makes values of a kind. -/
def makerName : Value → String
  | .bool _ => "Boolean"
  | .number _ => "Number"
  | .text _ | .loose _ => "String"
  | _ => "Object"

/-- What data inherits, when `base` is what it inherits from. -/
def inherited? (v : Value) (base : Member) (key : String) : Option Member :=
  match v with
  | .array _ => ofArray? base key
  | v => common? base (makerName v) key

def standardBase : Value → Member
  | .array _ => arrayBase
  | _ => commonBase

/-- A member of a member. -/
def read? : Member → String → Option Member
  | value v, key =>
    match v.own? key with
    | some w => some (value w)
    | none => inherited? v (standardBase v) key
  | function _, key => ofFunction? key
  | commonBase, key => common? (value .null) "Object" key
  | arrayBase, key =>
    if key = "length" then some (value (.number .zero)) else ofArray? commonBase key

def isObject : Member → Bool
  | value v => v.isObject
  | function _ => false
  | commonBase => true
  | arrayBase => true

/-- The data that a member is. -/
def value? : Member → Option Value
  | value v => some v
  | _ => none

end Member

/-- Whether a member, which may be missing, is the same as a value that is not
structured. -/
def isSame (actual : Option Member) (expected : Value) : Bool :=
  match actual with
  | none => Value.undefined.same expected
  | some (.value v) => v.same expected
  | some _ => false

/-- A member of a member that may be missing. -/
def readOf (m : Option Member) (key : String) : Option Member := m.bind (·.read? key)

/-! ### Search conditions -/

mutual

/-- Whether the members that a condition lists are there too. -/
def acceptsFields (read : String → Option Member) : List (String × Value) → Bool
  | [] => true
  | (key, expected) :: fs => acceptsMember (read key) expected && acceptsFields read fs

def acceptsItems (read : String → Option Member) (i : Nat) : List Value → Bool
  | [] => true
  | expected :: vs => acceptsMember (read (toString i)) expected && acceptsItems read (i + 1) vs

/-- Whether one member is as expected: structure member by member, the rest
without conversion. -/
def acceptsMember (actual : Option Member) : Value → Bool
  | .object fields => actual.any (·.isObject) && acceptsFields (readOf actual) fields
  | .array items => actual.any (·.isObject) && acceptsItems (readOf actual) 0 items
  | expected => isSame actual expected

end

/-- Whether something with the given members meets a search condition (`matches`). No
condition, and one that lists nothing, is always met. -/
def accepts (read : String → Option Member) (condition : Value) : Bool :=
  match condition with
  | .object fields => acceptsFields read fields
  | .array items => acceptsItems read 0 items
  | other => other.listedFields.all fun f => isSame (read f.1) f.2

end Retouch.Toolkit
