import Retouch.Notation.Store

/-! Items as scripts see them: their members, their text, and the words for what
they are. -/

namespace Retouch.Notation
open Syntax

/-- The fields of a dialect's toolkit. -/
def toolkitFields (d : Dialect) : List (String × Item) :=
  (Toolkit.Kit.ofDialect d).fields.map fun f => (f.1, .ofMember f.2)

def lookupItem? (fields : List (String × Item)) (name : String) : Option Item :=
  (fields.find? (·.1 = name)).map (·.2)

def lookupItem (fields : List (String × Item)) (name : String) : Item :=
  (lookupItem? fields name).getD .undefined

/-- A member that may be missing. -/
def Item.ofMember? (m : Option Toolkit.Member) : Item := (m.map Item.ofMember).getD .undefined

/-- What a record inherits: a function what all functions do. -/
def inheritedItem (r : Store) (id : Nat) (name : String) : Item :=
  .ofMember? (if (r.code id).isSome then Toolkit.Member.ofFunction? name
    else Toolkit.Member.common? .commonBase "Object" name)

/-- The message of the one error that is a literal. -/
def innerMessage : String := "inner"

/-- The trace of every error. -/
def trace : String := "    at script"

/-- A member of an item. Nothing can be read from what is absent. -/
def Item.member (i : Item) (name : String) : Prog Item := do
  match i with
  | .data v =>
    let _ ← orFail (Toolkit.readField v name)
    return .ofMember? ((Toolkit.Member.value v).read? name)
  | .record id =>
    let r ← get
    return (lookupItem? (r.fields id) name).getD (inheritedItem r id name)
  | .special .error =>
    match name with
    | "message" => return .text innerMessage
    | "name" => return .text "Error"
    | _ => return .undefined
  | .special _ => return .undefined
  | .toolkit d => return .ofMember? (← orFail ((Toolkit.Kit.ofDialect d).read? name))
  | .builtin _ => return .ofMember? (Toolkit.Member.ofFunction? name)

/-- The fields that can be copied from an item. -/
def Item.ownFields (i : Item) : Prog (List (String × Item)) := do
  match i with
  | .data .undefined => fail "cannot convert to object"
  | .data .null => fail "cannot convert to object"
  | .data v => return v.listedFields.map fun f => (f.1, .data f.2)
  | .record id => return (← get).fields id
  | .special _ => return []
  | .toolkit d => return toolkitFields d
  | .builtin _ => return []

namespace Item

def isAbsent : Item → Bool
  | .data .undefined => true
  | .data .null => true
  | _ => false

def isUndefined : Item → Bool
  | .data .undefined => true
  | _ => false

def truthy : Item → Bool
  | .data v => v.truthy
  | _ => true

/-- What a special item is seen as. -/
def specialLook : Special → Look
  | .symbol => .other "Symbol"
  | .bigint => .other "BigInt"
  | .function => .constructor
  | .arrow => .function
  | .constructor => .constructor
  | .promise => .other "Promise"
  | .date => .object
  | .map => .object
  | .error => .exception innerMessage (some trace)
  | .regexp => .object
  | .boxed => .object

def look (r : Store) : Item → Look
  | .data .undefined => .undefined
  | .data .null => .null
  | .data (.bool b) => .bool b
  | .data (.number n) => .number n
  | .data (.text s) => .string (.text s)
  | .data (.loose us) => .string (.loose us)
  | .data (.array _) => .array
  | .data (.object _) => .object
  | .special s => specialLook s
  | .toolkit _ => .constructor
  | .builtin f => if f.isConstructor then .constructor else .function
  | .record id =>
    match r.code id with
    | some (.body _ _ isAsync isArrow) => if isAsync || isArrow then .function else .constructor
    | some .bare => .constructor
    | none => .object

/-- Whether an item can be called. -/
def isCallable (r : Store) (i : Item) : Bool := (i.look r).isCallable

/-! ### As text -/

def specialText : Special → String
  | .symbol => "Symbol(s)"
  | .bigint => "12345678901234567890"
  | .function => "function () \x7b\x7d"
  | .arrow => "() => \x7b\x7d"
  | .constructor => "class \x7b\x7d"
  | .promise => "[object Promise]"
  | .date => "Thu Jan 01 1970 00:00:00 GMT+0000"
  | .map => "[object Map]"
  | .error => "Error: " ++ innerMessage
  | .regexp => "/x/"
  | .boxed => "boxed"

def recordText (r : Store) (id : Nat) : String :=
  if (r.code id).isSome then "function" else "[object Object]"

/-- Whether a record becomes text: a field under the name of the conversion hides
it, unless it can be called. -/
def isConvertible (r : Store) (id : Nat) : Bool :=
  (r.fields id).all fun f => f.1 ≠ "toString" || f.2.isCallable r

/-- An item as text. -/
def toWide (r : Store) : Item → Except Toolkit.Fault Wide
  | .data v => Toolkit.textOf v
  | .special s => .ok (.text (specialText s))
  | .toolkit _ => .ok (.text Toolkit.Kit.text)
  | .builtin f => .ok (.text f.text)
  | .record id => if isConvertible r id then .ok (.text (recordText r id)) else .error .noScalar

/-- Special items as plain data. -/
def specialData : Special → Except String Value
  | .bigint => .error "bigint are forbidden in JSON.stringify"
  | .date => .ok (.text "1970-01-01T00:00:00.000Z")
  | .boxed => .ok (.text "boxed")
  | .promise => .ok (.object [])
  | .map => .ok (.object [])
  | .error => .ok (.object [])
  | .regexp => .ok (.object [])
  | _ => .ok .undefined

mutual

/-- An item as plain data; functions have none. Records are followed to a depth,
and one that holds itself has no data. -/
def toData (r : Store) : Nat → Item → Except String Value
  | _, .data v => .ok v
  | 0, _ => .error "circular reference"
  | depth + 1, .record id =>
    if (r.code id).isSome then .ok .undefined
    else
      match fieldsData r depth (r.fields id) with
      | .ok fields => .ok (.ofFields fields)
      | .error e => .error e
  | _ + 1, .special s => specialData s
  | _ + 1, .toolkit _ => .ok .undefined
  | _ + 1, .builtin _ => .ok .undefined

def fieldsData (r : Store) (depth : Nat) :
    List (String × Item) → Except String (List (String × Value))
  | [] => .ok []
  | (name, i) :: fs =>
    match toData r depth i with
    | .error e => .error e
    | .ok v =>
      match fieldsData r depth fs with
      | .ok vs => .ok ((name, v) :: vs)
      | .error e => .error e

end

/-- An item as plain data. A chain of different records is no longer than the
store. -/
def plainData (r : Store) (i : Item) : Except String Value := i.toData r (r.records.size + 2)

/-- An item as it is logged: objects by what they hold, the rest as text. -/
def logText (r : Store) (i : Item) : Except String Wide :=
  match i with
  | .data v => .ok (if v.isObject then .text v.toJson else v.toWide?.getD (.text ""))
  | .special .error => .ok (.text (specialText .error))
  | .special .bigint => .ok (.text (specialText .bigint))
  | .special s =>
    match specialData s with
    | .ok .undefined => .ok (.text (specialText s))
    | .ok v => .ok (.text v.toJson)
    | .error e => .error e
  | .record id =>
    if (r.code id).isSome then .ok (.text (recordText r id))
    else
      match i.plainData r with
      | .ok v => .ok (.text v.toJson)
      | .error e => .error e
  | .toolkit _ => .ok (.text Toolkit.Kit.text)
  | .builtin f => .ok (.text f.text)

end Item

end Retouch.Notation
