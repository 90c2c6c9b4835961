import Retouch.Value

/-! Why an operation of the toolkit fails, and the conversions and reads that can
fail. -/

namespace Retouch.Toolkit

inductive Fault where
  | unknownParser (name : String)
  | notText (typeName : String)
  | noRegister
  | noPath
  /-- A field was read of what is absent. -/
  | unreadable (field : String) (isNull : Bool)
  | notCallable
  /-- Structured data that becomes neither text nor a number. -/
  | noScalar
  /-- Text that cannot be written down, because of a lone surrogate at a byte. -/
  | unwritable (offset : Nat)
  /-- A member that nobody may read. -/
  | guarded
  /-- What a function of the script threw. -/
  | thrown (message : String)
  deriving DecidableEq, Repr

/-- The dialects that are offered to whoever asked for an unknown one. -/
def offeredParsers : String := "js, jsx, ts, tsx, babel, flow"

def unknownParserMessage (name : String) : String :=
  "Unknown parser '" ++ name ++ "', expected one of " ++ offeredParsers

def Fault.message : Fault → String
  | unknownParser name => unknownParserMessage name
  | notText typeName => "j(source) expects a string, got " ++ typeName
  | noRegister => "no such collection"
  | noPath => "the collection is empty"
  | unreadable field isNull =>
    "cannot read property '" ++ field ++ "' of " ++ (if isNull then "null" else "undefined")
  | notCallable => "not a function"
  | noScalar => "toPrimitive"
  | unwritable offset =>
    "Conversion from string failed: invalid utf-8 sequence of 1 bytes from index " ++
      toString offset
  | guarded => "invalid property access"
  | thrown message => message

/-- A member of a value. Nothing can be read of what is absent. -/
def readField (v : Value) (field : String) : Except Fault Value :=
  match v with
  | .undefined => .error (.unreadable field false)
  | .null => .error (.unreadable field true)
  | v => .ok (v.member field)

def textOf (v : Value) : Except Fault Wide :=
  match v.toWide? with
  | some w => .ok w
  | none => .error .noScalar

def numberOf (v : Value) : Except Fault Number :=
  match v.toNumber? with
  | some n => .ok n
  | none => .error .noScalar

/-- Whether a value is smaller than another. -/
def isLess (a b : Value) : Except Fault Bool :=
  match a.less? b with
  | some answer => .ok answer
  | none => .error .noScalar

/-- The text proper that a text is. -/
def properText (w : Wide) : Except Fault String :=
  match w with
  | .text s => .ok s
  | .loose us => .error (.unwritable (Wide.loose us).properBytes)

end Retouch.Toolkit
