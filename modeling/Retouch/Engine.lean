import Retouch.Failure
import Retouch.Number.Reread
import Retouch.Value

/-! Engines run scripts. What an engine is made of is not known here: its heap, its values
and the code it is about to run are types of its own. It goes one turn at a time, and at
the end of each turn its host sees what the script wants. Everything that a context
takes from the clock or from chance, it takes from the moment at which it is made. -/

namespace Retouch

/-- A line that a script wrote (`LogLine`). -/
structure LogLine where
  level : String
  message : String
  deriving DecidableEq, Repr

/-- What a script counts with, as far as it matters: what is no condition to go on counts
as one, and only numbers count. -/
inductive Quantity where
  | falsy
  | number (n : Number)
  | other
  deriving DecidableEq, Repr

/-- How much a quantity counts: the whole part of the number that the host reads. One that
is missing, or false as a condition, counts as one, and only numbers count. -/
def Quantity.amount? : Quantity → Option UInt64
  | .falsy => some 1
  | .number (.finite m e) =>
    some (UInt64.ofNat ((Number.finite m e).reread.toNatUpTo (UInt64.size - 1)))
  | .number _ => none
  | .other => none

/-- What a script tells its host: a line of `console` or `api.report`, or a count of
`api.stats`. -/
inductive Event where
  | line (l : LogLine)
  | count (name : Wide) (quantity : Quantity)
  deriving DecidableEq, Repr

/-- What a transform is called with (`TransformInput` with a `CursorPosition`). Line and
column are signed numbers of 32 bits. -/
structure Invocation where
  source : String
  path : String
  position : Option (Int × Int)
  deriving DecidableEq, Repr

/-- A value as its host sees it (`type_of`). -/
inductive Look where
  | undefined
  | null
  | bool (b : Bool)
  | number (n : Number)
  | string (text : Wide)
  | array
  | object
  | function
  | constructor
  | exception (message : String) (stack : Option String)
  /-- Anything else, by the name of its type. -/
  | other (title : String)
  deriving DecidableEq, Repr

namespace Look

def isCallable : Look → Bool
  | function | constructor => true
  | _ => false

/-- The name of a type. -/
def title : Look → String
  | undefined => "Undefined"
  | null => "Null"
  | bool _ => "Bool"
  | number _ => "Float"
  | string _ => "String"
  | array => "Array"
  | object => "Object"
  | function => "Function"
  | constructor => "Constructor"
  | exception _ _ => "Exception"
  | other title => title

/-- A thrown value as it is reported (`script_error`). Only errors have a trace. Text that
cannot be written down is lost. -/
def scriptError : Look → ScriptError
  | exception message stack => (ScriptError.plain message).withStack stack
  | string text => .plain (text.text?.getD "")
  | number n => .plain (Value.number n).toJson
  | bool b => .plain (Value.bool b).toJson
  | l => .plain ("Uncaught " ++ l.title)

end Look

/-- What a script is about when a turn ends. -/
inductive Turn (Value Task : Type) where
  | returned (v : Value)
  | threw (v : Value)
  | on (next : Task)
  | tell (e : Event) (next : Task)
  /-- An import by specifier from a module of a directory; what it gives or throws is
  handed on. -/
  | require (dir specifier : String) (next : Except Value Value → Task)

structure Engine where
  Moment : Type
  Heap : Type
  Value : Type
  Module : Type
  Task : Type
  /-- A new context. -/
  fresh : Moment → Heap
  /-- One turn of a task. -/
  advance : Heap → Task → Heap × Turn Value Task
  look : Heap → Value → Look
  /-- A new error with a message. -/
  error : Heap → String → Heap × Value
  /-- What a script sees where its host broke down. -/
  wreck : Heap → Heap × Value
  /-- A new toolkit for a dialect (`makeToolkit`). -/
  toolkit : Heap → String → Heap × Value
  /-- A new module for a path, with no exports yet. -/
  newModule : Heap → String → Heap × Module
  /-- The exports of a module as they are now. -/
  exports : Heap → Module → Value
  /-- Mark a module as loaded. -/
  finishModule : Heap → Module → Heap
  /-- The body of a module: its source, the module, its path and its directory. -/
  body : String → Module → String → String → Task
  /-- Read the default export, if there are any exports to read it from. -/
  default : Value → Task
  /-- Call a function with a file, the interface for a dialect, and a position. -/
  call : Value → String → Invocation → Task
  /-- Whether the program that the engine is part of stops where a sum overflows. -/
  overflowPanics : Bool

/-- How a computation ends, if it does. -/
inductive Ending (α : Type) where
  | never
  | panic
  | back (a : α)
  deriving DecidableEq, Repr

end Retouch
