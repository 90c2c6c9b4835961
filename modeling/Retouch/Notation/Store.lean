import Retouch.Engine
import Retouch.Notation.Script
import Retouch.Toolkit.Workbench

/-! What scripts in the notation work on, and their steps. Exports and functions are
records in a store, so that a module sees what another adds to its exports later. A
program is what remains to be done: it looks at the store or changes it, tells the host
something, asks for a module, or is over. -/

namespace Retouch.Notation
open Syntax

/-- What an expression can give. -/
inductive Item where
  | data (v : Value)
  /-- A record in the store. -/
  | record (id : Nat)
  | special (s : Special)
  /-- The toolkit for a dialect. -/
  | toolkit (d : Dialect)
  /-- A function that no script made. -/
  | builtin (f : Toolkit.Builtin)
  deriving Repr, Inhabited

def Item.undefined : Item := .data .undefined

def Item.text (s : String) : Item := .data (.text s)

def Item.ofWide (w : Wide) : Item := .data (.ofWide w)

/-- A member of data as an item. -/
def Item.ofMember : Toolkit.Member → Item
  | .value v => .data v
  | .function f => .builtin f
  | .commonBase => .data (.object [])
  | .arrayBase => .data (.array [])

/-- What the statements of a module see. -/
structure Scope where
  path : String
  dir : String
  /-- The module, and the exports that it began with. -/
  module : Nat
  exports : Nat
  bindings : List (String × Item)
  deriving Repr

inductive Code where
  | body (scope : Scope) (statements : List Statement) (isAsync isArrow : Bool)
  /-- A function that gives a constant text. -/
  | bare
  deriving Repr

/-- A record is a function if it has code. -/
structure Record where
  fields : List (String × Item)
  code : Option Code
  deriving Repr

structure Store where
  records : Array Record
  /-- The exports of each module. -/
  modules : Array Item
  counter : Nat
  deriving Repr

/-- What a script gives or throws: an error with a message, or anything else. -/
inductive Thrown where
  | error (message : Wide)
  | item (i : Item)
  deriving Repr

/-- What remains of a script. -/
inductive Prog (α : Type) where
  | done (a : α)
  | raise (e : Thrown)
  | look (next : Store → Prog α)
  | change (s : Store) (next : Prog α)
  | tell (e : Event) (next : Prog α)
  | require (dir specifier : String) (next : Except Thrown Thrown → Prog α)

namespace Prog
variable {α β : Type}

def bind : Prog α → (α → Prog β) → Prog β
  | done a, f => f a
  | raise e, _ => raise e
  | look next, f => look fun s => (next s).bind f
  | change s next, f => change s (next.bind f)
  | tell e next, f => tell e (next.bind f)
  | require dir specifier next, f => require dir specifier fun answer => (next answer).bind f

/-- Go on with something else where a program throws. -/
def catching (handle : Thrown → Prog α) : Prog α → Prog α
  | done a => done a
  | raise e => handle e
  | look next => look fun s => (next s).catching handle
  | change s next => change s (next.catching handle)
  | tell e next => tell e (next.catching handle)
  | require dir specifier next => require dir specifier fun answer =>
    (next answer).catching handle

instance : Monad Prog where
  pure := done
  bind := bind

instance : MonadStateOf Store Prog where
  get := look done
  set s := change s (done ())
  modifyGet f := look fun s => change (f s).2 (done (f s).1)

end Prog

def putField (fields : List (String × Item)) (name : String) (i : Item) : List (String × Item) :=
  if fields.any (·.1 = name) then fields.map fun f => if f.1 = name then (name, i) else f
  else fields ++ [(name, i)]

namespace Store

def empty : Store := ⟨#[], #[], 0⟩

def fields (s : Store) (id : Nat) : List (String × Item) :=
  (s.records[id]?.map Record.fields).getD []

def code (s : Store) (id : Nat) : Option Code := s.records[id]?.bind Record.code

/-- The exports of a module as they are now. -/
def exports (s : Store) (module : Nat) : Item := (s.modules[module]?).getD .undefined

def setExports (s : Store) (module : Nat) (i : Item) : Store :=
  { s with modules := s.modules.set! module i }

/-- Set a field of a record; other items take no fields. -/
def setField (s : Store) (target : Item) (name : String) (i : Item) : Store :=
  match target with
  | .record id =>
    { s with records := s.records.modify id fun rec =>
        { rec with fields := putField rec.fields name i } }
  | _ => s

end Store

/-- Make a record. -/
def newRecord (fields : List (String × Item)) (code : Option Code) : Prog Item := do
  let s ← get
  set { s with records := s.records.push ⟨fields, code⟩ }
  return .record s.records.size

/-- Throw an error with a message. -/
def fail {α : Type} (message : String) : Prog α := .raise (.error (.text message))

/-- Throw an error for a fault of the toolkit. -/
def orFail {α : Type} : Except Toolkit.Fault α → Prog α
  | .ok a => return a
  | .error f => fail f.message

/-- An item that was given. Nothing gives an error. -/
def Thrown.toItem : Thrown → Item
  | .item i => i
  | .error _ => .special .error

/-- Import by specifier from a module of a directory. -/
def importItem (dir specifier : String) : Prog Item :=
  .require dir specifier fun
    | .ok given => .done given.toItem
    | .error e => .raise e

end Retouch.Notation
