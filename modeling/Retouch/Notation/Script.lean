import Retouch.Value

/-! Scripts in a small notation: modules with imports and exports and at most one
transform. What a transform can do is what its expressions offer: read the source, edit
its tokens, and put texts together. -/

namespace Retouch.Notation

/-- Values that are neither data nor anything a script made itself. -/
inductive Special where
  | symbol
  | bigint
  | function
  | arrow
  | constructor
  | promise
  | date
  | map
  | error
  | regexp
  | boxed
  deriving DecidableEq, Repr

inductive Expr where
  /-- The source to transform. -/
  | source
  | path
  /-- The name of the dialect that the toolkit at hand is bound to. -/
  | parser
  /-- The same of the toolkit that is imported by name. -/
  | requiredParser
  | filename
  | dirname
  | line
  | column
  /-- The next number of a counter that all modules share. -/
  | count
  /-- The source with the names of its identifiers backwards. -/
  | reverse
  | tokenTypes
  | literal (v : Value)
  | special (s : Special)
  /-- An imported binding, or a member of it. -/
  | binding (name : String) (field : Option String)
  | concat (parts : List Expr)
  /-- The source with one identifier named otherwise. -/
  | rename (before after : String)
  /-- The source with the token at the cursor replaced. -/
  | cursor (name : String)
  deriving Repr, Inhabited

inductive Statement where
  | log (level : String) (args : List Expr)
  | report (message : Expr)
  | stats (name : Expr) (quantity : Option Expr)
  | throw (value : Expr)
  | throwError (message : Option Expr)
  | return (value : Expr)
  | require (specifier : String)
  /-- Import, and log the message if that fails. -/
  | tryRequire (specifier : String)
  | setExport (name : String) (value : Expr)
  deriving Repr

structure Import where
  specifier : String
  default : Option String
  whole : Option String
  named : List (String × String)
  deriving Repr

inductive Reexport where
  | names (specifier : String) (pairs : List (String × String))
  | whole (specifier : String) (name : String)
  | all (specifier : String)
  deriving Repr

/-- How a module offers its transform. -/
inductive Role where
  | default
  | arrow
  | module
  /-- A function of its own, with the transform as its default export. -/
  | both
  /-- The transform itself, with text as its default export. -/
  | dataDefault
  deriving DecidableEq, Repr

inductive Main where
  | function (role : Role) (body : List Statement) (isAsync : Bool)
  | value (e : Expr)
  deriving Repr

/-- A script. One written as a module assigns its exports after it has run. -/
structure Script where
  isModule : Bool
  imports : List Import
  load : List Statement
  exports : List (String × Expr)
  reexports : List Reexport
  main : Option Main
  deriving Repr

def Script.empty : Script := ⟨false, [], [], [], [], none⟩

end Retouch.Notation
