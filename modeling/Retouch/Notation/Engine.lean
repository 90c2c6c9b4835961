import Retouch.Notation.Eval
import Retouch.Notation.Text

/-! An engine for scripts in the notation. -/

namespace Retouch.Notation
open Syntax

/-! ### The body of a module -/

/-- What a default import binds. -/
def defaultOf (m : Item) : Prog Item := do
  if m.isAbsent then return m
  let d ← m.member "default"
  return if d.isUndefined then m else d

/-- The bindings of one import of a module. -/
def importBindings (isModule : Bool) (i : Import) (m : Item) : Prog (List (String × Item)) := do
  let default ← match i.default with
    | some name => do pure [(name, ← defaultOf m)]
    | none => pure []
  let whole := match i.whole with
    | some name => [(name, m)]
    | none => []
  let named ← i.named.mapM fun (imported, name) => do
    if isModule && imported = "default" then return (name, ← defaultOf m)
    else return (name, ← m.member imported)
  return default ++ whole ++ named

def runImports (dir : String) (isModule : Bool) : List Import → Prog (List (String × Item))
  | [] => return []
  | i :: rest => do
    let m ← importItem dir i.specifier
    let bindings ← importBindings isModule i m
    return bindings ++ (← runImports dir isModule rest)

/-- Set one export of a module, on whatever its exports are now. -/
def setExport (module : Nat) (name : String) (i : Item) : Prog PUnit := do
  let target := (← get).exports module
  modify (·.setField target name i)

def replaceExports (module : Nat) (i : Item) : Prog PUnit := modify (·.setExports module i)

/-- Evaluate exports. Those of a module come back to be assigned later. -/
def runExports (s : Site) (isModule : Bool) :
    List (String × Expr) → Prog (List (String × Item))
  | [] => return []
  | (name, e) :: rest => do
    let i ← e.eval s
    if isModule then
      return (name, i) :: (← runExports s isModule rest)
    else
      modify (·.setField (.record s.scope.exports) name i)
      runExports s isModule rest

def runReexport (s : Scope) : Reexport → Prog PUnit
  | .names specifier pairs => do
    let m ← importItem s.dir specifier
    pairs.forM fun (a, b) => do setExport s.module b (← m.member a)
  | .whole specifier name => do setExport s.module name (← importItem s.dir specifier)
  | .all specifier => do
    let m ← importItem s.dir specifier
    (← m.ownFields).forM fun (name, i) => do
      if name ≠ "default" then setExport s.module name i

/-- Run the main part. A default function of a module is assigned later. -/
def runMain (s : Site) (isModule : Bool) : Main → Prog (List (String × Item))
  | .value e => do
    let i ← e.eval s
    if isModule then setExport s.scope.module "default" i else replaceExports s.scope.module i
    return []
  | .function role body isAsync => do
    let transform ← newRecord [] (some (.body s.scope body isAsync (role = .arrow)))
    let module := s.scope.module
    match role with
    | .default =>
      if isModule then return [("default", transform)]
      modify (·.setField (.record s.scope.exports) "default" transform)
    | .arrow =>
      if isModule then setExport module "default" transform else replaceExports module transform
    | .module => replaceExports module transform
    | .both => replaceExports module (← newRecord [("default", transform)] (some .bare))
    | .dataDefault =>
      modify (·.setField transform "default" (.text "data"))
      replaceExports module transform
    return []

/-- The record that the exports of a module are. -/
def Item.recordId : Item → Nat
  | .record id => id
  | _ => 0

def runScript (script : Script) (module : Nat) (path dir : String) : Prog PUnit := do
  let exports := ((← get).exports module).recordId
  let bindings ← runImports dir script.isModule script.imports
  let site : Site := ⟨⟨path, dir, module, exports, bindings⟩, none⟩
  match ← runAll site script.load with
  | some _ => return
  | none =>
    let deferred ← runExports site script.isModule script.exports
    script.reexports.forM (runReexport site.scope)
    let late ← match script.main with
      | some main => runMain site script.isModule main
      | none => pure []
    (deferred ++ late).forM fun (name, i) => setExport module name i

def syntaxErrorMessage : String := "unexpected token in expression: '\x7d'"

/-- Run the script that a text holds. -/
def runSource (source : String) (module : Nat) (path dir : String) : Prog Thrown :=
  match Script.ofText? source with
  | none => fail syntaxErrorMessage
  | some script => do
    runScript script module path dir
    return .item .undefined

/-! ### Calling -/

def callItem (d : Dialect) (inv : Invocation) : Item → Prog Item
  | .record id => do
    match (← get).code id with
    | some (.body scope statements isAsync _) =>
      let call := runAll ⟨scope, some (d, inv)⟩ statements
      if isAsync then
        Prog.catching (fun _ => return .special .promise)
          (do let _ ← call; return .special .promise)
      else return (← call).getD .undefined
    | some .bare => return .text "bare"
    | none => fail "not a function"
  | .special .constructor => fail "class constructors must be invoked with 'new'"
  | .special _ => return .undefined
  | .toolkit _ => fail (Toolkit.Fault.notText "object").message
  | .builtin _ => return .undefined
  | .data _ => fail "not a function"

def dialectNamed (name : String) : Dialect := (Dialect.ofName? name).getD .tsx

/-- The default export of a module, if it has exports. -/
def defaultField (r : Store) : Item → Item
  | .record id => lookupItem (r.fields id) "default"
  | _ => .undefined

/-! ### The engine -/

def advance (s : Store) : Prog Thrown → Store × Turn Thrown (Prog Thrown)
  | .done v => (s, .returned v)
  | .raise e => (s, .threw e)
  | .look next => (s, .on (next s))
  | .change s next => (s, .on next)
  | .tell e next => (s, .tell e next)
  | .require dir specifier next => (s, .require dir specifier next)

def Thrown.look (s : Store) : Thrown → Look
  | .error message => .exception (message.text?.getD "") (some trace)
  | .item i => i.look s

def newModule (s : Store) : Store × Nat :=
  ({ s with
      records := s.records.push ⟨[], none⟩
      modules := s.modules.push (.record s.records.size) }, s.modules.size)

def engine : Engine where
  Moment := Unit
  Heap := Store
  Value := Thrown
  Module := Nat
  Task := Prog Thrown
  fresh _ := .empty
  advance := advance
  look := Thrown.look
  error s message := (s, .error (.text message))
  wreck s := (s, .item (.data .null))
  toolkit s name := (s, .item (.toolkit (dialectNamed name)))
  newModule s _ := newModule s
  exports s module := .item (s.exports module)
  finishModule s _ := s
  body := runSource
  default v := do return .item (defaultField (← get) v.toItem)
  call v name inv := do return .item (← callItem (dialectNamed name) inv v.toItem)
  overflowPanics := false

end Retouch.Notation
