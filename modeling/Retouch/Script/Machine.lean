import Retouch.Script.Realm

/-! Running scripts that import each other. A module is registered before it runs, so that
modules may import each other; one that throws is forgotten again. While a module runs,
the script that imports it waits. -/

namespace Retouch.Script
variable {E : Engine}

/-- A module that is running, and how the script that imports it goes on. The first module
is loaded for the host, which has nothing more to do. -/
structure Frame (E : Engine) where
  path : String
  module : E.Module
  next : Option (Except E.Value E.Value → E.Task)

/-- What runs, and the modules that it runs in, the innermost first. -/
structure Machine (E : Engine) where
  realm : Realm E
  frames : List (Frame E)
  task : E.Task

inductive Status (E : Engine) where
  | running (m : Machine E)
  | ended (r : Realm E) (answer : Except E.Value E.Value)

/-- Hand over what an import gives or throws. -/
def resume (frames : List (Frame E)) (r : Realm E) (answer : Except E.Value E.Value) :
    Option (Except E.Value E.Value → E.Task) → Status E
  | none => .ended (r.handing answer) answer
  | some next => .running ⟨r.handing answer, frames, next answer⟩

/-- Hand over a new error. -/
def refuse (frames : List (Frame E)) (r : Realm E) (made : E.Heap × E.Value)
    (next : Option (Except E.Value E.Value → E.Task)) : Status E :=
  resume frames (r.put made.1) (.error made.2) next

/-- Answer with the exports of a module. -/
def answerWith (frames : List (Frame E)) (r : Realm E) (path : String) (m : E.Module)
    (next : Option (Except E.Value E.Value → E.Task)) : Status E :=
  resume frames (r.note (.answered path m (E.exports r.heap m))) (.ok (E.exports r.heap m)) next

/-- Let a new module run. -/
def start (frames : List (Frame E)) (r : Realm E) (path code : String) (made : E.Heap × E.Module)
    (next : Option (Except E.Value E.Value → E.Task)) : Status E :=
  .running ⟨(r.starting path made.2).put made.1, ⟨path, made.2, next⟩ :: frames,
    E.body code made.2 path (Path.dirName path)⟩

/-- Ask for the module in a file, which runs unless it is registered (`loadModule`). -/
def enter (h : Host) (frames : List (Frame E)) (r : Realm E) (path : String)
    (next : Option (Except E.Value E.Value → E.Task)) : Option (Status E) :=
  match r.module? path with
  | some m => some (answerWith frames (r.note (.asked path)) path m next)
  | none =>
    match h.read path with
    | none => none
    | some (.failed message) =>
      some (refuse frames (r.opening path) (E.error r.heap message) next)
    | some .panicked => some (refuse frames (r.reading path).panicking (E.wreck r.heap) next)
    | some (.source code) => some (start frames r path code (E.newModule r.heap path) next)

/-- A task is over. If it was the body of a module, the module is loaded, or forgotten. -/
def finish (frames : List (Frame E)) (r : Realm E) (answer : Except E.Value E.Value) : Status E :=
  match frames with
  | [] => .ended r answer
  | ⟨path, m, next⟩ :: frames =>
    match answer with
    | .ok _ => answerWith frames (r.put (E.finishModule r.heap m)) path m next
    | .error e => resume frames ((r.forget path).note (.failed path)) (.error e) next

/-- Import by specifier from a module of a directory (`makeRequire`). -/
def import? (h : Host) (frames : List (Frame E)) (r : Realm E) (dir specifier : String)
    (next : Except E.Value E.Value → E.Task) : Option (Status E) :=
  if specifier = toolkitSpecifier then
    let kit := E.toolkit r.heap h.dialect.name
    some (resume frames (r.put kit.1) (.ok kit.2) (some next))
  else
    match h.resolve dir specifier with
    | .ok path => enter h frames r path (some next)
    | .error message => some (refuse frames r (E.error r.heap message) (some next))

/-- Give a script what it wants. -/
def serve (h : Host) (frames : List (Frame E)) (r : Realm E) :
    Turn E.Value E.Task → Option (Status E)
  | .returned v => some (finish frames r (.ok v))
  | .threw v => some (finish frames r (.error v))
  | .on next => some (.running ⟨r, frames, next⟩)
  | .tell e next => some (.running ⟨r.emit e, frames, next⟩)
  | .require dir specifier next => import? h frames r dir specifier next

/-- One turn. A turn may never end. -/
def step (h : Host) (m : Machine E) : Option (Status E) :=
  let gone := E.advance m.realm.heap m.task
  serve h m.frames (m.realm.put gone.1) gone.2

/-- Turn after turn, to the end if there is one. -/
def Status.run (h : Host) (s : Status E) : Option (Realm E × Except E.Value E.Value) :=
  match s with
  | .ended r answer => some (r, answer)
  | .running m =>
    match step h m with
    | none => none
    | some s => s |>.run h
partial_fixpoint

export Status (run)

/-- Run a task that belongs to no module. -/
def runTask (h : Host) (r : Realm E) (task : E.Task) :
    Option (Realm E × Except E.Value E.Value) :=
  run h (.running ⟨r, [], task⟩)

/-- The exports of the module in a file. -/
def loadModule (h : Host) (r : Realm E) (path : String) :
    Option (Realm E × Except E.Value E.Value) :=
  match enter h [] r path none with
  | none => none
  | some s => run h s

end Retouch.Script
