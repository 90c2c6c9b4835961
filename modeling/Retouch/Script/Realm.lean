import Retouch.Script.Host

/-! Realms: what the modules of one loaded script share. It is the heap of its engine, the
registry of modules, and what the host keeps about them. A journal tells what happened
to modules. -/

namespace Retouch.Script

/-- What happens to modules while scripts run. -/
inductive Note (E : Engine) where
  /-- A module is asked for its exports. -/
  | asked (path : String)
  | answered (path : String) (module : E.Module) (exports : E.Value)
  /-- A file is opened, whether it can be read or not. -/
  | opened (path : String)
  /-- A module begins to run. -/
  | began (path : String) (module : E.Module)
  /-- A module threw, and is forgotten. -/
  | failed (path : String)
  /-- What an import threw is handed to whoever asked for it. -/
  | raised

structure Realm (E : Engine) where
  heap : E.Heap
  /-- The modules that have been loaded or are being loaded. -/
  modules : List (String × E.Module)
  events : List Event
  /-- The files that were read, in order. -/
  dependencies : List OsString
  /-- Whether the host broke down in the middle of a script. The program stops as soon as
  an exception comes out of the engine. -/
  panicked : Bool
  /-- What happened so far, in order. -/
  journal : List (Note E)

namespace Realm
variable {E : Engine}

def fresh (moment : E.Moment) : Realm E := ⟨E.fresh moment, [], [], [], false, []⟩

def module? (r : Realm E) (path : String) : Option E.Module :=
  (r.modules.find? (·.1 = path)).map (·.2)

def put (r : Realm E) (heap : E.Heap) : Realm E := { r with heap }

def note (r : Realm E) (n : Note E) : Realm E := { r with journal := r.journal ++ [n] }

def emit (r : Realm E) (e : Event) : Realm E := { r with events := r.events ++ [e] }

/-- Note a file that was read. -/
def noteRead (r : Realm E) (path : OsString) : Realm E :=
  if r.dependencies.any (Path.same path) then r
  else { r with dependencies := r.dependencies ++ [path] }

def register (r : Realm E) (path : String) (m : E.Module) : Realm E :=
  { r with modules := (path, m) :: r.modules }

def forget (r : Realm E) (path : String) : Realm E :=
  { r with modules := r.modules.filter (·.1 ≠ path) }

/-- A module is asked for, and its file is opened. -/
def opening (r : Realm E) (path : String) : Realm E :=
  (r.note (.asked path)).note (.opened path)

/-- And the file is read. -/
def reading (r : Realm E) (path : String) : Realm E := (r.opening path).noteRead (.ofText path)

/-- And the module begins to run. -/
def starting (r : Realm E) (path : String) (m : E.Module) : Realm E :=
  ((r.reading path).register path m).note (.began path m)

/-- What an import gives or throws is handed over. -/
def handing (r : Realm E) : Except E.Value E.Value → Realm E
  | .ok _ => r
  | .error _ => r.note .raised

/-- The host breaks down. -/
def panicking (r : Realm E) : Realm E := { r with panicked := true }

end Realm

end Retouch.Script
