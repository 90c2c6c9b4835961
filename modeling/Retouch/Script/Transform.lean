import Retouch.Script.Machine

/-! Transforms: the function that a script offers, together with the realm it
lives in. Calling it changes the realm and nothing else. -/

namespace Retouch.Script
open Files Syntax

variable {E : Engine}

structure Transform (E : Engine) where
  path : OsString
  dialect : Dialect
  extensions : List String
  function : E.Value
  realm : Realm E

/-- The function that exports offer: the default export if that can be called, else the
exports themselves (`resolve_export`). -/
def transformOf? (heap : E.Heap) (default : Except E.Value E.Value) (exports : E.Value) :
    Option E.Value :=
  match default with
  | .ok v => if (E.look heap v).isCallable then some v else callable? exports
  | .error _ => callable? exports
where
  callable? (v : E.Value) : Option E.Value := if (E.look heap v).isCallable then some v else none

/-- Whether the program stops when a script gives or throws something. -/
def stops (r : Realm E) : Except E.Value E.Value → Bool
  | .ok _ => false
  | .error _ => r.panicked

/-- The transform that exports offer, once their default export has been read. -/
def Transform.ofExports (h : Host) (path : OsString) (r : Realm E) (exports : E.Value) :
    Ending (Except Failure (Transform E)) :=
  match runTask h r (E.default exports) with
  | none => .never
  | some (r, default) =>
    if stops r default then .panic
    else
      match transformOf? r.heap default exports with
      | some function => .back (.ok ⟨path, h.dialect, h.extensions, function, r⟩)
      | none => .back (.error (.notCallable path))

/-- Load a script into a realm of its own (`ModuleLoader::load`). -/
def Transform.load (h : Host) (path : OsString) (moment : E.Moment) :
    Ending (Except Failure (Transform E)) :=
  match loadModule h (.fresh moment) (OsString.shown path) with
  | none => .never
  | some (r, .error e) =>
    if stops r (.error e) then .panic
    else .back (.error (.load path (E.look r.heap e).scriptError))
  | some (r, .ok exports) => Transform.ofExports h path r exports

/-! ### Calling -/

/-- What a transform asks for (`TransformResult`). -/
inductive Result where
  | replace (text : String)
  | skip
  | failed (error : ScriptError)
  deriving DecidableEq, Repr

def unexpected (phrase : String) : Result :=
  .failed (.plain ("transform returned " ++ phrase ++ ", expected a string"))

/-- Text replaces the source, anything falsy skips it, and the rest is a mistake
(`classify`). Text that cannot be written down is no text. -/
def classify : Look → Result
  | .undefined => .skip
  | .null => .skip
  | .string (.text s) => if s = "" then .skip else .replace s
  | .string (.loose _) => .skip
  | .bool b => if b then unexpected "a boolean" else .skip
  | .number n => if n = .nan || n = .zero then .skip else unexpected "a number"
  | .array => unexpected "an array"
  | .function => unexpected "a function"
  | .object => unexpected "an object"
  | l => unexpected l.title.toLower

/-- The result of a call that gave or threw something. -/
def resultOf (heap : E.Heap) : Except E.Value E.Value → Result
  | .ok v => classify (E.look heap v)
  | .error e => .failed (E.look heap e).scriptError

/-! ### What was told -/

abbrev Stats := List (String × UInt64)

/-- The sum of two counts. One that is too large stops the program, or loses what is too
much. -/
def addCounts (panics : Bool) (a b : UInt64) : Option UInt64 :=
  if panics && UInt64.size ≤ a.toNat + b.toNat then none else some (a + b)

/-- Add to the count of a name. Names are kept in order. -/
def Stats.add (panics : Bool) (stats : Stats) (name : String) (n : UInt64) : Option Stats :=
  match stats with
  | [] => some [(name, n)]
  | (k, v) :: rest =>
    if name = k then (addCounts panics v n).map fun sum => (k, sum) :: rest
    else if name < k then some ((name, n) :: (k, v) :: rest)
    else (Stats.add panics rest name n).map ((k, v) :: ·)

/-- Take account of an event (`StatEvent`). A name that cannot be written down is not
counted. -/
def Stats.count (panics : Bool) (stats : Stats) : Event → Option Stats
  | .line _ => some stats
  | .count (.text name) quantity =>
    match quantity.amount? with
    | some n => stats.add panics name n
    | none => some stats
  | .count _ _ => some stats

def lineOf? : Event → Option LogLine
  | .line l => some l
  | .count _ _ => none

structure Execution where
  result : Result
  logs : List LogLine
  stats : Stats
  deriving DecidableEq, Repr

namespace Transform

/-- Forget what was told so far. -/
def silenced (t : Transform E) : Transform E := { t with realm := { t.realm with events := [] } }

def host (t : Transform E) (disk : Disk) : Host := ⟨disk, t.extensions, t.dialect⟩

/-- What a call comes to: what its script told is counted or passed on. -/
def conclude (t : Transform E) (r : Realm E) (answer : Except E.Value E.Value) :
    Transform E × Ending Execution :=
  if stops r answer then ({ t with realm := { r with panicked := false } }, .panic)
  else
    ({ t with realm := { r with events := [] } },
      match r.events.foldlM (Stats.count E.overflowPanics) [] with
      | none => .panic
      | some stats => .back ⟨resultOf r.heap answer, r.events.filterMap lineOf?, stats⟩)

/-- Call a transform (`execute`). What its script told while loading, or in an earlier
call, is no part of the execution. -/
def execute (t : Transform E) (disk : Disk) (inv : Invocation) :
    Transform E × Ending Execution :=
  match runTask (t.host disk) t.silenced.realm (E.call t.function t.dialect.name inv) with
  | none => (t, .never)
  | some (r, answer) => t.conclude r answer

def dependencies (t : Transform E) : List OsString := t.realm.dependencies

end Transform

end Retouch.Script
