import Retouch.Proofs.LoadTermination

/-! A small engine to try things on. It knows what a few scripts do from a table, and has no
more values than they need. What it runs always comes to an end. -/

namespace Retouch.Script

/-! ### A limited number of turns -/

/-- The status after so many turns, or the last one. -/
def after {E : Engine} (h : Host) : Nat → Status E → Option (Status E)
  | 0, s => some s
  | _ + 1, .ended r answer => some (.ended r answer)
  | n + 1, .running m =>
    match step h m with
    | none => none
    | some s => after h n s

theorem reaches_of_after {E : Engine} {h : Host} {n : Nat} {s t : Status E}
    (ha : after h n s = some t) : Reaches h s t := by
  induction n generalizing s with
  | zero =>
    cases ha
    exact .refl _
  | succ n ih =>
    cases s with
    | ended r answer =>
      cases ha
      exact .refl _
    | running m =>
      rw [after] at ha
      cases hstep : step h m with
      | none =>
        rw [hstep] at ha
        cases ha
      | some s =>
        rw [hstep] at ha
        exact .turn hstep (ih ha)

theorem run_of_after {E : Engine} {h : Host} {n : Nat} {s : Status E} {r : Realm E}
    {answer : Except E.Value E.Value} (ha : after h n s = some (.ended r answer)) :
    run h s = some (r, answer) :=
  (reaches_of_after ha).run_eq.trans (run_ended r answer)

theorem loadModule_of_after {E : Engine} {h : Host} {n : Nat} {r r' : Realm E} {path : String}
    {answer : Except E.Value E.Value}
    (ha : (enter h [] r path none).bind (after h n) = some (.ended r' answer)) :
    loadModule h r path = some (r', answer) := by
  rw [loadModule]
  cases hs : enter h [] r path none with
  | none =>
    rw [hs] at ha
    cases ha
  | some s =>
    rw [hs] at ha
    exact run_of_after ha

end Retouch.Script

namespace Retouch.Sample
open Script

/-- What a script can do. -/
inductive Step where
  | require (specifier : String)
  /-- Import, and go on if that fails. -/
  | attempt (specifier : String)
  | throw (message : String)
  /-- Export a function. -/
  | offer (body : List Step)
  | tell (e : Event)
  /-- Return what was imported last. -/
  | giveImport
  /-- Return the source with something behind it. -/
  | giveSource (more : String)

inductive Value where
  | undefined
  | text (s : String)
  | error (message : String)
  | function (dir : String) (body : List Step)

inductive Task where
  | doing (steps : List Step) (module : Nat) (dir source : String) (imported : Value)
  | throwing (e : Value)

def advance (heap : List Value) : Task → List Value × Turn Value Task
  | .throwing e => (heap, .threw e)
  | .doing [] _ _ _ _ => (heap, .returned .undefined)
  | .doing (s :: steps) m dir source imported =>
    match s with
    | .require specifier => (heap, .require dir specifier fun
      | .ok v => .doing steps m dir source v
      | .error e => .throwing e)
    | .attempt specifier => (heap, .require dir specifier fun
      | .ok v => .doing steps m dir source v
      | .error _ => .doing steps m dir source imported)
    | .throw message => (heap, .threw (.error message))
    | .offer body => (heap.set m (.function dir body), .on (.doing steps m dir source imported))
    | .tell e => (heap, .tell e (.doing steps m dir source imported))
    | .giveImport => (heap, .returned imported)
    | .giveSource more => (heap, .returned (.text (source ++ more)))

def look : Value → Look
  | .undefined => .undefined
  | .text s => .string (.text s)
  | .error message => .exception message none
  | .function _ _ => .function

/-- What a few scripts do. -/
def scripts : String → List Step
  | "require('./lib'); require('./link');" => [.require "./lib", .require "./link"]
  | "require('../main');" => [.require "../main"]
  | "try \x7b require('./a'); \x7d catch \x7b\x7d try \x7b require('./a'); \x7d catch \x7b\x7d" =>
    [.attempt "./a", .attempt "./a"]
  | "require('./b');" => [.require "./b"]
  | "require('./a'); throw new Error('no');" => [.require "./a", .throw "no"]
  | "require('./real');" => [.require "./real"]
  | "require('./lib/util'); module.exports = file => file.source + '!';" =>
    [.require "./lib/util", .offer [.giveSource "!"]]
  | "module.exports = file => file.source + '!';" => [.offer [.giveSource "!"]]
  | "module.exports = () => require('jscodeshift').parser;" =>
    [.offer [.require toolkitSpecifier, .giveImport]]
  | _ => []

/-- The heap holds the exports of the modules, by number; a toolkit is the name of its
dialect. -/
@[reducible]
def engine : Engine where
  Moment := Unit
  Heap := List Value
  Value := Value
  Module := Nat
  Task := Task
  fresh _ := []
  advance := advance
  look _ := look
  error heap message := (heap, .error message)
  wreck heap := (heap, .undefined)
  toolkit heap name := (heap, .text name)
  newModule heap _ := (heap ++ [.undefined], heap.length)
  exports heap m := heap.getD m .undefined
  finishModule heap _ := heap
  body source m _ dir := .doing (scripts source) m dir "" .undefined
  default _ := .doing [] 0 "" "" .undefined
  call v _ inv :=
    match v with
    | .function dir body => .doing body 0 dir inv.source .undefined
    | v => .throwing v
  overflowPanics := true

/-- Reading a default export finds nothing. -/
theorem runTask_default (h : Host) (r : Realm engine) (exports : engine.Value) :
    runTask h r (engine.default exports) = some (r, .ok .undefined) :=
  run_of_after (n := 1) rfl

def load? (h : Host) (path : OsString) : Option (Transform engine) :=
  match (enter h [] (.fresh ()) (OsString.shown path) none).bind (after h 40) with
  | some (.ended r (.ok v)) =>
    if (look v).isCallable then some ⟨path, h.dialect, h.extensions, v, r⟩ else none
  | _ => none

theorem load_of_load? {h : Host} {path : OsString} {t : Transform engine}
    (ht : load? h path = some t) : Transform.load h path () = .back (.ok t) := by
  unfold load? at ht
  split at ht
  · rename_i r v hafter
    split at ht
    · rename_i hcallable
      cases ht
      rw [Transform.load, loadModule_of_after hafter]
      dsimp only
      rw [Transform.ofExports, runTask_default]
      have hoffered : transformOf? (E := engine) r.heap (.ok .undefined) v = some v :=
        if_pos hcallable
      dsimp only
      rw [hoffered]
      rfl
    · cases ht
  · cases ht

def call? (t : Transform engine) (disk : Files.Disk) (inv : Invocation) :
    Option (Realm engine × Except Value Value) :=
  match after (t.host disk) 40
    (.running ⟨t.silenced.realm, [], engine.call t.function t.dialect.name inv⟩) with
  | some (.ended r answer) => some (r, answer)
  | _ => none

theorem runTask_of_call? {t : Transform engine} {disk : Files.Disk} {inv : Invocation}
    {r : Realm engine} {answer : Except Value Value} (hr : call? t disk inv = some (r, answer)) :
    runTask (t.host disk) t.silenced.realm (engine.call t.function t.dialect.name inv) =
      some (r, answer) := by
  unfold call? at hr
  split at hr
  · rename_i hafter
    cases hr
    exact run_of_after hafter
  · cases hr

/-- A script is loaded and called: the text it gives, and what it tells. -/
def given? (h : Host) (path : OsString) (inv : Invocation) : Option (String × List Event) :=
  match load? h path with
  | none => none
  | some t =>
    match call? t h.disk inv with
    | some (r, .ok (.text s)) => some (s, r.events)
    | _ => none

theorem exists_of_given? {h : Host} {path : OsString} {inv : Invocation} {text : String}
    {events : List Event} (hg : given? h path inv = some (text, events)) :
    ∃ t r, load? h path = some t ∧ call? t h.disk inv = some (r, .ok (.text text)) ∧
      r.events = events := by
  unfold given? at hg
  cases ht : load? h path with
  | none =>
    rw [ht] at hg
    cases hg
  | some t =>
    rw [ht] at hg
    dsimp only at hg
    split at hg
    · rename_i r s hcall
      cases hg
      exact ⟨t, r, rfl, hcall, rfl⟩
    · cases hg

/-! ### What a journal tells -/

/-- The modules that began, in order. -/
def runs (journal : List (Note engine)) : List (String × Nat) :=
  journal.filterMap fun
    | .began path m => some (path, m)
    | _ => none

end Retouch.Sample
