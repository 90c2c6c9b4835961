import Retouch.Script.Machine

/-! Runs of scripts. A run is a chain of turns, so what every turn keeps, a run keeps; and
there are only a few things that a turn can do to modules. Everything that is shown about
loading is shown for each of these. -/

namespace Retouch.Script
variable {E : Engine} {h : Host}

/-! ### Turns one after the other -/

/-- Some turns lead from one status to another. -/
inductive Reaches (h : Host) : Status E → Status E → Prop
  | refl (s : Status E) : Reaches h s s
  | turn {m : Machine E} {s t : Status E} : step h m = some s → Reaches h s t →
      Reaches h (.running m) t

theorem Reaches.trans {s t u : Status E} (hst : Reaches h s t) (htu : Reaches h t u) :
    Reaches h s u := by
  induction hst with
  | refl => exact htu
  | turn hstep _ ih => exact .turn hstep (ih htu)

theorem run_ended (r : Realm E) (answer : Except E.Value E.Value) :
    run h (.ended r answer) = some (r, answer) := by
  rw [run]

theorem run_running {m : Machine E} {s : Status E} (hstep : step h m = some s) :
    run h (.running m) = run h s := by
  rw [run]
  simp only [hstep]

theorem Reaches.run_eq {s t : Status E} (hst : Reaches h s t) : run h s = run h t := by
  induction hst with
  | refl => rfl
  | turn hstep _ ih => rw [run_running hstep, ih]

theorem reaches_of_run {s : Status E} {r : Realm E} {answer : Except E.Value E.Value}
    (hrun : run h s = some (r, answer)) : Reaches h s (.ended r answer) := by
  refine Status.run.partial_correctness h (fun s gave => Reaches h s (.ended gave.1 gave.2)) ?_ s _
    hrun
  intro run' ih s gave hgave
  cases s with
  | ended r answer =>
    cases hgave
    exact .refl _
  | running m =>
    dsimp only at hgave
    cases hstep : step h m with
    | none =>
      rw [hstep] at hgave
      cases hgave
    | some t =>
      rw [hstep] at hgave
      exact .turn hstep (ih t gave hgave)

theorem enter_of_loadModule {r : Realm E} {path : String}
    {gave : Realm E × Except E.Value E.Value} (hload : loadModule h r path = some gave) :
    ∃ s, enter h [] r path none = some s ∧ run h s = some gave := by
  unfold loadModule at hload
  cases hs : enter h [] r path none with
  | none =>
    rw [hs] at hload
    cases hload
  | some s =>
    rw [hs] at hload
    exact ⟨s, rfl, hload⟩

/-! ### What a turn can do -/

/-- What comes of asking for the module in a file. -/
inductive Enters (h : Host) (fs : List (Frame E)) (r : Realm E) (path : String)
    (next : Option (Except E.Value E.Value → E.Task)) : Status E → Prop
  | found {m : E.Module} : r.module? path = some m →
      Enters h fs r path next (answerWith fs (r.note (.asked path)) path m next)
  | unread {message : String} : r.module? path = none → h.read path = some (.failed message) →
      Enters h fs r path next (refuse fs (r.opening path) (E.error r.heap message) next)
  | broken : r.module? path = none → h.read path = some .panicked →
      Enters h fs r path next (refuse fs (r.reading path).panicking (E.wreck r.heap) next)
  | began {code : String} : r.module? path = none → h.read path = some (.source code) →
      Enters h fs r path next (start fs r path code (E.newModule r.heap path) next)

/-- What comes of what a script wants. -/
inductive Serves (h : Host) (fs : List (Frame E)) (r : Realm E) :
    Turn E.Value E.Task → Status E → Prop
  | returned (v : E.Value) : Serves h fs r (.returned v) (finish fs r (.ok v))
  | threw (v : E.Value) : Serves h fs r (.threw v) (finish fs r (.error v))
  | on (next : E.Task) : Serves h fs r (.on next) (.running ⟨r, fs, next⟩)
  | tell (e : Event) (next : E.Task) : Serves h fs r (.tell e next) (.running ⟨r.emit e, fs, next⟩)
  | toolkit (dir : String) (next : Except E.Value E.Value → E.Task) :
      Serves h fs r (.require dir toolkitSpecifier next)
        (resume fs (r.put (E.toolkit r.heap h.dialect.name).1)
          (.ok (E.toolkit r.heap h.dialect.name).2) (some next))
  | refused {dir specifier message : String} {next : Except E.Value E.Value → E.Task} :
      specifier ≠ toolkitSpecifier → h.resolve dir specifier = .error message →
      Serves h fs r (.require dir specifier next)
        (refuse fs r (E.error r.heap message) (some next))
  | entered {dir specifier path : String} {next : Except E.Value E.Value → E.Task}
      {s : Status E} : specifier ≠ toolkitSpecifier → h.resolve dir specifier = .ok path →
      Enters h fs r path (some next) s → Serves h fs r (.require dir specifier next) s

section
variable {fs : List (Frame E)} {r : Realm E} {s : Status E}

theorem enter_eq_some {path : String} {next : Option (Except E.Value E.Value → E.Task)} :
    enter h fs r path next = some s ↔ Enters h fs r path next s := by
  constructor
  · intro hs
    cases hmodule : r.module? path with
    | some m =>
      simp only [enter, hmodule, Option.some.injEq] at hs
      exact hs ▸ .found hmodule
    | none =>
      cases hread : h.read path with
      | none => simp [enter, hmodule, hread] at hs
      | some reading =>
        cases reading <;> simp only [enter, hmodule, hread, Option.some.injEq] at hs
        · exact hs ▸ .unread hmodule hread
        · exact hs ▸ .broken hmodule hread
        · exact hs ▸ .began hmodule hread
  · intro hs
    cases hs with
    | found hmodule => simp only [enter, hmodule]
    | unread hmodule hread | broken hmodule hread | began hmodule hread =>
      simp only [enter, hmodule, hread]

theorem serve_eq_some {turn : Turn E.Value E.Task} :
    serve h fs r turn = some s ↔ Serves h fs r turn s := by
  constructor
  · intro hs
    cases turn with
    | returned v => cases hs; exact .returned v
    | threw v => cases hs; exact .threw v
    | on next => cases hs; exact .on next
    | tell e next => cases hs; exact .tell e next
    | require dir specifier next =>
      by_cases hkit : specifier = toolkitSpecifier
      · subst hkit
        cases hs
        exact .toolkit dir next
      · simp only [serve, import?, if_neg hkit] at hs
        cases hresolve : h.resolve dir specifier with
        | ok path =>
          rw [hresolve] at hs
          exact .entered hkit hresolve (enter_eq_some.mp hs)
        | error message =>
          rw [hresolve] at hs
          cases hs
          exact .refused hkit hresolve
  · intro hs
    cases hs with
    | returned | threw | on | tell | toolkit => rfl
    | refused hkit hresolve => simp only [serve, import?, if_neg hkit, hresolve]
    | entered hkit hresolve henter =>
      simp only [serve, import?, if_neg hkit, hresolve, enter_eq_some.mpr henter]

theorem step_eq_some {m : Machine E} : step h m = some s ↔
    Serves h m.frames (m.realm.put (E.advance m.realm.heap m.task).1)
      (E.advance m.realm.heap m.task).2 s :=
  serve_eq_some

end

def Status.realm : Status E → Realm E
  | .running m => m.realm
  | .ended r _ => r

theorem realm_resume (fs : List (Frame E)) (r : Realm E) (answer : Except E.Value E.Value)
    (next : Option (Except E.Value E.Value → E.Task)) :
    (resume fs r answer next).realm = r.handing answer := by
  cases next <;> rfl

/-- Nothing has happened to modules. -/
structure Realm.Quiet (r r' : Realm E) : Prop where
  modules : r'.modules = r.modules
  dependencies : r'.dependencies = r.dependencies
  journal : r'.journal = r.journal

theorem Realm.quiet_put (r : Realm E) (heap : E.Heap) : r.Quiet (r.put heap) := ⟨rfl, rfl, rfl⟩

/-- What has to be shown so that a property of the running modules and their realm is kept,
where `K` holds of all paths that modules can have. -/
structure Invariant (h : Host) (K : String → Prop) (I : List (Frame E) → Realm E → Prop) :
    Prop where
  resolved : ∀ {dir specifier path}, h.resolve dir specifier = .ok path → K path
  quiet : ∀ {fs r r'}, Realm.Quiet r r' → I fs r → I fs r'
  refused : ∀ {fs r}, I fs r → I fs (r.note .raised)
  found : ∀ {fs r path m x}, r.module? path = some m → I fs r →
    I fs ((r.note (.asked path)).note (.answered path m x))
  unread : ∀ {fs r path message}, K path → r.module? path = none →
    h.read path = some (.failed message) → I fs r → I fs ((r.opening path).note .raised)
  broken : ∀ {fs r path}, K path → r.module? path = none → h.read path = some .panicked →
    I fs r → I fs ((r.reading path).note .raised)
  began : ∀ {fs r path code}, K path → r.module? path = none →
    h.read path = some (.source code) → I fs r →
    ∀ m next, I (⟨path, m, next⟩ :: fs) (r.starting path m)
  loaded : ∀ {f fs r x}, I (f :: fs) r → I fs (r.note (.answered f.path f.module x))
  failed : ∀ {f fs r}, I (f :: fs) r →
    I fs (((r.forget f.path).note (.failed f.path)).note .raised)

/-- A property holds of the modules that run, or of those that ran last. -/
def Status.Holds (I : List (Frame E) → Realm E → Prop) : Status E → Prop
  | .running m => I m.frames m.realm
  | .ended r _ => ∃ fs, I fs r

theorem Status.Holds.exists {I : List (Frame E) → Realm E → Prop} {s : Status E}
    (hs : s.Holds I) : ∃ fs, I fs s.realm := by
  cases s with
  | running m => exact ⟨m.frames, hs⟩
  | ended r answer => exact hs

namespace Invariant
variable {K : String → Prop} {I : List (Frame E) → Realm E → Prop}

theorem resume {fs : List (Frame E)} {r : Realm E} (answer : Except E.Value E.Value)
    (next : Option (Except E.Value E.Value → E.Task)) (hr : I fs (r.handing answer)) :
    (resume fs r answer next).Holds I := by
  cases next with
  | none => exact ⟨fs, hr⟩
  | some next => exact hr

theorem enter (hI : Invariant h K I) {fs : List (Frame E)} {r : Realm E} {path : String}
    {next : Option (Except E.Value E.Value → E.Task)} {s : Status E} (hK : K path) (hr : I fs r)
    (hs : Enters h fs r path next s) : s.Holds I := by
  cases hs with
  | found hmodule => exact resume (.ok _) _ (hI.found hmodule hr)
  | unread hmodule hread =>
    refine resume (.error _) _ (hI.quiet ?_ (hI.unread hK hmodule hread hr))
    exact ⟨rfl, rfl, rfl⟩
  | broken hmodule hread =>
    refine resume (.error _) _ (hI.quiet ?_ (hI.broken hK hmodule hread hr))
    exact ⟨rfl, rfl, rfl⟩
  | began hmodule hread =>
    exact hI.quiet (Realm.quiet_put _ _) (hI.began hK hmodule hread hr _ next)

theorem finish (hI : Invariant h K I) {fs : List (Frame E)} {r : Realm E}
    (answer : Except E.Value E.Value) (hr : I fs r) : (finish fs r answer).Holds I := by
  cases fs with
  | nil => exact ⟨[], hr⟩
  | cons f fs =>
    cases answer with
    | ok v => exact resume (.ok _) _ (hI.loaded (hI.quiet (Realm.quiet_put _ _) hr))
    | error e => exact resume (.error _) _ (hI.failed hr)

theorem step (hI : Invariant h K I) {m : Machine E} {s : Status E} (hm : I m.frames m.realm)
    (hs : step h m = some s) : s.Holds I := by
  have hserves := step_eq_some.mp hs
  have hr : I m.frames (m.realm.put (E.advance m.realm.heap m.task).1) :=
    hI.quiet (Realm.quiet_put _ _) hm
  generalize m.realm.put (E.advance m.realm.heap m.task).1 = r at hserves hr
  generalize (E.advance m.realm.heap m.task).2 = turn at hserves
  cases hserves with
  | returned v => exact hI.finish _ hr
  | threw v => exact hI.finish _ hr
  | on next => exact hr
  | tell e next =>
    have hquiet : r.Quiet (r.emit e) := ⟨rfl, rfl, rfl⟩
    exact hI.quiet hquiet hr
  | toolkit dir next => exact resume (.ok _) _ (hI.quiet (Realm.quiet_put _ _) hr)
  | refused => exact resume (.error _) _ (hI.refused (hI.quiet (Realm.quiet_put _ _) hr))
  | entered _ hresolve henters =>
    exact hI.enter (hI.resolved hresolve) hr henters

theorem reaches (hI : Invariant h K I) {s t : Status E} (hst : Reaches h s t) (hs : s.Holds I) :
    t.Holds I := by
  induction hst with
  | refl => exact hs
  | turn hstep _ ih => exact ih (hI.step hs hstep)

theorem runTask (hI : Invariant h K I) {r r' : Realm E} {task : E.Task}
    {answer : Except E.Value E.Value} (hrun : runTask h r task = some (r', answer)) (hr : I [] r) :
    ∃ fs, I fs r' :=
  hI.reaches (reaches_of_run hrun) hr

theorem loadModule (hI : Invariant h K I) {r r' : Realm E} {path : String}
    {answer : Except E.Value E.Value} (hload : loadModule h r path = some (r', answer))
    (hK : K path) (hr : I [] r) : ∃ fs, I fs r' := by
  obtain ⟨s, hs, hrun⟩ := enter_of_loadModule hload
  exact hI.reaches (reaches_of_run hrun) (hI.enter hK hr (enter_eq_some.mp hs))

end Invariant

end Retouch.Script
