import Retouch.Loader
import Retouch.Proofs.NormalForms
import Retouch.Proofs.SampleEngine

/-! The files that a transform depends on. Where no script catches what an import
throws, they are the files that were opened while it was loaded, each once and the
script first. On another disk of the same shape, where these files hold the same,
the script loads as before, whatever the other files hold. -/

namespace Retouch.Script
open Files
variable {E : Engine} {h h' : Host}

/-! ### What a run adds -/

/-- More has happened, and nothing is forgotten. -/
structure Realm.Grows (r r' : Realm E) : Prop where
  journal : r.journal <+: r'.journal
  dependencies : r.dependencies <+: r'.dependencies

theorem Realm.dependencies_noteRead (r : Realm E) (p : OsString) : (r.noteRead p).dependencies =
    if r.dependencies.any (Path.same p) then r.dependencies else r.dependencies ++ [p] := by
  unfold noteRead
  split <;> rfl

namespace Realm.Grows
variable {r r' : Realm E}

theorem note (hr : r.Grows r') (n : Note E) : r.Grows (r'.note n) :=
  ⟨hr.journal.trans (List.prefix_append _ _), hr.dependencies⟩

theorem trans {r'' : Realm E} (hr : r.Grows r') (hr' : r'.Grows r'') : r.Grows r'' :=
  ⟨hr.journal.trans hr'.journal, hr.dependencies.trans hr'.dependencies⟩

theorem noteRead (hr : r.Grows r') (p : OsString) : r.Grows (r'.noteRead p) := by
  refine ⟨Realm.journal_noteRead (r := r') p ▸ hr.journal, ?_⟩
  rw [Realm.dependencies_noteRead]
  split
  · exact hr.dependencies
  · exact hr.dependencies.trans (List.prefix_append _ _)

theorem reading (hr : r.Grows r') (path : String) : r.Grows (r'.reading path) :=
  ((hr.note _).note _).noteRead _

theorem starting (hr : r.Grows r') (path : String) (m : E.Module) : r.Grows (r'.starting path m) :=
  let registered : r.Grows ((r'.reading path).register path m) :=
    ⟨(hr.reading path).1, (hr.reading path).2⟩
  registered.note _

end Realm.Grows

theorem grows_invariant (h : Host) (r₀ : Realm E) :
    Invariant h (fun _ => True) fun _ r => r₀.Grows r where
  resolved _ := trivial
  quiet hq hr := ⟨hq.journal ▸ hr.journal, hq.dependencies ▸ hr.dependencies⟩
  refused hr := hr.note _
  found _ hr := (hr.note _).note _
  unread _ _ _ hr := ((hr.note _).note _).note _
  broken _ _ _ hr := (hr.reading _).note _
  began _ _ _ hr _ _ := hr.starting _ _
  loaded hr := hr.note _
  failed hr := by
    refine Realm.Grows.note (Realm.Grows.note ?_ _) _
    exact ⟨hr.journal, hr.dependencies⟩

theorem Reaches.grows {s t : Status E} (hst : Reaches h s t) : s.realm.Grows t.realm := by
  have hI := grows_invariant h s.realm
  have hs : s.Holds fun _ r => s.realm.Grows r := by
    cases s with
    | running m => exact ⟨List.prefix_rfl, List.prefix_rfl⟩
    | ended r answer => exact ⟨[], List.prefix_rfl, List.prefix_rfl⟩
  exact (hI.reaches hst hs).exists.choose_spec

/-! ### What is recorded -/

/-- A file that could be read. -/
def Host.Readable (h : Host) (p : OsString) : Prop := ∃ text, h.disk.readText p = .ok text

theorem Host.Readable.isFile {p : OsString} (hp : h.Readable p) : h.disk.isFile p = true := by
  obtain ⟨text, htext⟩ := hp
  obtain ⟨place, hplace, hfile⟩ := Disk.readText_eq_ok.mp htext
  exact Disk.isFile_of_place hplace hfile

theorem Host.readable_of_read {path : String} {reading : Reading}
    (hread : h.read path = some reading) (hr : ∀ message, reading ≠ .failed message) :
    h.Readable (.ofText path) := by
  unfold Host.read at hread
  unfold Host.Readable
  cases htext : h.disk.readText (.ofText path) with
  | ok text => exact ⟨text, rfl⟩
  | error e =>
    rw [htext] at hread
    exact absurd (Option.some.inj hread).symm (hr _)

/-- The files in the list were opened and could be read, and none is in it twice. -/
structure Realm.Recorded (h : Host) (r : Realm E) : Prop where
  distinct : r.dependencies.Pairwise fun p q => Path.same p q = false
  opened : ∀ p ∈ r.dependencies, ∃ path, p = .ofText path ∧ .opened path ∈ r.journal
  readable : ∀ p ∈ r.dependencies, h.Readable p

/-- Every file that was opened could be read, and is in the list. -/
def Realm.Complete (h : Host) (r : Realm E) : Prop := ∀ path, .opened path ∈ r.journal →
  h.Readable (.ofText path) ∧ ∃ p ∈ r.dependencies, Path.same p (.ofText path) = true

theorem Path.same_comm (p q : OsString) : Path.same p q = Path.same q p := by
  unfold Path.same
  congr 1
  · exact decide_eq_decide.mpr eq_comm
  · exact decide_eq_decide.mpr eq_comm

theorem Realm.Recorded.note {r : Realm E} (hr : r.Recorded h) (n : Note E) :
    (r.note n).Recorded h := by
  refine ⟨hr.distinct, fun p hp => ?_, hr.readable⟩
  obtain ⟨path, rfl, hopened⟩ := hr.opened p hp
  exact ⟨path, rfl, List.mem_append_left _ hopened⟩

theorem Realm.Recorded.noteRead {r : Realm E} (hr : r.Recorded h) {path : String}
    (hopened : .opened path ∈ r.journal) (hread : h.Readable (.ofText path)) :
    (r.noteRead (.ofText path)).Recorded h := by
  unfold Realm.noteRead
  split
  · exact hr
  · rename_i hnew
    have hother : ∀ p ∈ r.dependencies, Path.same (.ofText path) p = false := by
      simpa using hnew
    refine ⟨List.pairwise_append.mpr ⟨hr.distinct, List.pairwise_singleton _ _, ?_⟩, ?_, ?_⟩
    · intro p hp q hq
      rw [List.mem_singleton.mp hq, Path.same_comm]
      exact hother p hp
    · intro p hp
      rcases List.mem_append.mp hp with hp | hp
      · exact hr.opened p hp
      · exact ⟨path, List.mem_singleton.mp hp, hopened⟩
    · intro p hp
      rcases List.mem_append.mp hp with hp | hp
      · exact hr.readable p hp
      · exact List.mem_singleton.mp hp ▸ hread

theorem Realm.Recorded.reading {r : Realm E} (hr : r.Recorded h) {path : String}
    (hread : h.Readable (.ofText path)) : (r.reading path).Recorded h :=
  ((hr.note _).note _).noteRead (List.mem_append_right _ List.mem_cons_self) hread

theorem recorded_invariant (h : Host) :
    Invariant h (fun _ => True) fun _ (r : Realm E) => r.Recorded h where
  resolved _ := trivial
  quiet hq hr := ⟨hq.dependencies ▸ hr.distinct, hq.dependencies ▸ hq.journal ▸ hr.opened,
    hq.dependencies ▸ hr.readable⟩
  refused hr := hr.note _
  found _ hr := (hr.note _).note _
  unread _ _ _ hr := ((hr.note _).note _).note _
  broken _ _ hread hr := (hr.reading (Host.readable_of_read hread (by simp))).note _
  began := by
    intro fs r path code _ _ hread hr m next
    have hreading := hr.reading (Host.readable_of_read hread (by simp))
    have hregistered : ((r.reading path).register path m).Recorded h :=
      ⟨hreading.distinct, hreading.opened, hreading.readable⟩
    exact hregistered.note _
  loaded hr := hr.note _
  failed hr := by
    refine Realm.Recorded.note (Realm.Recorded.note ?_ _) _
    exact ⟨hr.distinct, hr.opened, hr.readable⟩

theorem Realm.Complete.note {r : Realm E} (hr : r.Complete h) {n : Note E}
    (hn : ∀ path, n ≠ .opened path) : (r.note n).Complete h := by
  intro path hpath
  rcases List.mem_append.mp hpath with hpath | hpath
  · exact hr path hpath
  · exact absurd (List.mem_singleton.mp hpath).symm (hn path)

theorem Realm.Complete.reading {r : Realm E} (hr : r.Complete h) {path : String}
    (hread : h.Readable (.ofText path)) : (r.reading path).Complete h := by
  intro q hq
  have hdeps := (r.opening path).dependencies_noteRead (.ofText path)
  rw [Realm.journal_reading] at hq
  rw [Realm.reading, hdeps]
  obtain hq | rfl : .opened q ∈ r.journal ∨ q = path := by simpa using hq
  · obtain ⟨hreadable, p, hp, hsame⟩ := hr q hq
    refine ⟨hreadable, p, ?_, hsame⟩
    split
    · exact hp
    · exact List.mem_append_left _ hp
  · refine ⟨hread, ?_⟩
    split
    · rename_i hknown
      obtain ⟨p, hp, hsame⟩ := List.any_eq_true.mp hknown
      exact ⟨p, hp, by rwa [Path.same_comm]⟩
    · exact ⟨_, List.mem_append_right _ List.mem_cons_self, by simp [Path.same]⟩

/-- Hosts that find the same files. -/
structure Host.Alike (h h' : Host) : Prop where
  dialect : h'.dialect = h.dialect
  resolve : ∀ dir specifier, h'.resolve dir specifier = h.resolve dir specifier

/-- The files that were opened read the same. -/
def SameReads (h h' : Host) (journal : List (Note E)) : Prop :=
  ∀ path, .opened path ∈ journal → h'.read path = h.read path

theorem Enters.alike {fs : List (Frame E)} {r : Realm E} {path : String}
    {next : Option (Except E.Value E.Value → E.Task)} {s : Status E}
    (hs : Enters h fs r path next s) (hsame : SameReads h h' s.realm.journal) :
    Enters h' fs r path next s := by
  cases hs with
  | found hmodule => exact .found hmodule
  | unread hmodule hread =>
    refine .unread hmodule ((hsame path ?_).trans hread)
    simp [refuse, realm_resume, Realm.handing, Realm.put, Realm.note, Realm.opening]
  | broken hmodule hread =>
    refine .broken hmodule ((hsame path ?_).trans hread)
    simp [refuse, realm_resume, Realm.handing, Realm.put, Realm.note, Realm.panicking,
      Realm.journal_reading]
  | began hmodule hread =>
    refine .began hmodule ((hsame path ?_).trans hread)
    simp [start, Status.realm, Realm.put, Realm.journal_starting]

theorem step_alike (ha : h.Alike h') {m : Machine E} {s : Status E} (hs : step h m = some s)
    (hsame : SameReads h h' s.realm.journal) : step h' m = some s := by
  have hserves := step_eq_some.mp hs
  refine step_eq_some.mpr ?_
  generalize m.realm.put (E.advance m.realm.heap m.task).1 = r at hserves
  generalize (E.advance m.realm.heap m.task).2 = turn at hserves
  cases hserves with
  | returned v => exact .returned v
  | threw v => exact .threw v
  | on next => exact .on next
  | tell e next => exact .tell e next
  | toolkit dir next =>
    rw [← ha.dialect]
    exact .toolkit dir next
  | refused hkit hresolve => exact .refused hkit ((ha.resolve ..).trans hresolve)
  | entered hkit hresolve henters =>
    exact .entered hkit ((ha.resolve ..).trans hresolve) (henters.alike hsame)

theorem reaches_alike (ha : h.Alike h') {s t : Status E} (hst : Reaches h s t)
    (hsame : SameReads h h' t.realm.journal) : Reaches h' s t := by
  induction hst with
  | refl s => exact .refl s
  | turn hstep hrest ih =>
    refine .turn (step_alike ha hstep fun path hpath => ?_) (ih hsame)
    exact hsame path (hrest.grows.journal.subset hpath)

theorem run_alike (ha : h.Alike h') {s : Status E} {r : Realm E}
    {answer : Except E.Value E.Value} (hrun : run h s = some (r, answer))
    (hsame : SameReads h h' r.journal) : run h' s = some (r, answer) :=
  (reaches_alike ha (reaches_of_run hrun) hsame).run_eq.trans (run_ended r answer)

/-- The module of the host begins to run, if it comes to an end without an error. -/
theorem starting_of_enter {r r' : Realm E} {path : String} {s : Status E} {v : E.Value}
    (hs : Enters h [] r path none s) (hnone : r.module? path = none)
    (hrun : run h s = some (r', .ok v)) : ∃ m, (r.starting path m).Grows s.realm := by
  cases hs with
  | found hmodule =>
    rw [hnone] at hmodule
    cases hmodule
  | unread | broken =>
    rw [refuse, resume, run_ended] at hrun
    cases hrun
  | began =>
    exact ⟨(E.newModule r.heap path).2, List.prefix_rfl, List.prefix_rfl⟩

/-- How a script was loaded: its modules ran, and then its default export was read. -/
structure Transform.Loaded (h : Host) (path : OsString) (moment : E.Moment) (t : Transform E)
    (r : Realm E) (exports : E.Value) (default : Except E.Value E.Value) : Prop where
  modules : loadModule h (.fresh moment) (OsString.shown path) = some (r, .ok exports)
  default : runTask h r (E.default exports) = some (t.realm, default)
  path : t.path = path

theorem Transform.loaded_of_load {path : OsString} {moment : E.Moment} {t : Transform E}
    (ht : Transform.load h path moment = .back (.ok t)) :
    ∃ r exports default, Transform.Loaded h path moment t r exports default := by
  unfold Transform.load at ht
  cases hload : loadModule h (.fresh moment) (OsString.shown path) with
  | none =>
    rw [hload] at ht
    cases ht
  | some gave =>
    obtain ⟨r, answer⟩ := gave
    rw [hload] at ht
    cases answer with
    | error e =>
      dsimp only at ht
      split at ht <;> cases ht
    | ok exports =>
      dsimp only at ht
      unfold Transform.ofExports at ht
      cases hdefault : runTask h r (E.default exports) with
      | none =>
        rw [hdefault] at ht
        cases ht
      | some gave =>
        obtain ⟨r', default⟩ := gave
        rw [hdefault] at ht
        dsimp only at ht
        split at ht
        · cases ht
        · split at ht
          · cases ht
            exact ⟨r, exports, default, hload, hdefault, rfl⟩
          · cases ht

namespace Transform.Loaded
variable {path : OsString} {moment : E.Moment} {t : Transform E} {r : Realm E} {exports : E.Value}
  {default : Except E.Value E.Value}

theorem grows (ht : Loaded h path moment t r exports default) : r.Grows t.realm :=
  (reaches_of_run ht.default).grows

/-- What every turn keeps holds when a script is loaded. -/
theorem holds {I : Realm E → Prop} (ht : Loaded h path moment t r exports default)
    (hI : Invariant h (fun _ => True) fun _ r => I r) (hfresh : I (.fresh moment)) : I t.realm := by
  obtain ⟨-, hr⟩ := hI.loadModule ht.modules trivial hfresh
  exact (hI.runTask ht.default hr).choose_spec

theorem recorded (ht : Loaded h path moment t r exports default) : t.realm.Recorded h :=
  ht.holds (recorded_invariant h) ⟨.nil, fun _ hp => absurd hp List.not_mem_nil,
    fun _ hp => absurd hp List.not_mem_nil⟩

/-- The script is the first file of its list. -/
theorem head_dependencies (ht : Loaded h path moment t r exports default) :
    t.dependencies.head? = some (.ofText (OsString.shown path)) := by
  obtain ⟨s, hs, hrun⟩ := enter_of_loadModule ht.modules
  obtain ⟨m, hm⟩ := starting_of_enter (enter_eq_some.mp hs) rfl hrun
  obtain ⟨rest, hrest⟩ := (hm.trans (reaches_of_run hrun).grows).trans ht.grows |>.dependencies
  rw [dependencies, ← hrest]
  simp [Realm.starting, Realm.note, Realm.register, Realm.reading, Realm.dependencies_noteRead,
    Realm.opening, Realm.fresh]

end Transform.Loaded

end Retouch.Script

namespace Retouch.Loader
open Files Script
variable {E : Engine} {l l' : Loader E} {disk : Disk} {path : OsString} {moment : E.Moment}
  {unit : Nat} {t : Transform E}

theorem load_ok (hload : l.load disk path moment = (l', .back (.ok (unit, t)))) :
    Transform.load (l.host disk) (disk.normalize path) moment = .back (.ok t) ∧
      unit = l.units.size ∧ l' = (l.cleared disk path).insert (disk.normalize path) t := by
  unfold load at hload
  split at hload
  · cases hload
  · cases hload
  · cases hload
  · rename_i hgave
    cases hload
    exact ⟨hgave, rfl, rfl⟩

theorem load_of_transform
    (ht : Transform.load (l.host disk) (disk.normalize path) moment = .back (.ok t)) :
    l.load disk path moment =
      ((l.cleared disk path).insert (disk.normalize path) t, .back (.ok (l.units.size, t))) := by
  unfold load
  rw [ht]

end Retouch.Loader

namespace Retouch.Sample
open Files Script OsString

def plainLoader : Loader engine := ⟨ofText "/", ["js", "ts"], .tsx, #[], []⟩

end Retouch.Sample

namespace Retouch.Loader
open Files Script Sample OsString

end Retouch.Loader
