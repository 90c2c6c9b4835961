import Retouch.Proofs.RunReport

/-! What a run owes to the runs before it. A runner keeps its loader, and a loader
keeps the extensions and the dialect that it was made with. Nothing else comes
through: two runners whose loaders were made alike report alike, whatever was
loaded before, from whatever files. So a run after any history is the run of a
fresh runner as long as the earlier requests for the same script directory had
the same extensions and the same dialect. Where they had not, it need not be. -/

namespace Retouch
open Buffer Files Script
variable {E : Engine}

/-! ### Histories -/

/-- A run that was: how it reached its buffer, the files of that time, what was asked for,
and when. -/
structure Past (E : Engine) where
  buffers : Type
  editor : Editor buffers
  disk : Disk
  request : Request buffers
  moment : E.Moment

namespace Runner
variable {σ : Type}

/-- The runner after some runs, the earliest first. -/
def after (r : Runner E) : List (Past E) → Runner E
  | [] => r
  | p :: ps => (r.run p.editor p.disk p.request p.moment).runner.after ps

/-! ### Runners that report alike -/

/-- Of the runner a report depends on nothing but what its loader was made with. -/
theorem run_congr {r r' : Runner E} {disk : Disk} {q : Request σ}
    (h : ∀ b dir c, q.Selects disk b dir c →
      (r.loaderFor disk dir q.settings).host disk = (r'.loaderFor disk dir q.settings).host disk)
    (ed : Editor σ) (moment : E.Moment) :
    (r.run ed disk q moment).ending = (r'.run ed disk q moment).ending ∧
      (r.run ed disk q moment).buffer = (r'.run ed disk q moment).buffer ∧
      (r.run ed disk q moment).notices = (r'.run ed disk q moment).notices ∧
      (r.run ed disk q moment).offered = (r'.run ed disk q moment).offered := by
  by_cases hsel : ∃ b dir c, q.Selects disk b dir c
  · obtain ⟨b, dir, c, hs⟩ := hsel
    have hloaded : r.loaded disk dir q.settings c moment =
        r'.loaded disk dir q.settings c moment := by
      rw [loaded, loaded, h b dir c hs]
    have hgave := r.apply_delivered ed disk dir q b c moment
    rw [hloaded, ← r'.apply_delivered ed disk dir q b c moment] at hgave
    obtain ⟨ho, hb⟩ := Prod.mk.inj hgave
    rw [r.run_selects ed hs, r'.run_selects ed hs]
    simp only [ho, hb, and_self]
  · obtain ⟨o, before, offered, -, -, -, hrun⟩ := run_not_selects ed hsel
    rw [hrun E r, hrun E r']
    exact ⟨rfl, rfl, rfl, rfl⟩

/-! ### Where the loader comes from -/

/-- One run keeps the loader that was there, or one made for its own request. -/
theorem run_loader {r : Runner E} {ed : Editor σ} {disk : Disk} {q : Request σ}
    {moment : E.Moment} {l : Loader E} (h : (r.run ed disk q moment).runner.loader = some l) :
    (∃ l₀, r.loader = some l₀ ∧ l₀.SameMake l) ∨
      ∃ b dir c, q.Selects disk b dir c ∧
        (Loader.ofSettings disk (disk.normalize dir) q.settings).SameMake l := by
  by_cases hsel : ∃ b dir c, q.Selects disk b dir c
  · obtain ⟨b, dir, c, hs⟩ := hsel
    obtain ⟨-, l', hl', hmake⟩ := r.apply_runner ed disk dir q.settings b q.cursor c moment
    rw [r.run_selects ed hs] at h
    obtain rfl : l' = l := Option.some.inj (hl'.symm.trans h)
    unfold loaderFor at hmake
    cases hr : r.loader with
    | none =>
      rw [hr] at hmake
      exact Or.inr ⟨b, dir, c, hs, hmake⟩
    | some l₀ =>
      simp only [hr] at hmake
      split at hmake
      · exact Or.inl ⟨l₀, rfl, hmake⟩
      · exact Or.inr ⟨b, dir, c, hs, hmake⟩
  · obtain ⟨o, before, offered, -, -, -, hrun⟩ := run_not_selects ed hsel
    rw [hrun E r] at h
    exact Or.inl ⟨l, h, rfl, rfl, rfl⟩

/-- After some runs the loader is the one from before them, or one of them made it. -/
theorem after_loader {r : Runner E} {history : List (Past E)} {l : Loader E}
    (h : (r.after history).loader = some l) :
    (∃ l₀, r.loader = some l₀ ∧ l₀.SameMake l) ∨
      ∃ p ∈ history, ∃ b dir c, p.request.Selects p.disk b dir c ∧
        (Loader.ofSettings p.disk (p.disk.normalize dir) p.request.settings).SameMake l := by
  induction history generalizing r with
  | nil => exact Or.inl ⟨l, h, rfl, rfl, rfl⟩
  | cons p ps ih =>
    rcases ih h with ⟨l₁, hl₁, hmake⟩ | ⟨p', hp', hmade⟩
    · rcases run_loader hl₁ with ⟨l₀, hl₀, hmake₀⟩ | ⟨b, dir, c, hs, hmake₀⟩
      · exact Or.inl ⟨l₀, hl₀, hmake₀.trans hmake⟩
      · exact Or.inr ⟨p, List.mem_cons_self, b, dir, c, hs, hmake₀.trans hmake⟩
    · exact Or.inr ⟨p', List.mem_cons_of_mem p hp', hmade⟩

end Runner

/-- An earlier run that chose a script and whose loader, once made, is still the
one for the script directory that a request leads to now. -/
def Past.SharesLoader {σ : Type} (p : Past E) (disk : Disk) (q : Request σ) : Prop :=
  ∃ b dir c b' dir' c', p.request.Selects p.disk b' dir' c' ∧ q.Selects disk b dir c ∧
    Path.same (p.disk.normalize (p.disk.normalize dir')) (disk.normalize dir) = true

/-- The same extensions and the same dialect. -/
def Past.SameSettings {σ : Type} (p : Past E) (q : Request σ) : Prop :=
  p.request.settings.extensions = q.settings.extensions ∧
    p.request.settings.parser = q.settings.parser

namespace Runner
variable {σ : Type}

/-- The loader for a request was made with its own settings if the earlier requests
that share the loader had them too. -/
theorem loaderFor_after {history : List (Past E)} {disk : Disk} {q : Request σ}
    (h : ∀ p ∈ history, p.SharesLoader disk q → p.SameSettings q)
    {b : σ} {dir : OsString} {c : Candidate} (hs : q.Selects disk b dir c) :
    ((fresh.after history).loaderFor disk dir q.settings).host disk =
      ((fresh : Runner E).loaderFor disk dir q.settings).host disk := by
  have hfresh : ((fresh : Runner E).loaderFor disk dir q.settings).host disk =
    ⟨disk, q.settings.extensions, q.settings.parser⟩ := rfl
  rw [hfresh]
  unfold loaderFor
  cases hl : (fresh.after history).loader with
  | none => rfl
  | some l =>
    dsimp only
    split
    · rename_i hsame
      rcases after_loader hl with ⟨l₀, hl₀, -⟩ | ⟨p, hp, b', dir', c', hs', hmake⟩
      · cases hl₀
      · rw [hmake.scriptDir] at hsame
        obtain ⟨he, hd⟩ := h p hp ⟨b, dir, c, b', dir', c', hs', hs, hsame⟩
        simp [Loader.host, hmake.extensions, hmake.dialect, Loader.ofSettings, he, hd]
    · rfl

/-- A run after any history is the run of a fresh runner at the same moment, where the runs
whose loader it would keep had its extensions and its dialect. -/
theorem run_after_history (history : List (Past E)) (ed : Editor σ) (disk : Disk)
    (q : Request σ) (moment : E.Moment)
    (h : ∀ p ∈ history, p.SharesLoader disk q → p.SameSettings q) :
    ((fresh.after history).run ed disk q moment).ending =
        ((fresh : Runner E).run ed disk q moment).ending ∧
      ((fresh.after history).run ed disk q moment).buffer =
        ((fresh : Runner E).run ed disk q moment).buffer ∧
      ((fresh.after history).run ed disk q moment).notices =
        ((fresh : Runner E).run ed disk q moment).notices ∧
      ((fresh.after history).run ed disk q moment).offered =
        ((fresh : Runner E).run ed disk q moment).offered :=
  run_congr (fun _ _ _ hs => loaderFor_after h hs) ed moment

end Runner

/-! ### A script that tells its dialect -/

namespace Runner
open Sample OsString

/-- A project whose script gives the name of the dialect that the imported toolkit is
bound to. -/
def tellingDisk : Disk where
  tree := .dir [(ofText "codemods", .dir [
    (ofText "p.js", .file (.text "module.exports = () => require('jscodeshift').parser;"))])]
  cwd := []

def tellingRun (d : Syntax.Dialect) : Past engine :=
  ⟨TextBuffer, memoryEditor, tellingDisk, firstScript d, ()⟩

/-- A run that never got to the scripts. -/
def rootlessRun (d : Syntax.Dialect) : Past engine :=
  ⟨TextBuffer, memoryEditor, tellingDisk, { firstScript d with root := none }, ()⟩

theorem tellingDisk_selects (d : Syntax.Dialect) :
    (firstScript d).Selects tellingDisk ⟨"a.ts", "x"⟩ (ofText "/codemods")
      ⟨"p.js", ofText "/codemods/p.js"⟩ := by
  have hlisting : tellingDisk.scripts (firstScript d).settings (ofText "/codemods") =
      ⟨[⟨"p.js", ofText "/codemods/p.js"⟩], none⟩ := by
    cases d <;> decide +kernel
  have hdir : (firstScript d).settings.scriptDir (Path.ofNames tellingDisk.cwd) (ofText "/") =
      ofText "/codemods" := by
    cases d <;> decide +kernel
  exact ⟨_, 0, ⟨⟨ofText "/", rfl, hdir.symm⟩, rfl, hlisting.symm⟩, by simp, rfl, rfl⟩

/-- The script tells the dialect of the loader that it was loaded by. -/
theorem run_telling {r : Runner engine} {d made : Syntax.Dialect}
    (hhost : (r.loaderFor tellingDisk (ofText "/codemods") (firstScript d).settings).host
      tellingDisk = ⟨tellingDisk, Settings.defaultExtensions, made⟩) :
    (r.run memoryEditor tellingDisk (firstScript d) ()).ending = .back (.applied "p.js") ∧
      (r.run memoryEditor tellingDisk (firstScript d) ()).buffer = some ⟨"a.ts", made.name⟩ := by
  have hgiven : given? ⟨tellingDisk, Settings.defaultExtensions, made⟩
      (tellingDisk.normalize (ofText "/codemods/p.js")) ⟨"x", "a.ts", none⟩ =
        some (made.name, []) := by
    cases made <;> decide +kernel
  obtain ⟨t, realm, ht, hcall, hevents⟩ := exists_of_given? hgiven
  obtain ⟨e, he, hresult⟩ := execute_of_call? hcall hevents
  have hload : r.loaded tellingDisk (ofText "/codemods") (firstScript d).settings
      ⟨"p.js", ofText "/codemods/p.js"⟩ () = .back (.ok t) := by
    rw [loaded, hhost]
    exact load_of_load? ht
  have hreplace : e.result = .replace made.name :=
    hresult.trans (by cases made <;> rfl)
  exact run_applied (tellingDisk_selects d) hload he hreplace (by decide)

/-- A request for another dialect than before comes too late: the script directory is
the same, so the loader stays, and with it the dialect. -/
theorem run_after_other_dialect :
    (((fresh : Runner engine).after [tellingRun .ts]).run memoryEditor tellingDisk
      (firstScript .js) ()).buffer = some ⟨"a.ts", "ts"⟩ ∧
    ((fresh : Runner engine).run memoryEditor tellingDisk (firstScript .js) ()).buffer =
      some ⟨"a.ts", "js"⟩ := by
  have hfresh : ((fresh : Runner engine).loaderFor tellingDisk (ofText "/codemods")
      (firstScript .js).settings).host tellingDisk =
        ⟨tellingDisk, Settings.defaultExtensions, .js⟩ := rfl
  refine ⟨?_, (run_telling hfresh).2⟩
  obtain ⟨-, l, hl, hmake⟩ := (fresh : Runner engine).apply_runner memoryEditor tellingDisk
    (ofText "/codemods") (firstScript .ts).settings ⟨"a.ts", "x"⟩ none
    ⟨"p.js", ofText "/codemods/p.js"⟩ ()
  have hkept : ((fresh : Runner engine).after [tellingRun .ts]).loader = some l := by
    simp only [after, tellingRun]
    rw [run_selects fresh memoryEditor (tellingDisk_selects .ts)]
    exact hl
  have hsame : Path.same l.scriptDir (tellingDisk.normalize (ofText "/codemods")) = true := by
    rw [hmake.scriptDir]
    decide +kernel
  have hhost : (((fresh : Runner engine).after [tellingRun .ts]).loaderFor tellingDisk
      (ofText "/codemods") (firstScript .js).settings).host tellingDisk =
        ⟨tellingDisk, Settings.defaultExtensions, .ts⟩ := by
    simp only [loaderFor, hkept, hsame, if_true, Loader.host, hmake.extensions, hmake.dialect]
    rfl
  exact (run_telling hhost).2

/-- Earlier runs with the same dialect, and one that never got to the scripts. -/
theorem run_after_history_telling :
    (∀ p ∈ [rootlessRun .js, tellingRun .ts], p.SharesLoader tellingDisk (firstScript .ts) →
      p.SameSettings (firstScript .ts)) ∧
    ((fresh.after [rootlessRun .js, tellingRun .ts]).run memoryEditor tellingDisk
      (firstScript .ts) ()).ending = .back (.applied "p.js") ∧
    ((fresh.after [rootlessRun .js, tellingRun .ts]).run memoryEditor tellingDisk
      (firstScript .ts) ()).buffer = some ⟨"a.ts", "ts"⟩ := by
  have h : ∀ p ∈ [rootlessRun .js, tellingRun .ts],
      p.SharesLoader tellingDisk (firstScript .ts) → p.SameSettings (firstScript .ts) := by
    intro p hp hshares
    rcases List.mem_cons.mp hp with rfl | hp
    · obtain ⟨-, -, -, b', dir', c', ⟨listing, i, hlists, -⟩, -⟩ := hshares
      obtain ⟨root, hroot, -⟩ := hlists.root
      cases hroot
    · obtain rfl := List.mem_singleton.mp hp
      exact ⟨rfl, rfl⟩
  obtain ⟨hending, hbuffer, -, -⟩ :=
    run_after_history _ memoryEditor tellingDisk (firstScript .ts) () h
  have hfresh : ((fresh : Runner engine).loaderFor tellingDisk (ofText "/codemods")
      (firstScript .ts).settings).host tellingDisk =
        ⟨tellingDisk, Settings.defaultExtensions, .ts⟩ := rfl
  obtain ⟨happlied, htext⟩ := run_telling hfresh
  exact ⟨h, hending.trans happlied, hbuffer.trans htext⟩

end Runner

end Retouch
