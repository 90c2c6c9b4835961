import Retouch.Proofs.LoaderCache
import Retouch.Proofs.WholeText

/-! What one run does. A run either stops before it has chosen a script, and then
leaves the buffer, the loader and the number of loads as they are; or it has
chosen one, and then everything it does is to load that script, to call it, and
to settle what it gives. The loader matters to the second only through the
extensions and the dialect it was made with: every load reads the files anew. -/

namespace Retouch
open Buffer Files Script
variable {E : Engine}

/-! ### Calling a transform -/

namespace Loader

/-- Loading and calling leave a loader for the same directory, made with the same
settings. -/
structure SameMake (l l' : Loader E) : Prop where
  scriptDir : l'.scriptDir = l.scriptDir
  extensions : l'.extensions = l.extensions
  dialect : l'.dialect = l.dialect

theorem SameMake.trans {l₁ l₂ l₃ : Loader E} (h : l₁.SameMake l₂) (h' : l₂.SameMake l₃) :
    l₁.SameMake l₃ :=
  ⟨h'.1.trans h.1, h'.2.trans h.2, h'.3.trans h.3⟩

theorem load_sameMake (l : Loader E) (disk : Disk) (path : OsString) (moment : E.Moment) :
    l.SameMake (l.load disk path moment).1 := by
  rcases load_cases l disk path moment with ⟨hcleared, -⟩ | ⟨t, -, hload⟩
  · rw [hcleared]
    exact ⟨rfl, rfl, rfl⟩
  · rw [hload]
    exact ⟨rfl, rfl, rfl⟩

end Loader

/-! ### What a run is asked for -/

namespace Request
variable {σ : Type} {q : Request σ} {disk : Disk} {b b' : σ} {dir dir' : OsString}

/-- With a root and a buffer, a request leads to a script directory and to the
scripts in it. -/
structure Lists (q : Request σ) (disk : Disk) (b : σ) (dir : OsString) (listing : Listing) :
    Prop where
  root : ∃ root, q.root = some root ∧ dir = q.settings.scriptDir (Path.ofNames disk.cwd) root
  buffer : q.buffer = some b
  listing : listing = disk.scripts q.settings dir

/-- The selector was asked, and named a script that is there. -/
def Selects (q : Request σ) (disk : Disk) (b : σ) (dir : OsString) (c : Candidate) : Prop :=
  ∃ listing i, q.Lists disk b dir listing ∧ listing.candidates ≠ [] ∧
    q.selector listing.candidates = .ok (some i) ∧ listing.candidates[i]? = some c

/-- What the user is told before the outcome: why the scripts cannot be listed, or
why the selector failed. -/
def Heralds (q : Request σ) (disk : Disk) (n : Notice) : Prop :=
  ∃ b dir listing, q.Lists disk b dir listing ∧
    ((∃ reason, listing.diagnostic = some reason ∧ n = ⟨.error, reason⟩) ∨
      ∃ reason, listing.candidates ≠ [] ∧ q.selector listing.candidates = .error reason ∧
        n = ⟨.warn, "Codemod selection failed: " ++ reason⟩)

/-- What the transform is called with. -/
def invocation (q : Request σ) (name source : String) : Invocation :=
  ⟨source, name, q.cursor.map Cursor.signed⟩

theorem Lists.unique {listing listing' : Listing} (h : q.Lists disk b dir listing)
    (h' : q.Lists disk b' dir' listing') : b' = b ∧ dir' = dir ∧ listing' = listing := by
  obtain ⟨root, hroot, rfl⟩ := h.root
  obtain ⟨root', hroot', rfl⟩ := h'.root
  obtain rfl : root' = root := Option.some.inj (hroot'.symm.trans hroot)
  refine ⟨Option.some.inj (h'.buffer.symm.trans h.buffer), rfl, ?_⟩
  rw [h.listing, h'.listing]

theorem Lists.heralds_iff {listing : Listing} (h : q.Lists disk b dir listing) (n : Notice) :
    q.Heralds disk n ↔
      (∃ reason, listing.diagnostic = some reason ∧ n = ⟨.error, reason⟩) ∨
      ∃ reason, listing.candidates ≠ [] ∧ q.selector listing.candidates = .error reason ∧
        n = ⟨.warn, "Codemod selection failed: " ++ reason⟩ := by
  constructor
  · rintro ⟨b', dir', listing', h', hn⟩
    obtain ⟨-, -, rfl⟩ := h.unique h'
    exact hn
  · exact fun hn => ⟨b, dir, listing, h, hn⟩

theorem Selects.unique {c c' : Candidate} (h : q.Selects disk b dir c)
    (h' : q.Selects disk b' dir' c') : b' = b ∧ dir' = dir ∧ c' = c := by
  obtain ⟨listing, i, hl, -, hi, hc⟩ := h
  obtain ⟨listing', i', hl', -, hi', hc'⟩ := h'
  obtain ⟨rfl, rfl, rfl⟩ := hl.unique hl'
  obtain rfl : i' = i := by simpa [hi] using hi'.symm
  exact ⟨rfl, rfl, Option.some.inj (hc'.symm.trans hc)⟩

theorem Selects.buffer {c : Candidate} (h : q.Selects disk b dir c) : q.buffer = some b := by
  obtain ⟨listing, i, hl, -⟩ := h
  exact hl.buffer

end Request

/-- A directory that cannot be listed has no scripts on offer. -/
theorem scripts_diagnostic {disk : Disk} {s : Settings} {dir : OsString}
    (h : (disk.scripts s dir).candidates ≠ []) : (disk.scripts s dir).diagnostic = none := by
  unfold Disk.scripts at h ⊢
  cases hl : disk.list dir with
  | ok names => rfl
  | error e => cases e <;> simp [hl, Listing.empty] at h ⊢

namespace Runner
variable {σ : Type}

/-! ### A script was chosen -/

/-- What loading the chosen script gives. -/
def loaded (r : Runner E) (disk : Disk) (dir : OsString) (s : Settings) (c : Candidate)
    (moment : E.Moment) : Ending (Except Failure (Transform E)) :=
  Transform.load ((r.loaderFor disk dir s).host disk) (disk.normalize c.path) moment

/-- What a call comes to for a buffer. -/
def answered (ed : Editor σ) (b : σ) (label : String) : Ending Execution → Ending Outcome × σ
  | .never => (.never, b)
  | .panic => (.panic, b)
  | .back e => (.back (settle ed b label e.result).1, (settle ed b label e.result).2)

/-- What becomes of a buffer when a script was loaded, or was not. -/
def delivered (ed : Editor σ) (disk : Disk) (q : Request σ) (b : σ) (label : String) :
    Ending (Except Failure (Transform E)) → Ending Outcome × σ
  | .never => (.never, b)
  | .panic => (.panic, b)
  | .back (.error e) => (.back (.loadFailed e.scriptError), b)
  | .back (.ok t) =>
    match ed.text b with
    | .error reason => (.back (.bufferFailed reason), b)
    | .ok source => answered ed b label (t.execute disk (q.invocation (ed.name b) source)).2

theorem call_answered (ed : Editor σ) (disk : Disk) (b : σ) (q : Request σ) (label : String)
    (l : Loader E) (unit : Nat) (t : Transform E) :
    ((call ed disk b q.cursor label l unit t).1, (call ed disk b q.cursor label l unit t).2.1) =
      delivered ed disk q b label (.back (.ok t)) := by
  unfold call delivered
  dsimp only
  cases ed.text b with
  | error reason => rfl
  | ok source =>
    dsimp only [Request.invocation]
    generalize t.execute disk ⟨source, ed.name b, q.cursor.map Cursor.signed⟩ = gave
    obtain ⟨t', ending⟩ := gave
    cases ending <;> rfl

/-- Outcome and buffer follow from what was loaded; nothing else of the runner has
a part in them. -/
theorem apply_delivered (r : Runner E) (ed : Editor σ) (disk : Disk) (dir : OsString)
    (q : Request σ) (b : σ) (c : Candidate) (moment : E.Moment) :
    ((r.apply ed disk dir q.settings b q.cursor c moment).1,
        (r.apply ed disk dir q.settings b q.cursor c moment).2.1) =
      delivered ed disk q b c.label (r.loaded disk dir q.settings c moment) := by
  unfold apply loaded Loader.load
  cases Transform.load ((r.loaderFor disk dir q.settings).host disk) (disk.normalize c.path)
      moment with
  | never => rfl
  | panic => rfl
  | back gave =>
    cases gave with
    | error e => rfl
    | ok t => exact call_answered ed disk b q c.label _ _ t

theorem call_sameMake (ed : Editor σ) (disk : Disk) (b : σ) (cursor : Option Cursor)
    (label : String) (l : Loader E) (unit : Nat) (t : Transform E) :
    l.SameMake (call ed disk b cursor label l unit t).2.2 := by
  unfold call
  cases ed.text b with
  | error reason => exact ⟨rfl, rfl, rfl⟩
  | ok source =>
    dsimp only
    generalize t.execute disk ⟨source, ed.name b, cursor.map Cursor.signed⟩ = gave
    obtain ⟨t', ending⟩ := gave
    cases ending <;> exact ⟨rfl, rfl, rfl⟩

/-- The runner has one load more, and keeps a loader made like the one it used. -/
theorem apply_runner (r : Runner E) (ed : Editor σ) (disk : Disk) (dir : OsString) (s : Settings)
    (b : σ) (cursor : Option Cursor) (c : Candidate) (moment : E.Moment) :
    (r.apply ed disk dir s b cursor c moment).2.2.loads = r.loads + 1 ∧
      ∃ l, (r.apply ed disk dir s b cursor c moment).2.2.loader = some l ∧
        (r.loaderFor disk dir s).SameMake l := by
  have hmake := (r.loaderFor disk dir s).load_sameMake disk c.path moment
  unfold apply
  generalize (r.loaderFor disk dir s).load disk c.path moment = after at hmake ⊢
  obtain ⟨l, ending⟩ := after
  cases ending with
  | never => exact ⟨rfl, l, rfl, hmake⟩
  | panic => exact ⟨rfl, l, rfl, hmake⟩
  | back gave =>
    cases gave with
    | error e => exact ⟨rfl, l, rfl, hmake⟩
    | ok gave =>
      obtain ⟨unit, t⟩ := gave
      exact ⟨rfl, _, rfl, hmake.trans (call_sameMake ed disk b cursor c.label l unit t)⟩

/-! ### The two courses of a run -/

theorem run_selects (r : Runner E) (ed : Editor σ) {disk : Disk} {q : Request σ} {b : σ}
    {dir : OsString} {c : Candidate} (h : q.Selects disk b dir c) (moment : E.Moment) :
    r.run ed disk q moment =
      ⟨(r.apply ed disk dir q.settings b q.cursor c moment).1,
        closing (r.apply ed disk dir q.settings b q.cursor c moment).1,
        some ((disk.scripts q.settings dir).candidates.map Candidate.label),
        some (r.apply ed disk dir q.settings b q.cursor c moment).2.1,
        (r.apply ed disk dir q.settings b q.cursor c moment).2.2⟩ := by
  obtain ⟨listing, i, hl, hne, hi, hc⟩ := h
  obtain ⟨root, hroot, rfl⟩ := hl.root
  obtain rfl := hl.listing
  simp [run, hroot, hl.buffer, scripts_diagnostic hne, hne, choose, hi, hc]

/-- What a run with a choice gives follows from what was loaded. -/
theorem run_delivered (r : Runner E) (ed : Editor σ) {disk : Disk} {q : Request σ} {b : σ}
    {dir : OsString} {c : Candidate} (h : q.Selects disk b dir c) (moment : E.Moment) :
    (r.run ed disk q moment).ending =
        (delivered ed disk q b c.label (r.loaded disk dir q.settings c moment)).1 ∧
      (r.run ed disk q moment).buffer =
        some (delivered ed disk q b c.label (r.loaded disk dir q.settings c moment)).2 ∧
      (r.run ed disk q moment).notices = closing (r.run ed disk q moment).ending ∧
      (r.run ed disk q moment).runner.loads = r.loads + 1 := by
  rw [← r.apply_delivered ed disk dir q b c moment, r.run_selects ed h moment]
  exact ⟨rfl, rfl, rfl, (r.apply_runner ed disk dir q.settings b q.cursor c moment).1⟩

/-- A run without a choice: nothing changes, the user is told why, and whose run it
is does not matter. -/
theorem run_not_selects (ed : Editor σ) {disk : Disk} {q : Request σ}
    (h : ¬ ∃ b dir c, q.Selects disk b dir c) :
    ∃ o before offered, o ∈ [Outcome.noWorkspace, .noActiveBuffer, .noScripts, .noSelection] ∧
      before.length ≤ 1 ∧ (∀ n, n ∈ before ↔ q.Heralds disk n) ∧
      ∀ (E : Engine) (r : Runner E) moment,
        r.run ed disk q moment = ⟨.back o, before ++ [o.notice], offered, q.buffer, r⟩ := by
  cases hroot : q.root with
  | none =>
    have hh : ∀ n, ¬ q.Heralds disk n := by
      rintro n ⟨b, dir, listing, hl, -⟩
      obtain ⟨root, hr, -⟩ := hl.root
      rw [hroot] at hr
      cases hr
    exact ⟨.noWorkspace, [], none, by simp, by simp, by simp [hh],
      fun E r moment => by simp [run, hroot, closing]⟩
  | some root =>
    cases hb : q.buffer with
    | none =>
      have hh : ∀ n, ¬ q.Heralds disk n := by
        rintro n ⟨b, dir, listing, hl, -⟩
        have hbuffer := hl.buffer
        rw [hb] at hbuffer
        cases hbuffer
      exact ⟨.noActiveBuffer, [], none, by simp, by simp, by simp [hh],
        fun E r moment => by simp [run, hroot, hb, closing]⟩
    | some b =>
      have hl : q.Lists disk b (q.settings.scriptDir (Path.ofNames disk.cwd) root)
          (disk.scripts q.settings (q.settings.scriptDir (Path.ofNames disk.cwd) root)) :=
        ⟨⟨root, hroot, rfl⟩, hb, rfl⟩
      simp only [run, hroot, hb]
      generalize q.settings.scriptDir (Path.ofNames disk.cwd) root = dir at hl ⊢
      have hdiag := @scripts_diagnostic disk q.settings dir
      generalize disk.scripts q.settings dir = listing at hl hdiag ⊢
      by_cases hne : listing.candidates = []
      · refine ⟨.noScripts, listing.diagnostic.toList.map (⟨.error, ·⟩), none, by simp, ?_, ?_,
          fun E r moment => by simp [hne, closing]⟩
        · cases listing.diagnostic <;> simp
        · intro n
          rw [hl.heralds_iff]
          cases listing.diagnostic <;> simp [hne, eq_comm]
      · have hnone := hdiag hne
        cases hs : q.selector listing.candidates with
        | error reason =>
          refine ⟨.noSelection, [⟨.warn, "Codemod selection failed: " ++ reason⟩],
            some (listing.candidates.map Candidate.label), by simp, by simp, ?_,
            fun E r moment => by simp [hne, choose, hs, hnone, closing]⟩
          intro n
          rw [hl.heralds_iff]
          simp [hnone, hne, hs]
        | ok choice =>
          have hc : choice.bind (listing.candidates[·]?) = none := by
            cases hc : choice.bind (listing.candidates[·]?) with
            | none => rfl
            | some c =>
              obtain ⟨i, rfl, hi⟩ := Option.bind_eq_some_iff.mp hc
              exact absurd ⟨b, dir, c, listing, i, hl, hne, hs, hi⟩ h
          refine ⟨.noSelection, [], some (listing.candidates.map Candidate.label), by simp,
            by simp, ?_, fun E r moment => by simp [hne, choose, hs, hc, hnone, closing]⟩
          intro n
          rw [hl.heralds_iff]
          simp [hnone, hs]

/-! ### What a run does to a buffer -/

section
variable {r : Runner E} {disk : Disk} {q : Request TextBuffer} {moment : E.Moment}

/-- A script was chosen and loaded, and its call gave text. -/
theorem run_applied {b : TextBuffer} {dir : OsString} {c : Candidate} {t : Transform E}
    {e : Execution} {text : String} (h : q.Selects disk b dir c)
    (hload : r.loaded disk dir q.settings c moment = .back (.ok t))
    (he : (t.execute disk (q.invocation b.name b.text)).2 = .back e)
    (hresult : e.result = .replace text) (hlength : b.text.length < UInt32.size) :
    (r.run memoryEditor disk q moment).ending = .back (.applied c.label) ∧
      (r.run memoryEditor disk q moment).buffer = some { b with text } := by
  have htext : memoryEditor.text b = .ok b.text := rfl
  have hname : memoryEditor.name b = b.name := rfl
  obtain ⟨hending, hbuffer, -⟩ := r.run_delivered memoryEditor h moment
  simp only [hload, delivered, htext, hname, he, answered, hresult, settle,
    memoryEditor_replaceAll hlength] at hending hbuffer
  exact ⟨hending, hbuffer⟩

end

open Sample OsString

/-- Run the first script on a buffer. -/
def firstScript (d : Syntax.Dialect) : Request TextBuffer where
  root := some (ofText "/")
  settings := { Settings.default with parser := d }
  buffer := some ⟨"a.ts", "x"⟩
  cursor := none
  selector _ := .ok (some 0)

/-- A call that is over and told nothing has an execution. -/
theorem execute_of_call? {t : Transform engine} {disk : Disk} {inv : Invocation}
    {r : Realm engine} {v : Sample.Value} (hcall : call? t disk inv = some (r, .ok v))
    (hevents : r.events = []) :
    ∃ e, (t.execute disk inv).2 = .back e ∧ e.result = classify (look v) := by
  have hrun : t.execute disk inv = t.conclude r (.ok v) := by
    rw [Transform.execute, runTask_of_call? hcall]
  have hstats : r.events.foldlM (Stats.count engine.overflowPanics) [] = some [] := by
    rw [hevents]
    rfl
  refine ⟨⟨classify (look v), r.events.filterMap lineOf?, []⟩, ?_, rfl⟩
  rw [hrun, Transform.conclude, stops, if_neg Bool.false_ne_true, hstats]
  rfl

end Runner

end Retouch
