import Retouch.Cli.Bundled
import Retouch.Proofs.FileReplacement
import Retouch.Proofs.RunReport

/-! A dry run says what a real run does. The runner gets at a buffer only through an
editor, so that two editors which answer alike lead to the same report. A file and a
copy of its text in memory answer alike: as long as the file holds that text, both
give it, and both take a new text or refuse it for the same reason. What the copy
holds in the end is then what the file holds. This is so for every engine that scripts
run on; what a script makes of the moment it runs at is its own affair, so both runs are
taken at the same moment. -/

namespace Retouch
open Buffer Files Script
variable {σ τ : Type} {E : Engine}

/-! ### Editors that answer alike -/

/-- Buffers that `R` relates have the same name and text, and stay related when
their text is replaced, unless both refuse the new text. -/
structure Editor.Alike (ed : Editor σ) (ed' : Editor τ) (R : σ → τ → Prop) : Prop where
  name : ∀ {b b'}, R b b' → ed'.name b' = ed.name b
  text : ∀ {b b'}, R b b' → ed'.text b' = ed.text b
  replaceAll : ∀ {b b'}, R b b' → ∀ text,
    (∃ c c', ed.replaceAll b text = .ok c ∧ ed'.replaceAll b' text = .ok c' ∧ R c c') ∨
      ∃ reason, ed.replaceAll b text = .error reason ∧ ed'.replaceAll b' text = .error reason

/-- Reports that say the same, on related buffers. -/
structure Report.Alike (p : Report E σ) (p' : Report E τ) (R : σ → τ → Prop) : Prop where
  ending : p'.ending = p.ending
  notices : p'.notices = p.notices
  offered : p'.offered = p.offered
  buffer : Option.Rel R p.buffer p'.buffer

namespace Runner
variable {ed : Editor σ} {ed' : Editor τ} {R : σ → τ → Prop}

theorem settle_alike (h : ed.Alike ed' R) {b : σ} {b' : τ} (hb : R b b') (label : String)
    (result : Result) :
    (settle ed' b' label result).1 = (settle ed b label result).1 ∧
      R (settle ed b label result).2 (settle ed' b' label result).2 := by
  cases result with
  | skip => exact ⟨rfl, hb⟩
  | failed e => exact ⟨rfl, hb⟩
  | replace text =>
    rcases h.replaceAll hb text with ⟨c, c', hc, hc', hR⟩ | ⟨reason, hc, hc'⟩
    · simp only [settle, hc, hc']
      exact ⟨trivial, hR⟩
    · simp only [settle, hc, hc']
      exact ⟨trivial, hb⟩

/-- Whatever was loaded, it does the same to buffers that are alike. -/
theorem delivered_alike (h : ed.Alike ed' R) {b : σ} {b' : τ} (hb : R b b') (disk : Disk)
    {q : Request σ} {q' : Request τ} (hcursor : q'.cursor = q.cursor) (label : String)
    (gave : Ending (Except Failure (Transform E))) :
    (delivered ed' disk q' b' label gave).1 = (delivered ed disk q b label gave).1 ∧
      R (delivered ed disk q b label gave).2 (delivered ed' disk q' b' label gave).2 := by
  cases gave with
  | never => exact ⟨rfl, hb⟩
  | panic => exact ⟨rfl, hb⟩
  | back gave =>
    cases gave with
    | error e => exact ⟨rfl, hb⟩
    | ok t =>
      have hinv (source : String) : q'.invocation (ed.name b) source =
          q.invocation (ed.name b) source := by
        rw [Request.invocation, hcursor, Request.invocation]
      simp only [delivered, h.text hb, h.name hb, hinv]
      cases ed.text b with
      | error reason => exact ⟨rfl, hb⟩
      | ok source =>
        dsimp only
        cases (t.execute disk (q.invocation (ed.name b) source)).2 with
        | never => exact ⟨rfl, hb⟩
        | panic => exact ⟨rfl, hb⟩
        | back e =>
          obtain ⟨houtcome, hR⟩ := settle_alike h hb label e.result
          exact ⟨congrArg Ending.back houtcome, hR⟩

theorem apply_alike (h : ed.Alike ed' R) {b : σ} {b' : τ} (hb : R b b') (r : Runner E)
    (disk : Disk) (dir : OsString) (q : Request σ) (q' : Request τ)
    (hsettings : q'.settings = q.settings) (hcursor : q'.cursor = q.cursor) (c : Candidate)
    (moment : E.Moment) :
    (r.apply ed' disk dir q'.settings b' q'.cursor c moment).1 =
        (r.apply ed disk dir q.settings b q.cursor c moment).1 ∧
      R (r.apply ed disk dir q.settings b q.cursor c moment).2.1
        (r.apply ed' disk dir q'.settings b' q'.cursor c moment).2.1 := by
  obtain ⟨hending, hbuffer⟩ := Prod.mk.inj (r.apply_delivered ed disk dir q b c moment)
  obtain ⟨hending', hbuffer'⟩ := Prod.mk.inj (r.apply_delivered ed' disk dir q' b' c moment)
  rw [hending, hbuffer, hending', hbuffer', hsettings]
  exact delivered_alike h hb disk hcursor c.label _

/-- Where the editors answer alike, so do the runs. -/
theorem run_alike (h : ed.Alike ed' R) (r : Runner E) (disk : Disk) (root : Option OsString)
    (s : Settings) {b : Option σ} {b' : Option τ} (hb : Option.Rel R b b')
    (cursor : Option Cursor) (selector : Selector) (moment : E.Moment) :
    (r.run ed disk ⟨root, s, b, cursor, selector⟩ moment).Alike
      (r.run ed' disk ⟨root, s, b', cursor, selector⟩ moment) R := by
  cases root with
  | none => exact ⟨rfl, rfl, rfl, hb⟩
  | some root =>
    cases hb with
    | none => exact ⟨rfl, rfl, rfl, .none⟩
    | @some b b' hb =>
      simp only [run]
      generalize hdir : s.scriptDir (Path.ofNames disk.cwd) root = dir
      by_cases hnone : (disk.scripts s dir).candidates.isEmpty
      · rw [if_pos hnone, if_pos hnone]
        exact ⟨rfl, rfl, rfl, .some hb⟩
      · rw [if_neg hnone, if_neg hnone]
        obtain ⟨warned, choice⟩ := choose selector (disk.scripts s dir).candidates
        cases choice with
        | none => exact ⟨rfl, rfl, rfl, .some hb⟩
        | some c =>
          obtain ⟨hending, hR⟩ := apply_alike h hb r disk dir
            ⟨some root, s, some b, cursor, selector⟩
            ⟨some root, s, some b', cursor, selector⟩ rfl rfl c moment
          exact ⟨hending, by dsimp only; rw [hending], rfl, .some hR⟩

end Runner

namespace Cli

/-! ### A file and a copy of its text -/

/-- The file and the copy have one name, and the file at `p` holds the text of the
copy. -/
structure FileBuffer.Holds (name : String) (p : OsString) (copy : TextBuffer)
    (file : FileBuffer) : Prop where
  copyName : copy.name = name
  fileName : file.name = name
  path : file.path = p
  read : file.disk.readText p = .ok copy.text

namespace FileBuffer.Holds
variable {name : String} {p : OsString} {copy : TextBuffer} {file : FileBuffer}

theorem text (h : Holds name p copy file) : file.text = .ok copy.text := by
  simp [FileBuffer.text, h.path, h.read]

/-- A file takes whatever text its copy takes. -/
theorem replaceAll (h : Holds name p copy file) (text : String) :
    (∃ copy' file', memoryEditor.replaceAll copy text = .ok copy' ∧
      FileBuffer.editor.replaceAll file text = .ok file' ∧ Holds name p copy' file') ∨
    ∃ reason, memoryEditor.replaceAll copy text = .error reason ∧
      FileBuffer.editor.replaceAll file text = .error reason := by
  have hstop : file.stop = .ok (.endOf copy.text.toList) := by simp [FileBuffer.stop, h.text]
  simp only [Editor.replaceAll, FileBuffer.editor, memoryEditor, TextBuffer.end, hstop,
    TextBuffer.apply, FileBuffer.apply, h.text, h.path]
  cases Edit.applyTo ⟨.origin, .endOf copy.text.toList, text⟩ copy.text.toList with
  | error e => exact Or.inr ⟨e.message, rfl, rfl⟩
  | ok cs =>
    obtain ⟨disk, hwrite, hread⟩ := Disk.readText_supplant h.read (String.ofList cs)
    refine Or.inl ⟨{ copy with text := String.ofList cs }, { file with disk }, rfl, ?_,
      h.copyName, h.fileName, h.path, hread⟩
    rw [← h.path] at hwrite ⊢
    simp only [hwrite]

end FileBuffer.Holds

theorem memory_alike_file (name : String) (p : OsString) :
    memoryEditor.Alike FileBuffer.editor (FileBuffer.Holds name p) where
  name h := h.fileName.trans h.copyName.symm
  text h := h.text
  replaceAll h text := h.replaceAll text

/-! ### The two runs of a job -/

namespace Job
variable {lib : Libraries} {disk : Disk} {o : RunOptions} {j : Job}

/-- A job knows the text of its file, if that can be read. -/
theorem text_of_prepare (h : prepare lib disk o = .ok j) :
    j.text = (disk.readText j.path).toOption := by
  unfold prepare at h
  split at h
  · cases h
  · split at h
    · cases h
    · split at h
      · cases h
      · cases h
        rfl

theorem runs_alike (h : prepare lib disk o = .ok j) (moment : E.Moment) :
    (j.dryRun E disk moment).Alike (j.realRun E disk moment)
      (FileBuffer.Holds j.name j.path) := by
  refine Runner.run_alike (memory_alike_file j.name j.path) _ _ _ _ ?_ _ _ _
  rw [text_of_prepare h]
  cases hread : disk.readText j.path with
  | error fault => exact .none
  | ok s => exact .some ⟨rfl, rfl, rfl, hread⟩

/-- A run has a buffer in the end if there was a text to begin with. -/
theorem isSome_buffer (moment : E.Moment) :
    (j.dryRun E disk moment).buffer.isSome = j.text.isSome := by
  unfold dryRun request Runner.run
  cases j.project.root with
  | none => simp
  | some root =>
    cases j.text with
    | none => rfl
    | some s =>
      dsimp only [Option.map_some]
      split
      · rfl
      · split <;> rfl

end Job

theorem execute_run {lib : Libraries} {disk : Disk} {o : RunOptions} {args : List OsString}
    (h : lib.command args = .ok (.run o)) (moment : E.Moment) :
    execute lib E disk args moment = o.execute lib E disk moment := by
  simp only [execute, h]

namespace RunOptions
variable {lib : Libraries} {disk : Disk} {o : RunOptions} {j : Job}

/-- A job that cannot be prepared ends in the same way, dry or not. -/
theorem execute_unprepared {c : Complaint} (h : Job.prepare lib disk o = .error c)
    (diff : Bool) (moment : E.Moment) :
    execute lib E { o with diff } disk moment = .back (complain disk c) := by
  replace h : Job.prepare lib disk { o with diff } = .error c := h
  simp only [execute, h]

theorem execute_dry (h : Job.prepare lib disk o = .ok j) (moment : E.Moment) :
    execute lib E { o with diff := true } disk moment =
      respond (j.dryRun E disk moment).ending fun outcome =>
        ⟨(conclude outcome (j.dryRun E disk moment).notices).1,
          Job.difference lib j (j.dryRun E disk moment).buffer,
          (conclude outcome (j.dryRun E disk moment).notices).2, disk, none⟩ := by
  replace h : Job.prepare lib disk { o with diff := true } = .ok j := h
  simp only [execute, h, if_true]

theorem execute_real (h : Job.prepare lib disk o = .ok j) (moment : E.Moment) :
    execute lib E { o with diff := false } disk moment =
      respond (j.realRun E disk moment).ending fun outcome =>
        ⟨(conclude outcome (j.realRun E disk moment).notices).1, "",
          (conclude outcome (j.realRun E disk moment).notices).2,
          ((j.realRun E disk moment).buffer.map FileBuffer.disk).getD disk,
          if outcome.isApplied then some j.path else none⟩ := by
  replace h : Job.prepare lib disk { o with diff := false } = .ok j := h
  simp only [execute, h, Bool.false_eq_true, if_false]

end RunOptions

/-- Both come back, with what `R` relates, or neither does, for the same reason. -/
inductive Matched {α β : Type} (R : α → β → Prop) : Ending α → Ending β → Prop
  | never : Matched R .never .never
  | panic : Matched R .panic .panic
  | back {a b} : R a b → Matched R (.back a) (.back b)

/-- What a dry run of a job prints about its file and what the real run leaves there. -/
structure Job.Foretold (j : Job) (lib : Libraries) (disk : Disk) (copy : Option TextBuffer)
    (dry real : Response) : Prop where
  /-- The copy ends up with the text that the file then has, and the difference shown is
  that between the text before and this one. -/
  readable : ∀ before, disk.readText j.path = .ok before → ∃ after,
    copy = some ⟨j.name, after⟩ ∧ real.disk.readText j.path = .ok after ∧
      dry.out = if before = after then "" else lib.difference j.name before after
  /-- A file that cannot be read is left alone. -/
  unreadable : ∀ fault, disk.readText j.path = .error fault → real.disk = disk ∧ dry.out = ""

namespace Job
variable {lib : Libraries} {disk : Disk} {o : RunOptions} {j : Job}

theorem foretold (h : prepare lib disk o = .ok j) (moment : E.Moment) {dry real : Response}
    (hout : dry.out = difference lib j (j.dryRun E disk moment).buffer)
    (hdisk : real.disk = ((j.realRun E disk moment).buffer.map FileBuffer.disk).getD disk) :
    j.Foretold lib disk (j.dryRun E disk moment).buffer dry real := by
  have hbuffer := (runs_alike h moment).buffer
  have htext := text_of_prepare h
  have hsome : (j.dryRun E disk moment).buffer.isSome = j.text.isSome := isSome_buffer moment
  generalize (j.dryRun E disk moment).buffer = copy at hbuffer hsome hout ⊢
  generalize (j.realRun E disk moment).buffer = file at hbuffer hdisk
  constructor
  · intro before hread
    rw [hread] at htext
    replace htext : j.text = some before := htext
    rw [htext] at hsome
    obtain ⟨copy, rfl⟩ := Option.isSome_iff_exists.mp hsome
    cases hbuffer with
    | @some _ file hholds =>
      have hname : copy = ⟨j.name, copy.text⟩ := by rw [← hholds.copyName]
      refine ⟨copy.text, congrArg some hname, ?_, ?_⟩
      · rw [hdisk]
        exact hholds.read
      · simp only [hout, difference, htext]
  · intro fault hread
    rw [hread] at htext
    replace htext : j.text = none := htext
    rw [htext] at hsome
    obtain rfl : copy = none := by simpa using hsome
    cases hbuffer
    exact ⟨hdisk, by simp [hout, difference]⟩

end Job

/-- A dry run ends like the real run and tells the user the same. It changes no
file, and the text that it compares the file with is what the file holds after the
real run. -/
theorem dry_run_foretells (lib : Libraries) (disk : Disk) (moment : E.Moment) {o : RunOptions}
    {dry real : List OsString}
    (hdry : lib.command dry = .ok (.run { o with diff := true }))
    (hreal : lib.command real = .ok (.run { o with diff := false })) :
    Matched
      (fun d r => d.code = r.code ∧ d.err = r.err ∧ d.disk = disk ∧
        ∀ j, Job.prepare lib disk o = .ok j →
          j.Foretold lib disk (j.dryRun E disk moment).buffer d r)
      (execute lib E disk dry moment) (execute lib E disk real moment) ∧
    ∀ j, Job.prepare lib disk o = .ok j →
      (j.dryRun E disk moment).ending = (j.realRun E disk moment).ending ∧
      (j.dryRun E disk moment).notices = (j.realRun E disk moment).notices := by
  rw [execute_run hdry, execute_run hreal]
  cases hj : Job.prepare lib disk o with
  | error c =>
    rw [RunOptions.execute_unprepared hj, RunOptions.execute_unprepared hj]
    have hnone (j : Job) : Except.error c ≠ Except.ok j := by simp
    exact ⟨.back ⟨rfl, rfl, rfl, fun j h => absurd h (hnone j)⟩, fun j h => absurd h (hnone j)⟩
  | ok j =>
    have halike := Job.runs_alike hj moment
    rw [RunOptions.execute_dry hj, RunOptions.execute_real hj]
    constructor
    · rw [halike.ending, halike.notices]
      cases (j.dryRun E disk moment).ending with
      | never => exact .never
      | panic => exact .panic
      | back outcome =>
        refine .back ⟨rfl, rfl, rfl, ?_⟩
        rintro _ ⟨⟩
        exact Job.foretold hj moment rfl rfl
    · rintro _ ⟨⟩
      exact ⟨halike.ending.symm, halike.notices.symm⟩
open Sample OsString

/-- A project with a script, and a file that is a link to another file. -/
def linkedDisk : Disk where
  tree := .dir [
    (ofText "codemods", .dir [
      (ofText "shout.js", .file (.text "module.exports = file => file.source + '!';"))]),
    (ofText "a.ts", .link (ofText "src/b.ts")),
    (ofText "src", .dir [(ofText "b.ts", .file (.text "x"))])]
  cwd := []

def linkedOptions : RunOptions := ⟨ofText "a.ts", none, some "shout", some ⟨1, 4⟩, true, false⟩

def linkedJob : Job :=
  ⟨⟨some (ofText "/"), .default⟩, ofText "/a.ts", "a.ts", some "x", some ⟨1, 4⟩, "shout"⟩

theorem prepare_linked : Job.prepare .bundled linkedDisk linkedOptions = .ok linkedJob :=
  eq_ok_of_toOption (by decide +kernel)

theorem linkedJob_selects :
    (linkedJob.request (some (⟨"a.ts", "x"⟩ : TextBuffer))).Selects linkedDisk ⟨"a.ts", "x"⟩
      (ofText "/codemods") ⟨"shout.js", ofText "/codemods/shout.js"⟩ :=
  ⟨⟨[⟨"shout.js", ofText "/codemods/shout.js"⟩], none⟩, 0,
    ⟨⟨ofText "/", rfl, by decide +kernel⟩, rfl, by decide +kernel⟩, by simp,
    eq_ok_of_toOption (by decide +kernel), rfl⟩

/-- The script shouts at the copy. -/
theorem dryRun_linked :
    (linkedJob.dryRun engine linkedDisk ()).ending = .back (.applied "shout.js") ∧
      (linkedJob.dryRun engine linkedDisk ()).buffer = some ⟨"a.ts", "x!"⟩ := by
  obtain ⟨t, r, ht, hcall, hevents⟩ := exists_of_given? (show given?
    ⟨linkedDisk, Settings.defaultExtensions, .tsx⟩
      (linkedDisk.normalize (ofText "/codemods/shout.js"))
      ⟨"x", "a.ts", some (1, 4)⟩ = some ("x!", []) by decide +kernel)
  obtain ⟨e, he, hresult⟩ := Runner.execute_of_call? hcall hevents
  exact Runner.run_applied linkedJob_selects (load_of_load? ht) he hresult (by decide)

/-- The file is shouted at in its place, as foretold. -/
theorem dry_run_foretells_linked :
    Libraries.bundled.command
      (["run", "--diff", "a.ts", "--codemod", "shout", "--cursor=1:4"].map ofText) =
        .ok (.run { linkedOptions with diff := true }) ∧
    Libraries.bundled.command
      (["r", "-cshout", "--cursor", "1:4", "--", "a.ts"].map ofText) =
        .ok (.run { linkedOptions with diff := false }) ∧
    ∃ d r, execute .bundled engine linkedDisk
        (["run", "--diff", "a.ts", "--codemod", "shout", "--cursor=1:4"].map ofText) () =
          .back d ∧
      execute .bundled engine linkedDisk
        (["r", "-cshout", "--cursor", "1:4", "--", "a.ts"].map ofText) () = .back r ∧
      d.code = 0 ∧ r.code = 0 ∧ d.err = r.err ∧ d.disk = linkedDisk ∧
      d.out = Diff.unified "a.ts" "x" "x!" ∧ r.disk.readText (ofText "/a.ts") = .ok "x!" := by
  have hdry : Libraries.bundled.command
      (["run", "--diff", "a.ts", "--codemod", "shout", "--cursor=1:4"].map ofText) =
        .ok (.run { linkedOptions with diff := true }) :=
    eq_ok_of_toOption (by decide +kernel)
  have hreal : Libraries.bundled.command
      (["r", "-cshout", "--cursor", "1:4", "--", "a.ts"].map ofText) =
        .ok (.run { linkedOptions with diff := false }) :=
    eq_ok_of_toOption (by decide +kernel)
  have hread : linkedDisk.readText (ofText "/a.ts") = .ok "x" :=
    eq_ok_of_toOption (by decide +kernel)
  obtain ⟨hending, hbuffer⟩ := dryRun_linked
  obtain ⟨hmatched, -⟩ :=
    dry_run_foretells (E := engine) Libraries.bundled linkedDisk () hdry hreal
  -- that there are responses to compare is known from the dry run alone
  have hcode : ∃ d, execute .bundled engine linkedDisk
      (["run", "--diff", "a.ts", "--codemod", "shout", "--cursor=1:4"].map ofText) () =
        .back d ∧ d.code = 0 := by
    rw [execute_run hdry, RunOptions.execute_dry prepare_linked, hending]
    exact ⟨_, rfl, rfl⟩
  obtain ⟨d, hd, hzero⟩ := hcode
  rw [hd] at hmatched ⊢
  generalize execute .bundled engine linkedDisk
    (["r", "-cshout", "--cursor", "1:4", "--", "a.ts"].map ofText) () = gave at hmatched ⊢
  cases hmatched with
  | @back _ r h =>
    obtain ⟨hsame, herr, hdisk, htold⟩ := h
    obtain ⟨after, hcopy, hafter, hout⟩ := (htold linkedJob prepare_linked).readable "x" hread
    rw [hbuffer] at hcopy
    obtain rfl : "x!" = after := (TextBuffer.mk.inj (Option.some.inj hcopy)).2
    exact ⟨hdry, hreal, d, r, rfl, rfl, hzero, hsame.symm.trans hzero, herr, hdisk, hout, hafter⟩

end Cli

end Retouch
