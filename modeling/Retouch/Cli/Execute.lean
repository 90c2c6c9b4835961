import Retouch.Cli.Project

/-! What the commands do. A dry run works on a copy in memory and shows the
difference; a real run writes the file. Both ask the same runner, so that they
say the same. -/

namespace Retouch.Cli
open Buffer Files

/-- What a command leaves behind: its exit code, what it printed, and the files. -/
structure Response where
  code : UInt32
  out : String
  err : String
  disk : Disk
  /-- The file that was written, if one was. -/
  written : Option OsString

def printNotice (n : Notice) : String :=
  match n.level with
  | .info => n.message ++ "\n"
  | .warn => "Warning: " ++ n.message ++ "\n"
  | .error => n.message ++ "\n"

def printNotices (ns : List Notice) : String := String.join (ns.map printNotice)

def complain (disk : Disk) (c : Complaint) : Response := ⟨1, "", c.print, disk, none⟩

/-! ### Files as buffers -/

/-- A file that is edited in its place (`FileBuffer`): every edit reads it anew and replaces
it. -/
structure FileBuffer where
  disk : Disk
  path : OsString
  name : String

namespace FileBuffer

def text (b : FileBuffer) : Except String String :=
  match b.disk.readText b.path with
  | .ok s => .ok s
  | .error fault => .error ("Failed to read " ++ OsString.shown b.path ++ ": " ++ fault.message)

def stop (b : FileBuffer) : Except String Position :=
  match b.text with
  | .ok s => .ok (.endOf s.toList)
  | .error reason => .error reason

def apply (b : FileBuffer) (e : Edit) : Except String FileBuffer :=
  match b.text with
  | .error reason => .error reason
  | .ok s =>
    match e.applyTo s.toList with
    | .error err => .error err.message
    | .ok cs =>
      match b.disk.supplant b.path (.text (String.ofList cs)) with
      | .ok disk => .ok { b with disk }
      | .error fault =>
        .error ("Failed to write " ++ OsString.shown b.path ++ ": " ++ fault.message)

def editor : Editor FileBuffer := ⟨name, text, stop, apply⟩

end FileBuffer

/-! ### Running a script on a file -/

/-- A run whose project and file are known. -/
structure Job where
  project : Project
  /-- The file, by its absolute path and as scripts see it. -/
  path : OsString
  name : String
  /-- The text of the file, if it can be read. -/
  text : Option String
  cursor : Option Cursor
  choice : String
  deriving DecidableEq, Repr

namespace Job

def prepare (lib : Libraries) (disk : Disk) (o : RunOptions) : Except Complaint Job :=
  match Path.absolute? (Path.ofNames disk.cwd) o.file with
  | none => .error .emptyPath
  | some path =>
    match Project.resolve lib disk o.root ((Path.parent? path).getD path) o.suffixOnly with
    | .error c => .error c
    | .ok project =>
      match o.codemod with
      | none => .error .noChoice
      | some choice =>
        .ok ⟨project, path, project.nameOf path, (disk.readText path).toOption, o.cursor, choice⟩

def request {σ : Type} (j : Job) (buffer : Option σ) : Request σ :=
  ⟨j.project.root, j.project.settings, buffer, j.cursor,
    .byName j.project.settings.suffix j.choice⟩

variable (E : Engine) (j : Job) (disk : Disk) (moment : E.Moment)

/-- Run on a copy of the text. -/
def dryRun : Report E TextBuffer :=
  Runner.fresh.run memoryEditor disk (j.request (j.text.map (⟨j.name, ·⟩))) moment

/-- Run on the file itself. -/
def realRun : Report E FileBuffer :=
  Runner.fresh.run FileBuffer.editor disk
    (j.request (j.text.map fun _ => ⟨disk, j.path, j.name⟩)) moment

/-- What was changed, for the user to read. -/
def difference (lib : Libraries) (j : Job) (b : Option TextBuffer) : String :=
  match j.text, b with
  | some before, some after =>
    if before = after.text then "" else lib.difference j.name before after.text
  | _, _ => ""

end Job

/-- The exit code of a run, and what it says. -/
def conclude (o : Outcome) (notices : List Notice) : UInt32 × String :=
  if o.isError then (1, printNotices notices ++ Complaint.incomplete.print)
  else (0, printNotices notices)

/-- What is made of an outcome, if there is one. -/
def respond (ending : Ending Outcome) (response : Outcome → Response) : Ending Response :=
  match ending with
  | .never => .never
  | .panic => .panic
  | .back o => .back (response o)

/-- Carry out `run` (`run::execute`). -/
def RunOptions.execute (lib : Libraries) (E : Engine) (o : RunOptions) (disk : Disk)
    (moment : E.Moment) : Ending Response :=
  match Job.prepare lib disk o with
  | .error c => .back (complain disk c)
  | .ok j =>
    if o.diff then
      let r := j.dryRun E disk moment
      respond r.ending fun outcome =>
        ⟨(conclude outcome r.notices).1, Job.difference lib j r.buffer,
          (conclude outcome r.notices).2, disk, none⟩
    else
      let r := j.realRun E disk moment
      respond r.ending fun outcome =>
        ⟨(conclude outcome r.notices).1, "", (conclude outcome r.notices).2,
          (r.buffer.map FileBuffer.disk).getD disk,
          if outcome.isApplied then some j.path else none⟩

/-! ### Listing scripts -/

def printLinesOf (ls : List String) : String := String.join (ls.map (· ++ "\n"))

/-- Carry out `list` (`list::execute`). -/
def ListOptions.execute (lib : Libraries) (o : ListOptions) (disk : Disk) : Response :=
  match Project.resolve lib disk o.root (Path.ofNames disk.cwd) o.suffixOnly with
  | .error c => complain disk c
  | .ok project =>
    match project.scriptDir? disk with
    | none => ⟨0, "", printLinesOf [Outcome.noWorkspace.message], disk, none⟩
    | some dir =>
      let listing := disk.scripts project.settings dir
      let told := listing.diagnostic.toList
      if listing.candidates.isEmpty then
        ⟨0, "", printLinesOf (told ++ [Outcome.noScripts.message]), disk, none⟩
      else
        let shown := listing.candidates.map fun c =>
          if o.paths then OsString.shown c.path else c.label
        ⟨0, printLinesOf shown, printLinesOf told, disk, none⟩

/-- Carry out a command line (`main`). -/
def execute (lib : Libraries) (E : Engine) (disk : Disk) (args : List OsString)
    (moment : E.Moment) : Ending Response :=
  match lib.command args with
  | .ok (.run o) => o.execute lib E disk moment
  | .ok (.list o) => .back (o.execute lib disk)
  | .error bye => .back ⟨bye.code, bye.out, bye.err, disk, none⟩

end Retouch.Cli
