import Retouch.Buffer.Edit
import Retouch.Loader

/-! Running the command once: find the scripts, let one be chosen, load it, call
it, and put the text it gives into the buffer. Whatever goes wrong is an outcome, and the
user has been told, unless the script never ends or stops the program. The buffer
changes only when the transform gave new text. -/

namespace Retouch
open Buffer Files Script

/-- A cursor (`CursorPosition`): lines count from 1, columns from 0. -/
structure Cursor where
  line : UInt32
  column : UInt32
  deriving DecidableEq, Repr

namespace Cursor

/-- The cursor of an editor that counts lines from 0 (`from_editor`). -/
def ofEditor (line column : UInt32) : Cursor := ⟨line + 1, column⟩

/-- A cursor as scripts see it: as signed numbers. -/
def signed (c : Cursor) : Int × Int := (c.line.toInt32.toInt, c.column.toInt32.toInt)

end Cursor

inductive Level where
  | info
  | warn
  | error
  deriving DecidableEq, Repr

structure Notice where
  level : Level
  message : String
  deriving DecidableEq, Repr

inductive Outcome where
  | noWorkspace
  | noActiveBuffer
  | noScripts
  | noSelection
  | skipped
  | applied (label : String)
  | loadFailed (error : ScriptError)
  | transformFailed (error : ScriptError)
  | bufferFailed (reason : String)
  deriving DecidableEq, Repr

namespace Outcome

def message : Outcome → String
  | noWorkspace => "No workspace is open"
  | noActiveBuffer => "No active file"
  | noScripts => "No codemods were found"
  | noSelection => "No selection"
  | skipped => "File skipped"
  | applied label => "Applied " ++ label
  | loadFailed e => e.userMessage
  | transformFailed e => e.userMessage
  | bufferFailed reason => reason

def isError : Outcome → Bool
  | loadFailed _ => true
  | transformFailed _ => true
  | bufferFailed _ => true
  | _ => false

def isApplied : Outcome → Bool
  | applied _ => true
  | _ => false

def notice (o : Outcome) : Notice := ⟨if o.isError then .error else .info, o.message⟩

end Outcome

/-- How to get at a buffer of some kind (`TextBuffer`). Each way may fail with a reason. -/
structure Editor (σ : Type) where
  name : σ → String
  text : σ → Except String String
  stop : σ → Except String Position
  apply : σ → Edit → Except String σ

/-- Replace the whole text in one edit (`replace_all`). -/
def Editor.replaceAll {σ : Type} (ed : Editor σ) (b : σ) (text : String) : Except String σ :=
  match ed.stop b with
  | .error e => .error e
  | .ok stop => ed.apply b ⟨.origin, stop, text⟩

/-- Buffers in memory do not fail by themselves. -/
def memoryEditor : Editor TextBuffer where
  name b := b.name
  text b := .ok b.text
  stop b := .ok b.end
  apply b e :=
    match b.apply e with
    | .ok b' => .ok b'
    | .error err => .error err.message

structure Request (σ : Type) where
  root : Option OsString
  settings : Settings
  buffer : Option σ
  cursor : Option Cursor
  selector : Selector

/-- What stays between runs (`Pipeline`): the loader, and how many loads there were. -/
structure Runner (E : Engine) where
  loader : Option (Loader E)
  loads : Nat

/-- What came of a run. -/
structure Report (E : Engine) (σ : Type) where
  ending : Ending Outcome
  notices : List Notice
  /-- The labels that were offered, if it came to that. -/
  offered : Option (List String)
  buffer : Option σ
  runner : Runner E

namespace Runner
variable {E : Engine} {σ : Type}

def fresh : Runner E := ⟨none, 0⟩

/-- The loader for a script directory (`loader_for`). One for the same directory is kept
as it is, whatever the settings are now. -/
def loaderFor (r : Runner E) (disk : Disk) (dir : OsString) (s : Settings) : Loader E :=
  match r.loader with
  | some l =>
    if Path.same l.scriptDir (disk.normalize dir) then l
    else .ofSettings disk (disk.normalize dir) s
  | none => .ofSettings disk (disk.normalize dir) s

/-- What a transform's result does to a buffer. -/
def settle (ed : Editor σ) (b : σ) (label : String) : Result → Outcome × σ
  | .skip => (.skipped, b)
  | .failed e => (.transformFailed e, b)
  | .replace text =>
    match ed.replaceAll b text with
    | .ok b' => (.applied label, b')
    | .error reason => (.bufferFailed reason, b)

/-- Call a transform that was just loaded on a buffer. -/
def call (ed : Editor σ) (disk : Disk) (b : σ) (cursor : Option Cursor) (label : String)
    (l : Loader E) (unit : Nat) (t : Transform E) : Ending Outcome × σ × Loader E :=
  match ed.text b with
  | .error reason => (.back (.bufferFailed reason), b, l)
  | .ok source =>
    match t.execute disk ⟨source, ed.name b, cursor.map Cursor.signed⟩ with
    | (t', .never) => (.never, b, l.update unit t')
    | (t', .panic) => (.panic, b, l.update unit t')
    | (t', .back e) =>
      let (outcome, b') := settle ed b label e.result
      (.back outcome, b', l.update unit t')

/-- Load a candidate and apply it to a buffer (the end of `run_inner`). -/
def apply (r : Runner E) (ed : Editor σ) (disk : Disk) (dir : OsString) (s : Settings)
    (b : σ) (cursor : Option Cursor) (c : Candidate) (moment : E.Moment) :
    Ending Outcome × σ × Runner E :=
  match (r.loaderFor disk dir s).load disk c.path moment with
  | (l, .never) => (.never, b, ⟨some l, r.loads + 1⟩)
  | (l, .panic) => (.panic, b, ⟨some l, r.loads + 1⟩)
  | (l, .back (.error e)) => (.back (.loadFailed e.scriptError), b, ⟨some l, r.loads + 1⟩)
  | (l, .back (.ok (unit, t))) =>
    let (ending, b', l') := call ed disk b cursor c.label l unit t
    (ending, b', ⟨some l', r.loads + 1⟩)

/-- The notices before the last one, and the choice. -/
def choose (selector : Selector) (cs : List Candidate) : List Notice × Option Candidate :=
  match selector cs with
  | .ok choice => ([], choice.bind (cs[·]?))
  | .error reason => ([⟨.warn, "Codemod selection failed: " ++ reason⟩], none)

/-- The notice of an outcome, if there is one. -/
def closing : Ending Outcome → List Notice
  | .back o => [o.notice]
  | _ => []

/-- Run the command once (`Pipeline::run`). The last notice is the outcome's. -/
def run (r : Runner E) (ed : Editor σ) (disk : Disk) (q : Request σ) (moment : E.Moment) :
    Report E σ :=
  let report (ending : Ending Outcome) (before : List Notice) (offered : Option (List String))
      (b : Option σ) (r : Runner E) : Report E σ :=
    ⟨ending, before ++ closing ending, offered, b, r⟩
  match q.root with
  | none => report (.back .noWorkspace) [] none q.buffer r
  | some root =>
    match q.buffer with
    | none => report (.back .noActiveBuffer) [] none q.buffer r
    | some b =>
      let dir := q.settings.scriptDir (Path.ofNames disk.cwd) root
      let listing := disk.scripts q.settings dir
      let told := listing.diagnostic.toList.map (⟨.error, ·⟩)
      if listing.candidates.isEmpty then report (.back .noScripts) told none q.buffer r
      else
        let offered := some (listing.candidates.map Candidate.label)
        match choose q.selector listing.candidates with
        | (warned, none) => report (.back .noSelection) (told ++ warned) offered q.buffer r
        | (warned, some c) =>
          let (ending, b', r') := r.apply ed disk dir q.settings b q.cursor c moment
          report ending (told ++ warned) offered (some b') r'

end Runner

end Retouch
