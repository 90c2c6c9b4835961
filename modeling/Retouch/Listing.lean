import Retouch.Files.Disk
import Retouch.Settings.FileName
import Retouch.Failure

/-! Finding things on disk: the root of a project, its settings and its scripts. -/

namespace Retouch
open Files

/-- A script on offer (`CodemodCandidate`). -/
structure Candidate where
  label : String
  path : OsString
  deriving DecidableEq, Repr

/-- The scripts in a directory (`Enumeration`). A directory that is not there has none; one
that cannot be listed has none either, and the reason is told. -/
structure Listing where
  candidates : List Candidate
  diagnostic : Option String
  deriving DecidableEq, Repr

def Listing.empty : Listing := ⟨[], none⟩

/-- Choose among candidates (`Selector`); `none` is no choice. -/
abbrev Selector := List Candidate → Except String (Option Nat)

def Selector.cancel : Selector := fun _ => .ok none

def Selector.byName (suffix name : String) : Selector := fun cs =>
  .ok (indexByName suffix name (cs.map Candidate.label))

namespace Files.Disk

/-- The candidate under a name in a directory. What is no file is none, nor what has a
name that is no text. -/
def candidate? (d : Disk) (s : Settings) (dir name : OsString) : Option Candidate :=
  if d.isFile (Path.join dir name) then
    match OsString.text? name with
    | some label => if s.isScriptFile label then some ⟨label, Path.join dir name⟩ else none
    | none => none
  else none

/-- The candidates among the names in a directory, in the order of the labels. -/
def candidates (d : Disk) (s : Settings) (dir : OsString) (names : List OsString) :
    List Candidate :=
  (names.filterMap (d.candidate? s dir)).mergeSort fun a b => a.label ≤ b.label

/-- The scripts in a directory (`enumerate`). -/
def scripts (d : Disk) (s : Settings) (dir : OsString) : Listing :=
  match d.list dir with
  | .ok names => ⟨d.candidates s dir names, none⟩
  | .error .notFound => .empty
  | .error e => ⟨[], some e.message⟩

/-- Whether a directory looks like the root of a project. -/
def looksLikeRoot (d : Disk) (dir : OsString) : Bool :=
  d.isFile (Path.join dir (.ofText Settings.fileName)) ||
    d.isDir (Path.join dir (.ofText Settings.defaultDir)) ||
    d.has (Path.join dir (.ofText ".git"))

/-- The nearest project root at or above a path (`find_project_root`). -/
def projectRoot (d : Disk) (start : OsString) : Option OsString :=
  (Path.ancestors start).find? d.looksLikeRoot

/-- The settings of a project (`CodemodToml::load`), given how a text of settings is
understood; defaults where there is no settings file. -/
def settings (d : Disk) (parse : String → Except String Settings) (root : OsString) :
    Except Failure Settings :=
  let path := Path.join root (.ofText Settings.fileName)
  match d.readText path with
  | .ok text =>
    match parse text with
    | .ok s => .ok s
    | .error reason => .error (.settings path reason)
  | .error .notFound => .ok Settings.default
  | .error e => .error (.io e.message)

end Files.Disk

end Retouch
