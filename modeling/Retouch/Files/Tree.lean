import Retouch.Text.OsString

/-! Trees of files, directories and links. A place in a tree is the list of names
that leads to it from the root. -/

namespace Retouch.Files

/-- What a file holds: text, or bytes that are none. -/
inductive Content where
  | text (s : String)
  | garbled
  deriving DecidableEq, Repr, Inhabited

inductive Tree where
  | file (content : Content)
  /-- A link to the path in its text, seen from the directory it is in. -/
  | link (target : OsString)
  | dir (entries : List (OsString × Tree))
  deriving Repr, Inhabited

abbrev Entries := List (OsString × Tree)

namespace Entries

def get? (es : Entries) (name : OsString) : Option Tree := (es.find? (·.1 = name)).map (·.2)

/-- Put an entry under a name, in the place of the one that was there. -/
def put (es : Entries) (name : OsString) (t : Tree) : Entries :=
  if es.any (·.1 = name) then es.map fun e => if e.1 = name then (name, t) else e
  else es ++ [(name, t)]

def erase (es : Entries) (name : OsString) : Entries := es.filter (·.1 ≠ name)

end Entries

namespace Tree

def empty : Tree := .dir []

def isDir : Tree → Bool
  | dir _ => true
  | _ => false

def isFile : Tree → Bool
  | file _ => true
  | _ => false

/-- The entries of a directory; nothing else has any. -/
def entries : Tree → Entries
  | dir es => es
  | _ => []

/-- What is at a place. -/
def at? (t : Tree) : List OsString → Option Tree
  | [] => some t
  | name :: rest =>
    match Entries.get? t.entries name with
    | some child => child.at? rest
    | none => none

/-- Put something at a place below directories, making those that are not there. -/
def put (t : Tree) : List OsString → Tree → Tree
  | [], new => new
  | name :: rest, new =>
    match t with
    | dir es => dir (Entries.put es name (((Entries.get? es name).getD empty).put rest new))
    | other => other

/-- Take away what is at a place. -/
def erase (t : Tree) : List OsString → Tree
  | [] => t
  | [name] =>
    match t with
    | dir es => dir (Entries.erase es name)
    | other => other
  | name :: rest =>
    match t with
    | dir es =>
      match Entries.get? es name with
      | some child => dir (Entries.put es name (child.erase rest))
      | none => t
    | other => other

mutual

/-- The number of files in a tree. -/
def fileCount : Tree → Nat
  | file _ => 1
  | link _ => 0
  | dir es => fileCounts es

def fileCounts : List (OsString × Tree) → Nat
  | [] => 0
  | (_, t) :: es => t.fileCount + fileCounts es

end

end Tree

end Retouch.Files
