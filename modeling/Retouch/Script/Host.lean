import Retouch.Engine
import Retouch.Files.Disk
import Retouch.Lower.Lowered

/-! The host of a script: it finds the file for a specifier, and reads modules. What it
hands to scripts is text, so a path that is none comes to them as it is shown, and from
then on that is the path. -/

namespace Retouch.Script
open Files Syntax

/-- What a script needs from outside (`HostState`): the files, and how the project reads
them. -/
structure Host where
  disk : Disk
  extensions : List String
  dialect : Dialect
  deriving Repr

/-- The specifier under which the toolkit is imported. -/
def toolkitSpecifier : String := "jscodeshift"

def isRelative (specifier : String) : Bool :=
  "./".toList.isPrefixOf specifier.toList || "../".toList.isPrefixOf specifier.toList ||
    Path.isAbsolute (.ofText specifier)

/-- The dialect that a module is written in, by its extension (`dialect_for`). -/
def dialectOf (path : OsString) : Dialect :=
  match (Path.extension? path).bind OsString.text? with
  | some "ts" => .ts
  | some "mts" => .ts
  | some "cts" => .ts
  | some "tsx" => .tsx
  | some "jsx" => .jsx
  | _ => .js

/-- What comes of reading a module. -/
inductive Reading where
  | failed (message : String)
  /-- The lowering broke down. -/
  | panicked
  | source (code : String)
  deriving DecidableEq, Repr

namespace Host

/-- The files that a specifier may stand for, in order. -/
def candidates (h : Host) (dir specifier : String) : List OsString :=
  let base := Path.join (.ofText dir) (.ofText specifier)
  base :: (h.extensions.map fun ext => base ++ .ofText ("." ++ ext)) ++
    h.extensions.map fun ext => Path.join base (.ofText ("index." ++ ext))

/-- The file that a specifier stands for in a module of a directory
(`HostState::resolve`). -/
def resolve (h : Host) (dir specifier : String) : Except String String :=
  if !isRelative specifier then
    .error ("Cannot find module '" ++ specifier ++
      "': only relative paths can be required from a codemod")
  else
    match (h.candidates dir specifier).find? h.disk.isFile with
    | some found => .ok (OsString.shown (h.disk.normalize found))
    | none => .error ("Cannot find module '" ++ specifier ++ "' from '" ++ dir ++ "'")

/-- The text of a module without types and module statements (`HostState::read`). Erasing
the types may never end. -/
def read (h : Host) (path : String) : Option Reading :=
  match h.disk.readText (.ofText path) with
  | .error e => some (.failed ("Cannot read " ++ path ++ ": " ++ e.message))
  | .ok text =>
    match Lower.compile (dialectOf (.ofText path)) text with
    | none => none
    | some (.error _) => some .panicked
    | some (.ok lowered) => some (.source lowered.code)

end Host

end Retouch.Script
