import Retouch.Text.OsString

/-! Paths. A path with a slash at its front is absolute. Repeated slashes and single
dots mean nothing; two dots are kept, because what they lead to depends on
links. -/

namespace Retouch.Path
open OsChar (slash)

/-- The name of a directory in itself. -/
def dot : OsString := [.char '.']

/-- The name of the directory above. -/
def dots : OsString := [.char '.', .char '.']

theorem dots_ne_dot : dots ≠ dot := by decide

def isAbsolute (p : OsString) : Bool := p.head? = some slash

def endsWithSlash (p : OsString) : Bool := p.getLast? = some slash

/-- Parts between slashes, empty ones included. -/
def splitSlashes : OsString → List OsString
  | [] => [[]]
  | c :: cs =>
    if c = slash then [] :: splitSlashes cs
    else
      match splitSlashes cs with
      | part :: parts => (c :: part) :: parts
      | [] => [[c]]

/-- The names in a path, without empty parts and single dots (`components`). -/
def names (p : OsString) : List OsString :=
  (splitSlashes p).filter fun part => part ≠ [] && part ≠ dot

/-- `b` as seen from `a` (`Path::join`). An absolute path stands on its own. -/
def join (a b : OsString) : OsString :=
  if isAbsolute b || a = [] then b
  else if endsWithSlash a then a ++ b
  else a ++ slash :: b

def joinAll (a : OsString) (parts : List OsString) : OsString := parts.foldl join a

/-- The absolute path of given names. -/
def ofNames (parts : List OsString) : OsString :=
  if parts.isEmpty then [slash] else parts.flatMap (slash :: ·)

/-- A path from the current directory, without superfluous parts
(`std::path::absolute`). The empty path leads nowhere. Exactly two slashes at the front
are kept, and so is one at the end. -/
def absolute? (cwd p : OsString) : Option OsString :=
  if p = [] then none
  else
    let base :=
      if isAbsolute p then
        if [slash, slash].isPrefixOf p && !([slash, slash, slash].isPrefixOf p) then [slash, slash]
        else [slash]
      else cwd
    let path := joinAll base (names p)
    some (if endsWithSlash p then join path [] else path)

/-- Whether two paths have the same names (equality of `Path`s). -/
def same (p q : OsString) : Bool := isAbsolute p = isAbsolute q && names p = names q

/-- Whether `p` lies under `base` or is the same, name by name (`starts_with`). -/
def startsWith (p base : OsString) : Bool :=
  isAbsolute p = isAbsolute base && (names base).isPrefixOf (names p)

/-! ### Going up -/

/-- Parts of a path without those at the end that mean nothing. -/
def trimParts (parts : List OsString) : List OsString :=
  (parts.reverse.dropWhile fun part => part = [] || part = dot).reverse

/-- The parts of a path behind a leading slash or dot, and what stands before
them. -/
def bodyParts (p : OsString) : List OsString × List OsString :=
  match splitSlashes p with
  | [] :: rest => if isAbsolute p then ([[]], rest) else ([], [] :: rest)
  | [.char '.'] :: rest => ([dot], rest)
  | all => ([], all)

def joinParts : List OsString → OsString
  | [[]] => [slash]
  | parts => [slash].intercalate parts

/-- The path above, spelled as it was (`parent`). The root has none, nor has the empty
path. -/
def parent? (p : OsString) : Option OsString :=
  match bodyParts p with
  | (front, rest) =>
    match trimParts rest with
    | [] => if front = [dot] then some [] else none
    | body => some (joinParts (front ++ trimParts body.dropLast))

/-- A path and the paths above it, up to a number of steps. -/
def ancestorsFrom : Nat → OsString → List OsString
  | 0, p => [p]
  | n + 1, p =>
    match parent? p with
    | some above => p :: ancestorsFrom n above
    | none => [p]

/-- The path itself and all paths above it, from the bottom up (`ancestors`). -/
def ancestors (p : OsString) : List OsString := ancestorsFrom (p.length + 1) p

/-- What follows the last dot of the last name, unless the name begins with that dot
(`extension`). -/
def extension? (p : OsString) : Option OsString :=
  match (names p).getLast? with
  | none => none
  | some name =>
    if name = dots then none
    else
      let back := name.reverse
      match back.dropWhile (· ≠ .char '.') with
      | [] => none
      | [_] => none
      | _ :: _ :: _ => some (back.takeWhile (· ≠ .char '.')).reverse

/-- The directory part of a path that scripts see (`dirname`), with backslashes counted as
slashes. -/
def dirName (p : String) : String :=
  let back := p.toList.reverse.dropWhile fun c => c ≠ '/' && c ≠ '\\'
  match back with
  | [] => ""
  | [c] => String.ofList [c]
  | _ :: rest => String.ofList rest.reverse

/-- How to get from `base` to `p` (`diff_paths`), both absolute and without dots. -/
def relativeTo (p base : OsString) : OsString :=
  let a := names p
  let b := names base
  let shared := ((a.zip b).takeWhile fun (x, y) => x = y).length
  [slash].intercalate (List.replicate (b.length - shared) dots ++ a.drop shared)

end Retouch.Path
