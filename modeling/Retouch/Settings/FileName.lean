import Retouch.Settings.Basic

/-! File names of scripts, `name.ext` or `name.suffix.ext`, and the names under
which a script may be asked for. -/

namespace Retouch

/-- What stands before and after the last dot. -/
def splitLastDot (cs : List Char) : Option (List Char × List Char) :=
  let back := cs.reverse
  match back.dropWhile (· != '.') with
  | [] => none
  | _ :: stem => some (stem.reverse, (back.takeWhile (· != '.')).reverse)

/-- A text without a given ending, if it ends so. -/
def withoutEnding (ending cs : List Char) : Option (List Char) :=
  if ending.isSuffixOf cs then some (cs.take (cs.length - ending.length)) else none

/-- The bare name in a stem with the suffix: what stands before the dot before
the suffix. -/
def bareName (suffix : String) (stem : List Char) : Option (List Char) :=
  (withoutEnding suffix.toList stem).bind (withoutEnding ['.'])

/-- Whether a file of this name is a script (`is_codemod_file`). -/
def Settings.isScriptFile (s : Settings) (name : String) : Bool :=
  match splitLastDot name.toList with
  | none => false
  | some (stem, ext) =>
    !stem.isEmpty && s.isScriptExtension (String.ofList ext) &&
      match s.discovery with
      | .all => true
      | .suffix => (bareName s.suffix stem).any (!·.isEmpty)

/-- Whether a script with this label goes by a name (`ByName::matches`): its label, the
label without the extension, or the bare name. -/
def goesBy (suffix name label : String) : Bool :=
  label = name ||
    match splitLastDot label.toList with
    | none => false
    | some (stem, _) =>
      stem = name.toList || bareName suffix stem = some name.toList

/-- The first label that goes by a name. -/
def indexByName (suffix name : String) (labels : List String) : Option Nat :=
  labels.findIdx? (goesBy suffix name)

end Retouch
