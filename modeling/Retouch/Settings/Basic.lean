import Retouch.Path
import Retouch.Syntax.Dialect

/-! Settings of a project: where its scripts are and which files count. -/

namespace Retouch

/-- Which files of the script directory are scripts (`Discovery`). -/
inductive Discovery where
  /-- Every file with a listed extension. -/
  | all
  /-- Those whose name has the suffix before the extension. -/
  | suffix
  deriving DecidableEq, Repr

def Discovery.name : Discovery → String
  | all => "all"
  | suffix => "suffix"

structure Settings where
  dir : OsString
  discovery : Discovery
  suffix : String
  extensions : List String
  parser : Syntax.Dialect
  deriving DecidableEq, Repr

namespace Settings

def fileName : String := "codemod.toml"

def defaultDir : String := "codemods"

def defaultSuffix : String := "cm"

def defaultExtensions : List String := ["js", "mjs", "cjs", "jsx", "ts", "mts", "cts", "tsx"]

def default : Settings := ⟨.ofText defaultDir, .all, defaultSuffix, defaultExtensions, .tsx⟩

def isScriptExtension (s : Settings) (ext : String) : Bool := ext ∈ s.extensions

/-- The script directory of a project (`codemod_dir`), as an absolute path where there is
one. -/
def scriptDir (s : Settings) (cwd root : OsString) : OsString :=
  let dir := Path.join root s.dir
  if Path.isAbsolute dir then dir else (Path.absolute? cwd dir).getD dir

end Settings

end Retouch
