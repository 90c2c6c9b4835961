import Retouch.Listing
import Retouch.Script.Transform

/-! Loaders keep the transforms they loaded under the normalized path of the
script. Loading always reads the files anew, and evicts everything that has to do
with the script directory. -/

namespace Retouch
open Files Script Syntax

variable {E : Engine}

/-- A transform by its number, with the files read when it was loaded
(`ModuleCacheEntry`). -/
structure CacheEntry where
  unit : Nat
  dependencies : List OsString
  deriving DecidableEq, Repr

/-- A loader (`ModuleLoader`). -/
structure Loader (E : Engine) where
  scriptDir : OsString
  extensions : List String
  dialect : Dialect
  /-- Every transform ever loaded. -/
  units : Array (Transform E)
  cache : List (OsString × CacheEntry)

namespace Loader

/-- A loader with default settings (`new`). -/
def plain (disk : Disk) (dir : OsString) : Loader E :=
  ⟨disk.normalize dir, Settings.defaultExtensions, .tsx, #[], []⟩

/-- A loader for a project (`with_config`). -/
def ofSettings (disk : Disk) (dir : OsString) (s : Settings) : Loader E :=
  ⟨disk.normalize dir, s.extensions, s.parser, #[], []⟩

def size (l : Loader E) : Nat := l.cache.length

def host (l : Loader E) (disk : Disk) : Host := ⟨disk, l.extensions, l.dialect⟩

/-- Whether a cached script or one of its dependencies lies under a path
(`lives_under`). -/
def livesUnder (base : OsString) (e : OsString × CacheEntry) : Bool :=
  Path.startsWith e.1 base || e.2.dependencies.any (Path.startsWith · base)

def evict (l : Loader E) (base : OsString) : Loader E :=
  { l with cache := l.cache.filter (!livesUnder base ·) }

/-- Evict what lies under a path, and tell how much that was (`invalidate`). -/
def invalidate (l : Loader E) (disk : Disk) (path : OsString) : Loader E × Nat :=
  let l' := l.evict (disk.normalize path)
  (l', l.size - l'.size)

/-- The transform cached for a path (`cached`). -/
def cached? (l : Loader E) (disk : Disk) (path : OsString) : Option Nat :=
  (l.cache.find? fun e => Path.same e.1 (disk.normalize path)).map (·.2.unit)

/-- A loader without what a load evicts. -/
def cleared (l : Loader E) (disk : Disk) (path : OsString) : Loader E :=
  let l := (l.invalidate disk l.scriptDir).1
  { l with cache := l.cache.filter fun e => !Path.same e.1 (disk.normalize path) }

/-- Keep a transform that was loaded. -/
def insert (l : Loader E) (path : OsString) (t : Transform E) : Loader E :=
  { l with
      units := l.units.push t
      cache := l.cache ++ [(path, ⟨l.units.size, t.dependencies⟩)] }

/-- Load a script anew (`load`). It gives the transform, and the number that it has. -/
def load (l : Loader E) (disk : Disk) (path : OsString) (moment : E.Moment) :
    Loader E × Ending (Except Failure (Nat × Transform E)) :=
  match Transform.load (l.host disk) (disk.normalize path) moment with
  | .never => (l.cleared disk path, .never)
  | .panic => (l.cleared disk path, .panic)
  | .back (.error e) => (l.cleared disk path, .back (.error e))
  | .back (.ok t) =>
    ((l.cleared disk path).insert (disk.normalize path) t, .back (.ok (l.units.size, t)))

/-- Put a transform that was called back in its place. -/
def update (l : Loader E) (unit : Nat) (t : Transform E) : Loader E :=
  { l with units := l.units.set! unit t }

end Loader

end Retouch
