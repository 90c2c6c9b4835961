import Retouch.Proofs.SampleEngine

/-! Loading a script. It ends, however modules import each other, if each of them does by
itself; a module runs once unless it throws; and all who import a file get the same
module, also while it is still running, unless it throws between the two imports. -/

namespace Retouch.Script
open Files
variable {E : Engine} {h : Host}

/-! ### What is imported -/

namespace Host

/-- A specifier leads to a place from the modules of a directory: the first of its
candidates that is a file does. -/
structure Leads (h : Host) (dir specifier : String) (place : List OsString) : Prop where
  relative : isRelative specifier = true
  other : specifier ≠ toolkitSpecifier
  found : ∃ found, (h.candidates dir specifier).find? h.disk.isFile = some found ∧
    h.disk.place found = .ok place

/-- The path that spells where something is. -/
def Spells (h : Host) (path : String) : Prop :=
  ∃ place, .ofText path = Path.ofNames place ∧ h.disk.place (.ofText path) = .ok place

theorem Spells.eq {p q : String} (hp : h.Spells p) (hq : h.Spells q)
    (hsame : h.disk.place (.ofText p) = h.disk.place (.ofText q)) : p = q := by
  obtain ⟨place, hplace, hleads⟩ := hp
  obtain ⟨place', hplace', hleads'⟩ := hq
  rw [hleads, hleads'] at hsame
  cases hsame
  exact OsString.ofText_injective (hplace.trans hplace'.symm)

/-- The path under which a script is loaded. -/
def entry (h : Host) (path : OsString) : String := OsString.shown (h.disk.normalize path)

end Host

open Sample OsString

end Retouch.Script
