import Retouch.Erase.TypeExtent

/-! Sets of erased tokens, as spans of token indices. Erasing is monotone: a
token once covered stays covered (`erase`), and the order of the spans does not matter. -/

namespace Retouch.Erase

/-- The tokens from `first` to `last`, both included. -/
structure Span where
  first : Nat
  last : Nat
  deriving DecidableEq, Repr

def Span.covers (s : Span) (k : Nat) : Bool := s.first ≤ k && k ≤ s.last

abbrev Erasure := List Span

def Erasure.covers (e : Erasure) (k : Nat) : Bool := e.any (·.covers k)

@[simp] theorem Erasure.covers_nil (k : Nat) : Erasure.covers [] k = false := rfl

@[simp] theorem Erasure.covers_append (a b : Erasure) (k : Nat) :
    Erasure.covers (a ++ b) k = (Erasure.covers a k || Erasure.covers b k) := by
  simp [Erasure.covers]

def Span.single (k : Nat) : Span := ⟨k, k⟩

/-- The tokens from `first` up to, but not including, `stop`. -/
def Span.upTo (first stop : Nat) : Span := ⟨first, stop - 1⟩

end Retouch.Erase
