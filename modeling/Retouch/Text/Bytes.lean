/-! Cutting text at byte offsets. A cut inside a character falls behind it, so
the two parts of a cut always put together to the text. -/

namespace Retouch.Text

/-- Length of a text in UTF-8. -/
def byteLength (cs : List Char) : Nat := cs.foldr (fun c n => c.utf8Size + n) 0

/-- The characters that begin within the first `n` bytes. -/
def takeBytes (n : Nat) : List Char → List Char
  | [] => []
  | c :: cs => if n = 0 then [] else c :: takeBytes (n - c.utf8Size) cs

/-- The characters that begin after the first `n` bytes. -/
def dropBytes (n : Nat) : List Char → List Char
  | [] => []
  | c :: cs => if n = 0 then c :: cs else dropBytes (n - c.utf8Size) cs

/-- The characters that begin between two byte offsets. -/
def slice (start stop : Nat) (cs : List Char) : List Char :=
  takeBytes (stop - start) (dropBytes start cs)

theorem takeBytes_append_dropBytes (n : Nat) (cs : List Char) :
    takeBytes n cs ++ dropBytes n cs = cs := by
  induction cs generalizing n with
  | nil => rfl
  | cons c cs ih =>
    by_cases h : n = 0
    · simp [takeBytes, dropBytes, h]
    · simp [takeBytes, dropBytes, h, ih]

@[simp] theorem byteLength_nil : byteLength [] = 0 := rfl

@[simp] theorem byteLength_cons (c : Char) (cs : List Char) :
    byteLength (c :: cs) = c.utf8Size + byteLength cs := rfl

@[simp] theorem byteLength_append (xs ys : List Char) :
    byteLength (xs ++ ys) = byteLength xs + byteLength ys := by
  induction xs with
  | nil => simp
  | cons c xs ih => simp [ih, Nat.add_assoc]

/-- A cut at the byte length of a front part gives back that part. -/
theorem dropBytes_byteLength (xs ys : List Char) : dropBytes (byteLength xs) (xs ++ ys) = ys := by
  induction xs with
  | nil => cases ys <;> simp [dropBytes]
  | cons c xs ih =>
    have hc : c.utf8Size ≠ 0 := Nat.ne_of_gt (Char.utf8Size_pos c)
    simp [dropBytes, hc, ih]

theorem takeBytes_byteLength (xs ys : List Char) : takeBytes (byteLength xs) (xs ++ ys) = xs := by
  have h := takeBytes_append_dropBytes (byteLength xs) (xs ++ ys)
  rw [dropBytes_byteLength] at h
  exact List.append_cancel_right h

/-- A cut behind a front part of a text is one of what follows. -/
theorem takeBytes_append {xs ys : List Char} {n : Nat} (h : byteLength xs ≤ n) :
    takeBytes n (xs ++ ys) = xs ++ takeBytes (n - byteLength xs) ys := by
  induction xs generalizing n with
  | nil => simp
  | cons c xs ih =>
    have hpos := Char.utf8Size_pos c
    rw [byteLength_cons] at h
    rw [List.cons_append, takeBytes, if_neg (by omega), ih (by omega), byteLength_cons,
      List.cons_append, Nat.sub_sub]

theorem dropBytes_append {xs ys : List Char} {n : Nat} (h : byteLength xs ≤ n) :
    dropBytes n (xs ++ ys) = dropBytes (n - byteLength xs) ys := by
  induction xs generalizing n with
  | nil => simp
  | cons c xs ih =>
    have hpos := Char.utf8Size_pos c
    rw [byteLength_cons] at h
    rw [List.cons_append, dropBytes, if_neg (by omega), ih (by omega), byteLength_cons, Nat.sub_sub]

/-- A slice from the end of one front part to the end of a longer one. -/
theorem slice_byteLength (xs ys zs : List Char) :
    slice (byteLength xs) (byteLength (xs ++ ys)) (xs ++ ys ++ zs) = ys := by
  rw [slice, List.append_assoc, dropBytes_byteLength, byteLength_append, Nat.add_sub_cancel_left,
    takeBytes_byteLength]

end Retouch.Text
