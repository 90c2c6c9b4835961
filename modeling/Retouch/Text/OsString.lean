/-! Names as the system has them. A name on disk is any string of bytes and need not be
text. Where text is wanted, every stretch of bytes that is part of no character is
replaced; so two names may be shown alike, and what is shown may be the name of
another file. -/

namespace Retouch

/-- A piece of a name: a character, or a stretch of bytes that is part of none. -/
inductive OsChar where
  | char (c : Char)
  | stray (bytes : List UInt8)
  deriving DecidableEq, Repr

/-- A name or a path (`OsString`, `PathBuf`). -/
abbrev OsString := List OsChar

namespace OsChar

def slash : OsChar := .char '/'

def char? : OsChar → Option Char
  | char c => some c
  | stray _ => none

/-- The character that is shown. -/
def shown : OsChar → Char
  | char c => c
  | stray _ => '�'

end OsChar

namespace OsString

def ofText (s : String) : OsString := s.toList.map .char

/-- The text of a name, if it is text (`to_str`). -/
def text? (n : OsString) : Option String := (n.mapM OsChar.char?).map String.ofList

/-- A name as text (`to_string_lossy`, `display`). -/
def shown (n : OsString) : String := String.ofList (n.map OsChar.shown)

/-- Whether a name is text, so that showing it loses nothing. -/
def IsText (n : OsString) : Prop := ∃ s, n = ofText s

@[simp] theorem shown_ofText (s : String) : shown (ofText s) = s := by
  have h : OsChar.shown ∘ OsChar.char = id := rfl
  rw [shown, ofText, List.map_map, h, List.map_id, String.ofList_toList]

theorem IsText.ofText_shown {n : OsString} (h : n.IsText) : ofText (shown n) = n := by
  obtain ⟨s, rfl⟩ := h
  rw [shown_ofText]

theorem mapM_char?_eq_some {n : OsString} {cs : List Char} :
    n.mapM OsChar.char? = some cs ↔ n = cs.map .char := by
  induction n generalizing cs with
  | nil => simp [eq_comm]
  | cons c n ih =>
    cases c with
    | stray bytes => cases cs <;> simp [OsChar.char?]
    | char c =>
      cases cs with
      | nil => simp [OsChar.char?, Option.bind_eq_some_iff]
      | cons d cs =>
        simp only [List.mapM_cons, OsChar.char?, List.map_cons, List.cons.injEq, ← ih]
        cases List.mapM OsChar.char? n <;> simp

theorem text?_eq_some {n : OsString} {s : String} : text? n = some s ↔ n = ofText s := by
  rw [text?, Option.map_eq_some_iff, ofText]
  constructor
  · rintro ⟨cs, hcs, rfl⟩
    rw [String.toList_ofList]
    exact mapM_char?_eq_some.mp hcs
  · intro h
    exact ⟨s.toList, mapM_char?_eq_some.mpr h, String.ofList_toList⟩

instance (n : OsString) : Decidable n.IsText :=
  decidable_of_iff ((text? n).isSome = true)
    (by simp [Option.isSome_iff_exists, text?_eq_some, IsText])

theorem ofText_injective {s t : String} (h : ofText s = ofText t) : s = t := by
  rw [← shown_ofText s, h, shown_ofText]

end OsString

end Retouch
