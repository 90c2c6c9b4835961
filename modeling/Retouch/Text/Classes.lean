import Retouch.Text.Alphabetic
import Retouch.Text.Numeric

/-! Character classes of source text. Letters, numbers and blanks are those of
the Unicode standard; digits and the characters of a numeric literal are ASCII.
Every class answers ASCII characters without a table look-up, and the tables say
the same there. -/

namespace Retouch.Text

def inRuns (runs : List (Nat × Nat)) (n : Nat) : Bool :=
  runs.any fun r => r.1 ≤ n && n < r.1 + r.2

def isAsciiLetter (c : Char) : Bool :=
  ('a' ≤ c && c ≤ 'z') || ('A' ≤ c && c ≤ 'Z')

def isDigit (c : Char) : Bool := '0' ≤ c && c ≤ '9'

def isAlphabetic (c : Char) : Bool :=
  if c.toNat < 128 then isAsciiLetter c else inRuns alphabeticRuns c.toNat

/-- A letter, or a number of any script. -/
def isAlphanumeric (c : Char) : Bool :=
  if c.toNat < 128 then isAsciiLetter c || isDigit c
  else inRuns alphabeticRuns c.toNat || inRuns numericRuns c.toNat

/-- Code points of blank characters, line ends included, ascending and disjoint. -/
def blankRuns : List (Nat × Nat) :=
  [(0x9, 5), (0x20, 1), (0x85, 1), (0xA0, 1), (0x1680, 1), (0x2000, 11), (0x2028, 2), (0x202F, 1),
   (0x205F, 1), (0x3000, 1)]

def isBlank (c : Char) : Bool := inRuns blankRuns c.toNat

/-- A character that may begin a name. -/
def isNameStart (c : Char) : Bool := isAlphabetic c || c == '_' || c == '$'

/-- A character that may continue a name; the two joiners count. -/
def isNameChar (c : Char) : Bool :=
  isAlphanumeric c || c == '_' || c == '$' || c == '\u200c' || c == '\u200d'

theorem isAlphanumeric_of_isAlphabetic {c : Char} (h : isAlphabetic c = true) :
    isAlphanumeric c = true := by
  unfold isAlphabetic at h
  unfold isAlphanumeric
  split at h <;> simp_all

theorem isNameChar_of_isNameStart {c : Char} (h : isNameStart c = true) : isNameChar c = true := by
  simp only [isNameStart, Bool.or_eq_true] at h
  rcases h with (h | h) | h <;> simp [isNameChar, h, isAlphanumeric_of_isAlphabetic]

/-- Drop the blanks at the front. -/
def trimStart (cs : List Char) : List Char := cs.dropWhile isBlank

/-- Drop the blanks at the back. -/
def trimEnd (cs : List Char) : List Char := (cs.reverse.dropWhile isBlank).reverse

def trim (cs : List Char) : List Char := trimEnd (trimStart cs)

end Retouch.Text
