import Retouch.Proofs.Extent
import Retouch.Toolkit.Node

/-! Text between quotes, read back. Writing escapes characters one by one, the
scanner looks for the closing quote, and the value of a literal is made of 16-bit
units. The three meet in what stands for a single character: it is passed over as a
whole, and it has that character's units as its value. -/

namespace Retouch.Text
open Syntax

/-! ### What stands for a character -/

/-- The ways to write a character between quotes: by itself, or by a mark behind a
backslash, with characters behind the mark that are nothing special. -/
inductive Written (c : Char) : List Char → Prop
  | plain : c ≠ '"' → c ≠ '\\' → c ≠ '\n' → c ≠ '\r' → Written c [c]
  | escaped {mark : Char} {more : List Char} :
      (∀ y, escapeValue (mark :: more ++ y) = some (charUnits c, more.length + 1)) →
      (∀ x ∈ more, x ≠ '"' ∧ x ≠ '\\' ∧ x ≠ '\n') → Written c ('\\' :: mark :: more)

/-- The number of a control character, as its escape has it. -/
theorem escapeValue_control (y : List Char) :
    ∀ n < 0x20, escapeValue ((unicodeEscape n).tail ++ y) = some ([n], 5) := by
  intro n hn
  have hdigits : ∀ n < 0x20, hexDigit (n / 4096 % 16) = '0' ∧
      hexValue ['0', hexDigit (n / 256 % 16), hexDigit (n / 16 % 16), hexDigit (n % 16)] =
        some n := by decide
  obtain ⟨hzero, hvalue⟩ := hdigits n hn
  simp [unicodeEscape, hzero, escapeValue, hvalue]

theorem hexDigit_plain : ∀ n < 16, hexDigit n ≠ '"' ∧ hexDigit n ≠ '\\' ∧ hexDigit n ≠ '\n' := by
  decide

theorem written_control {c : Char} (h : c.toNat < 0x20) : Written c (unicodeEscape c.toNat) := by
  have hunits : charUnits c = [c.toNat] := if_pos (Nat.lt_trans h (by decide))
  have hvalue := fun y => escapeValue_control y c.toNat h
  rw [← hunits] at hvalue
  refine .escaped hvalue ?_
  simp [hexDigit_plain, Nat.mod_lt]

theorem escapeChar_written (c : Char) : Written c (escapeChar c) := by
  unfold escapeChar
  split
  case h_8 hquote hback hline hreturn _ _ _ =>
    split
    · exact written_control ‹_›
    · exact .plain hquote hback hline hreturn
  all_goals
    refine .escaped (fun y => ?_) (by simp)
    rfl

variable {c : Char} {cs y : List Char}

theorem quoted_plain {x : Char} (h : x ≠ '"' ∧ x ≠ '\\' ∧ x ≠ '\n') :
    quoted '"' (x :: y) = 1 + quoted '"' y := by
  rw [quoted_cons h.2.1, if_neg h.2.2, if_neg h.1]

theorem quoted_plains {xs : List Char} (h : ∀ x ∈ xs, x ≠ '"' ∧ x ≠ '\\' ∧ x ≠ '\n') :
    quoted '"' (xs ++ y) = xs.length + quoted '"' y := by
  induction xs with
  | nil => simp
  | cons x xs ih =>
    rw [List.cons_append, quoted_plain (h x List.mem_cons_self),
      ih fun z hz => h z (List.mem_cons_of_mem x hz), List.length_cons]
    omega

/-- No part of what stands for a character closes the literal. -/
theorem Written.quoted (h : Written c cs) :
    Syntax.quoted '"' (cs ++ y) = cs.length + Syntax.quoted '"' y := by
  cases h with
  | plain hquote hback hline _ => exact quoted_plain ⟨hquote, hback, hline⟩
  | @escaped mark more _ hmore =>
    rw [List.cons_append, List.cons_append, Syntax.quoted, quoted_plains hmore, List.length_cons,
      List.length_cons]
    omega

theorem Written.literalUnits (h : Written c cs) :
    Text.literalUnits '"' (cs ++ y) = (Text.literalUnits '"' y).map (charUnits c ++ ·) := by
  cases h with
  | plain hquote hback hline hreturn =>
    rw [List.cons_append, List.nil_append, Text.literalUnits]
    simp [hquote, hback, hline, hreturn]
  | @escaped mark more hvalue _ =>
    rw [List.cons_append, Text.literalUnits, hvalue]
    simp

/-! ### Whole texts -/

theorem quoted_escapes (s y : List Char) :
    quoted '"' (s.flatMap escapeChar ++ '"' :: y) = (s.flatMap escapeChar).length + 1 := by
  induction s with
  | nil => exact quoted_cons (by decide) y
  | cons c s ih =>
    rw [List.flatMap_cons, List.append_assoc, (escapeChar_written c).quoted, ih,
      List.length_append, Nat.add_assoc]

theorem literalUnits_escapes (s : List Char) :
    literalUnits '"' (s.flatMap escapeChar ++ ['"']) = some (s.flatMap charUnits) := by
  induction s with
  | nil => simp [literalUnits]
  | cons c s ih =>
    rw [List.flatMap_cons, List.append_assoc, (escapeChar_written c).literalUnits, ih,
      List.flatMap_cons, Option.map_some]

/-- A character is no surrogate. -/
theorem toNat_apart (c : Char) :
    c.toNat < 0xD800 ∨ (0xDFFF < c.toNat ∧ c.toNat < 0x110000) := c.valid

theorem ofUnits_charUnits (c : Char) (us : List Nat) :
    ofUnits (charUnits c ++ us) = (ofUnits us).map (c :: ·) := by
  have hc := toNat_apart c
  unfold charUnits
  split
  · have hhigh : isHighUnit c.toNat = false := by
      simp [isHighUnit]
      omega
    have hlow : isLowUnit c.toNat = false := by
      simp [isLowUnit]
      omega
    rw [List.cons_append, List.nil_append, ofUnits.eq_def]
    simp only [hhigh, hlow, Char.ofNat_toNat, Bool.false_eq_true, if_false]
  · have hhigh : isHighUnit (0xD800 + (c.toNat - 0x10000) / 0x400) = true := by
      simp [isHighUnit]
      omega
    have hlow : isLowUnit (0xDC00 + (c.toNat - 0x10000) % 0x400) = true := by
      simp [isLowUnit]
      omega
    have hpair : pairedChar (0xD800 + (c.toNat - 0x10000) / 0x400)
        (0xDC00 + (c.toNat - 0x10000) % 0x400) = c := by
      have hsum : 0x10000 + (0xD800 + (c.toNat - 0x10000) / 0x400 - 0xD800) * 0x400 +
          (0xDC00 + (c.toNat - 0x10000) % 0x400 - 0xDC00) = c.toNat := by omega
      rw [pairedChar, hsum, Char.ofNat_toNat]
    rw [List.cons_append, List.cons_append, List.nil_append, ofUnits, hhigh]
    simp only [hlow, hpair, if_true]

theorem ofUnits_flatMap (s : List Char) : ofUnits (s.flatMap charUnits) = some s := by
  induction s with
  | nil => rfl
  | cons c s ih => rw [List.flatMap_cons, ofUnits_charUnits, ih, Option.map_some]

end Retouch.Text

namespace Retouch.Toolkit
open Text

theorem toList_quote (s : String) :
    (Text.quote s).toList = '"' :: (s.toList.flatMap escapeChar ++ ['"']) := by
  rw [Text.quote, String.toList_ofList]

/-- The literal that is written for a text has that text as its value. -/
theorem stringValue_quote (s : String) : stringValue (Text.quote s) = .text s := by
  have hunits : Wide.ofUnits (s.toList.flatMap charUnits) = .text s := by
    rw [Wide.ofUnits, ofUnits_flatMap]
    simp
  rw [stringValue, toList_quote]
  simp only [literalUnits_escapes, hunits]
  rfl

end Retouch.Toolkit
