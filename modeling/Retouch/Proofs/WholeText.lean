import Mathlib.Data.List.TakeWhile
import Mathlib.Tactic.Conv
import Retouch.Runner

/-! The end of a text is one of its positions, and nothing stands behind it. So an
edit from the origin to the end reaches all of the text and leaves nothing but what it
puts there. This is so for every text whose characters 32 bits can count. -/

namespace Retouch.Buffer
open Text

/-- What stands after the last line feed of a text. -/
def lastLine (cs : List Char) : List Char := (cs.reverse.takeWhile (· != '\n')).reverse

theorem bne_of_notMem {x : Char} {cs : List Char} (h : x ∉ cs) : ∀ c ∈ cs, (c != x) = true := by
  intro c hc
  simpa using fun he : c = x => h (he ▸ hc)

theorem lastLine_append_of_notMem {line : List Char} (h : '\n' ∉ line) (cs : List Char) :
    lastLine (cs ++ line) = lastLine cs ++ line := by
  have hall := bne_of_notMem (mt List.mem_reverse.mp h)
  rw [lastLine, List.reverse_append, List.takeWhile_append_of_pos hall, List.reverse_append,
    List.reverse_reverse, lastLine]

theorem lastLine_of_notMem {cs : List Char} (h : '\n' ∉ cs) : lastLine cs = cs :=
  lastLine_append_of_notMem h []

/-- A line before the last line feed has no part in the last line. -/
theorem lastLine_append (line rest : List Char) :
    lastLine (line ++ '\n' :: rest) = lastLine rest := by
  unfold lastLine
  rw [List.reverse_append, List.reverse_cons, List.append_assoc, List.takeWhile_append]
  split
  · rename_i hlen
    have hself := (List.takeWhile_prefix (· != '\n') (l := rest.reverse)).eq_of_length hlen
    simp [hself]
  · rfl

theorem notMem_lastLine (cs : List Char) : '\n' ∉ lastLine cs := by
  intro h
  simpa using List.mem_takeWhile_imp (List.mem_reverse.mp h)

namespace Position

theorem afterLines_succ {line : List Char} (h : '\n' ∉ line) (n : Nat) (rest : List Char) :
    afterLines (n + 1) (line ++ '\n' :: rest) = afterLines n rest := by
  rw [afterLines, List.dropWhile_append_of_pos (bne_of_notMem h)]
  simp

/-- After the line feeds of its front part a text has the last line of that part
left, and what follows. -/
theorem afterLines_count (cs more : List Char) :
    afterLines (cs.count '\n') (cs ++ more) = some (lastLine cs ++ more) ∧
      ∃ front, cs = front ++ lastLine cs := by
  generalize hn : cs.count '\n' = n
  induction n generalizing cs with
  | zero =>
    have hc : '\n' ∉ cs := List.count_eq_zero.mp hn
    rw [lastLine_of_notMem hc]
    exact ⟨rfl, [], rfl⟩
  | succ n ih =>
    have hm : '\n' ∈ cs := List.count_pos_iff.mp (by omega)
    obtain ⟨line, rest, rfl, hline⟩ := List.eq_append_cons_of_mem hm
    have hrest : rest.count '\n' = n := by
      rw [List.count_append, List.count_eq_zero.mpr hline, List.count_cons_self] at hn
      omega
    obtain ⟨hafter, front, hfront⟩ := ih rest hrest
    rw [List.append_assoc, List.cons_append, afterLines_succ hline, lastLine_append]
    exact ⟨hafter, line ++ '\n' :: front, by rw [List.append_assoc, List.cons_append, ← hfront]⟩

theorem offsetIn_origin (cs : List Char) : origin.offsetIn cs = some 0 := by
  simp [offsetIn, origin, afterLines]

theorem origin_le (p : Position) : origin.le p = true := by
  obtain ⟨line, column⟩ := p
  by_cases hline : line = 0
  · simp [origin, le, hline]
  · have hpos : 0 < line := by
      rw [UInt32.lt_iff_toNat_lt]
      exact Nat.pos_of_ne_zero fun h => hline (UInt32.toNat_inj.mp h)
    simp [origin, le, hpos]

/-- The position has the line and the column of the end of a text. -/
structure EndsAt (p : Position) (cs : List Char) : Prop where
  line : p.line.toNat = cs.count '\n'
  column : p.column.toNat = (lastLine cs).length

theorem length_lastLine_le (cs : List Char) : (lastLine cs).length ≤ cs.length := by
  obtain ⟨-, front, hfront⟩ := afterLines_count cs []
  have hlen := congrArg List.length hfront
  rw [List.length_append] at hlen
  omega

/-- In 32 bits the end of a text is found if the text has no more characters than they can
count. -/
theorem endsAt_endOf {cs : List Char} (h : cs.length < UInt32.size) : (endOf cs).EndsAt cs where
  line := UInt32.toNat_ofNat_of_lt' (Nat.lt_of_le_of_lt List.count_le_length h)
  column := by
    have hlast := length_lastLine_le cs
    rw [endOf, lastLine, List.length_reverse]
    rw [lastLine, List.length_reverse] at hlast
    exact UInt32.toNat_ofNat_of_lt' (by omega)

/-- The end of a front part of a text is a position of the text, behind all bytes
of that part. -/
theorem EndsAt.offsetIn_append {p : Position} {cs : List Char} (h : p.EndsAt cs)
    (more : List Char) : p.offsetIn (cs ++ more) = some (byteLength cs) := by
  obtain ⟨hafter, front, hfront⟩ := afterLines_count cs more
  have hline : firstLine (lastLine cs ++ more) = lastLine cs ++ firstLine more :=
    List.takeWhile_append_of_pos (bne_of_notMem (notMem_lastLine cs))
  have hlen : byteLength cs = byteLength front + byteLength (lastLine cs) := by
    conv_lhs => rw [hfront]
    exact byteLength_append _ _
  have hcolumn : p.column.toNat ≤ (lastLine cs ++ firstLine more).length := by
    rw [h.column, List.length_append]
    exact Nat.le_add_right _ _
  have htake : (lastLine cs ++ firstLine more).take p.column.toNat = lastLine cs := by
    rw [h.column]
    exact List.take_left
  simp only [offsetIn, h.line, hafter, hline, hcolumn, if_true, htake, byteLength_append,
    Option.some.injEq]
  omega

/-- The end of a text is a position of the text, behind all of its bytes. -/
theorem offsetIn_endOf {cs : List Char} (h : cs.length < UInt32.size) :
    (endOf cs).offsetIn cs = some (byteLength cs) := by
  simpa using (endsAt_endOf h).offsetIn_append []

end Position

theorem takeBytes_zero (cs : List Char) : takeBytes 0 cs = [] := by
  cases cs <;> rfl

theorem dropBytes_all (cs : List Char) : dropBytes (byteLength cs) cs = [] := by
  simpa using dropBytes_byteLength cs []

theorem applyTo_whole {cs : List Char} (h : cs.length < UInt32.size) (text : String) :
    (Edit.whole cs text).applyTo cs = .ok text.toList := by
  simp only [Edit.applyTo, Edit.whole, Position.origin_le, if_true, Position.offsetIn_origin,
    Position.offsetIn_endOf h, takeBytes_zero, dropBytes_all, List.nil_append, List.append_nil]

end Retouch.Buffer

namespace Retouch
open Buffer

/-- Replacing the whole text of a buffer in memory does not fail, and the buffer
then holds the new text and no trace of the old one. -/
theorem memoryEditor_replaceAll {b : TextBuffer} (hb : b.text.length < UInt32.size)
    (text : String) : memoryEditor.replaceAll b text = .ok { b with text } := by
  rw [← String.length_toList] at hb
  have h : b.apply (.whole b.text.toList text) = .ok { b with text } := by
    simp [TextBuffer.apply, applyTo_whole hb]
  simp only [Editor.replaceAll, memoryEditor, TextBuffer.end]
  have hw : (⟨.origin, .endOf b.text.toList, text⟩ : Edit) = .whole b.text.toList text := rfl
  rw [hw, h]

end Retouch
