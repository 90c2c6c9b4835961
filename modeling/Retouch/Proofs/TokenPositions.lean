import Mathlib.Data.List.Induction
import Retouch.Proofs.Partition
import Retouch.Proofs.WholeText

/-! Two ways to count lines and columns. Tokens carry places that are counted up
character by character; positions are looked up in the text from its start. A
place is a measure of the text before it, and so is the end of that text as a
position, so the two agree, whatever the characters and the ends of lines are. -/

namespace Retouch
open Buffer Syntax Text

namespace Buffer

theorem lastLine_concat_newline (cs : List Char) : lastLine (cs ++ ['\n']) = [] := by
  simp [lastLine]

end Buffer

namespace Syntax

/-- A place as a position. Places count lines from 1, positions from 0. -/
def Place.position (p : Place) : Position := ⟨.ofNat (p.line - 1), .ofNat p.column⟩

/-- Counting through a text leads to its end. -/
theorem Place.past_origin (cs : List Char) :
    Place.origin.past cs =
      ⟨byteLength cs, cs.count '\n' + 1, (lastLine cs).length⟩ := by
  -- the counters look at one more character at the end of the text
  induction cs using List.reverseRecOn with
  | nil => rfl
  | append_singleton cs c ih =>
    rw [Place.past_append, ih, Place.past_cons, Place.past_nil, Place.step]
    by_cases hc : c = '\n'
    · subst hc
      simp [lastLine_concat_newline]
    · have hline : '\n' ∉ [c] := by simpa using Ne.symm hc
      simp [hc, lastLine_append_of_notMem hline]

theorem Place.position_past_origin (cs : List Char) :
    (Place.origin.past cs).position = Position.endOf cs := by
  rw [Place.past_origin, Place.position, Position.endOf]
  simp [lastLine]

/-- Both ends of a token as measures of the text before them. -/
theorem tokenize_ends {d : Dialect} {source : String} {t : Token} (h : t ∈ tokenize d source) :
    ∃ before after, source.toList = before ++ t.text.toList ++ after ∧
      t.start = Place.origin.past before ∧
      t.stop = Place.origin.past (before ++ t.text.toList) := by
  obtain ⟨xs, ys, hcut⟩ := List.append_of_mem h
  obtain ⟨hstart, hstop⟩ := placed_append_cons hcut
  refine ⟨xs.flatMap fun x => x.text.toList, ys.flatMap fun x => x.text.toList, ?_, hstart, ?_⟩
  · rw [← tokenize_texts d source, hcut]
    simp
  · rw [hstop, hstart, Place.past_append]

/-- What the two ways to count have to agree on at one end of a token, in a text of no more
characters than 32 bits can count. -/
structure Place.Marks (p : Place) (source : String) : Prop where
  counted : p.line = p.position.line.toNat + 1 ∧ p.column = p.position.column.toNat
  offset : p.position.offsetIn source.toList = some p.offset

theorem Place.marks_past_origin {source : String} {cs more : List Char}
    (h : source.toList = cs ++ more) (hlen : source.length < UInt32.size) :
    (Place.origin.past cs).Marks source := by
  have hcs : cs.length < UInt32.size := by
    rw [← String.length_toList, h, List.length_append] at hlen
    omega
  have hends := Position.endsAt_endOf hcs
  refine ⟨?_, ?_⟩
  · rw [Place.position_past_origin, hends.line, hends.column, Place.past_origin]
    exact ⟨rfl, rfl⟩
  · rw [Place.position_past_origin, h, hends.offsetIn_append, Place.past_origin]

/-- Looking up the position of either end of a token gives the offset of that end, as long
as 32 bits can count the characters, and the last token ends where the text does. -/
theorem tokenize_positions (d : Dialect) (source : String) :
    (source.length < UInt32.size →
      ∀ t ∈ tokenize d source, t.start.Marks source ∧ t.stop.Marks source) ∧
      ∀ t, (tokenize d source).getLast? = some t →
        t.stop.position = Position.endOf source.toList := by
  constructor
  · intro hlen t ht
    obtain ⟨before, after, hsource, hstart, hstop⟩ := tokenize_ends ht
    have hsource' : source.toList = before ++ (t.text.toList ++ after) := by
      rw [hsource, List.append_assoc]
    rw [hstart, hstop]
    exact ⟨Place.marks_past_origin hsource' hlen, Place.marks_past_origin hsource hlen⟩
  · intro t ht
    obtain ⟨xs, hcut⟩ := List.getLast?_eq_some_iff.mp ht
    obtain ⟨hstart, hstop⟩ := placed_append_cons hcut
    have hall : source.toList = (xs.flatMap fun x => x.text.toList) ++ t.text.toList := by
      rw [← tokenize_texts d source, hcut]
      simp
    rw [hstop, hstart, ← Place.past_append, ← hall, Place.position_past_origin]

/-- A template over two lines, after a wide character and a carriage return, with
an emoji behind it. -/
def twoLineSource : String := "é\r\n`x\ny` 😀"

theorem tokenize_positions_template :
    ⟨.template, "`x\ny`", ⟨4, 2, 0⟩, ⟨9, 3, 2⟩⟩ ∈ tokenize .ts twoLineSource ∧
      (⟨1, 0⟩ : Position).offsetIn twoLineSource.toList = some 4 ∧
      (⟨2, 2⟩ : Position).offsetIn twoLineSource.toList = some 9 ∧
      Position.endOf twoLineSource.toList = ⟨2, 4⟩ := by
  have htemplate : ⟨.template, "`x\ny`", ⟨4, 2, 0⟩, ⟨9, 3, 2⟩⟩ ∈ tokenize .ts twoLineSource := by
    decide +kernel
  have hlast : (tokenize .ts twoLineSource).getLast? =
      some ⟨.punctuator, "😀", ⟨10, 3, 3⟩, ⟨14, 3, 4⟩⟩ := by decide +kernel
  obtain ⟨hmarks, hend⟩ := tokenize_positions .ts twoLineSource
  obtain ⟨hstart, hstop⟩ := hmarks (by decide) _ htemplate
  exact ⟨htemplate, hstart.offset, hstop.offset, (hend _ hlast).symm⟩

end Syntax

end Retouch
