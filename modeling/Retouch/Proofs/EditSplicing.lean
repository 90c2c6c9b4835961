import Retouch.Proofs.TokenPositions

/-! Positions and character boundaries. A text has the ends of its front parts as
positions and no others, and a longer front part ends later. So looking up positions
goes through the boundaries between characters in their order, each of them once, and
an edit whose range is not reversed cuts the text in two places that are in order. -/

namespace Retouch.Buffer
open Text Syntax

namespace Position

/-! ### The positions of a text -/

theorem eq_of_line_column {p q : Position} (hline : p.line.toNat = q.line.toNat)
    (hcolumn : p.column.toNat = q.column.toNat) : p = q := by
  cases p
  cases q
  rw [UInt32.toNat_inj] at hline hcolumn
  simp_all

theorem notMem_firstLine (cs : List Char) : '\n' ∉ firstLine cs := by
  intro h
  simpa using List.mem_takeWhile_imp h

/-- What is passed over on the way to a line ends with a line feed, or is nothing. -/
theorem afterLines_eq_some {n : Nat} {cs rest : List Char} (h : afterLines n cs = some rest) :
    ∃ lines, cs = lines ++ rest ∧ lines.count '\n' = n ∧ lastLine lines = [] := by
  induction n generalizing cs with
  | zero =>
    obtain rfl : cs = rest := by simpa [afterLines] using h
    exact ⟨[], rfl, rfl, rfl⟩
  | succ n ih =>
    rw [afterLines] at h
    split at h
    · cases h
    · rename_i c tail hdrop
      have hc : c = '\n' := by
        have hhead := List.head?_dropWhile_not (· != '\n') cs
        rw [hdrop] at hhead
        simpa using hhead
      obtain ⟨lines, rfl, hcount, hlast⟩ := ih h
      refine ⟨firstLine cs ++ '\n' :: lines, ?_, ?_, ?_⟩
      · subst hc
        rw [List.append_assoc, List.cons_append, ← hdrop, firstLine,
          List.takeWhile_append_dropWhile]
      · rw [List.count_append, List.count_eq_zero.mpr (notMem_firstLine cs), List.count_cons_self,
          hcount, Nat.zero_add]
      · rw [lastLine_append, hlast]

/-- The positions of a text are the ends of its front parts. -/
theorem offsetIn_eq_some_iff {p : Position} {cs : List Char} {n : Nat} :
    p.offsetIn cs = some n ↔
      ∃ front back, cs = front ++ back ∧ p.EndsAt front ∧ n = byteLength front := by
  constructor
  · intro h
    unfold offsetIn at h
    split at h
    · cases h
    · rename_i rest hrest
      split at h
      · rename_i hcolumn
        obtain ⟨lines, rfl, hcount, hlast⟩ := afterLines_eq_some hrest
        obtain ⟨tail, htail⟩ := List.takeWhile_prefix (· != '\n') (l := rest)
        have hline : '\n' ∉ (firstLine rest).take p.column.toNat :=
          fun hm => notMem_firstLine rest (List.mem_of_mem_take hm)
        refine ⟨lines ++ (firstLine rest).take p.column.toNat,
          (firstLine rest).drop p.column.toNat ++ tail, ?_, ⟨?_, ?_⟩, ?_⟩
        · rw [List.append_assoc, ← List.append_assoc (List.take _ _), List.take_append_drop]
          exact congrArg (lines ++ ·) htail.symm
        · rw [List.count_append, List.count_eq_zero.mpr hline, hcount, Nat.add_zero]
        · rw [lastLine_append_of_notMem hline, hlast, List.nil_append, List.length_take,
            Nat.min_eq_left hcolumn]
        · rw [Option.some.injEq] at h
          rw [← h, byteLength_append, byteLength_append]
          omega
      · cases h
  · rintro ⟨front, back, rfl, hp, rfl⟩
    exact hp.offsetIn_append back

/-! ### Their order -/

/-- Earlier in the text: on an earlier line, or on the same line and further left. -/
def before (p q : Position) : Prop :=
  p.line < q.line ∨ p.line = q.line ∧ p.column < q.column

instance (p q : Position) : Decidable (p.before q) := by
  unfold before
  infer_instance

theorem before_iff_toNat (p q : Position) : p.before q ↔ p.line.toNat < q.line.toNat ∨
    p.line.toNat = q.line.toNat ∧ p.column.toNat < q.column.toNat := by
  simp only [before, UInt32.lt_iff_toNat_lt, UInt32.toNat_inj]

theorem le_iff_not_before (p q : Position) : p.le q = true ↔ ¬ q.before p := by
  rw [before_iff_toNat]
  simp only [le, Bool.or_eq_true, Bool.and_eq_true, decide_eq_true_eq, UInt32.lt_iff_toNat_lt,
    UInt32.le_iff_toNat_le, ← UInt32.toNat_inj]
  omega

theorem before_irrefl (p : Position) : ¬ p.before p := by
  rw [before_iff_toNat]
  omega

theorem before_asymm {p q : Position} (h : p.before q) : ¬ q.before p := by
  rw [before_iff_toNat] at *
  omega

theorem EndsAt.before_append {p q : Position} {front more : List Char} (hp : p.EndsAt front)
    (hq : q.EndsAt (front ++ more)) (h : more ≠ []) : p.before q := by
  rw [before_iff_toNat, hp.line, hq.line, hp.column, hq.column, List.count_append]
  by_cases hm : '\n' ∈ more
  · left
    have hpos : 0 < more.count '\n' := List.count_pos_iff.mpr hm
    omega
  · right
    have hpos : 0 < more.length := List.length_pos_iff.mpr h
    rw [List.count_eq_zero.mpr hm, lastLine_append_of_notMem hm, List.length_append]
    omega

theorem EndsAt.eq {p q : Position} {cs : List Char} (hp : p.EndsAt cs) (hq : q.EndsAt cs) :
    p = q :=
  eq_of_line_column (hp.line.trans hq.line.symm) (hp.column.trans hq.column.symm)

theorem byteLength_lt_append (front : List Char) {more : List Char} (h : more ≠ []) :
    byteLength front < byteLength (front ++ more) := by
  cases more with
  | nil => contradiction
  | cons c more =>
    have hpos := Char.utf8Size_pos c
    rw [byteLength_append, byteLength_cons]
    omega

/-- Of two front parts of a text, the one that ends earlier is the shorter one. -/
theorem EndsAt.before_iff {p q : Position} {front back front' back' : List Char}
    (hp : p.EndsAt front) (hq : q.EndsAt front') (h : front ++ back = front' ++ back') :
    p.before q ↔ byteLength front < byteLength front' := by
  rcases List.append_eq_append_iff.mp h with ⟨more, rfl, -⟩ | ⟨more, rfl, -⟩
  · by_cases hmore : more = []
    · subst hmore
      rw [List.append_nil] at hq ⊢
      rw [hp.eq hq]
      exact iff_of_false (before_irrefl q) (Nat.lt_irrefl _)
    · exact iff_of_true (hp.before_append hq hmore) (byteLength_lt_append front hmore)
  · by_cases hmore : more = []
    · subst hmore
      rw [List.append_nil] at hp ⊢
      rw [hp.eq hq]
      exact iff_of_false (before_irrefl q) (Nat.lt_irrefl _)
    · exact iff_of_false (before_asymm (hq.before_append hp hmore))
        (Nat.lt_asymm (byteLength_lt_append front' hmore))

theorem offsetIn_lt_iff {p q : Position} {cs : List Char} {m n : Nat}
    (hp : p.offsetIn cs = some m) (hq : q.offsetIn cs = some n) : m < n ↔ p.before q := by
  obtain ⟨front, back, rfl, hends, rfl⟩ := offsetIn_eq_some_iff.mp hp
  obtain ⟨front', back', hcut, hends', rfl⟩ := offsetIn_eq_some_iff.mp hq
  exact (hends.before_iff hends' hcut).symm

theorem eq_of_offsetIn_eq {p q : Position} {cs : List Char} {n : Nat}
    (hp : p.offsetIn cs = some n) (hq : q.offsetIn cs = some n) : p = q := by
  have hpq : ¬ p.before q := fun h => Nat.lt_irrefl n ((offsetIn_lt_iff hp hq).mpr h)
  have hqp : ¬ q.before p := fun h => Nat.lt_irrefl n ((offsetIn_lt_iff hq hp).mpr h)
  rw [before_iff_toNat] at hpq hqp
  exact eq_of_line_column (by omega) (by omega)

/-! ### Boundaries -/

theorem isValid_iff_exists_front (text : String) (n : Nat) :
    (⟨n⟩ : String.Pos.Raw).IsValid text ↔
      ∃ front back, text.toList = front ++ back ∧ n = byteLength front := by
  rw [String.Pos.Raw.isValid_iff_exists_append]
  constructor
  · rintro ⟨front, back, rfl, hn⟩
    refine ⟨front.toList, back.toList, String.toList_append, ?_⟩
    rw [byteLength_toList]
    exact congrArg String.Pos.Raw.byteIdx hn
  · rintro ⟨front, back, htext, rfl⟩
    refine ⟨String.ofList front, String.ofList back, ?_, ?_⟩
    · rw [← String.ofList_append, ← htext, String.ofList_toList]
    · apply String.Pos.Raw.ext
      rw [String.byteIdx_rawEndPos, ← byteLength_toList, String.toList_ofList]

/-- Looking up positions leads through the character boundaries of a text in their
order, each of them once, and through all of them if 32 bits can count the characters. -/
structure Charts (text : String) : Prop where
  boundary : ∀ (p : Position) n,
    p.offsetIn text.toList = some n → (⟨n⟩ : String.Pos.Raw).IsValid text
  reached : text.length < UInt32.size → ∀ n, (⟨n⟩ : String.Pos.Raw).IsValid text →
    ∃ p : Position, p.offsetIn text.toList = some n
  injective : ∀ (p q : Position) n,
    p.offsetIn text.toList = some n → q.offsetIn text.toList = some n → p = q
  increasing : ∀ (p q : Position) m n,
    p.offsetIn text.toList = some m → q.offsetIn text.toList = some n → (p.before q ↔ m < n)

theorem charts (text : String) : Charts text where
  boundary := by
    intro p n h
    obtain ⟨front, back, hcut, -, hn⟩ := offsetIn_eq_some_iff.mp h
    exact (isValid_iff_exists_front text n).mpr ⟨front, back, hcut, hn⟩
  reached := by
    intro hlen n h
    obtain ⟨front, back, hcut, hn⟩ := (isValid_iff_exists_front text n).mp h
    have hfront : front.length < UInt32.size := by
      rw [← String.length_toList, hcut, List.length_append] at hlen
      omega
    exact ⟨endOf front, offsetIn_eq_some_iff.mpr ⟨front, back, hcut, endsAt_endOf hfront, hn⟩⟩
  injective := fun _ _ _ hp hq => eq_of_offsetIn_eq hp hq
  increasing := fun _ _ _ _ hp hq => (offsetIn_lt_iff hp hq).symm

end Position

/-! ### Edits -/

/-- The range of an edit is reversed, or one of its ends is no position of the text. -/
def Edit.Misplaced (e : Edit) (text : String) : Prop :=
  e.stop.before e.start ∨ e.start.offsetIn text.toList = none ∨ e.stop.offsetIn text.toList = none

/-- The buffer that is there once an edit has been tried. -/
def TextBuffer.after (b : TextBuffer) (e : Edit) : TextBuffer :=
  match b.apply e with
  | .ok b' => b'
  | .error _ => b

theorem Edit.applyTo_of_misplaced {e : Edit} {text : String} (h : e.Misplaced text) :
    ∃ err, e.applyTo text.toList = .error err := by
  unfold Edit.applyTo
  split
  · rename_i hle
    have horder := (Position.le_iff_not_before _ _).mp hle
    split
    · rename_i a b ha hb
      rcases h with h | h | h
      · exact absurd h horder
      · simp [h] at ha
      · simp [h] at hb
    · exact ⟨_, rfl⟩
  · exact ⟨_, rfl⟩

/-- An edit that is in place cuts the text in two places that are in order. -/
theorem Edit.applyTo_of_not_misplaced {e : Edit} {text : String} (h : ¬ e.Misplaced text) :
    ∃ front between back, text = front ++ between ++ back ∧
      e.start.offsetIn text.toList = some front.utf8ByteSize ∧
      e.stop.offsetIn text.toList = some (front ++ between).utf8ByteSize ∧
      e.applyTo text.toList = .ok (front ++ e.text ++ back).toList := by
  simp only [Misplaced, not_or] at h
  obtain ⟨horder, hstart, hstop⟩ := h
  obtain ⟨a, ha⟩ := Option.ne_none_iff_exists'.mp hstart
  obtain ⟨b, hb⟩ := Option.ne_none_iff_exists'.mp hstop
  obtain ⟨front, rest, hcut, hp, rfl⟩ := Position.offsetIn_eq_some_iff.mp ha
  obtain ⟨front', back, hcut', hq, rfl⟩ := Position.offsetIn_eq_some_iff.mp hb
  obtain ⟨between, rfl, -⟩ : ∃ between, front' = front ++ between ∧ rest = between ++ back := by
    rcases List.append_eq_append_iff.mp (hcut.symm.trans hcut') with hmore | ⟨more, rfl, hback⟩
    · exact hmore
    · -- the range ends before it starts only if nothing lies between
      obtain rfl : more = [] := by
        by_contra hne
        exact horder (hq.before_append hp hne)
      exact ⟨[], by simp, by simpa using hback.symm⟩
  refine ⟨String.ofList front, String.ofList between, String.ofList back, ?_, ?_, ?_, ?_⟩
  · rw [← String.ofList_append, ← String.ofList_append, ← hcut', String.ofList_toList]
  · rw [ha, ← byteLength_toList, String.toList_ofList]
  · rw [hb, ← String.ofList_append, ← byteLength_toList, String.toList_ofList]
  · rw [Edit.applyTo, if_pos ((Position.le_iff_not_before _ _).mpr horder), ha, hb]
    have htake : takeBytes (byteLength front) text.toList = front := by
      rw [hcut, takeBytes_byteLength]
    have hdrop : dropBytes (byteLength (front ++ between)) text.toList = back := by
      rw [hcut', dropBytes_byteLength]
    simp only [htake, hdrop, String.toList_append, String.toList_ofList]

theorem TextBuffer.after_of_misplaced {b : TextBuffer} {e : Edit} (h : e.Misplaced b.text) :
    b.after e = b := by
  obtain ⟨err, herr⟩ := Edit.applyTo_of_misplaced h
  simp only [TextBuffer.after, TextBuffer.apply, herr]

theorem TextBuffer.replaceAll_eq {b : TextBuffer} (h : b.text.length < UInt32.size)
    (text : String) : b.replaceAll text = .ok { b with text } := by
  rw [← String.length_toList] at h
  simp [TextBuffer.replaceAll, TextBuffer.apply, applyTo_whole h]

/-- On a line of one character more than 32 bits can count, the end is found at the
origin again, and so the old text stays behind the new one. -/
theorem TextBuffer.replaceAll_of_long_line {b : TextBuffer} (hline : '\n' ∉ b.text.toList)
    (hlen : b.text.length = UInt32.size) (text : String) :
    b.replaceAll text = .ok { b with text := text ++ b.text } := by
  have hend : Position.endOf b.text.toList = .origin := by
    have hlast : (b.text.toList.reverse.takeWhile (· != '\n')).length = UInt32.size := by
      have hself := congrArg List.length (lastLine_of_notMem hline)
      rwa [lastLine, List.length_reverse, String.length_toList, hlen] at hself
    rw [Position.endOf, List.count_eq_zero.mpr hline, hlast]
    rfl
  have hdrop : dropBytes 0 b.text.toList = b.text.toList := by
    cases b.text.toList <;> rfl
  simp only [TextBuffer.replaceAll, TextBuffer.apply, Edit.applyTo, Edit.whole, hend,
    Position.origin_le, if_true, Position.offsetIn_origin, takeBytes_zero, hdrop,
    List.nil_append, String.ofList_append, String.ofList_toList]

/-- Positions are the character boundaries in their order. An edit fails and leaves the
buffer as it was if and only if it is misplaced; any other puts its text in the place of
what stands between its two positions. Replacing the whole text succeeds, as long as
32 bits can count its characters; one more on a single line is too many. -/
theorem edits_splice_or_fail (b : TextBuffer) :
    Position.Charts b.text ∧
    (∀ e : Edit,
      ((∃ err, e.applyTo b.text.toList = .error err) ↔ e.Misplaced b.text) ∧
      (e.Misplaced b.text → b.after e = b) ∧
      (¬ e.Misplaced b.text → ∃ front between back, b.text = front ++ between ++ back ∧
        e.start.offsetIn b.text.toList = some front.utf8ByteSize ∧
        e.stop.offsetIn b.text.toList = some (front ++ between).utf8ByteSize ∧
        e.applyTo b.text.toList = .ok (front ++ e.text ++ back).toList ∧
        b.after e = { b with text := front ++ e.text ++ back })) ∧
    ∀ text, (b.text.length < UInt32.size → b.replaceAll text = .ok { b with text }) ∧
      ('\n' ∉ b.text.toList → b.text.length = UInt32.size →
        b.replaceAll text = .ok { b with text := text ++ b.text }) := by
  refine ⟨Position.charts b.text, fun e => ⟨⟨?_, Edit.applyTo_of_misplaced⟩,
    TextBuffer.after_of_misplaced, ?_⟩, fun text => ⟨fun h => TextBuffer.replaceAll_eq h text,
    fun hline hlen => TextBuffer.replaceAll_of_long_line hline hlen text⟩⟩
  · rintro ⟨err, herr⟩
    by_contra h
    obtain ⟨_, _, _, -, -, -, hok⟩ := Edit.applyTo_of_not_misplaced h
    rw [hok] at herr
    cases herr
  · intro h
    obtain ⟨front, between, back, hcut, hstart, hstop, hok⟩ := Edit.applyTo_of_not_misplaced h
    refine ⟨front, between, back, hcut, hstart, hstop, hok, ?_⟩
    simp only [TextBuffer.after, TextBuffer.apply, hok, String.ofList_toList]

/-- From the end of a line into the next one, which begins with a wide character. -/
example : (⟨"a.ts", "ab\nçd\n"⟩ : TextBuffer).after ⟨⟨0, 2⟩, ⟨1, 1⟩, "x"⟩ = ⟨"a.ts", "abxd\n"⟩ :=
  rfl

end Retouch.Buffer
