import Retouch.Lower.Lowered

/-! The main loop of lowering as a machine. A state holds what has been rewritten so
far, the lines left for the end, the brace depth, the number of modules and the next
token; one turn looks at that token. All that a turn can do is said once: it keeps
the token, or it rewrites the statement that an import or export keyword outside
braces begins, and then every token that the edit speaks of is there. A turn fails
only where the source of a re-export is cut off by the end of the text. -/

namespace Retouch.Lower

/-- A rewritten statement: its first token, the token after it, and its edit. -/
structure Rewrite where
  first : Nat
  next : Nat
  edit : Edit
  deriving DecidableEq, Repr

def Step.rewrites {k : Nat} (s : Step k) : List Rewrite :=
  s.edit.toList.map fun e => ⟨k, s.next, e⟩

/-- Where the main loop stands. -/
structure Progress where
  rewrites : List Rewrite
  deferred : List String
  depth : Nat
  count : Nat
  next : Nat
  deriving DecidableEq, Repr

def Progress.start : Progress := ⟨[], [], 0, 0, 0⟩

def Progress.edits (p : Progress) : List Edit := p.rewrites.map Rewrite.edit

end Retouch.Lower

namespace Retouch.Code
open Syntax Lower

variable {c : Code} {k depth count : Nat}

/-- What the loop does with the next token. -/
def turn (c : Code) (p : Progress) : Except LoweringError (Step p.next) :=
  c.stepAt (c.depthAfter p.depth p.next) p.count p.next

/-- The state behind a step. -/
def afterStep (c : Code) (p : Progress) (s : Step p.next) : Progress where
  rewrites := p.rewrites ++ s.rewrites
  deferred := p.deferred ++ s.deferred
  depth := c.depthAfter p.depth p.next
  count := if s.numbered then p.count + 1 else p.count
  next := s.next

/-- The states that the main loop comes to. -/
inductive Reached (c : Code) : Progress → Prop
  | start : Reached c .start
  | turn {p : Progress} {s : Step p.next} : Reached c p → p.next < c.size → c.turn p = .ok s →
      Reached c (c.afterStep p s)

/-! ### The machine and the recursion -/

theorem lowerFrom_turn (hk : k < c.size) :
    c.lowerFrom depth count k =
      (c.stepAt (c.depthAfter depth k) count k).bind fun s =>
        (c.lowerFrom (c.depthAfter depth k) (if s.numbered then count + 1 else count) s.next).map
          fun r => (s.edit.toList ++ r.1, s.deferred ++ r.2) := by
  rw [lowerFrom, dif_pos hk]
  cases c.stepAt (c.depthAfter depth k) count k with
  | error e => rfl
  | ok s =>
    simp only [Except.bind]
    cases c.lowerFrom (c.depthAfter depth k) (if s.numbered then count + 1 else count) s.next with
    | error e => rfl
    | ok r => rfl

theorem edits_afterStep (p : Progress) (s : Step p.next) :
    (c.afterStep p s).edits = p.edits ++ s.edit.toList := by
  simp [Progress.edits, afterStep, Step.rewrites, Function.comp_def]

/-- The result of the whole loop is what has been collected, followed by what the
loop collects from here on. -/
theorem Reached.lowerFrom {p : Progress} (h : c.Reached p) :
    c.lowerFrom 0 0 0 = (c.lowerFrom p.depth p.count p.next).map
      fun r => (p.edits ++ r.1, p.deferred ++ r.2) := by
  induction h with
  | start =>
    show c.lowerFrom 0 0 0 = (c.lowerFrom 0 0 0).map fun r => ([] ++ r.1, [] ++ r.2)
    cases c.lowerFrom 0 0 0 with
    | error e => rfl
    | ok r => rfl
  | @turn p s _ hk hs ih =>
    have hturn : c.stepAt (c.depthAfter p.depth p.next) p.count p.next = .ok s := hs
    rw [ih, lowerFrom_turn hk, hturn, edits_afterStep]
    simp only [Except.bind, afterStep]
    cases c.lowerFrom (c.depthAfter p.depth p.next) (if s.numbered then p.count + 1 else p.count)
        s.next with
    | error e => rfl
    | ok r => simp [Except.map, List.append_assoc]

/-- The loop comes to the end of the tokens or to a turn that fails. -/
theorem Reached.ends {p : Progress} (h : c.Reached p) :
    ∃ q, c.Reached q ∧ (c.size ≤ q.next ∨ q.next < c.size ∧ ∃ e, c.turn q = .error e) := by
  -- every step goes on further right
  induction hn : c.size - p.next using Nat.strongRecOn generalizing p with
  | ind n ih =>
    by_cases hk : p.next < c.size
    · cases hs : c.turn p with
      | error e => exact ⟨p, h, .inr ⟨hk, e, hs⟩⟩
      | ok s =>
        have hlt := s.lt_next
        have hnext : (c.afterStep p s).next = s.next := rfl
        exact ih _ (by omega) (h.turn hk hs) rfl
    · exact ⟨p, h, .inl (Nat.le_of_not_lt hk)⟩

theorem Reached.lowerFrom_end {p : Progress} (h : c.Reached p) (hk : c.size ≤ p.next) :
    c.lowerFrom 0 0 0 = .ok (p.edits, p.deferred) := by
  rw [h.lowerFrom, Code.lowerFrom, dif_neg (Nat.not_lt.mpr hk)]
  simp [Except.map]

theorem Reached.lowerFrom_error {p : Progress} {e : LoweringError} (h : c.Reached p)
    (hk : p.next < c.size) (he : c.turn p = .error e) : c.lowerFrom 0 0 0 = .error e := by
  have hturn : c.stepAt (c.depthAfter p.depth p.next) p.count p.next = .error e := he
  rw [h.lowerFrom, lowerFrom_turn hk, hturn]
  rfl

/-! ### What a turn can do -/

/-- The tokens that an edit speaks of are there: the statement goes from the start of
its first token to the end of its last, or, where only a keyword goes, to the start
of the token behind the keyword. -/
structure Covers (c : Code) (first next : Nat) (e : Edit) : Prop where
  start : ∃ a, c.tokens[first]? = some a ∧ e.start = a.start.offset
  stop : (first < next ∧ ∃ b, c.tokens[next - 1]? = some b ∧ e.stop = b.stop.offset) ∨
    (next = first + 1 ∧ ∃ b, c.tokens[next]? = some b ∧ e.stop = b.start.offset)

theorem covers_replace {first last : Nat} (text : String) (hf : first < c.size)
    (hl : last < c.size) (h : first ≤ last) :
    c.Covers first (last + 1) (c.replace first last text) := by
  obtain ⟨a, ha⟩ := exists_token hf
  obtain ⟨b, hb⟩ := exists_token hl
  exact ⟨⟨a, ha, by simp [replace, startOffset, ha]⟩,
    .inl ⟨by omega, b, by simpa using hb, by simp [replace, stopOffset, hb]⟩⟩

theorem covers_dropKeyword (h : k + 1 < c.size) : c.Covers k (k + 1) (c.dropKeyword k) := by
  obtain ⟨a, ha⟩ := exists_token (show k < c.size by omega)
  obtain ⟨b, hb⟩ := exists_token h
  exact ⟨⟨a, ha, by simp [dropKeyword, startOffset, ha]⟩,
    .inr ⟨rfl, b, hb, by simp [dropKeyword, startOffset, hb]⟩⟩

theorem withSemicolon_lt {last : Nat} (h : last < c.size) : c.withSemicolon last < c.size := by
  unfold withSemicolon
  split
  · rename_i hs
    exact lt_size_of_text hs (by decide)
  · exact h

/-- Deferred lines are assignments to the exports of the module. -/
def IsDeferred (l : String) : Prop := ∃ exported value, l = assignment exported value

/-- What a step may be: nothing happens, or a statement goes whose tokens are there. -/
structure Sound (c : Code) (s : Step k) : Prop where
  effect : (s.edit = none ∧ s.deferred = [] ∧ s.next = k + 1) ∨
    ∃ e, s.edit = some e ∧ c.Covers k s.next e
  lines : ∀ l ∈ s.deferred, IsDeferred l

theorem sound_keep : c.Sound (.keep k) where
  effect := .inl ⟨rfl, rfl, rfl⟩
  lines := by simp [Step.keep]

theorem sound_edit {e : Edit} {deferred : List String} {numbered : Bool} {next : Nat}
    {h : k < next} (he : c.Covers k next e) (hl : ∀ l ∈ deferred, IsDeferred l := by simp) :
    c.Sound (⟨some e, deferred, numbered, next, h⟩ : Step k) := ⟨.inr ⟨e, rfl, he⟩, hl⟩

theorem sound_removal {last : Nat} {deferred : List String} (h : k ≤ last) (hl : last < c.size)
    (hd : ∀ l ∈ deferred, IsDeferred l := by simp) : c.Sound (c.removal k last deferred h) :=
  sound_edit (covers_replace "" (by omega) (withSemicolon_lt hl)
    (Nat.le_trans h (le_withSemicolon c last))) hd

theorem isDeferred_map {α : Type} {f g : α → String} {xs : List α} :
    ∀ l ∈ xs.map fun x => assignment (f x) (g x), IsDeferred l := by
  intro l hl
  obtain ⟨x, -, rfl⟩ := List.mem_map.mp hl
  exact ⟨f x, g x, rfl⟩

theorem sound_importStep (hk : k < c.size) : c.Sound (c.importStep count k) := by
  unfold importStep
  split
  · rename_i hs
    exact sound_edit (covers_replace _ hk (lt_size_of_kind? hs) (by omega))
  · split
    · exact sound_keep
    · rename_i source hf
      have hb := find_bounds hf
      split
      · exact sound_keep
      · rename_i hs
        have hlast : source + 1 < c.size := lt_size_of_kind? (Decidable.not_not.mp hs)
        split
        · exact sound_edit (covers_replace "" hk (withSemicolon_lt hlast)
            (Nat.le_trans (by omega) (le_withSemicolon c (source + 1))))
        · exact sound_edit (covers_replace _ hk hlast (by omega))

/-! ### Exports that are cut off -/

/-- The last token of the text is a `from` that promises the source of the export at
`k`: the first one behind an asterisk, or the one right behind a list of names. A list
that is not closed counts as ended at its opening brace. -/
inductive CutShort (c : Code) (k : Nat) : Prop
  | whole {source : Nat} : c.text (k + 1) = "*" → c.find (k + 1) "from" = some source →
      source + 1 = c.size → CutShort c k
  | names {close : Nat} : c.text (k + 1) = "\x7b" →
      (c.find (k + 2) "\x7d" = some close ∨ c.find (k + 2) "\x7d" = none ∧ close = k + 1) →
      c.text (close + 1) = "from" → close + 2 = c.size → CutShort c k
  | types {close : Nat} : c.text (k + 1) = "type" → c.text (k + 2) = "\x7b" →
      (c.find (k + 3) "\x7d" = some close ∨ c.find (k + 3) "\x7d" = none ∧ close = k + 2) →
      c.text (close + 1) = "from" → close + 2 = c.size → CutShort c k

theorem braceEnd_eq_iff {o close : Nat} : c.braceEnd o = close ↔
    c.find (o + 1) "\x7d" = some close ∨ c.find (o + 1) "\x7d" = none ∧ close = o := by
  unfold braceEnd
  cases c.find (o + 1) "\x7d" with
  | none => simp [eq_comm]
  | some z => simp

theorem braceEnd_lt {o : Nat} (h : o < c.size) : c.braceEnd o < c.size := by
  rcases braceEnd_eq_iff.mp (rfl : c.braceEnd o = c.braceEnd o) with hf | ⟨-, he⟩
  · exact (find_bounds hf).2
  · rwa [he]

/-- A list of names leaves the text when a `from` stands behind it and nothing else. -/
theorem size_of_from {close : Nat} (h : c.text (close + 1) = "from") :
    close + 2 < c.size ∨ close + 2 = c.size := by
  have := lt_size_of_text h (by decide)
  omega

theorem nameListStep_result (h : c.text (k + 1) = "\x7b") :
    (∃ s, c.nameListStep k = .ok s ∧ c.Sound s ∧ ¬ c.CutShort k) ∨
      (c.nameListStep k = .error .cutShort ∧ c.CutShort k) := by
  have hopen : k + 1 < c.size := lt_size_of_text h (by decide)
  have hle := le_braceEnd c (k + 1)
  have honly {P : Prop} (hP : c.text (c.braceEnd (k + 1) + 1) = "from" →
      c.braceEnd (k + 1) + 2 = c.size → P) : c.CutShort k → P := by
    intro hc
    cases hc with
    | whole ht => rw [h] at ht; exact absurd ht (by decide)
    | types ht => rw [h] at ht; exact absurd ht (by decide)
    | names _ hb hfrom hsize =>
      rw [← braceEnd_eq_iff.mpr hb] at hfrom hsize
      exact hP hfrom hsize
  unfold nameListStep
  dsimp only
  split
  · rename_i hfrom
    rcases size_of_from hfrom with hlt | hend
    · rw [if_pos hlt]
      exact .inl ⟨_, rfl, sound_edit (covers_replace _ (by omega) hlt (by omega)),
        honly fun _ he => by omega⟩
    · rw [if_neg (by omega)]
      exact .inr ⟨rfl, .names h (braceEnd_eq_iff.mp rfl) hfrom hend⟩
  · rename_i hfrom
    exact .inl ⟨_, rfl, sound_removal _ (braceEnd_lt hopen) isDeferred_map,
      honly fun hf _ => hfrom hf⟩

theorem typeListStep_result (h : c.text (k + 1) = "type") (hbrace : c.text (k + 2) = "\x7b") :
    (∃ s, c.typeListStep k = .ok s ∧ c.Sound s ∧ ¬ c.CutShort k) ∨
      (c.typeListStep k = .error .cutShort ∧ c.CutShort k) := by
  have hopen : k + 2 < c.size := lt_size_of_text hbrace (by decide)
  have hle := le_braceEnd c (k + 2)
  have honly {P : Prop} (hP : c.text (c.braceEnd (k + 2) + 1) = "from" →
      c.braceEnd (k + 2) + 2 = c.size → P) : c.CutShort k → P := by
    intro hc
    cases hc with
    | whole ht => rw [h] at ht; exact absurd ht (by decide)
    | names ht => rw [h] at ht; exact absurd ht (by decide)
    | types _ _ hb hfrom hsize =>
      rw [← braceEnd_eq_iff.mpr hb] at hfrom hsize
      exact hP hfrom hsize
  unfold typeListStep
  dsimp only
  split
  · rename_i hfrom
    rcases size_of_from hfrom with hlt | hend
    · rw [if_pos hlt]
      exact .inl ⟨_, rfl, sound_removal _ hlt, honly fun _ he => by omega⟩
    · rw [if_neg (by omega)]
      exact .inr ⟨rfl, .types h hbrace (braceEnd_eq_iff.mp rfl) hfrom hend⟩
  · rename_i hfrom
    exact .inl ⟨_, rfl, sound_removal _ (braceEnd_lt hopen), honly fun hf _ => hfrom hf⟩

theorem wholeStep_result (h : c.text (k + 1) = "*") :
    (∃ s, c.wholeStep k = .ok s ∧ c.Sound s ∧ ¬ c.CutShort k) ∨
      (c.wholeStep k = .error .cutShort ∧ c.CutShort k) := by
  have hstar : k + 1 < c.size := lt_size_of_text h (by decide)
  have honly {P : Prop} (hP : ∀ source, c.find (k + 1) "from" = some source →
      source + 1 = c.size → P) : c.CutShort k → P := by
    intro hc
    cases hc with
    | names ht => rw [h] at ht; exact absurd ht (by decide)
    | types ht => rw [h] at ht; exact absurd ht (by decide)
    | whole _ hf hsize => exact hP _ hf hsize
  unfold wholeStep
  split
  · rename_i hf
    exact .inl ⟨_, rfl, sound_keep, honly fun _ hf' _ => by simp [hf] at hf'⟩
  · rename_i source hf
    have hb := find_bounds hf
    by_cases hlt : source + 1 < c.size
    · rw [if_pos hlt]
      refine .inl ⟨_, rfl, sound_edit (covers_replace _ (by omega) hlt (by omega)),
        honly fun source' hf' hend => ?_⟩
      obtain rfl : source = source' := Option.some.inj (hf.symm.trans hf')
      omega
    · rw [if_neg hlt]
      exact .inr ⟨rfl, .whole h hf (by omega)⟩

theorem sound_defaultStep (hk : k + 1 < c.size) : c.Sound (c.defaultStep k) := by
  unfold defaultStep
  dsimp only
  split
  · rename_i n _
    refine sound_edit (covers_replace _ (by omega) hk (by omega)) fun l hl => ?_
    exact ⟨"default", c.text n, List.mem_singleton.mp hl⟩
  · exact sound_edit (covers_replace _ (by omega) hk (by omega))

/-- An export fails exactly where it is cut off, and is sound everywhere else. -/
theorem exportStep_result (k : Nat) :
    (∃ s, c.exportStep k = .ok s ∧ c.Sound s ∧ ¬ c.CutShort k) ∨
      (c.exportStep k = .error .cutShort ∧ c.CutShort k) := by
  have hno (h : c.text (k + 1) ∉ ["*", "\x7b", "type"]) : ¬ c.CutShort k := by
    rintro (ht | ht | ht) <;> simp [ht] at h
  have hdrop (names : List String) (hk : k + 1 < c.size) : c.Sound (c.declarationStep k names) :=
    sound_edit (covers_dropKeyword hk) isDeferred_map
  unfold exportStep
  split
  · rename_i h
    have hk : k + 1 < c.size := lt_size_of_text h (by decide)
    exact .inl ⟨_, rfl, sound_edit (covers_replace _ (by omega) hk (by omega)),
      hno (by rw [h]; decide)⟩
  · rename_i h
    exact .inl ⟨_, rfl, sound_defaultStep (lt_size_of_text h (by decide)), hno (by rw [h]; decide)⟩
  -- a declaration, whichever word begins it
  iterate 6
    · rename_i h
      exact .inl ⟨_, rfl, hdrop _ (lt_size_of_text h (by decide)), hno (by rw [h]; decide)⟩
  · rename_i h
    split
    · rename_i hb
      exact typeListStep_result h hb
    · rename_i hb
      refine .inl ⟨_, rfl, sound_keep, ?_⟩
      rintro (ht | ht | ⟨-, ht⟩)
      · rw [h] at ht; exact absurd ht (by decide)
      · rw [h] at ht; exact absurd ht (by decide)
      · exact hb ht
  · rename_i h
    exact nameListStep_result h
  · rename_i h
    exact wholeStep_result h
  · refine .inl ⟨_, rfl, sound_keep, hno ?_⟩
    simp_all

/-- The keyword of an export statement outside braces. -/
def ExportsAt (c : Code) (depth k : Nat) : Prop :=
  c.topLevel depth k = true ∧ c.text k = "export"

/-- All that a turn can do. -/
inductive Turns (c : Code) (depth k : Nat) (r : Except LoweringError (Step k)) : Prop
  | keeps : r = .ok (.keep k) → Turns c depth k r
  | rewrites {s : Step k} : r = .ok s → c.Sound s → c.topLevel depth k = true →
      c.text k ∈ ["import", "export"] → Turns c depth k r
  | fails : r = .error .cutShort → c.ExportsAt depth k → c.CutShort k → Turns c depth k r

theorem lt_size_of_topLevel (h : c.topLevel depth k = true) : k < c.size := by
  simp only [topLevel, Bool.and_eq_true, decide_eq_true_eq] at h
  exact lt_size_of_kind? h.1.2

theorem stepAt_turns (c : Code) (depth count k : Nat) :
    c.Turns depth k (c.stepAt depth count k) := by
  unfold stepAt
  split
  · rename_i htop
    split
    · rename_i h
      split
      · exact .keeps rfl
      · exact .rewrites rfl (sound_importStep (lt_size_of_topLevel htop)) htop (by simp [h])
    · rename_i h
      rcases exportStep_result (c := c) k with ⟨s, hs, hsound, -⟩ | ⟨he, hcut⟩
      · exact .rewrites hs hsound htop (by simp [h])
      · exact .fails he ⟨htop, h⟩ hcut
    · exact .keeps rfl
  · exact .keeps rfl

theorem stepAt_error_iff {e : LoweringError} :
    c.stepAt depth count k = .error e ↔ c.ExportsAt depth k ∧ c.CutShort k := by
  constructor
  · intro h
    cases stepAt_turns c depth count k with
    | keeps hs => rw [hs] at h; cases h
    | rewrites hs => rw [hs] at h; cases h
    | fails _ hexport hcut => exact ⟨hexport, hcut⟩
  · rintro ⟨⟨htop, htext⟩, hcut⟩
    rw [stepAt, if_pos htop, htext]
    rcases exportStep_result (c := c) k with ⟨s, -, -, hno⟩ | ⟨he, -⟩
    · exact absurd hcut hno
    · cases e
      exact he

end Retouch.Code
