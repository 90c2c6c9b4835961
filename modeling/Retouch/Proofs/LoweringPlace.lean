import Retouch.Proofs.LoweringSpans

/-! Lowering on both sides of a place to which the main loop comes. The edits made so
far lie before it and the edits to come lie behind it, so the lowered text is what
the former make of the text before the place and the latter of the text behind. -/

namespace Retouch.Lower
open Syntax Text

/-! ### Edits before and behind a place -/

/-- Edits that begin and end behind a place leave what stands before it. -/
theorem yields_splice {n : Nat} {es : List Edit} (input : List Char)
    (h : ∀ e ∈ es, n ≤ e.start ∧ n ≤ e.stop) : Yields n input es (splice n input es) := by
  intro cursor before hn
  cases es with
  | nil => rfl
  | cons e es =>
    obtain ⟨hstart, hstop⟩ := h e List.mem_cons_self
    have htake : e.start - cursor - byteLength before = e.start - n := by omega
    have hdrop : e.stop - cursor - byteLength before = e.stop - n := by omega
    rw [splice, splice, takeBytes_append (by omega), dropBytes_append (by omega), htake, hdrop]
    simp only [List.append_assoc]

/-- Edits of a front part, and edits of what follows it. -/
theorem Replaced.append {n : Nat} {text out input out' : List Char} {es es' : List Edit}
    (h : Replaced n text es out) (hy : Yields (n + byteLength text) input es' out') :
    Lower.splice n (text ++ input) (es ++ es') = out ++ out' := by
  induction h with
  | rest => exact hy _ _ rfl
  | @edit n kept old text out e es hstart hstop _ ih =>
    have htake : e.start - n = byteLength kept := by omega
    have hdrop : e.stop - n = byteLength (kept ++ old) := by
      rw [byteLength_append]
      omega
    have hrest := ih (by
      have hoffset : n + byteLength (kept ++ (old ++ text)) = e.stop + byteLength text := by
        rw [byteLength_append, byteLength_append]
        omega
      rwa [hoffset] at hy)
    have hcut : kept ++ (old ++ text) ++ input = kept ++ (old ++ (text ++ input)) := by simp
    rw [List.cons_append, Lower.splice, hcut, htake, hdrop, takeBytes_byteLength,
      ← List.append_assoc kept old, dropBytes_byteLength, hrest]
    simp only [List.append_assoc]

/-- A cut within a front part of a text. -/
theorem Cuts.within {front back : List Char} {n : Nat} (h : Cuts (front ++ back) n)
    (hn : n ≤ byteLength front) : Cuts front n := by
  obtain ⟨front', back', htext, rfl⟩ := h
  rcases List.append_eq_append_iff.mp htext with ⟨more, rfl, rfl⟩ | ⟨kept, rfl, rfl⟩
  · rw [byteLength_append] at hn
    obtain rfl : more = [] := eq_nil_of_byteLength (by omega)
    exact ⟨front, [], by simp, by simp⟩
  · exact ⟨front', kept, rfl, rfl⟩

end Retouch.Lower

namespace Retouch.Code
open Syntax Text Lower

variable {c : Code} {k n count depth : Nat} {w : Word} {ws : List Word} {text : List Char}

theorem Reads.getElem? (h : c.Reads k n (w :: ws)) :
    ∃ t, c.tokens[k]? = some t ∧ t.start.offset = n := by
  obtain ⟨t, ts, hf, -, -, hstart, -⟩ := h.token
  exact ⟨t, hf.getElem?, hstart⟩

/-- Tokens from a place on begin no earlier than the words that stand there. -/
theorem Reads.le_start (h : c.Reads k n ws) (hc : c.StandsIn text) {j : Nat} {t : Token}
    (ht : c.tokens[j]? = some t) (hj : k ≤ j) : n ≤ t.start.offset := by
  cases ws with
  | nil =>
    have hsize := h.size_le
    have hlt : j < c.size := by
      obtain ⟨hlt, -⟩ := Array.getElem?_eq_some_iff.mp ht
      exact hlt
    omega
  | cons w ws =>
    obtain ⟨u, hu, rfl⟩ := h.getElem?
    rcases Nat.lt_or_eq_of_le hj with hlt | rfl
    · have happart := hc.apart hu ht hlt
      have hnonempty := hc.nonempty hu
      omega
    · obtain rfl : u = t := Option.some.inj (hu.symm.trans ht)
      exact Nat.le_refl _

/-- An edit ends where the words after its statement begin, at the latest. -/
theorem Covers.stop_le {first next : Nat} {e : Edit} (h : c.Covers first next e)
    (hc : c.StandsIn text) (hr : c.Reads k n (w :: ws)) (hle : next ≤ k) : e.stop ≤ n := by
  obtain ⟨u, hu, rfl⟩ := hr.getElem?
  rcases h.stop with ⟨hlt, b, hb, hstop⟩ | ⟨-, b, hb, hstop⟩
  · rw [hstop]
    exact hc.apart hb hu (by omega)
  · rw [hstop]
    rcases Nat.lt_or_eq_of_le hle with hlt | rfl
    · have happart := hc.apart hb hu hlt
      have hnonempty := hc.nonempty hb
      omega
    · obtain rfl : b = u := Option.some.inj (hb.symm.trans hu)
      exact Nat.le_refl _

/-- An edit speaks of the tokens that its step goes over. -/
theorem covers_of_stepAt {s : Step k} {e : Edit} (hs : c.stepAt depth count k = .ok s)
    (hedit : s.edit = some e) : c.Covers k s.next e := by
  cases stepAt_turns c depth count k with
  | keeps hkeep =>
    obtain rfl : Step.keep k = s := Except.ok.inj (hkeep.symm.trans hs)
    cases hedit
  | fails herror => cases herror.symm.trans hs
  | @rewrites s' hs' hsound =>
    obtain rfl : s' = s := Except.ok.inj (hs'.symm.trans hs)
    rcases hsound.effect with ⟨hnone, -⟩ | ⟨e', he', hcovers⟩
    · rw [hnone] at hedit
      cases hedit
    · obtain rfl : e' = e := Option.some.inj (he'.symm.trans hedit)
      exact hcovers

/-- The loop makes edits from its place on, by induction on what is left. -/
theorem lowerFrom_behind (hc : c.StandsIn text) {r : List Edit × List String}
    (h : c.lowerFrom depth count k = .ok r) :
    ∀ e ∈ r.1, ∃ j t, k ≤ j ∧ c.tokens[j]? = some t ∧ e.start = t.start.offset ∧
      e.start < e.stop := by
  induction hn : c.size - k using Nat.strongRecOn generalizing k depth count r with
  | ind m ih =>
    by_cases hk : k < c.size
    · rw [lowerFrom_turn hk] at h
      cases hs : c.stepAt (c.depthAfter depth k) count k with
      | error e =>
        rw [hs] at h
        cases h
      | ok s =>
        rw [hs] at h
        cases hrest : c.lowerFrom (c.depthAfter depth k)
            (if s.numbered then count + 1 else count) s.next with
        | error e =>
          simp only [Except.bind, hrest] at h
          cases h
        | ok r' =>
          simp only [Except.bind, hrest] at h
          obtain rfl := Except.ok.inj h
          have hlt := s.lt_next
          intro e he
          rcases List.mem_append.mp he with he | he
          · -- the step's own edit begins with its token
            have hedit : s.edit = some e := Option.mem_toList.mp he
            have hcovers := covers_of_stepAt hs hedit
            obtain ⟨t, ht, hstart⟩ := hcovers.start
            exact ⟨k, t, Nat.le_refl k, ht, hstart, hcovers.start_lt_stop hc⟩
          · obtain ⟨j, t, hj, hrest⟩ := ih (c.size - s.next) (by omega) hrest rfl e he
            exact ⟨j, t, by omega, hrest⟩
    · rw [lowerFrom, dif_neg hk] at h
      obtain rfl := Except.ok.inj h
      intro e he
      cases he

/-- A turn that does not fail leads to the next state. -/
theorem Reached.goes {p q : Progress} (h : c.Reached p) (hk : p.next < c.size)
    (hq : (c.turn p).toOption.map (c.afterStep p) = some q) : c.Reached q := by
  obtain ⟨s, hs, rfl⟩ := Option.map_eq_some_iff.mp hq
  cases hturn : c.turn p with
  | error e =>
    rw [hturn] at hs
    cases hs
  | ok s' =>
    rw [hturn] at hs
    obtain rfl : s' = s := Option.some.inj hs
    exact h.turn hk hturn

/-- The edits made so far, where they stand before some words. -/
theorem Reached.replaced_front {p : Progress} (h : c.Reached p) {front back : List Char}
    (hc : c.StandsIn (front ++ back)) (hr : c.Reads p.next (byteLength front) (w :: ws)) :
    ∃ out, Replaced 0 front p.edits out := by
  have horderly := h.orderly
  have hinside : ∀ e ∈ p.edits, Cuts front e.start ∧ Cuts front e.stop ∧ e.start ≤ e.stop := by
    intro e he
    obtain ⟨r, hmem, rfl⟩ := List.mem_map.mp he
    have hcovers := (horderly.tops r hmem).covers
    have hlt := hcovers.start_lt_stop hc
    have hstop := hcovers.stop_le hc hr (horderly.bounds r hmem).2
    exact ⟨(hcovers.cuts hc).1.within (by omega), (hcovers.cuts hc).2.within hstop,
      Nat.le_of_lt hlt⟩
  exact @exists_replaced [] front p.edits (fun e he => ⟨(hinside e he).1, (hinside e he).2.1⟩)
    (fun e he => ⟨Nat.zero_le _, (hinside e he).2.2⟩)
    (List.pairwise_map.mpr (horderly.edits_apart hc))

end Retouch.Code
