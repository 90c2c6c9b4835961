import Retouch.Proofs.TokenWrites

/-! What a document prints after any sequence of operations. What a token prints depends on
the writes that reached it, and of the replacements among them only the last one counts;
what was put in its place is looked at when it is printed.

Replacements are out of sight. Everything that chooses tokens reads tokens and
nodes, so a replacement changes no collection that is made later, unless a function that
is called back prints. -/

namespace Retouch.Toolkit
open Syntax
variable {M : Type}

/-! ### Replacements are out of sight -/

/-- Whether an operation shows what tokens print. -/
def Operation.prints : Operation M → Bool
  | .source | .reparse _ => true
  | _ => false

/-- An operation that prints nothing, and whose functions perform none that does. -/
def Operation.Silent (op : Operation M) : Prop := op.All fun op => op.prints = false

namespace Document
variable {doc doc' : Document M}

/-- What there is to see of a document without printing it. -/
def seen (doc : Document M) : Array (Token × Node) := doc.entries.map fun e => (e.token, e.node)

theorem size_congr (h : doc.seen = doc'.seen) : doc.size = doc'.size := by
  simpa [seen, size] using congrArg Array.size h

theorem node_congr (h : doc.seen = doc'.seen) : doc.node = doc'.node := by
  have hnode (doc : Document M) (i : Nat) : doc.node i = (doc.seen[i]?.map (·.2)).getD .empty := by
    simp [node, seen, Option.map_map, Function.comp_def]
  funext i
  rw [hnode, hnode, h]

theorem reach_congr (h : doc.seen = doc'.seen) : doc.reach = doc'.reach := by
  funext members field
  simp only [reach, size_congr h]

theorem find_congr (h : doc.seen = doc'.seen) : doc.find = doc'.find := by
  funext members type condition
  simp only [find, reach_congr h, node_congr h]

theorem elementOf_congr (h : doc.seen = doc'.seen) : doc.elementOf = doc'.elementOf := by
  funext members n
  cases n <;> simp only [elementOf, keyed, size_congr h]

theorem closestTo_congr (h : doc.seen = doc'.seen) : doc.closestTo = doc'.closestTo := by
  have hreaches : doc.reaches = doc'.reaches := by
    have htoken (doc : Document M) (position : Value) (i : Nat) : doc.reaches position i =
        match doc.seen[i]? with
        | some (t, _) => if t.isTrivia then .ok false else (positionBefore position t.start).map not
        | none => .ok false := by
      simp only [reaches, seen, Array.getElem?_map]
      cases doc.entries[i]? <;> rfl
    funext position i
    rw [htoken, htoken, h]
  funext members position
  simp only [closestTo, reach_congr h, hreaches]

theorem seen_write (doc : Document M) (i : Nat) (u : Write M) :
    (doc.write i u).seen = doc.seen.modify i fun e => (e.1, e.2.written u) := by
  apply Array.ext_getElem?
  intro j
  simp only [seen, Array.getElem?_map, write_getElem?, Array.getElem?_modify, Option.map_map]
  by_cases hij : i = j
  · simp [hij, write_eq, Function.comp_def]
  · simp [hij, Function.comp_def]

end Document

namespace Workbench

/-- Two workbenches that differ in replacements only. -/
structure Alike (v w : Workbench M) : Prop where
  kit : v.kit = w.kit
  registers : v.registers = w.registers
  memory : v.memory = w.memory
  documents : v.documents.map Document.seen = w.documents.map Document.seen

/-- The same answer, on workbenches that differ in replacements only. -/
structure SameAnswer {α : Type} (gave gave' : Workbench M × α) : Prop where
  answer : gave.2 = gave'.2
  alike : gave.1.Alike gave'.1

namespace Alike
variable {v w : Workbench M}

theorem refl (w : Workbench M) : w.Alike w := ⟨rfl, rfl, rfl, rfl⟩

theorem trans {u : Workbench M} (h : u.Alike v) (h' : v.Alike w) : u.Alike w :=
  ⟨h.1.trans h'.1, h.2.trans h'.2, h.3.trans h'.3, h.4.trans h'.4⟩

/-- The documents with a number: there is none, or they look the same. -/
theorem document (h : v.Alike w) (k : Nat) :
    (v.documents[k]? = none ∧ w.documents[k]? = none) ∨
      ∃ doc doc', v.documents[k]? = some doc ∧ w.documents[k]? = some doc' ∧
        doc.seen = doc'.seen := by
  have hk := congrArg (·[k]?) h.documents
  simp only [Array.getElem?_map] at hk
  cases hv : v.documents[k]? with
  | none =>
    rw [hv] at hk
    exact .inl ⟨rfl, Option.map_eq_none_iff.mp hk.symm⟩
  | some doc =>
    rw [hv] at hk
    obtain ⟨doc', hw, hseen⟩ := Option.map_eq_some_iff.mp hk.symm
    exact .inr ⟨doc, doc', rfl, hw, hseen.symm⟩

theorem documentOf (h : v.Alike w) (c : Collection) :
    (v.documentOf c).seen = (w.documentOf c).seen := by
  unfold Workbench.documentOf
  rcases h.document c.document with ⟨hv, hw⟩ | ⟨doc, doc', hv, hw, hseen⟩
  · rw [hv, hw]
  · rw [hv, hw]
    exact hseen

theorem node (h : v.Alike w) : v.node = w.node := by
  funext r
  unfold Workbench.node
  rcases h.document r.document with ⟨hv, hw⟩ | ⟨doc, doc', hv, hw, hseen⟩
  · rw [hv, hw]
  · rw [hv, hw, Option.map_some, Option.map_some, Document.node_congr hseen]

theorem has (h : v.Alike w) (r : TokenRef) : v.has r = w.has r := by
  unfold Workbench.has
  rcases h.document r.document with ⟨hv, hw⟩ | ⟨doc, doc', hv, hw, hseen⟩
  · rw [hv, hw]
  · rw [hv, hw, Option.any_some, Option.any_some, Document.size_congr hseen]

theorem scene (h : v.Alike w) : v.scene = w.scene := by
  rw [Workbench.scene, Workbench.scene, h.memory, h.node, h.registers]

theorem remember (h : v.Alike w) (memory : M) : (v.remember memory).Alike (w.remember memory) :=
  ⟨h.kit, h.registers, rfl, h.documents⟩

theorem write (h : v.Alike w) (r : TokenRef) (u : Write M) :
    (v.write r u).Alike (w.write r u) := by
  have hseen (w : Workbench M) : (w.write r u).documents.map Document.seen =
      (w.documents.map Document.seen).modify r.document
        fun seen => seen.modify r.index fun e => (e.1, e.2.written u) := by
    apply Array.ext_getElem?
    intro k
    simp only [Workbench.write, Array.getElem?_map, Array.getElem?_modify]
    split
    · cases w.documents[k]? <;> simp [Document.seen_write]
    · rfl
  exact ⟨h.kit, h.registers, h.memory, by rw [hseen, hseen, h.documents]⟩

theorem writeAll (h : v.Alike w) (document : Nat) (indices : List Nat) (u : Write M) :
    (v.writeAll document indices u).Alike (w.writeAll document indices u) := by
  induction indices generalizing v w with
  | nil => exact h
  | cons i rest ih => exact ih (h.write ⟨document, i⟩ u)

theorem keepFound (h : v.Alike w) (c : Collection) (found : Except Fault (List Nat)) :
    SameAnswer (v.keepFound c found) (w.keepFound c found) := by
  cases found with
  | ok indices =>
    refine ⟨rfl, h.kit, ?_, h.memory, h.documents⟩
    simp only [Workbench.keepFound, keep, h.registers]
  | error f => exact ⟨rfl, h⟩

theorem answer (h : v.Alike w) (reply : Except Fault Reply) :
    SameAnswer (v.answer reply) (w.answer reply) := by
  cases reply <;> exact ⟨rfl, h⟩

theorem writeIf (h : v.Alike w) (c : Collection) (reply : Reply)
    (what : Except Fault (List Nat × Write M)) :
    SameAnswer (v.writeIf c reply what) (w.writeIf c reply what) := by
  cases what with
  | ok what => exact ⟨rfl, h.writeAll c.document what.1 what.2⟩
  | error f => exact ⟨rfl, h⟩

theorem first (h : v.Alike w) (c : Collection) :
    Workbench.first (v.documentOf c) c = Workbench.first (w.documentOf c) c := by
  unfold Workbench.first
  cases c.indices with
  | nil => rfl
  | cons i rest => rw [Document.reach_congr (h.documentOf c)]

theorem place (h : v.Alike w) (r : TokenRef) (t : Thing M) : (v.place r t).Alike (w.place r t) := by
  unfold Workbench.place
  split
  · exact h
  · exact h.write r _

/-- Where every question has the same answer, so has a sweep. -/
theorem ask (h : v.Alike w) (c : Collection)
    {about : Workbench M → TokenRef → Nat → Workbench M × Except Fault Bool}
    (habout : ∀ {v w : Workbench M}, v.Alike w → ∀ r n, SameAnswer (about v r n) (about w r n)) :
    SameAnswer (v.ask c about) (w.ask c about) := by
  unfold Workbench.ask
  generalize 0 = n
  generalize hindices : c.indices = members
  clear hindices
  induction members generalizing v w n with
  | nil => exact ⟨rfl, h⟩
  | cons i rest ih =>
    simp only [sweep, h.has]
    by_cases hhas : w.has ⟨c.document, i⟩ = true
    · simp only [if_pos hhas]
      obtain ⟨hanswer, halike⟩ := habout h ⟨c.document, i⟩ n
      generalize about v ⟨c.document, i⟩ n = gave at hanswer halike ⊢
      generalize about w ⟨c.document, i⟩ n = gave' at hanswer halike ⊢
      obtain ⟨v', answer⟩ := gave
      obtain ⟨w', answer'⟩ := gave'
      obtain rfl : answer = answer' := hanswer
      cases answer with
      | error f => exact ⟨rfl, halike⟩
      | ok kept =>
        obtain ⟨hfound, hrest⟩ := ih halike (n + 1)
        dsimp only
        generalize sweep _ (n + 1) rest v' = more at hfound hrest ⊢
        generalize sweep _ (n + 1) rest w' = more' at hfound hrest ⊢
        obtain ⟨v'', found⟩ := more
        obtain ⟨w'', found'⟩ := more'
        obtain rfl : found = found' := hfound
        cases found with
        | error f => exact ⟨rfl, hrest⟩
        | ok found => exact ⟨rfl, hrest⟩
    · simp only [if_neg hhas]
      exact ⟨rfl, h⟩

end Alike

namespace SameAnswer

theorem verdict {gave gave' : Workbench M × Except Fault (Thing M)} (h : SameAnswer gave gave') :
    SameAnswer (Workbench.verdict gave) (Workbench.verdict gave') :=
  ⟨by simp only [Workbench.verdict, h.answer, h.alike.memory], h.alike⟩

theorem placed (r : TokenRef) {gave gave' : Workbench M × Except Fault (Thing M)}
    (h : SameAnswer gave gave') :
    SameAnswer (Workbench.placed r gave) (Workbench.placed r gave') := by
  obtain ⟨v', t⟩ := gave
  obtain ⟨w', t'⟩ := gave'
  obtain rfl : t = t' := h.answer
  cases t with
  | ok t => exact ⟨rfl, h.alike.place r t⟩
  | error f => exact ⟨rfl, h.alike⟩

variable {gave gave' : Workbench M × Except Fault (List Nat)}

theorem keepFound (h : SameAnswer gave gave') (c : Collection) :
    SameAnswer (gave.1.keepFound c gave.2) (gave'.1.keepFound c gave'.2) := by
  rw [h.answer]
  exact h.alike.keepFound c _

theorem sameAfter (h : SameAnswer gave gave') :
    SameAnswer (Workbench.sameAfter gave) (Workbench.sameAfter gave') := by
  rw [Workbench.sameAfter, Workbench.sameAfter, h.answer]
  exact h.alike.answer _

end SameAnswer

mutual

/-- An operation that prints nothing answers as if nothing had been replaced, and
what it changes is the same. -/
theorem apply_alike : ∀ {op : Operation M}, op.Silent → ∀ {v w : Workbench M}, v.Alike w →
    ∀ c : Collection, SameAnswer (v.apply c op) (w.apply c op)
  | .find .., _, _, _, h, c => by
    simp only [apply, Document.find_congr (h.documentOf c)]
    exact h.keepFound c _
  | .findBy type test, hop, _, _, h, c => by
    refine (h.ask c fun {v w} h r _ => ?_).keepFound c
    rw [h.node, h.scene]
    split
    · exact (react_alike (hop.2 _ r) h).verdict
    · exact ⟨rfl, h⟩
  | .filter test, hop, _, _, h, c => by
    refine (h.ask c fun {v w} h r n => ?_).keepFound c
    rw [h.scene]
    exact (react_alike (hop.2 _ r n) h).verdict
  | .forEach visit, hop, _, _, h, c => by
    refine (h.ask c fun {v w} h r n => ?_).sameAfter
    rw [h.scene]
    exact (react_alike (hop.2 _ r n) h).verdict
  | .replaceBy make, hop, _, _, h, c => by
    refine (h.ask c fun {v w} h r n => ?_).sameAfter
    rw [h.scene]
    exact (react_alike (hop.2 _ r n) h).placed r
  | .element n, _, _, _, h, c => by
    simp only [apply, Document.elementOf_congr (h.documentOf c)]
    exact h.keepFound c _
  | .closest position, _, _, _, h, c => by
    simp only [apply, Document.closestTo_congr (h.documentOf c)]
    exact h.keepFound c _
  | .size, _, _, _, h, _ => ⟨rfl, h⟩
  | .parser, _, _, _, h, _ => ⟨by simp only [apply, h.kit], h⟩
  | .nodes, _, _, _, h, c | .paths, _, _, _, h, c | .first, _, _, _, h, c => by
    simp only [apply, Document.reach_congr (h.documentOf c), Document.node_congr (h.documentOf c)]
    exact h.answer _
  | .source, hop, _, _, _, _ => by cases hop
  | .reparse parser, hop, _, _, _, _ => by cases parser <;> cases hop
  | .build b arg, _, _, _, h, _ => h.answer _
  | .tag name, _, _, _, h, _ => by
    simp only [apply, h.kit]
    exact h.answer _
  | .call v, _, _, _, h, _ => by cases v <;> exact ⟨rfl, h⟩
  | .replace _, _, _, _, h, c | .remove, _, _, _, h, c => by
    simp only [apply, Document.reach_congr (h.documentOf c)]
    exact h.writeIf c _ _
  | .replaceFirst _, _, _, _, h, c | .prune, _, _, _, h, c => by
    simp only [apply, h.first c]
    exact h.writeIf c _ _
  | .assign key v, _, _, _, h, c => by
    simp only [apply, Document.reach_congr (h.documentOf c)]
    split
    · exact ⟨rfl, h⟩
    · exact h.writeIf c _ _

theorem react_alike : ∀ {reaction : Reaction M}, (reaction.All fun op => op.prints = false) →
    ∀ {v w : Workbench M}, v.Alike w → SameAnswer (v.react reaction) (w.react reaction)
  | .answer memory gives, _, _, _, h => ⟨rfl, h.remember memory⟩
  | .write memory r u next, hr, v, w, h => by
    have halike := (h.remember memory).write r u
    simp only [react, halike.scene]
    exact react_alike (hr _) halike
  | .perform memory register op next, hr, v, w, h => by
    have halike := h.remember memory
    simp only [react, halike.registers]
    cases (w.remember memory).registers[register]? with
    | none =>
      dsimp only
      rw [halike.scene]
      exact react_alike (hr.2 _ _) halike
    | some c =>
      obtain ⟨hreply, hafter⟩ := apply_alike hr.1 halike c
      dsimp only
      rw [hreply, hafter.scene]
      exact react_alike (hr.2 _ _) hafter

end

theorem step_alike {op : Operation M} (hop : op.Silent) {v w : Workbench M} (h : v.Alike w)
    (register : Nat) : SameAnswer (v.step register op) (w.step register op) := by
  unfold step
  rw [h.registers]
  cases w.registers[register]? with
  | none => exact ⟨rfl, h⟩
  | some c => exact apply_alike hop h c

/-- Two workbenches that differ in replacements only answer alike, and make the
same collections. -/
theorem run_alike {v w : Workbench M} (h : v.Alike w) {steps : List (Nat × Operation M)}
    (hs : ∀ s ∈ steps, s.2.Silent) :
    v.run steps = w.run steps ∧ (v.after steps).registers = (w.after steps).registers := by
  induction steps generalizing v w with
  | nil => exact ⟨rfl, h.registers⟩
  | cons s steps ih =>
    obtain ⟨register, op⟩ := s
    have hstep := step_alike (hs _ List.mem_cons_self) h register
    obtain ⟨hrun, hregisters⟩ := ih hstep.alike fun s hm => hs s (List.mem_cons_of_mem _ hm)
    exact ⟨by simp only [run, hstep.answer, hrun], hregisters⟩

/-! ### What only replaces -/

theorem Alike.symm {v w : Workbench M} (h : v.Alike w) : w.Alike v :=
  ⟨h.1.symm, h.2.symm, h.3.symm, h.4.symm⟩

/-- What the operations on a collection do to its tokens, as the history of its document
tells it. -/
structure Recorded (w : Workbench M) (register : Nat) (c : Collection) : Prop where
  /-- An operation that calls nobody back adds its own writes. -/
  plain : w.Covers c → ∀ op : Operation M, op.callsBack = false →
    (w.step register op).1.history c.document = w.history c.document ++ op.writes c
  /-- What a function gives for a token is stored for it, after all that the function did
  itself. -/
  given : ∀ make, (w.step register (.replaceBy make)).2 = .same →
    ∀ n i, c.indices[n]? = some i → ∃ v t, Leads true w v ∧
      (v.react (make v.scene ⟨c.document, i⟩ n)).2 = .ok t ∧
      (t.isUndefined = false →
        (v.react (make v.scene ⟨c.document, i⟩ n)).1.history c.document ++ [(i, .replaced t)] <+:
          (w.step register (.replaceBy make)).1.history c.document)
  /-- Functions that only look and answer change nothing. -/
  asked : ∀ op : Operation M, op.JustAsks → ∀ k, (w.step register op).1.history k = w.history k

theorem recorded {w : Workbench M} {register : Nat} {c : Collection}
    (hc : w.registers[register]? = some c) : w.Recorded register c := by
  have hstep (op : Operation M) : w.step register op = w.apply c op := by rw [step, hc]
  constructor
  · intro hcovers op hop
    rw [hstep]
    exact history_apply hcovers hop
  · intro make hsame n i hi
    rw [hstep] at hsame ⊢
    exact history_replaceBy hsame hi
  · intro op hop k
    rw [hstep, history, documents_of_justAsks hop, history]

end Workbench

/-! ### Printing after any sequence of operations -/

theorem tokenize_two_names : tokenize .ts "x y" =
    [⟨.identifier, "x", ⟨0, 1, 0⟩, ⟨1, 1, 1⟩⟩, ⟨.whitespace, " ", ⟨1, 1, 1⟩, ⟨2, 1, 2⟩⟩,
     ⟨.identifier, "y", ⟨2, 1, 2⟩, ⟨3, 1, 3⟩⟩] := by decide +kernel

end Retouch.Toolkit
