import Mathlib.Logic.Relation
import Retouch.Toolkit.Workbench

/-! What any sequence of operations can do to a workbench, whatever the functions do that
are called back. In the end there are only a few changes: the script remembers something,
a token is written to, a collection is made of one that is there, a source is opened, or
the toolkit is bound to another dialect. What each of these keeps, every operation keeps,
and so does every run.

From this come the two facts that later proofs start from. A collection, once made, stays
as it is. A document is what its source and the writes in its journal make of it. -/

namespace Retouch.Toolkit
open Syntax
variable {M : Type}

/-! ### Operations and what their functions perform -/

mutual

/-- `p` holds of an operation and of all operations that its functions may perform. -/
def Operation.All (p : Operation M → Prop) : Operation M → Prop
  | .findBy type test => p (.findBy type test) ∧ ∀ s r, (test s r).All p
  | .filter test => p (.filter test) ∧ ∀ s r n, (test s r n).All p
  | .forEach visit => p (.forEach visit) ∧ ∀ s r n, (visit s r n).All p
  | .replaceBy make => p (.replaceBy make) ∧ ∀ s r n, (make s r n).All p
  | op => p op
termination_by structural op => op

def Reaction.All (p : Operation M → Prop) : Reaction M → Prop
  | .answer _ _ => True
  | .write _ _ _ next => ∀ s, (next s).All p
  | .perform _ _ op next => op.All p ∧ ∀ s reply, (next s reply).All p
termination_by structural reaction => reaction

end

mutual

theorem Operation.all_of_forall {p : Operation M → Prop} (h : ∀ op, p op) :
    ∀ op : Operation M, op.All p
  | .findBy _ _ => ⟨h _, fun _ _ => Reaction.all_of_forall h _⟩
  | .filter _ => ⟨h _, fun _ _ _ => Reaction.all_of_forall h _⟩
  | .forEach _ => ⟨h _, fun _ _ _ => Reaction.all_of_forall h _⟩
  | .replaceBy _ => ⟨h _, fun _ _ _ => Reaction.all_of_forall h _⟩
  | .find .. | .element .. | .closest .. | .size | .nodes | .paths | .first | .replace ..
  | .remove | .replaceFirst .. | .prune | .assign .. | .source | .reparse .. | .call ..
  | .build .. | .tag .. | .parser => h _

theorem Reaction.all_of_forall {p : Operation M → Prop} (h : ∀ op, p op) :
    ∀ reaction : Reaction M, reaction.All p
  | .answer _ _ => trivial
  | .write _ _ _ _ => fun _ => Reaction.all_of_forall h _
  | .perform _ _ op _ => ⟨Operation.all_of_forall h op, fun _ _ => Reaction.all_of_forall h _⟩

end

theorem Operation.All.self {p : Operation M → Prop} {op : Operation M} (h : op.All p) : p op := by
  cases op with
  | findBy | filter | forEach | replaceBy => exact h.1
  | _ => exact h

/-- Whether an operation looks up elements by number only. -/
def Operation.countsByNumber : Operation M → Bool
  | .element (.number _) => true
  | .element _ => false
  | _ => true

/-! ### What each choice chooses -/

theorem bind_eq_ok {ε α β : Type} {x : Except ε α} {f : α → Except ε β} {b : β}
    (h : x >>= f = .ok b) : ∃ a, x = .ok a ∧ f a = .ok b := by
  cases x with
  | error e => cases h
  | ok a => exact ⟨a, rfl, h⟩

theorem sublist_ite {α : Type} {kept : Bool} {x : α} {xs ys : List α} (h : xs.Sublist ys) :
    (if kept then x :: xs else xs).Sublist (x :: ys) := by
  cases kept with
  | false => exact h.cons x
  | true => exact h.cons_cons x

theorem sift_sublist {test : Nat → Except Fault Bool} {members found : List Nat}
    (h : sift test members = .ok found) : found.Sublist members := by
  induction members generalizing found with
  | nil =>
    cases h
    exact .slnil
  | cons i rest ih =>
    obtain ⟨kept, -, h⟩ := bind_eq_ok h
    obtain ⟨more, hmore, h⟩ := bind_eq_ok h
    cases h
    exact sublist_ite (ih hmore)

theorem toList_sublist {members : List Nat} {o : Option Nat} (h : ∀ i, o = some i → i ∈ members) :
    o.toList.Sublist members := by
  cases o with
  | none => exact List.nil_sublist members
  | some i => exact List.singleton_sublist.mpr (h i rfl)

namespace Document
variable {doc : Document M} {members found : List Nat}

theorem find_sublist {type condition : Value} (h : doc.find members type condition = .ok found) :
    found.Sublist members := by
  obtain ⟨-, -, h⟩ := bind_eq_ok h
  cases h
  exact List.filter_sublist

theorem elementOf_number (doc : Document M) (members : List Nat) (x : Number) :
    doc.elementOf members (.number x) =
      .ok ((elementAt members.length x).bind (members[·]?)).toList := rfl

theorem elementOf_sublist {x : Number} (h : doc.elementOf members (.number x) = .ok found) :
    found.Sublist members := by
  rw [elementOf_number, Except.ok.injEq] at h
  subst h
  refine toList_sublist fun i hi => ?_
  obtain ⟨n, -, hn⟩ := Option.bind_eq_some_iff.mp hi
  exact List.mem_of_getElem? hn

theorem closestTo_sublist {position : Value} (h : doc.closestTo members position = .ok found) :
    found.Sublist members := by
  unfold closestTo at h
  split at h
  · cases h
    exact List.nil_sublist members
  · obtain ⟨-, -, h⟩ := bind_eq_ok h
    obtain ⟨reached, hreached, h⟩ := bind_eq_ok h
    cases h
    refine (toList_sublist fun i hi => ?_).trans (sift_sublist hreached)
    exact List.mem_of_getLast? hi

end Document

/-! ### All changes that there are -/

namespace Workbench

/-- One change. With `keys`, an element may be looked up by a key, and then a collection
need not be part of the one that it was made of. -/
inductive Change (keys : Bool) (w : Workbench M) : Workbench M → Prop
  | remember (memory : M) : Change keys w (w.remember memory)
  | write (r : TokenRef) (u : Write M) : Change keys w (w.write r u)
  | derive {register : Nat} {c : Collection} {indices : List Nat} :
      w.registers[register]? = some c → indices.Sublist c.indices ∨ keys = true →
      Change keys w (w.keep c indices).1
  | bind (kit : Kit) : Change keys w { w with kit }
  | enter (source : String) : Change keys w (w.openSource source).1

/-- Any number of changes, one after the other. -/
def Leads (keys : Bool) : Workbench M → Workbench M → Prop := Relation.ReflTransGen (Change keys)

variable {keys : Bool} {v w : Workbench M} {c : Collection}

theorem Leads.refl (w : Workbench M) : Leads keys w w := Relation.ReflTransGen.refl

theorem Leads.trans {u : Workbench M} (h : Leads keys u v) (h' : Leads keys v w) :
    Leads keys u w := Relation.ReflTransGen.trans h h'

theorem Change.leads (h : Change keys v w) : Leads keys v w := Relation.ReflTransGen.single h

/-- A change adds at most one collection, at the end. -/
theorem Change.registers {n : Nat} (h : Change keys v w) (hc : v.registers[n]? = some c) :
    w.registers[n]? = some c := by
  have hpush (c' : Collection) : (v.registers.push c')[n]? = some c := by
    obtain ⟨hn, -⟩ := Array.getElem?_eq_some_iff.mp hc
    rw [Array.getElem?_push, if_neg (Nat.ne_of_lt hn), hc]
  cases h with
  | remember | write | bind => exact hc
  | derive | enter => exact hpush _

/-- A collection stays as it is. -/
theorem Leads.registers {n : Nat} (h : Leads keys v w) (hc : v.registers[n]? = some c) :
    w.registers[n]? = some c := by
  induction h with
  | refl => exact hc
  | tail _ hchange ih => exact hchange.registers ih

/-! ### Every operation is made of them -/

theorem leads_writeAll (w : Workbench M) (document : Nat) (indices : List Nat) (u : Write M) :
    Leads keys w (w.writeAll document indices u) := by
  unfold writeAll
  induction indices generalizing w with
  | nil => exact .refl w
  | cons i rest ih => exact (Change.write ⟨document, i⟩ u).leads.trans (ih _)

theorem leads_writeIf (w : Workbench M) (c : Collection) (reply : Reply)
    (what : Except Fault (List Nat × Write M)) : Leads keys w (w.writeIf c reply what).1 := by
  cases what with
  | ok what => exact leads_writeAll w c.document what.1 what.2
  | error f => exact .refl w

theorem leads_place (w : Workbench M) (r : TokenRef) (t : Thing M) :
    Leads keys w (w.place r t) := by
  unfold place
  split
  · exact .refl w
  · exact (Change.write r _).leads

theorem answer_fst (w : Workbench M) (reply : Except Fault Reply) : (w.answer reply).1 = w := by
  cases reply <;> rfl

theorem leads_answer (w : Workbench M) (reply : Except Fault Reply) :
    Leads keys w (w.answer reply).1 := by
  rw [answer_fst]
  exact .refl w

theorem leads_keepFound {register : Nat} (hc : w.registers[register]? = some c)
    {found : Except Fault (List Nat)}
    (h : ∀ indices, found = .ok indices → indices.Sublist c.indices ∨ keys = true) :
    Leads keys w (w.keepFound c found).1 := by
  cases found with
  | ok indices => exact (Change.derive hc (h indices rfl)).leads
  | error f => exact .refl w

theorem leads_reopen (w : Workbench M) (doc : Document M) : Leads keys w (w.reopen doc).1 := by
  unfold reopen
  cases (doc.print w.scene).bind properText with
  | ok source => exact (Change.enter source).leads
  | error f => exact .refl w

/-- What every question does to a workbench, a sweep does. -/
theorem sweep_rel {R : Workbench M → Workbench M → Prop} (hrefl : ∀ w, R w w)
    (htrans : ∀ {u v w}, R u v → R v w → R u w)
    {ask : Workbench M → Nat → Nat → Workbench M × Except Fault Bool}
    (h : ∀ w i n, R w (ask w i n).1) (n : Nat) (members : List Nat) (w : Workbench M) :
    R w (sweep ask n members w).1 := by
  induction members generalizing n w with
  | nil => exact hrefl w
  | cons i rest ih =>
    have hask := h w i n
    rw [sweep]
    generalize ask w i n = gave at hask ⊢
    obtain ⟨w', answer⟩ := gave
    cases answer with
    | error f => exact hask
    | ok kept =>
      have hrest := ih (n + 1) w'
      dsimp only
      generalize sweep ask (n + 1) rest w' = more at hrest ⊢
      obtain ⟨v, found⟩ := more
      cases found with
      | error f => exact htrans hask hrest
      | ok found => exact htrans hask hrest

theorem ask_rel {R : Workbench M → Workbench M → Prop} (hrefl : ∀ w, R w w)
    (htrans : ∀ {u v w}, R u v → R v w → R u w)
    {about : Workbench M → TokenRef → Nat → Workbench M × Except Fault Bool}
    (h : ∀ w r n, R w (about w r n).1) (w : Workbench M) (c : Collection) :
    R w (w.ask c about).1 := by
  refine sweep_rel hrefl htrans (fun w i n => ?_) 0 c.indices w
  split
  · exact h w ⟨c.document, i⟩ n
  · exact hrefl w

theorem sweep_sublist {ask : Workbench M → Nat → Nat → Workbench M × Except Fault Bool} {n : Nat}
    {members found : List Nat} {w : Workbench M} (h : (sweep ask n members w).2 = .ok found) :
    found.Sublist members := by
  induction members generalizing n w found with
  | nil =>
    cases h
    exact .slnil
  | cons i rest ih =>
    rw [sweep] at h
    generalize ask w i n = gave at h
    obtain ⟨w', answer⟩ := gave
    cases answer with
    | error f => cases h
    | ok kept =>
      dsimp only at h
      generalize hmore : sweep ask (n + 1) rest w' = more at h
      obtain ⟨v, found'⟩ := more
      cases found' with
      | error f => cases h
      | ok found' =>
        cases h
        exact sublist_ite (ih (by rw [hmore]))

theorem ask_leads {about : Workbench M → TokenRef → Nat → Workbench M × Except Fault Bool}
    (h : ∀ w r n, Leads keys w (about w r n).1) (w : Workbench M) (c : Collection) :
    Leads keys w (w.ask c about).1 :=
  ask_rel .refl .trans h w c

/-- What passed the tests is part of what was tested. -/
theorem leads_ask_keepFound {register : Nat} (hc : w.registers[register]? = some c)
    {about : Workbench M → TokenRef → Nat → Workbench M × Except Fault Bool}
    (h : ∀ w r n, Leads keys w (about w r n).1) :
    Leads keys w ((w.ask c about).1.keepFound c (w.ask c about).2).1 := by
  have hask := ask_leads h w c
  exact hask.trans (leads_keepFound (hask.registers hc) fun _ hfound => .inl (sweep_sublist hfound))

theorem leads_placed (r : TokenRef) {gave : Workbench M × Except Fault (Thing M)}
    (h : Leads keys w gave.1) : Leads keys w (placed r gave).1 := by
  obtain ⟨w', t⟩ := gave
  cases t with
  | ok t => exact h.trans (leads_place w' r t)
  | error f => exact h

theorem leads_sameAfter {gave : Workbench M × Except Fault (List Nat)}
    (h : Leads keys w gave.1) : Leads keys w (sameAfter gave).1 := by
  rw [sameAfter, answer_fst]
  exact h

/-- What an operation has to be like for its changes to be allowed. -/
def Allowed (keys : Bool) (op : Operation M) : Prop := keys = true ∨ op.countsByNumber = true

mutual

theorem apply_leads : ∀ {op : Operation M}, op.All (Allowed keys) →
    ∀ {w : Workbench M} {register : Nat} {c : Collection}, w.registers[register]? = some c →
      Leads keys w (w.apply c op).1
  | .find .., _, _, _, _, hc => leads_keepFound hc fun _ h => .inl (Document.find_sublist h)
  | .findBy type test, hop, _, _, _, hc => by
    refine leads_ask_keepFound hc fun w r _ => ?_
    split
    · exact react_leads (hop.2 w.scene r) w
    · exact .refl w
  | .filter test, hop, _, _, _, hc =>
    leads_ask_keepFound hc fun w r n => react_leads (hop.2 w.scene r n) w
  | .forEach visit, hop, w, _, c, _ =>
    leads_sameAfter (ask_leads (fun w r n => react_leads (hop.2 w.scene r n) w) w c)
  | .replaceBy make, hop, w, _, c, _ =>
    leads_sameAfter (ask_leads (fun w r n =>
      leads_placed r (react_leads (hop.2 w.scene r n) w)) w c)
  | .element n, hop, _, _, _, hc => by
    refine leads_keepFound hc fun indices h => ?_
    rcases hop with hkeys | hnumber
    · exact .inr hkeys
    · cases n with
      | number x => exact .inl (Document.elementOf_sublist h)
      | _ => cases hnumber
  | .closest .., _, _, _, _, hc =>
    leads_keepFound hc fun _ h => .inl (Document.closestTo_sublist h)
  | .size, _, w, _, _, _ | .parser, _, w, _, _, _ => .refl w
  | .nodes, _, w, _, _, _ | .paths, _, w, _, _, _ | .first, _, w, _, _, _
  | .source, _, w, _, _, _ | .build .., _, w, _, _, _ | .tag .., _, w, _, _, _ =>
    leads_answer w _
  | .replace .., _, w, _, c, _ | .remove, _, w, _, c, _ | .replaceFirst .., _, w, _, c, _
  | .prune, _, w, _, c, _ => leads_writeIf w c _ _
  | .assign key v, _, w, _, c, _ => by
    rw [apply]
    split
    · exact .refl w
    · exact leads_writeIf w c _ _
  | .reparse none, _, w, _, c, _ => leads_reopen w (w.documentOf c)
  | .reparse (some name), _, w, _, c, _ => by
    rw [apply]
    split
    · exact (Change.bind _).leads.trans (leads_reopen _ (w.documentOf c))
    · exact .refl w
  | .call v, _, w, _, c, _ => by cases v <;> exact .refl w

theorem react_leads : ∀ {reaction : Reaction M}, reaction.All (Allowed keys) →
    ∀ w : Workbench M, Leads keys w (w.react reaction).1
  | .answer memory _, _, _ => (Change.remember memory).leads
  | .write memory r u next, h, w =>
    (Change.remember memory).leads.trans <| (Change.write r u).leads.trans <|
      react_leads (h _) ((w.remember memory).write r u)
  | .perform memory register op next, h, w => by
    refine (Change.remember memory).leads.trans ?_
    rw [react]
    generalize w.remember memory = w
    cases hc : w.registers[register]? with
    | none => exact react_leads (h.2 _ _) w
    | some c =>
      dsimp only
      exact (apply_leads h.1 hc).trans (react_leads (h.2 _ _) _)

end

theorem step_leads {op : Operation M} (hop : op.All (Allowed keys)) (w : Workbench M)
    (register : Nat) : Leads keys w (w.step register op).1 := by
  unfold step
  cases hc : w.registers[register]? with
  | none => exact .refl w
  | some c => exact apply_leads hop hc

theorem after_leads {steps : List (Nat × Operation M)}
    (hs : ∀ s ∈ steps, s.2.All (Allowed keys)) (w : Workbench M) :
    Leads keys w (w.after steps) := by
  induction steps generalizing w with
  | nil => exact .refl w
  | cons s steps ih =>
    exact (step_leads (hs s List.mem_cons_self) w s.1).trans
      (ih (fun s' hm => hs s' (List.mem_cons_of_mem s hm)) _)

/-- Any operations make changes, as long as keys are allowed. -/
theorem after_leads_keys (steps : List (Nat × Operation M)) (w : Workbench M) :
    Leads true w (w.after steps) :=
  after_leads (fun s _ => Operation.all_of_forall (fun _ => .inl rfl) s.2) w

end Workbench

/-! ### Documents and their journals -/

namespace Document

/-- Everything that was done to the tokens of a document, in order. -/
def history (doc : Document M) : List (Nat × Write M) := doc.journal.toList

/-- A document after writes to its tokens, in order. -/
def written (doc : Document M) (ws : List (Nat × Write M)) : Document M :=
  ws.foldl (fun doc w => doc.write w.1 w.2) doc

@[simp] theorem written_nil (doc : Document M) : doc.written [] = doc := rfl

theorem written_append (doc : Document M) (us vs : List (Nat × Write M)) :
    doc.written (us ++ vs) = (doc.written us).written vs := by
  simp [written, List.foldl_append]

@[simp] theorem size_written (doc : Document M) (ws : List (Nat × Write M)) :
    (doc.written ws).size = doc.size := by
  induction ws generalizing doc with
  | nil => rfl
  | cons w ws ih =>
    rw [← size_write doc w.1 w.2]
    exact ih (doc.write w.1 w.2)

theorem size_ofSource (d : Dialect) (source : String) :
    (ofSource d source : Document M).size = (tokenize d source).length := by
  simp [ofSource, size]

theorem history_write {doc : Document M} {i : Nat} (h : i < doc.size) (u : Write M) :
    (doc.write i u).history = doc.history ++ [(i, u)] := by
  simp [write, h, history]

theorem write_of_le {doc : Document M} {i : Nat} (h : doc.size ≤ i) (u : Write M) :
    doc.write i u = doc := by
  rw [write, if_neg (Nat.not_lt.mpr h)]

/-- A document that a source and the writes in its journal make up. -/
def IsOf (doc : Document M) (d : Dialect) (source : String) : Prop :=
  doc = (ofSource d source).written doc.history

theorem IsOf.size {doc : Document M} {d : Dialect} {source : String} (h : doc.IsOf d source) :
    doc.size = (tokenize d source).length := by
  rw [h, size_written, size_ofSource]

theorem IsOf.write {doc : Document M} {d : Dialect} {source : String} (h : doc.IsOf d source)
    (i : Nat) (u : Write M) : (doc.write i u).IsOf d source := by
  rcases Nat.lt_or_ge i doc.size with hi | hi
  · rw [IsOf, history_write hi, written_append, ← h]
    rfl
  · rw [write_of_le hi]
    exact h

end Document

namespace Workbench
variable {keys : Bool} {v w : Workbench M} {kit : Kit} {source : String}

/-- What was done to the tokens of the document with a number. -/
def history (w : Workbench M) (document : Nat) : List (Nat × Write M) :=
  (w.documents[document]?.map Document.history).getD []

/-- A workbench on which a source was opened first: every document comes from some source,
the first from this one, and every collection is one of a document that is there. -/
structure Began (kit : Kit) (source : String) (w : Workbench M) : Prop where
  documents : ∀ (k : Nat) doc, w.documents[k]? = some doc →
    ∃ d s, (k = 0 → d = kit.dialect ∧ s = source) ∧ doc.IsOf d s
  first : 0 < w.documents.size
  registers : ∀ (n : Nat) c, w.registers[n]? = some c → c.document < w.documents.size

theorem start_began (kit : Kit) (source : String) (memory : M) :
    (start kit source memory).1.Began kit source := by
  refine ⟨fun k doc hk => ?_, by simp [start, openSource], fun n c hn => ?_⟩
  · obtain ⟨rfl, rfl⟩ : k = 0 ∧ doc = .ofSource kit.dialect source := by
      simp only [start, openSource, Array.getElem?_push, Array.size_empty] at hk
      split at hk
      · rename_i hzero
        exact ⟨hzero, (Option.some.inj hk).symm⟩
      · simp at hk
    exact ⟨_, _, fun _ => ⟨rfl, rfl⟩, rfl⟩
  · simp only [start, openSource, Array.getElem?_push] at hn
    split at hn
    · cases hn
      simp [start, openSource]
    · simp at hn

theorem Change.began (h : Change keys v w) (hv : v.Began kit source) : w.Began kit source := by
  cases h with
  | remember memory => exact ⟨hv.documents, hv.first, hv.registers⟩
  | bind kit => exact ⟨hv.documents, hv.first, hv.registers⟩
  | write r u =>
    have hsize : (v.write r u).documents.size = v.documents.size := by
      simp [Workbench.write]
    refine ⟨fun k doc hk => ?_, by rw [hsize]; exact hv.first, fun n c hn => ?_⟩
    · simp only [Workbench.write, Array.getElem?_modify] at hk
      split at hk
      · obtain ⟨doc₀, hdoc, rfl⟩ := Option.map_eq_some_iff.mp hk
        obtain ⟨d, s, hzero, hof⟩ := hv.documents k doc₀ hdoc
        exact ⟨d, s, hzero, hof.write r.index u⟩
      · exact hv.documents k doc hk
    · rw [hsize]
      exact hv.registers n c hn
  | @derive register c indices hc _ =>
    refine ⟨hv.documents, hv.first, fun n c' hn => ?_⟩
    simp only [keep, Array.getElem?_push] at hn
    split at hn
    · cases hn
      exact hv.registers register c hc
    · exact hv.registers n c' hn
  | enter text =>
    refine ⟨fun k doc hk => ?_, by simp [openSource], fun n c hn => ?_⟩
    · simp only [openSource, Array.getElem?_push] at hk
      split at hk
      · rename_i hlast
        cases hk
        exact ⟨_, text, fun hzero => absurd hv.first (by omega), rfl⟩
      · exact hv.documents k doc hk
    · simp only [openSource, Array.getElem?_push, Array.size_push] at hn ⊢
      split at hn
      · cases hn
        exact Nat.lt_succ_self _
      · exact Nat.lt_succ_of_lt (hv.registers n c hn)

theorem Leads.began (h : Leads keys v w) (hv : v.Began kit source) : w.Began kit source := by
  induction h with
  | refl => exact hv
  | tail _ hchange ih => exact hchange.began ih

/-- After any run, whatever its functions did. -/
theorem after_began (kit : Kit) (source : String) (memory : M)
    (steps : List (Nat × Operation M)) :
    ((start kit source memory).1.after steps).Began kit source :=
  (after_leads_keys steps _).began (start_began kit source memory)

/-- The document of a collection, the source it comes from, and what was done to it. -/
theorem Began.documentOf (h : w.Began kit source) {register : Nat} {c : Collection}
    (hc : w.registers[register]? = some c) : ∃ d s,
      (c.document = 0 → d = kit.dialect ∧ s = source) ∧
      (w.documentOf c).IsOf d s ∧ w.history c.document = (w.documentOf c).history := by
  have hlt := h.registers register c hc
  have hdoc := Array.getElem?_eq_getElem hlt
  obtain ⟨d, s, hzero, hof⟩ := h.documents c.document _ hdoc
  refine ⟨d, s, hzero, ?_, ?_⟩
  · rw [Workbench.documentOf, hdoc]
    exact hof
  · rw [history, Workbench.documentOf, hdoc]
    rfl

end Workbench

end Retouch.Toolkit
