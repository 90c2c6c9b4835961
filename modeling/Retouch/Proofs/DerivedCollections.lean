import Retouch.Proofs.LastWrite
import Retouch.Proofs.WholeNumbers

/-! Where collections come from. An operation makes at most one collection of its own, and
what it makes of a collection is a subsequence of it; nothing ever changes a collection
that is there. So all collections of a document are subsequences of the one that has
every token, whatever was written to the nodes that the choice looks at, and whatever the
functions do that choose.

Keys are left out: a key that is no number may name what is in no collection. -/

namespace Retouch.Toolkit
open Syntax
variable {M : Type}

/-- An operation that looks up elements by number only, and so do all that its functions
perform. -/
def Operation.Numbered (op : Operation M) : Prop := op.All fun op => op.countsByNumber = true

/-- Whether an operation makes a collection of one that is there. -/
def Operation.chooses : Operation M → Bool
  | .find .. | .findBy .. | .filter _ | .element _ | .closest _ => true
  | _ => false

namespace Workbench
variable {v w : Workbench M} {c : Collection} {kit : Kit} {source : String}

/-! ### What an operation makes of a collection -/

/-- `v` has the collections of `w`, and maybe more. -/
def Extends (w v : Workbench M) : Prop :=
  ∀ (n : Nat) (c : Collection), w.registers[n]? = some c → v.registers[n]? = some c

/-- What a choice comes to: when the functions have done what they do, it fails, or keeps a
subsequence of its collection. -/
def Derives (w : Workbench M) (c : Collection) (gave : Workbench M × Reply) : Prop :=
  ∃ v, w.Extends v ∧ ((∃ f, gave = (v, .failed f)) ∨
    ∃ indices, indices.Sublist c.indices ∧ gave = v.keep c indices)

theorem derives_keepFound (h : w.Extends v) {found : Except Fault (List Nat)}
    (hfound : ∀ indices, found = .ok indices → indices.Sublist c.indices) :
    w.Derives c (v.keepFound c found) := by
  cases found with
  | error f => exact ⟨v, h, .inl ⟨f, rfl⟩⟩
  | ok indices => exact ⟨v, h, .inr ⟨indices, hfound indices rfl, rfl⟩⟩

theorem derives_ask {about : Workbench M → TokenRef → Nat → Workbench M × Except Fault Bool}
    (h : ∀ w r n, Leads true w (about w r n).1) (w : Workbench M) (c : Collection) :
    w.Derives c ((w.ask c about).1.keepFound c (w.ask c about).2) :=
  derives_keepFound (fun _ _ hc => (ask_leads h w c).registers hc) fun _ => sweep_sublist

/-- A choice makes nothing but a part of its collection, whatever its function does. -/
theorem apply_derives {op : Operation M} (hop : op.chooses = true)
    (hnumber : op.countsByNumber = true) (w : Workbench M) (c : Collection) :
    w.Derives c (w.apply c op) := by
  have hreact (w : Workbench M) (reaction : Reaction M) : Leads true w (w.react reaction).1 :=
    react_leads (Reaction.all_of_forall (fun _ => .inl rfl) reaction) w
  have hself : w.Extends w := fun _ _ hc => hc
  cases op with
  | find type condition => exact derives_keepFound hself fun _ => Document.find_sublist
  | findBy type test =>
    refine derives_ask (fun w r _ => ?_) w c
    split
    · exact hreact w _
    · exact .refl w
  | filter test => exact derives_ask (fun w r n => hreact w (test w.scene r n)) w c
  | element n =>
    cases n with
    | number x =>
      simp only [apply]
      exact derives_keepFound hself fun _ => Document.elementOf_sublist
    | _ => cases hnumber
  | closest position => exact derives_keepFound hself fun _ => Document.closestTo_sublist
  | _ => cases hop

/-! ### Every collection of a run -/

/-- A workbench whose collections are subsequences of the tokens of their documents. -/
def Within (w : Workbench M) : Prop :=
  ∀ (n : Nat) (c : Collection), w.registers[n]? = some c →
    c.indices.Sublist (List.range (w.documentOf c).size)

theorem start_within (kit : Kit) (source : String) (memory : M) :
    (start kit source memory).1.Within := by
  intro n c hc
  simp only [start, openSource, Array.getElem?_push] at hc
  split at hc
  · cases hc
    exact List.Sublist.refl _
  · simp at hc

/-- The document of a collection keeps its tokens. -/
theorem Change.size_documentOf {keys : Bool} (h : Change keys v w)
    (hc : c.document < v.documents.size) : (w.documentOf c).size = (v.documentOf c).size := by
  have hdoc := Array.getElem?_eq_getElem hc
  obtain ⟨doc', hdoc', hsize, -⟩ := h.history hdoc
  rw [Covers.documentOf hdoc, Covers.documentOf hdoc', hsize]

theorem Change.within (h : Change false v w) (hbegan : v.Began kit source) (hv : v.Within) :
    w.Within := by
  have hold {n : Nat} {c : Collection} (hc : v.registers[n]? = some c) :
      c.indices.Sublist (List.range (w.documentOf c).size) := by
    rw [h.size_documentOf (hbegan.registers n c hc)]
    exact hv n c hc
  cases h with
  | remember | bind | write => exact fun n c hc => hold hc
  | @derive register parent indices hparent hsub =>
    intro n c hc
    simp only [keep, Array.getElem?_push] at hc
    split at hc
    · cases hc
      rcases hsub with hsub | hkeys
      · exact hsub.trans (hv register parent hparent)
      · cases hkeys
    · exact hold hc
  | enter text =>
    intro n c hc
    simp only [openSource, Array.getElem?_push] at hc
    split at hc
    · cases hc
      simp only [openSource, documentOf, Array.getElem?_push, if_true, Option.getD_some]
      exact List.Sublist.refl _
    · exact hold hc

theorem Leads.within (h : Leads false v w) (hbegan : v.Began kit source) (hv : v.Within) :
    w.Within := by
  induction h with
  | refl => exact hv
  | tail hleads hchange ih => exact hchange.within (Leads.began hleads hbegan) ih

theorem after_within (kit : Kit) (source : String) (memory : M)
    {steps : List (Nat × Operation M)} (hs : ∀ s ∈ steps, s.2.Numbered) :
    ((start kit source memory).1.after steps).Within := by
  have hallowed : Allowed false = fun op : Operation M => op.countsByNumber = true := by
    funext op
    simp [Allowed]
  exact (after_leads (fun s hm => hallowed ▸ hs s hm) _).within (start_began kit source memory)
    (start_within kit source memory)

end Workbench

/-! ### Elements by their number -/

/-- The element at a position, which counts from the end when it is negative. -/
def signedElement (members : List Nat) (n : Int) : Option Nat :=
  if 0 ≤ n then members[n.toNat]?
  else if 0 ≤ members.length + n then members[(members.length + n).toNat]?
  else none

theorem signedElement_isSome (members : List Nat) (n : Int) :
    (signedElement members n).isSome = true ↔ -members.length ≤ n ∧ n < members.length := by
  unfold signedElement
  split
  · simp
    omega
  · split
    · simp
      omega
    · simp
      omega

/-- Scripts count in doubles, which is exact for collections of fewer than `2 ^ 53`
tokens. -/
theorem elementAt_bind {members : List Nat} (hsize : members.length < 2 ^ 53) {x : Number}
    {n : Int} (hx : x.toInt? = some n) :
    (elementAt members.length x).bind (members[·]?) = signedElement members n := by
  have hless : x.less .zero = decide (n < 0) := Number.less_of_toInt? hx rfl
  unfold elementAt signedElement
  rw [hless]
  by_cases hn : 0 ≤ n
  · rw [decide_eq_false (Int.not_lt.mpr hn), if_neg Bool.false_ne_true, if_pos hn,
      Number.toNat?_of_toInt? hx, if_pos hn]
    rfl
  · rw [decide_eq_true (Int.not_le.mp hn), if_pos rfl, if_neg hn,
      Number.toNat?_ofNat_add hsize hx (Int.not_le.mp hn)]
    split <;> rfl

/-- Whatever was done before, and whatever the functions did that were called back, a
collection has its tokens in the order of the text and only tokens that are there. It
tells their number, and it never changes. Wherever a choice is made, also by a function
that was called back, what is made of a collection is a subsequence of it. The element at
a number is the one at that position, or none. -/
theorem collection_of_run (kit : Kit) (source : String) (memory : M)
    {steps : List (Nat × Operation M)} (hs : ∀ s ∈ steps, s.2.Numbered) {register : Nat}
    {c : Collection}
    (hr : ((Workbench.start kit source memory).1.after steps).registers[register]? = some c) :
    let w := (Workbench.start kit source memory).1.after steps
    c.indices.Pairwise (· < ·) ∧ (∀ i ∈ c.indices, i < (w.documentOf c).size) ∧
    (c.document = 0 → (w.documentOf c).size = (tokenize kit.dialect source).length) ∧
    (w.step register .size).2 = .counted c.indices.length ∧
    (∀ (v : Workbench M) (n : Nat) parent, v.registers[n]? = some parent →
      ∀ op : Operation M, op.chooses = true → op.countsByNumber = true →
        v.Derives parent (v.step n op)) ∧
    (∀ later, (w.after later).registers[register]? = some c) ∧
    ∀ (x : Number) (n : Int), x.toInt? = some n → c.indices.length < 2 ^ 53 →
      w.step register (.element (.number x)) = w.keep c (signedElement c.indices n).toList ∧
      ((signedElement c.indices n).isSome = true ↔
        -c.indices.length ≤ n ∧ n < c.indices.length) := by
  intro w
  have hsub : c.indices.Sublist (List.range (w.documentOf c).size) :=
    Workbench.after_within kit source memory hs register c hr
  have hstep (op : Operation M) : w.step register op = w.apply c op := by
    rw [Workbench.step, show w.registers[register]? = some c from hr]
  refine ⟨List.pairwise_lt_range.sublist hsub, fun i hi => List.mem_range.mp (hsub.subset hi), ?_,
    ?_, ?_, fun later => (Workbench.after_leads_keys later w).registers hr, ?_⟩
  · intro hzero
    obtain ⟨d, s, hfirst, hof, -⟩ :=
      (Workbench.after_began kit source memory steps).documentOf hr
    obtain ⟨rfl, rfl⟩ := hfirst hzero
    exact hof.size
  · rw [hstep]
    rfl
  · intro v n parent hparent op hop hnumber
    rw [Workbench.step, hparent]
    exact Workbench.apply_derives hop hnumber v parent
  · intro x n hx hsize
    refine ⟨?_, signedElement_isSome c.indices n⟩
    rw [hstep, ← elementAt_bind hsize hx]
    rfl

/-- Pick the names by a function that calls every node a comment as soon as it is asked
about it, and counts the calls; then pick the names among the names. -/
def pickAndRename : List (Nat × Operation Nat) :=
  [(0, .filter fun s r _ =>
     .write (s.memory + 1) r (.assigned "type" (.text "Comment")) fun s' =>
       .answer s'.memory
         (.ok (.fixed (.bool (((s.node r).get "type").same (.text "Identifier")))))),
   (1, .find (.text "Identifier") .undefined)]

theorem pickAndRename_registers :
    ((Workbench.start (.ofDialect .ts) "x y" 0).1.after pickAndRename).registers =
      #[⟨0, [0, 1, 2]⟩, ⟨0, [0, 2]⟩, ⟨0, []⟩] := by
  simp only [Workbench.start, Workbench.openSource, Document.ofSource, Kit.ofDialect,
    tokenize_two_names]
  rfl

/-- The names stay what they were picked as, though no node says so any more. -/
theorem collection_of_run_renamed :
    (∀ s ∈ pickAndRename, s.2.Numbered) ∧
    let w := (Workbench.start (.ofDialect .ts) "x y" 0).1.after pickAndRename
    w.registers[1]? = some ⟨0, [0, 2]⟩ ∧ (w.step 1 .size).2 = .counted 2 ∧
    w.step 1 (.element (.number (.finite (-1) 0))) = w.keep ⟨0, [0, 2]⟩ [2] ∧
    w.step 1 (.element (.number (.finite (-3) 0))) = w.keep ⟨0, [0, 2]⟩ [] := by
  have hs : ∀ s ∈ pickAndRename, s.2.Numbered := by
    simp [pickAndRename, Operation.Numbered, Operation.All, Reaction.All,
      Operation.countsByNumber]
  have hr : ((Workbench.start (.ofDialect .ts) "x y" 0).1.after pickAndRename).registers[1]? =
      some ⟨0, [0, 2]⟩ := by
    rw [pickAndRename_registers]
    rfl
  obtain ⟨-, -, -, hsize, -, -, helement⟩ := collection_of_run (.ofDialect .ts) "x y" 0 hs hr
  have hlast : signedElement [0, 2] (-1) = some 2 := by decide
  have hnone : signedElement [0, 2] (-3) = none := by decide
  refine ⟨hs, hr, hsize, ?_, ?_⟩
  · rw [(helement (.finite (-1) 0) (-1) rfl (by decide)).1, hlast]
    rfl
  · rw [(helement (.finite (-3) 0) (-3) rfl (by decide)).1, hnone]
    rfl

end Retouch.Toolkit
