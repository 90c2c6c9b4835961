import Mathlib.Algebra.GroupWithZero.Nat
import Mathlib.Algebra.Order.BigOperators.Group.List
import Mathlib.Data.List.Induction
import Mathlib.Data.List.Sort
import Mathlib.Data.String.Basic
import Retouch.Proofs.SampleEngine

/-! The statistics of an execution. Counts are kept under their names in order, and each
is the sum of the quantities that were told under its name in that execution, whatever
else was told between them and in whatever order. The counts have 64 bits, and a larger
quantity counts as the largest one that fits. A sum that does not fit stops the program, or
loses what is too much. -/

namespace Retouch.Script
open Files Syntax

/-! ### Adding to a count -/

namespace Stats

/-- The names of the counts are in order, and none occurs twice. -/
def Ordered (stats : Stats) : Prop := (stats.map Prod.fst).Pairwise (· < ·)

theorem ordered_nil : Ordered [] := List.Pairwise.nil

theorem lookup_entry (k k' : String) (v : UInt64) (rest : Stats) :
    List.lookup k ((k', v) :: rest) = if k = k' then some v else rest.lookup k := by
  by_cases hk : k = k'
  · rw [if_pos hk, hk, List.lookup_cons_self]
  · rw [if_neg hk, List.lookup_cons, beq_false_of_ne hk]

theorem lookup_eq_none {stats : Stats} {name : String} (h : ∀ k ∈ stats.map Prod.fst, name < k) :
    stats.lookup name = none := by
  refine List.lookup_eq_none_iff.mpr fun entry hentry => ?_
  exact bne_iff_ne.mpr (h entry.1 (List.mem_map_of_mem hentry)).ne

theorem mem_names_iff (stats : Stats) (k : String) :
    k ∈ stats.map Prod.fst ↔ (stats.lookup k).isSome = true := by
  induction stats with
  | nil => simp
  | cons entry rest ih =>
    obtain ⟨k', v⟩ := entry
    rw [lookup_entry]
    by_cases hk : k = k'
    · simp [hk]
    · simp [hk, ← ih]

/-- Counts in order are what is found under their names. -/
theorem eq_map_lookup {stats : Stats} (h : stats.Ordered) :
    stats = (stats.map Prod.fst).map fun k => (k, (stats.lookup k).getD 0) := by
  induction stats with
  | nil => rfl
  | cons entry rest ih =>
    obtain ⟨k, v⟩ := entry
    obtain ⟨hk, hrest⟩ := List.pairwise_cons.mp h
    have hothers : ∀ k' ∈ rest.map Prod.fst,
        (k', (List.lookup k' ((k, v) :: rest)).getD 0) = (k', (rest.lookup k').getD 0) := by
      intro k' hk'
      rw [lookup_entry, if_neg (hk k' hk').ne']
    rw [List.map_cons, List.map_cons, List.map_congr_left hothers, ← ih hrest, lookup_entry,
      if_pos rfl]
    rfl

theorem Ordered.ext {stats stats' : Stats} (h : stats.Ordered) (h' : stats'.Ordered)
    (hsame : ∀ k, stats.lookup k = stats'.lookup k) : stats = stats' := by
  have hnames : stats.map Prod.fst = stats'.map Prod.fst := by
    refine List.SortedLT.eq_of_mem_iff h.sortedLT h'.sortedLT fun k => ?_
    rw [mem_names_iff, mem_names_iff, hsame]
  rw [eq_map_lookup h, eq_map_lookup h', hnames]
  simp only [hsame]

/-- A name before all others has no count yet. -/
theorem lookup_before {stats : Stats} {k name : String} {v : UInt64}
    (h : Ordered ((k, v) :: stats)) (hlt : name < k) :
    List.lookup name ((k, v) :: stats) = none := by
  obtain ⟨hk, -⟩ := List.pairwise_cons.mp h
  refine lookup_eq_none fun k' hk' => ?_
  rcases List.mem_cons.mp hk' with rfl | hk'
  · exact hlt
  · exact hlt.trans (hk k' hk')

/-- Adding to a count gives nothing where the sum does not fit and that stops the
program. -/
theorem add_eq_none {panics : Bool} {stats : Stats} (h : stats.Ordered) (name : String)
    (n : UInt64) : stats.add panics name n = none ↔
      panics = true ∧ UInt64.size ≤ ((stats.lookup name).getD 0).toNat + n.toNat := by
  have hfirst : ¬ UInt64.size ≤ (0 : UInt64).toNat + n.toNat := by
    have hfits := n.toNat_lt
    rw [UInt64.toNat_zero, UInt64.size]
    omega
  induction stats with
  | nil => simpa [add] using fun _ => by simpa using hfirst
  | cons entry rest ih =>
    obtain ⟨k, v⟩ := entry
    rw [add]
    by_cases heq : name = k
    · rw [if_pos heq, lookup_entry, if_pos heq]
      simp [addCounts]
    by_cases hlt : name < k
    · rw [if_neg heq, if_pos hlt, lookup_before h hlt]
      simpa using fun _ => by simpa using hfirst
    · have hrest : Ordered rest := (List.pairwise_cons.mp h).2
      rw [if_neg heq, if_neg hlt, lookup_entry, if_neg heq, Option.map_eq_none_iff]
      exact ih hrest

/-- More is counted under one name. -/
structure Added (stats : Stats) (name : String) (n : UInt64) (stats' : Stats) : Prop where
  ordered : stats'.Ordered
  lookup : ∀ k, stats'.lookup k =
    if k = name then some ((stats.lookup name).getD 0 + n) else stats.lookup k

theorem Added.mem_names {stats stats' : Stats} {name k : String} {n : UInt64}
    (h : stats.Added name n stats') (hk : k ∈ stats'.map Prod.fst) :
    k = name ∨ k ∈ stats.map Prod.fst := by
  rw [mem_names_iff, h.lookup] at hk
  by_cases hname : k = name
  · exact .inl hname
  · rw [if_neg hname] at hk
    exact .inr ((mem_names_iff stats k).mpr hk)

theorem added_of_add {panics : Bool} {stats stats' : Stats} (h : stats.Ordered) {name : String}
    {n : UInt64} (ha : stats.add panics name n = some stats') : stats.Added name n stats' := by
  induction stats generalizing stats' with
  | nil =>
    cases ha
    exact ⟨List.pairwise_singleton _ _, fun k => by simp [lookup_entry]⟩
  | cons entry rest ih =>
    obtain ⟨k', v⟩ := entry
    obtain ⟨hk', hrest⟩ := List.pairwise_cons.mp h
    rw [add] at ha
    by_cases heq : name = k'
    · subst heq
      rw [if_pos rfl, addCounts] at ha
      obtain ⟨sum, hsum, rfl⟩ := Option.map_eq_some_iff.mp ha
      obtain ⟨-, hsum⟩ := Option.ite_none_left_eq_some.mp hsum
      cases hsum
      refine ⟨List.pairwise_cons.mpr ⟨hk', hrest⟩, fun k => ?_⟩
      rw [lookup_entry, lookup_entry, lookup_entry, if_pos rfl]
      by_cases hk : k = name <;> simp [hk]
    rw [if_neg heq] at ha
    by_cases hlt : name < k'
    · rw [if_pos hlt] at ha
      cases ha
      refine ⟨List.pairwise_cons.mpr ⟨fun k hk => ?_, h⟩, fun k => ?_⟩
      · rcases List.mem_cons.mp hk with rfl | hk
        · exact hlt
        · exact hlt.trans (hk' k hk)
      · rw [lookup_entry, lookup_before h hlt, Option.getD_none, UInt64.zero_add]
    · rw [if_neg hlt] at ha
      obtain ⟨rest', hrest', rfl⟩ := Option.map_eq_some_iff.mp ha
      have hadded := ih hrest hrest'
      refine ⟨List.pairwise_cons.mpr ⟨fun k hk => ?_, hadded.ordered⟩, fun k => ?_⟩
      · rcases hadded.mem_names hk with rfl | hk
        · exact lt_of_le_of_ne (not_lt.mp hlt) (Ne.symm heq)
        · exact hk' k hk
      · rw [lookup_entry, lookup_entry, lookup_entry, hadded.lookup, if_neg heq]
        by_cases hk : k = name
        · simp [hk, heq]
        · simp [hk]

end Stats

/-! ### Counting events -/

/-- The quantity that an event tells under a name. -/
def quantityUnder? (name : String) : Event → Option Quantity
  | .count (.text k) quantity => if k = name then some quantity else none
  | _ => none

/-- The quantities told under a name, in order. -/
def quantitiesOf (name : String) (told : List Event) : List Quantity :=
  told.filterMap (quantityUnder? name)

/-- What they count, in order. -/
def amountsOf (name : String) (told : List Event) : List Nat :=
  (quantitiesOf name told).filterMap fun quantity => quantity.amount?.map UInt64.toNat

/-- The statistics of what was told: the sums of the amounts, as far as 64 bits go. -/
structure Summed (told : List Event) (stats : Stats) : Prop where
  ordered : stats.Ordered
  lookup : ∀ name, stats.lookup name =
    if amountsOf name told = [] then none else some (UInt64.ofNat (amountsOf name told).sum)

theorem amountsOf_append (name : String) (told more : List Event) :
    amountsOf name (told ++ more) = amountsOf name told ++ amountsOf name more := by
  simp [amountsOf, quantitiesOf]

theorem Summed.getD_lookup {told : List Event} {stats : Stats} (h : Summed told stats)
    (name : String) :
    (stats.lookup name).getD 0 = UInt64.ofNat (amountsOf name told).sum := by
  rw [h.lookup]
  split_ifs with hnil
  · rw [hnil]
    rfl
  · rfl

/-- An event leaves the statistics alone, or adds to the count of one name. -/
theorem count_cases (e : Event) :
    ((∀ name, amountsOf name [e] = []) ∧ ∀ panics (stats : Stats),
      stats.count panics e = some stats) ∨
    ∃ k n, (∀ name, amountsOf name [e] = if k = name then [UInt64.toNat n] else []) ∧
      ∀ panics (stats : Stats), stats.count panics e = stats.add panics k n := by
  cases e with
  | line l => exact .inl ⟨fun _ => rfl, fun _ _ => rfl⟩
  | count w quantity =>
    cases w with
    | loose units => exact .inl ⟨fun _ => rfl, fun _ _ => rfl⟩
    | text k =>
      cases hn : quantity.amount? with
      | none =>
        refine .inl ⟨fun name => ?_, fun _ _ => by simp [Stats.count, hn]⟩
        by_cases hk : k = name <;> simp [amountsOf, quantitiesOf, quantityUnder?, hk, hn]
      | some n =>
        refine .inr ⟨k, n, fun name => ?_, fun _ _ => by simp [Stats.count, hn]⟩
        by_cases hk : k = name <;> simp [amountsOf, quantitiesOf, quantityUnder?, hk, hn]

/-- Some sum does not fit. -/
def Overflows (told : List Event) : Prop := ∃ name, UInt64.size ≤ (amountsOf name told).sum

theorem Overflows.append {told : List Event} (h : Overflows told) (more : List Event) :
    Overflows (told ++ more) := by
  obtain ⟨name, hname⟩ := h
  refine ⟨name, ?_⟩
  rw [amountsOf_append, List.sum_append]
  omega

/-- One event more: either a sum does not fit any longer, and that stops the program, or it
is counted. -/
theorem Summed.count {panics : Bool} {told : List Event} {stats : Stats} (h : Summed told stats)
    (hfits : panics = true → ¬ Overflows told) (e : Event) :
    panics = true ∧ Overflows (told ++ [e]) ∧ stats.count panics e = none ∨
    (panics = true → ¬ Overflows (told ++ [e])) ∧
      ∃ stats', stats.count panics e = some stats' ∧ Summed (told ++ [e]) stats' := by
  rcases count_cases e with ⟨hamounts, hcount⟩ | ⟨k, n, hamounts, hcount⟩
  · have hsame (name : String) : amountsOf name (told ++ [e]) = amountsOf name told := by
      rw [amountsOf_append, hamounts, List.append_nil]
    refine .inr ⟨fun hpanics ⟨name, hname⟩ => ?_, stats, hcount panics stats, h.ordered,
      fun name => ?_⟩
    · exact hfits hpanics ⟨name, hsame name ▸ hname⟩
    · rw [hsame, h.lookup]
  · have hself : amountsOf k (told ++ [e]) = amountsOf k told ++ [n.toNat] := by
      rw [amountsOf_append, hamounts, if_pos rfl]
    have hother {name : String} (hk : ¬ k = name) :
        amountsOf name (told ++ [e]) = amountsOf name told := by
      rw [amountsOf_append, hamounts, if_neg hk, List.append_nil]
    -- as long as all sums fit, the count of a name is its sum
    have hbefore (hpanics : panics = true) :
        ((stats.lookup k).getD 0).toNat = (amountsOf k told).sum := by
      rw [h.getD_lookup]
      exact UInt64.toNat_ofNat_of_lt (not_le.mp fun hle => hfits hpanics ⟨k, hle⟩)
    rw [hcount]
    cases hadd : stats.add panics k n with
    | none =>
      obtain ⟨hpanics, hsize⟩ := (Stats.add_eq_none h.ordered k n).mp hadd
      refine .inl ⟨hpanics, ⟨k, ?_⟩, rfl⟩
      rwa [hself, List.sum_append, List.sum_singleton, ← hbefore hpanics]
    | some stats' =>
      have hadded := Stats.added_of_add h.ordered hadd
      refine .inr ⟨fun hpanics ⟨name, hname⟩ => ?_, stats', rfl, hadded.ordered, fun name => ?_⟩
      · by_cases hk : k = name
        · subst hk
          rw [hself, List.sum_append, List.sum_singleton, ← hbefore hpanics] at hname
          have hnone := (Stats.add_eq_none h.ordered k n).mpr ⟨hpanics, hname⟩
          rw [hnone] at hadd
          cases hadd
        · exact hfits hpanics ⟨name, hother hk ▸ hname⟩
      · rw [hadded.lookup]
        by_cases hk : name = k
        · subst hk
          rw [if_pos rfl, h.getD_lookup, hself, if_neg (by simp), List.sum_append,
            List.sum_singleton, UInt64.ofNat_add, UInt64.ofNat_toNat]
        · rw [if_neg hk, h.lookup, hother (Ne.symm hk)]

/-- Every event in turn. -/
theorem foldlM_count (panics : Bool) (told : List Event) :
    panics = true ∧ Overflows told ∧ told.foldlM (Stats.count panics) [] = none ∨
    (panics = true → ¬ Overflows told) ∧
      ∃ stats, told.foldlM (Stats.count panics) [] = some stats ∧ Summed told stats := by
  induction told using List.reverseRecOn with
  | nil =>
    refine .inr ⟨fun _ ⟨name, hname⟩ => ?_, [], rfl, Stats.ordered_nil, fun _ => rfl⟩
    have hzero : (amountsOf name []).sum = 0 := rfl
    rw [hzero] at hname
    exact absurd hname (by decide)
  | append_singleton told e ih =>
    have hlast : (told ++ [e]).foldlM (Stats.count panics) [] =
        (told.foldlM (Stats.count panics) []).bind fun stats => stats.count panics e := by
      rw [List.foldlM_append]
      cases told.foldlM (Stats.count panics) [] <;> simp
    rcases ih with ⟨hpanics, hover, hnone⟩ | ⟨hfits, stats, hstats, hsummed⟩
    · exact .inl ⟨hpanics, hover.append [e], by rw [hlast, hnone]; rfl⟩
    · rw [hlast, hstats, Option.bind_some]
      exact hsummed.count hfits e

/-- The statistics do not depend on the order in which things are told. -/
theorem foldlM_count_perm (panics : Bool) {told told' : List Event} (h : told'.Perm told) :
    told'.foldlM (Stats.count panics) [] = told.foldlM (Stats.count panics) [] := by
  have hamounts (name : String) : (amountsOf name told').Perm (amountsOf name told) :=
    (h.filterMap _).filterMap _
  have hover : Overflows told' ↔ Overflows told := by
    simp only [Overflows, (hamounts _).sum_eq]
  rcases foldlM_count panics told' with ⟨hpanics, hbad, hnone⟩ | ⟨hfits, stats', hstats', hsum'⟩ <;>
    rcases foldlM_count panics told with ⟨hpanics, hbad, hnone'⟩ | ⟨hfits, stats, hstats, hsum⟩
  · rw [hnone, hnone']
  · exact absurd (hover.mp hbad) (hfits hpanics)
  · exact absurd (hover.mpr hbad) (hfits hpanics)
  · rw [hstats, hstats', hsum'.ordered.ext hsum.ordered fun name => ?_]
    have hnil : amountsOf name told' = [] ↔ amountsOf name told = [] := by
      rw [← List.perm_nil, ← List.perm_nil]
      exact ⟨fun hn => (hamounts name).symm.trans hn, fun hn => (hamounts name).trans hn⟩
    rw [hsum'.lookup, hsum.lookup, (hamounts name).sum_eq]
    simp only [hnil]

/-! ### Whole quantities -/

/-- How much a quantity stands for, if it is missing or a whole number: one if it is
missing or zero. -/
def wholeOf? : Quantity → Option Nat
  | .falsy => some 1
  | .number n => n.toNat?
  | .other => none

/-- The count of a single whole quantity. -/
def capped (quantity : Nat) : Nat := min quantity (UInt64.size - 1)

theorem toNatUpTo_reread {n : Number} {k : Nat} (h : n.toNat? = some k) (limit : Nat) :
    n.reread.toNatUpTo limit = min k limit := by
  cases n with
  | nan => cases h
  | infinite negative => cases h
  | finite m e =>
    simp only [Number.toNat?, Bool.and_eq_true, decide_eq_true_eq, Option.ite_none_right_eq_some]
      at h
    obtain ⟨⟨-, he⟩, hk⟩ := h
    rw [← Option.some.inj hk]
    simp [Number.reread, Number.toNatUpTo, he]

theorem amount?_of_whole {q : Quantity} {quantity : Nat} (h : wholeOf? q = some quantity) :
    q.amount?.map UInt64.toNat = some (capped quantity) := by
  cases q with
  | falsy =>
    cases h
    decide
  | number n =>
    cases n with
    | finite m e =>
      have hcapped : capped quantity < UInt64.size := by
        have hle : capped quantity ≤ UInt64.size - 1 := Nat.min_le_right _ _
        have hpos : 0 < UInt64.size := by decide
        omega
      have hwhole : (Number.finite m e).toNat? = some quantity := h
      rw [Quantity.amount?, toNatUpTo_reread hwhole, Option.map_some]
      exact congrArg some (UInt64.toNat_ofNat_of_lt hcapped)
    | nan => cases h
    | infinite negative => cases h
  | other => cases h

theorem amountsOf_whole (name : String) {told : List Event} {quantities : List Nat}
    (h : (quantitiesOf name told).map wholeOf? = quantities.map some) :
    amountsOf name told = quantities.map capped := by
  unfold amountsOf
  generalize quantitiesOf name told = items at h
  induction items generalizing quantities with
  | nil =>
    rw [List.map_eq_nil_iff.mp h.symm]
    rfl
  | cons q items ih =>
    cases quantities with
    | nil => cases h
    | cons quantity quantities =>
      obtain ⟨hq, hitems⟩ := List.cons.inj h
      rw [List.filterMap_cons, amount?_of_whole hq, List.map_cons, ← ih hitems]

theorem map_capped {quantities : List Nat} (h : quantities.sum < UInt64.size) :
    quantities.map capped = quantities := by
  refine (List.map_congr_left fun quantity hmem => ?_).trans (List.map_id quantities)
  have hle := List.le_sum_of_mem hmem
  exact Nat.min_eq_left (by omega)

/-! ### What a run tells -/

variable {E : Engine} {h : Host}

/-- What a script tells in one turn. -/
def Machine.tells (m : Machine E) : List Event :=
  match (E.advance m.realm.heap m.task).2 with
  | .tell e _ => [e]
  | _ => []

/-- Some turns lead from one status to another, and this is what is told in them. -/
inductive Tells (h : Host) : Status E → List Event → Status E → Prop
  | refl (s : Status E) : Tells h s [] s
  | turn {m : Machine E} {s t : Status E} {told : List Event} : step h m = some s →
      Tells h s told t → Tells h (.running m) (m.tells ++ told) t

theorem exists_tells {s t : Status E} (hst : Reaches h s t) : ∃ told, Tells h s told t := by
  induction hst with
  | refl s => exact ⟨[], .refl s⟩
  | turn hstep _ ih =>
    obtain ⟨told, htold⟩ := ih
    exact ⟨_, .turn hstep htold⟩

theorem events_reading (r : Realm E) (path : String) : (r.reading path).events = r.events := by
  unfold Realm.reading Realm.noteRead
  split <;> rfl

theorem events_enter {fs : List (Frame E)} {r : Realm E} {path : String}
    {next : Option (Except E.Value E.Value → E.Task)} {s : Status E}
    (hs : Enters h fs r path next s) : s.realm.events = r.events := by
  cases hs with
  | found =>
    rw [answerWith, realm_resume]
    rfl
  | unread =>
    rw [refuse, realm_resume]
    rfl
  | broken =>
    rw [refuse, realm_resume]
    exact events_reading r path
  | began => exact events_reading r path

theorem events_finish (fs : List (Frame E)) (r : Realm E) (answer : Except E.Value E.Value) :
    (finish fs r answer).realm.events = r.events := by
  unfold finish
  cases fs with
  | nil => rfl
  | cons f fs =>
    cases answer with
    | ok v =>
      dsimp only
      rw [answerWith, realm_resume]
      rfl
    | error e =>
      dsimp only
      rw [realm_resume]
      rfl

/-- Only what is told in a turn becomes an event. -/
theorem events_step {m : Machine E} {s : Status E} (hs : step h m = some s) :
    s.realm.events = m.realm.events ++ m.tells := by
  have hserves := step_eq_some.mp hs
  have hput : (m.realm.put (E.advance m.realm.heap m.task).1).events = m.realm.events := rfl
  rw [← hput, Machine.tells]
  generalize m.realm.put (E.advance m.realm.heap m.task).1 = r at hserves
  generalize (E.advance m.realm.heap m.task).2 = turn at hserves
  cases hserves with
  | returned v | threw v => rw [events_finish, List.append_nil]
  | on next => exact (List.append_nil _).symm
  | tell e next => rfl
  | toolkit dir next => exact (List.append_nil _).symm
  | refused => rw [refuse, realm_resume, List.append_nil]; rfl
  | entered _ _ henters => rw [events_enter henters, List.append_nil]

theorem Tells.reaches {s t : Status E} {told : List Event} (ht : Tells h s told t) :
    Reaches h s t := by
  induction ht with
  | refl s => exact .refl s
  | turn hstep _ ih => exact .turn hstep ih

theorem Tells.events {s t : Status E} {told : List Event} (ht : Tells h s told t) :
    t.realm.events = s.realm.events ++ told := by
  induction ht with
  | refl s => exact (List.append_nil _).symm
  | turn hstep _ ih => rw [ih, events_step hstep, List.append_assoc]; rfl

/-! ### Executions -/

/-- An execution accounts for what was told in it. -/
structure Tallied (told : List Event) (ran : Execution) : Prop where
  /-- The lines, in order. -/
  logs : ran.logs = told.filterMap lineOf?
  /-- The counts, in the order of their names, none of which occurs twice. -/
  summed : Summed told ran.stats
  /-- The count of a name is the exact sum of its quantities, if that fits into a count; a
  name without quantities has none. -/
  sums : ∀ (name : String) (quantities : List Nat),
    (quantitiesOf name told).map wholeOf? = quantities.map some →
    quantities.sum < UInt64.size →
    (ran.stats.lookup name).map UInt64.toNat =
      if quantities = [] then none else some quantities.sum
  /-- A single quantity that does not fit counts as much as fits. -/
  cutOff : ∀ (name : String) (quantities : List Nat),
    (quantitiesOf name told).map wholeOf? = quantities.map some →
    (quantities.map capped).sum < UInt64.size →
    (ran.stats.lookup name).map UInt64.toNat =
      if quantities = [] then none else some (quantities.map capped).sum

theorem Summed.toNat_lookup {told : List Event} {stats : Stats} (hs : Summed told stats)
    (name : String) {quantities : List Nat}
    (hwhole : (quantitiesOf name told).map wholeOf? = quantities.map some)
    (hsum : (quantities.map capped).sum < UInt64.size) :
    (stats.lookup name).map UInt64.toNat =
      if quantities = [] then none else some (quantities.map capped).sum := by
  rw [hs.lookup, amountsOf_whole name hwhole]
  simp only [List.map_eq_nil_iff]
  split_ifs
  · rfl
  · exact congrArg some (UInt64.toNat_ofNat_of_lt hsum)

theorem tallied_of_summed {told : List Event} {ran : Execution}
    (hlogs : ran.logs = told.filterMap lineOf?) (hs : Summed told ran.stats) :
    Tallied told ran where
  logs := hlogs
  summed := hs
  sums name quantities hwhole hsum := by
    have hcapped := map_capped hsum
    have hlookup := hs.toNat_lookup name hwhole (hcapped.symm ▸ hsum)
    rwa [hcapped] at hlookup
  cutOff name quantities := hs.toNat_lookup name

namespace Transform

/-- A call before its first turn. Nothing has been told in it. -/
def outset (t : Transform E) (inv : Invocation) : Status E :=
  .running ⟨t.silenced.realm, [], E.call t.function t.dialect.name inv⟩

/-- A call that comes back tells what its events are. -/
theorem tells_of_run {t : Transform E} {disk : Disk} {inv : Invocation} {r : Realm E}
    {answer : Except E.Value E.Value}
    (hrun : run (t.host disk) (t.outset inv) = some (r, answer)) :
    Tells (t.host disk) (t.outset inv) r.events (.ended r answer) := by
  obtain ⟨told, htold⟩ := exists_tells (reaches_of_run hrun)
  have hevents : r.events = told := htold.events
  rwa [hevents]

theorem execute_eq (t : Transform E) (disk : Disk) (inv : Invocation) :
    t.execute disk inv =
      match run (t.host disk) (t.outset inv) with
      | none => (t, .never)
      | some (r, answer) => t.conclude r answer := rfl

/-- Nothing but what is told counts. -/
theorem conclude_cases (t : Transform E) (r : Realm E) (answer : Except E.Value E.Value) :
    (t.conclude r answer).2 = .panic ∧
      (stops r answer = true ∨ E.overflowPanics = true ∧ Overflows r.events) ∨
    (stops r answer = false ∧ (E.overflowPanics = true → ¬ Overflows r.events)) ∧
      ∃ stats, r.events.foldlM (Stats.count E.overflowPanics) [] = some stats ∧
        Summed r.events stats ∧ (t.conclude r answer).2 =
          .back ⟨resultOf r.heap answer, r.events.filterMap lineOf?, stats⟩ := by
  unfold conclude
  cases hstops : stops r answer with
  | true => exact .inl ⟨rfl, .inl rfl⟩
  | false =>
    rw [if_neg Bool.false_ne_true]
    rcases foldlM_count E.overflowPanics r.events with
      ⟨hpanics, hover, hnone⟩ | ⟨hfits, stats, hstats, hsummed⟩
    · rw [hnone]
      exact .inl ⟨rfl, .inr ⟨hpanics, hover⟩⟩
    · rw [hstats]
      exact .inr ⟨⟨rfl, hfits⟩, stats, rfl, hsummed, rfl⟩

theorem stats_of_execute {t : Transform E} {disk : Disk} {inv : Invocation} {told : List Event}
    {r : Realm E} {answer : Except E.Value E.Value} {ran : Execution}
    (htold : Tells (t.host disk) (t.outset inv) told (.ended r answer))
    (hran : (t.execute disk inv).2 = .back ran) :
    told.foldlM (Stats.count E.overflowPanics) [] = some ran.stats := by
  have hrun := htold.reaches.run_eq.trans (run_ended r answer)
  have hevents : r.events = told := htold.events
  rw [execute_eq, hrun] at hran
  dsimp only at hran
  rcases t.conclude_cases r answer with ⟨hpanic, -⟩ | ⟨-, stats, hstats, -, hback⟩
  · cases hpanic.symm.trans hran
  · cases hback.symm.trans hran
    rw [← hevents, hstats]

/-- The statistics of an execution are the sums of the quantities told in it, and its logs
the lines told in it, whatever was told while its script was loaded or in earlier calls.
There is no execution if the call never comes back, or if the program stops: because the
host broke down in the call, or because a sum does not fit and that stops it. The
statistics do not depend on the order in which things are told. -/
theorem execute_tallied (t : Transform E) (disk : Disk) (inv : Invocation) :
    (run (t.host disk) (t.outset inv) = none → (t.execute disk inv).2 = .never) ∧
    (∀ r answer, run (t.host disk) (t.outset inv) = some (r, answer) →
      Tells (t.host disk) (t.outset inv) r.events (.ended r answer) ∧
      ((t.execute disk inv).2 = .panic ↔
        stops r answer = true ∨ E.overflowPanics = true ∧ Overflows r.events) ∧
      ((t.execute disk inv).2 ≠ .panic →
        ∃ ran, (t.execute disk inv).2 = .back ran ∧ Tallied r.events ran)) ∧
    ∀ (t' : Transform E) disk' inv' told told' r r' answer answer' ran ran',
      Tells (t.host disk) (t.outset inv) told (.ended r answer) →
      (t.execute disk inv).2 = .back ran →
      Tells (t'.host disk') (t'.outset inv') told' (.ended r' answer') →
      (t'.execute disk' inv').2 = .back ran' →
      told'.Perm told → ran'.stats = ran.stats := by
  refine ⟨fun hnever => ?_, fun r answer hrun => ?_, ?_⟩
  · rw [execute_eq, hnever]
  · refine ⟨tells_of_run hrun, ?_⟩
    rw [execute_eq, hrun]
    rcases t.conclude_cases r answer with
      ⟨hpanic, hwhy⟩ | ⟨⟨hgoes, hfits⟩, stats, -, hsummed, hback⟩
    · exact ⟨⟨fun _ => hwhy, fun _ => hpanic⟩, fun hnot => absurd hpanic hnot⟩
    · refine ⟨⟨fun hpanic => ?_, fun hwhy => ?_⟩,
        fun _ => ⟨_, hback, tallied_of_summed rfl hsummed⟩⟩
      · cases hback.symm.trans hpanic
      · rcases hwhy with hstops | ⟨hpanics, hover⟩
        · cases hgoes.symm.trans hstops
        · exact absurd hover (hfits hpanics)
  · intro t' disk' inv' told told' r r' answer answer' ran ran' htold hran htold' hran' hperm
    have hstats := stats_of_execute htold hran
    have hstats' := stats_of_execute htold' hran'
    rw [foldlM_count_perm _ hperm, hstats] at hstats'
    exact (Option.some.inj hstats').symm

/-! ### Two calls -/

open Sample OsString

/-- A transform that tells some things, and told something while it was loaded. -/
def telling (events : List Event) : Transform engine where
  path := ofText "/main.js"
  dialect := .js
  extensions := []
  function := .function "/" (events.map .tell)
  realm := { Realm.fresh () with events := [.line ⟨"log", "loading"⟩] }

/-- A quantity that is a whole number. -/
def wholly (n : Nat) : Quantity := .number (.ofNat n)

/-- Counts with lines between them, and one quantity missing. -/
def mixedEvents : List Event :=
  [.count (.text "k") (wholly 2), .line ⟨"warn", "x"⟩, .count (.text "a") .falsy,
    .line ⟨"report", "y"⟩, .count (.text "k") (wholly 1)]

/-- Half of what fits, twice. -/
def halves : List Event :=
  [.count (.text "k") (wholly (2 ^ 63)), .count (.text "k") (wholly (2 ^ 63))]

theorem run_tells (h : Host) (r : Realm engine) (events : List Event) (dir source : String) :
    run h (.running ⟨r, [], .doing (events.map .tell) 0 dir source .undefined⟩) =
      some ({ r with events := r.events ++ events }, .ok .undefined) := by
  induction events generalizing r with
  | nil =>
    have hstep : step h ⟨r, [], .doing [] 0 dir source .undefined⟩ =
      some (.ended r (.ok .undefined)) := rfl
    rw [List.map_nil, run_running hstep, run_ended, List.append_nil]
  | cons e events ih =>
    have hstep : step h ⟨r, [], .doing (.tell e :: events.map .tell) 0 dir source .undefined⟩ =
      some (.running ⟨r.emit e, [], .doing (events.map .tell) 0 dir source .undefined⟩) := rfl
    rw [List.map_cons, run_running hstep, ih]
    simp [Realm.emit]

theorem run_telling (events : List Event) : ∃ r,
    run ((telling events).host .empty) ((telling events).outset ⟨"x", "a.js", none⟩) =
      some (r, .ok .undefined) ∧ r.events = events :=
  ⟨_, run_tells _ _ events _ _, rfl⟩

theorem mixedEvents_fit : ¬ Overflows mixedEvents := by
  rintro ⟨name, hname⟩
  by_cases hk : "k" = name
  · subst hk
    exact absurd hname (by decide +kernel)
  by_cases ha : "a" = name
  · subst ha
    exact absurd hname (by decide +kernel)
  · have hnone : quantitiesOf name mixedEvents = [] := by
      refine List.filterMap_eq_nil_iff.mpr fun e he => ?_
      simp only [mixedEvents, List.mem_cons, List.not_mem_nil, or_false] at he
      rcases he with rfl | rfl | rfl | rfl | rfl <;> simp [quantityUnder?, hk, ha]
    rw [amountsOf, hnone] at hname
    exact absurd hname (by decide)

theorem execute_tallied_mixed : (∃ ran,
      ((telling mixedEvents).execute .empty ⟨"x", "a.js", none⟩).2 = .back ran ∧
      ran.logs = [⟨"warn", "x"⟩, ⟨"report", "y"⟩] ∧
      (ran.stats.lookup "k").map UInt64.toNat = some 3 ∧
      (ran.stats.lookup "a").map UInt64.toNat = some 1 ∧
      (ran.stats.lookup "log").map UInt64.toNat = none) ∧
    ((telling halves).execute .empty ⟨"x", "a.js", none⟩).2 = .panic := by
  obtain ⟨r, hrun, hevents⟩ := run_telling mixedEvents
  obtain ⟨-, hback, -⟩ := execute_tallied (telling mixedEvents) .empty ⟨"x", "a.js", none⟩
  obtain ⟨-, hpanic, htallied⟩ := hback r _ hrun
  rw [hevents] at hpanic htallied
  obtain ⟨ran, hran, hsums⟩ := htallied fun hpanics => by
    rcases hpanic.mp hpanics with hstops | ⟨-, hover⟩
    · cases hstops
    · exact mixedEvents_fit hover
  obtain ⟨r', hrun', hevents'⟩ := run_telling halves
  obtain ⟨-, hback', -⟩ := execute_tallied (telling halves) .empty ⟨"x", "a.js", none⟩
  obtain ⟨-, hpanic', -⟩ := hback' r' _ hrun'
  rw [hevents'] at hpanic'
  exact ⟨⟨ran, hran, hsums.logs, hsums.sums "k" [2, 1] (by decide +kernel) (by decide),
    hsums.sums "a" [1] (by decide +kernel) (by decide),
    hsums.sums "log" [] (by decide +kernel) (by decide)⟩,
    hpanic'.mpr (.inr ⟨rfl, "k", by decide +kernel⟩)⟩

/-- A quantity of a sextillion is a whole number, and is not what is counted. -/
theorem sextillion_cut_off :
    wholeOf? (wholly (10 ^ 21)) = some (10 ^ 21) ∧
    (∃ ran, ((telling [.count (.text "k") (wholly (10 ^ 21))]).execute .empty
      ⟨"x", "a.js", none⟩).2 = .back ran ∧ ran.stats = [("k", 18446744073709551615)]) ∧
    (18446744073709551615 : UInt64).toNat ≠ 10 ^ 21 := by
  obtain ⟨r, hrun, hevents⟩ := run_telling [.count (.text "k") (wholly (10 ^ 21))]
  have hstats : r.events.foldlM (Stats.count engine.overflowPanics) [] =
      some [("k", 18446744073709551615)] := by
    rw [hevents]
    decide +kernel
  refine ⟨by decide +kernel, ?_, by decide⟩
  rw [execute_eq, hrun]
  dsimp only
  rw [conclude, stops, if_neg Bool.false_ne_true, hstats]
  exact ⟨_, rfl, rfl⟩

end Transform

end Retouch.Script
