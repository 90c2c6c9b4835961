import Retouch.Proofs.BlankRuns
import Retouch.Proofs.UnboundedScans

/-! When the erasure of types ends. The only loop of the pass that can go on for
ever is the one over a class body. It stands still at a token on a line of its own
that cannot begin a member, when the token before it could end an expression; and
then nothing moves it. The pass has no end exactly when it comes to a class whose
scan comes to such a token before the closing brace. -/

namespace Retouch.Code
open Syntax Erase

variable {c : Code} {i k close : Nat} {e : Erasure}

/-! ### One turn of the scan of a class body -/

/-- A token of a class body, and whether a member is known to begin there. -/
structure BodyPlace where
  index : Nat
  start : Bool
  deriving DecidableEq, Repr

/-- Whether the scan of a class body takes a member to begin here. -/
def takesMember (c : Code) (s : BodyPlace) : Bool :=
  s.start || (c.freshLine s.index && c.endsExpression (s.index - 1))

/-- Where the scan goes on inside a member. -/
def placeWithin (c : Code) (i : Nat) : BodyPlace :=
  match c.text i with
  | "(" | "[" => ⟨c.afterGroup i, false⟩
  | "\x7b" => ⟨c.afterGroup i, true⟩
  | ";" => ⟨i + 1, true⟩
  | _ => ⟨i + 1, false⟩

def bodyTurn (c : Code) (s : BodyPlace) : BodyPlace :=
  if c.takesMember s then ⟨(c.member s.index).2, false⟩ else c.placeWithin s.index

/-- What one turn erases. -/
def turnSpans (c : Code) (s : BodyPlace) : Erasure :=
  if c.takesMember s then (c.member s.index).1 else []

/-- Whether a member can begin with token `i`. -/
def beginsMember (c : Code) (i : Nat) : Bool :=
  c.isName i || c.kind? i = some .string || c.kind? i = some .number ||
    c.text i ∈ ["[", "#"] || c.punct i "*"

/-- Where the scan of a class body stands still. -/
structure StallsAt (c : Code) (i : Nat) : Prop where
  fresh : c.freshLine i = true
  ended : c.endsExpression (i - 1) = true
  outside : c.beginsMember i = false

theorem le_memberLead (c : Code) (i : Nat) : i ≤ (c.memberLead i).2 := by
  fun_induction memberLead c i with
  | case1 i hi h spans j hj ih => simp only [hj] at ih ⊢; omega
  | case2 i hi h h' ih => omega
  | case3 i hi h h' hs ih => omega
  | case4 => exact Nat.le_refl _
  | case5 => exact Nat.le_refl _

theorem le_memberTail (c : Code) (after : Nat) : after ≤ (c.memberTail after).2 := by
  have h₁ := lt_typeEnd_succ c after
  have h₂ := lt_typeEnd_succ c (after + 1)
  unfold memberTail
  dsimp only
  split <;> split <;> dsimp only <;> omega

theorem lt_memberLead_star (h : c.punct i "*" = true) : i < (c.memberLead i).2 := by
  have hn : c.isName i = false := by
    simp only [punct, Bool.and_eq_true, decide_eq_true_eq] at h
    simp [isName, h.1]
  rw [memberLead, dif_pos (lt_size_of_punct h)]
  simp only [hn, h, Bool.false_and, Bool.false_eq_true, if_false, if_true]
  exact le_memberLead c (i + 1)

theorem memberLead_eq (hn : c.isName i = false) (hs : c.punct i "*" = false) :
    c.memberLead i = ([], i) := by
  rw [memberLead]
  simp [hn, hs]

/-- Whether the name of a member can stand at `i`. -/
def beginsName (c : Code) (i : Nat) : Bool :=
  c.isName i || c.kind? i = some .string || c.kind? i = some .number || c.text i ∈ ["[", "#"]

theorem beginsMember_eq (c : Code) (i : Nat) :
    c.beginsMember i = (c.beginsName i || c.punct i "*") := rfl

theorem memberName_of_not (h : c.beginsName i = false) : c.memberName i = .error i := by
  simp only [beginsName, Bool.or_eq_false_iff, decide_eq_false_iff_not, List.mem_cons,
    List.not_mem_nil, or_false, not_or] at h
  simp [memberName, h]

/-- Past a name the scan of a member has moved on. -/
theorem lt_memberName (h : c.beginsName i = true) :
    ∃ next, i < next ∧ (c.memberName i = .error next ∨ c.memberName i = .ok next) := by
  unfold memberName
  split
  · split
    · rename_i close hp
      exact ⟨close + 1, by have := partner_bounds hp; omega, Or.inr rfl⟩
    · exact ⟨i + 1, Nat.lt_succ_self i, Or.inl rfl⟩
  · exact ⟨i + 2, by omega, Or.inr rfl⟩
  · rename_i hb hh
    have hk : (c.isName i || c.kind? i = some .string || c.kind? i = some .number) = true := by
      simpa [beginsName, show c.text i ≠ "[" from hb, show c.text i ≠ "#" from hh] using h
    rw [if_pos hk]
    exact ⟨i + 1, Nat.lt_succ_self i, Or.inr rfl⟩

theorem member_next (c : Code) (i : Nat) : (c.member i).2 =
    match c.memberName (c.memberLead i).2 with
    | .error next => next
    | .ok after => (c.memberTail after).2 := by
  rw [member]
  dsimp only
  cases c.memberName (c.memberLead i).2 <;> rfl

theorem member_of_not (h : c.beginsName (c.memberLead i).2 = false) :
    (c.member i).2 = (c.memberLead i).2 := by
  rw [member_next, memberName_of_not h]

theorem lt_member (h : c.beginsName (c.memberLead i).2 = true) :
    (c.memberLead i).2 < (c.member i).2 := by
  obtain ⟨next, hlt, hname | hname⟩ := lt_memberName h
  · rw [member_next, hname]
    exact hlt
  · rw [member_next, hname]
    exact Nat.lt_of_lt_of_le hlt (le_memberTail c next)

theorem le_member (c : Code) (i : Nat) : i ≤ (c.member i).2 := by
  have hlead := le_memberLead c i
  cases h : c.beginsName (c.memberLead i).2 with
  | true => have := lt_member h; omega
  | false => rw [member_of_not h]; exact hlead

/-- The scan of a member gets nowhere exactly where no member can begin. -/
theorem member_eq_iff (c : Code) (i : Nat) : (c.member i).2 = i ↔ c.beginsMember i = false := by
  rw [beginsMember_eq, Bool.or_eq_false_iff]
  constructor
  · intro heq
    have hlead : (c.memberLead i).2 = i := by
      refine Nat.le_antisymm ?_ (le_memberLead c i)
      cases h : c.beginsName (c.memberLead i).2 with
      | true => have := lt_member h; omega
      | false => rw [← member_of_not h, heq]
    refine ⟨Bool.eq_false_iff.mpr fun h => ?_, Bool.eq_false_iff.mpr fun h => ?_⟩
    · have := lt_member (hlead.symm ▸ h)
      omega
    · have := lt_memberLead_star h
      omega
  · rintro ⟨hname, hstar⟩
    have hn : c.isName i = false := by
      simp only [beginsName, Bool.or_eq_false_iff] at hname
      exact hname.1.1.1
    have hlead := memberLead_eq hn hstar
    rw [member_of_not (by rw [hlead]; exact hname), hlead]

theorem lt_placeWithin (c : Code) (i : Nat) : i < (c.placeWithin i).index := by
  have := lt_afterGroup c i
  unfold placeWithin
  split
  all_goals first | exact this | exact Nat.lt_succ_self i

theorem le_bodyTurn (c : Code) (s : BodyPlace) : s.index ≤ (c.bodyTurn s).index := by
  unfold bodyTurn
  split
  · exact le_member c s.index
  · exact Nat.le_of_lt (lt_placeWithin c s.index)

/-- A turn that does not move on takes a member to begin where none can. -/
theorem bodyTurn_eq_iff (c : Code) (s : BodyPlace) :
    (c.bodyTurn s).index = s.index ↔ c.takesMember s = true ∧ c.beginsMember s.index = false := by
  unfold bodyTurn
  cases ht : c.takesMember s with
  | true => simp [member_eq_iff]
  | false =>
    have := lt_placeWithin c s.index
    simp
    omega

theorem StallsAt.bodyTurn {s : BodyPlace} (h : c.StallsAt s.index) :
    c.bodyTurn s = ⟨s.index, false⟩ := by
  have ht : c.takesMember s = true := by simp [takesMember, h.fresh, h.ended]
  rw [Code.bodyTurn, if_pos ht, (member_eq_iff c s.index).mpr h.outside]

/-- Once it stands still, the scan never moves again. -/
theorem StallsAt.repeat {s : BodyPlace} (h : c.StallsAt s.index) (n : Nat) :
    (Nat.repeat c.bodyTurn n s).index = s.index := by
  induction n with
  | zero => rfl
  | succ n ih =>
    rw [Nat.repeat, StallsAt.bodyTurn (ih ▸ h)]
    exact ih

/-! ### Whole scans of a class body -/

/-- The scan of a class body up to `close` goes from one place to another. -/
inductive ScansTo (c : Code) (close : Nat) : BodyPlace → BodyPlace → Prop
  | refl (s : BodyPlace) : ScansTo c close s s
  | turn {s t : BodyPlace} (hs : s.index < close) (h : ScansTo c close (c.bodyTurn s) t) :
      ScansTo c close s t

theorem memberSpans_end (hi : ¬ i < close) (start : Bool) :
    c.memberSpans close i start = some [] := by
  rw [memberSpans.eq_def, dif_neg hi]

theorem StallsAt.memberSpans {s : BodyPlace} (h : c.StallsAt s.index) (hs : s.index < close) :
    c.memberSpans close s.index s.start = none := by
  have hm := (member_eq_iff c s.index).mpr h.outside
  have hstill : c.memberSpans close s.index false = none := by
    rw [memberSpans.eq_def, dif_pos hs]
    simp [h.fresh, h.ended, hm]
  cases hstart : s.start with
  | false => exact hstill
  | true =>
    rw [memberSpans.eq_def, dif_pos hs]
    simp [hm, hstill]

/-- A turn that is not the stalled one goes on with the rest. -/
theorem memberSpans_turn {s : BodyPlace} (hs : s.index < close) (hn : ¬ c.StallsAt s.index) :
    c.memberSpans close s.index s.start =
      (c.memberSpans close (c.bodyTurn s).index (c.bodyTurn s).start).map (c.turnSpans s ++ ·) := by
  rw [memberSpans.eq_def, dif_pos hs]
  unfold bodyTurn turnSpans takesMember
  split
  · rename_i ht
    by_cases hlt : s.index < (c.member s.index).2
    · simp [hlt]
    · have heq : (c.member s.index).2 = s.index := by have := le_member c s.index; omega
      have hstart : s.start = true := by
        by_contra hf
        rw [Bool.eq_false_iff.mpr hf, Bool.false_or, Bool.and_eq_true] at ht
        exact hn ⟨ht.1, ht.2, (member_eq_iff c _).mp heq⟩
      simp [heq, hstart]
  · unfold placeWithin
    split <;> simp [*]

/-- What is left of the scan up to `close`. -/
def ahead (close : Nat) (s : BodyPlace) : Nat := 2 * (close - s.index) + s.start.toNat

theorem bodyTurn_ahead {s : BodyPlace} (hs : s.index < close) (hn : ¬ c.StallsAt s.index) :
    ahead close (c.bodyTurn s) < ahead close s := by
  have hle := le_bodyTurn c s
  unfold ahead
  by_cases heq : (c.bodyTurn s).index = s.index
  · obtain ⟨ht, hb⟩ := (bodyTurn_eq_iff c s).mp heq
    have hstart : s.start = true := by
      by_contra hf
      rw [takesMember, Bool.eq_false_iff.mpr hf, Bool.false_or, Bool.and_eq_true] at ht
      exact hn ⟨ht.1, ht.2, hb⟩
    have hnext : (c.bodyTurn s).start = false := by rw [bodyTurn, if_pos ht]
    simp [heq, hstart, hnext]
  · have := Bool.toNat_le (c.bodyTurn s).start
    omega

/-- The scan ends unless it comes to where it stands still. -/
theorem memberSpans_eq_none_iff (c : Code) (close : Nat) (s : BodyPlace) :
    c.memberSpans close s.index s.start = none ↔
      ∃ t, c.ScansTo close s t ∧ t.index < close ∧ c.StallsAt t.index := by
  constructor
  · intro h
    induction hn : ahead close s using Nat.strongRecOn generalizing s with
    | ind n ih =>
      by_cases hs : s.index < close
      · by_cases hstall : c.StallsAt s.index
        · exact ⟨s, .refl s, hs, hstall⟩
        · rw [memberSpans_turn hs hstall, Option.map_eq_none_iff] at h
          obtain ⟨t, hreach, ht⟩ := ih _ (hn ▸ bodyTurn_ahead hs hstall) _ h rfl
          exact ⟨t, .turn hs hreach, ht⟩
      · rw [memberSpans_end hs] at h
        cases h
  · rintro ⟨t, hreach, ht, hstall⟩
    induction hreach with
    | refl s => exact hstall.memberSpans ht
    | @turn s t hs hreach ih =>
      by_cases hn : c.StallsAt s.index
      · exact hn.memberSpans hs
      · rw [memberSpans_turn hs hn, ih ht hstall]
        rfl

/-- The loop over a class body. -/
def bodyLoop (c : Code) (close : Nat) (s : BodyPlace) : Option Erasure :=
  if s.index < close then
    if c.takesMember s then do
      let (spans, next) ← c.memberScan s.index
      let rest : Erasure ← c |>.bodyLoop close ⟨next, false⟩
      some (spans ++ rest)
    else c |>.bodyLoop close (c.placeWithin s.index)
  else some []
partial_fixpoint

/-- One turn of a loop, whatever loop goes on from there. -/
theorem body_turn {loop : BodyPlace → Option Erasure} (s : BodyPlace) :
    (if c.takesMember s then do
        let (spans, next) ← c.memberScan s.index
        let rest ← loop ⟨next, false⟩
        some (spans ++ rest)
      else loop (c.placeWithin s.index)) = (loop (c.bodyTurn s)).map (c.turnSpans s ++ ·) := by
  unfold bodyTurn turnSpans
  rw [memberScan_eq]
  split
  · simp only [Option.bind_eq_bind, Option.bind_some]
    cases loop ⟨(c.member s.index).2, false⟩ <;> rfl
  · simp

theorem memberSpans_of_bodyLoop {s : BodyPlace} (h : c.bodyLoop close s = some e) :
    c.memberSpans close s.index s.start = some e := by
  refine bodyLoop.partial_correctness c close
    (fun s e => c.memberSpans close s.index s.start = some e) ?_ s e h
  intro loop ih s e h
  rw [body_turn] at h
  by_cases hs : s.index < close
  · rw [if_pos hs] at h
    obtain ⟨rest, hrest, rfl⟩ := Option.map_eq_some_iff.mp h
    -- A loop that stands still never returns: it would have to return from the same place.
    have hn : ¬ c.StallsAt s.index := by
      intro hstall
      rw [hstall.bodyTurn] at hrest
      have hback := ih _ _ hrest
      rw [StallsAt.memberSpans (s := ⟨s.index, false⟩) hstall hs] at hback
      cases hback
    rw [memberSpans_turn hs hn, ih _ _ hrest]
    rfl
  · rw [if_neg hs] at h
    rw [memberSpans_end hs, h]

theorem bodyLoop_of_memberSpans {s : BodyPlace}
    (h : c.memberSpans close s.index s.start = some e) : c.bodyLoop close s = some e := by
  induction hn : ahead close s using Nat.strongRecOn generalizing s e with
  | ind n ih =>
    rw [bodyLoop, body_turn]
    by_cases hs : s.index < close
    · have hstall : ¬ c.StallsAt s.index := by
        intro hstall
        rw [hstall.memberSpans hs] at h
        cases h
      rw [memberSpans_turn hs hstall] at h
      obtain ⟨rest, hrest, rfl⟩ := Option.map_eq_some_iff.mp h
      rw [if_pos hs, ih _ (hn ▸ bodyTurn_ahead hs hstall) hrest rfl]
      rfl
    · rw [memberSpans_end hs] at h
      rw [if_neg hs, h]

/-- The loop ends, with what `memberSpans` says, or neither of them has a value. -/
theorem bodyLoop_eq (c : Code) (close : Nat) (s : BodyPlace) :
    c.bodyLoop close s = c.memberSpans close s.index s.start := by
  ext e
  exact ⟨memberSpans_of_bodyLoop, bodyLoop_of_memberSpans⟩

/-! ### Classes -/

/-- The type parameters of a class at `n`, when the tokens there can be some. -/
def classParameterScan (c : Code) (n : Nat) : Option (Option (Erasure × Nat)) :=
  if c.punct n "<" then do
    let stop ← c.angleLoop n 0
    some (stop.map fun stop => ([.upTo n stop], stop))
  else some (some ([], n))

def superclassScan (c : Code) (n : Nat) : Option (Erasure × Nat) :=
  if c.word n "extends" then c.heritageLoop (n + 1) else some ([], n)

def classBodyScan (c : Code) (n : Nat) : Option Erasure :=
  match c.partner n with
  | some close => if c.punct n "\x7b" then c.bodyLoop close ⟨n + 1, true⟩ else some []
  | none => some []

def classScan (c : Code) (k : Nat) : Option Erasure := do
  match ← c.classParameterScan (if c.kind? (k + 1) = some .identifier then k + 2 else k + 1) with
  | none => some []
  | some (parameters, n) => do
    let (arguments, m) ← c.superclassScan n
    match c.implementsClause m with
    | none => some (parameters ++ arguments)
    | some (clause, body) => do
      let members ← c.classBodyScan body
      some (parameters ++ arguments ++ clause ++ members)

theorem classParameterScan_eq (c : Code) (n : Nat) :
    c.classParameterScan n = some (c.classParameters n) := by
  rw [classParameterScan, classParameters, angleLoop_eq]
  exact (apply_ite some _ _ _).symm

theorem superclassScan_eq (c : Code) (n : Nat) : c.superclassScan n =
    some (if c.word n "extends" then c.heritage (n + 1) else ([], n)) := by
  rw [superclassScan, heritageLoop_eq]
  exact (apply_ite some _ _ _).symm

theorem classBodyScan_eq (c : Code) (n : Nat) : c.classBodyScan n = c.classBody n := by
  simp only [classBodyScan, bodyLoop_eq]
  rfl

theorem classScan_eq (c : Code) (k : Nat) : c.classScan k = c.classSpans k := by
  rw [classScan, classSpans, classParameterScan_eq]
  simp only [superclassScan_eq, classBodyScan_eq, Option.bind_eq_bind, Option.bind_some]
  rcases c.classParameters _ with _ | ⟨parameters, n⟩
  · rfl
  · dsimp only
    rcases c.implementsClause _ with _ | ⟨clause, body⟩
    · rfl
    · exact Option.map_eq_bind.symm

/-- Where the body of the class at `k` should open, past its name and clauses. -/
def bodyStart (c : Code) (k : Nat) : Option Nat :=
  (c.classParameters (if c.kind? (k + 1) = some .identifier then k + 2 else k + 1)).bind fun ps =>
    (c.implementsClause
      (if c.word ps.2 "extends" then c.heritage (ps.2 + 1) else ([], ps.2)).2).map (·.2)

/-- A class whose keyword stands at `k` has its body from `brace` to `close`. -/
structure ClassAt (c : Code) (k brace close : Nat) : Prop where
  kind : c.kind? k = some .keyword
  text : c.text k = "class"
  body : c.bodyStart k = some brace
  opens : c.punct brace "\x7b" = true
  closes : c.partner brace = some close

theorem classBody_eq_none_iff (c : Code) (n : Nat) : c.classBody n = none ↔
    ∃ close, c.punct n "\x7b" = true ∧ c.partner n = some close ∧
      c.memberSpans close (n + 1) true = none := by
  unfold classBody
  cases hp : c.partner n with
  | none => simp
  | some close => cases hb : c.punct n "\x7b" <;> simp

theorem classSpans_eq_none_iff (c : Code) (k : Nat) : c.classSpans k = none ↔
    ∃ brace, c.bodyStart k = some brace ∧ c.classBody brace = none := by
  unfold classSpans bodyStart
  dsimp only
  split
  · rename_i h
    simp [h]
  · rename_i parameters n h
    simp only [h, Option.bind_some]
    split
    · rename_i h'
      simp [h']
    · rename_i clause body h'
      simp [h']

/-! ### The pass -/

/-- The annotation of the declaration whose keyword stands at `k`. -/
def declaratorScan (c : Code) (k : Nat) : Option Erasure :=
  match c.bindingLast (k + 1) with
  | none => some []
  | some last =>
    let colon := if c.punct (last + 1) "!" && c.punct (last + 2) ":" then last + 2 else last + 1
    if c.punct colon ":" then do
      let stop ← c.typeScan (colon + 1)
      some [.upTo (last + 1) stop]
    else some []

def typeArgumentScan (c : Code) (k : Nat) : Option Erasure :=
  if k = 0 || !c.endsExpression (k - 1) || c.kind? (k - 1) = some .identifier then do
    match ← c.angleLoop k 0 with
    | some stop => some (if c.punct stop "(" then [.upTo k stop] else [])
    | none => some []
  else some []

def wordScan (c : Code) (k : Nat) : Option Erasure :=
  let keyword := c.kind? k = some .keyword
  match c.text k with
  | "abstract" => some (if c.word (k + 1) "class" then [.single k] else [])
  | "const" | "let" | "var" => if keyword then c.declaratorScan k else some []
  | "class" => if keyword then c.classScan k else some []
  | _ => some []

def punctScan (c : Code) (erased : Erasure) (k : Nat) : Option Erasure :=
  match c.text k with
  | "!" => some (if 0 < k && c.endsExpression (k - 1) && c.adjacent k then [.single k] else [])
  | "(" => c.signatureScan erased k
  | "<" => c.typeArgumentScan k
  | _ => some []

/-- Where the cast at `k` ends, when the word there casts. -/
def castScan (c : Code) (k : Nat) : Option (Option Nat) :=
  if c.text k ∈ ["as", "satisfies"] && 0 < k && !c.inClause k && c.endsExpression (k - 1) then do
    let stop ← c.typeScan (k + 1)
    some (if k + 1 < stop then some stop else none)
  else some none

def statementScan (c : Code) (k : Nat) : Option (Option Nat) :=
  if c.startsStatement k then c.typeStatementScan k else some none

/-- A visit of token `k`. -/
def visitScan (c : Code) (erased : Erasure) (k : Nat) : Option (Erasure × Nat) := do
  match ← c.statementScan k with
  | some last => some ([⟨k, last⟩], last + 1)
  | none =>
    if c.isName k then do
      match ← c.castScan k with
      | some stop => some ([.upTo k stop], stop)
      | none => do
        let spans ← c.wordScan k
        some (spans, k + 1)
    else if c.kind? k = some .punctuator then do
      let spans ← c.punctScan erased k
      some (spans, k + 1)
    else some ([], k + 1)

/-- The loop over a program. -/
def passLoop (c : Code) (erased : Erasure) (k : Nat) : Option Erasure :=
  if k < c.size then
    if erased.covers k then c |>.passLoop erased (k + 1)
    else do
      let (spans, next) ← c.visitScan erased k
      c |>.passLoop (spans ++ erased) next
  else some erased
partial_fixpoint

theorem declaratorScan_eq (c : Code) (k : Nat) :
    c.declaratorScan k = some (c.declaratorSpans k) := by
  rw [declaratorScan, declaratorSpans]
  cases c.bindingLast (k + 1) with
  | none => rfl
  | some last =>
    simp only [typeScan_eq]
    exact (apply_ite some _ _ _).symm

theorem typeArgumentScan_eq (c : Code) (k : Nat) :
    c.typeArgumentScan k = some (c.typeArgumentSpans k) := by
  rw [typeArgumentScan, typeArgumentSpans, angleLoop_eq, angleEnd]
  split
  · cases c.anglesFrom k 0 <;> rfl
  · rfl

theorem wordScan_eq (c : Code) (k : Nat) : c.wordScan k = c.wordSpans k := by
  simp only [wordScan, declaratorScan_eq, classScan_eq, ← apply_ite some]
  rfl

theorem punctScan_eq (c : Code) (erased : Erasure) (k : Nat) :
    c.punctScan erased k = some (c.punctSpans erased k) := by
  rw [punctScan, punctSpans]
  simp only [signatureScan_eq, typeArgumentScan_eq]
  split <;> simp [*]

theorem castScan_eq (c : Code) (k : Nat) : c.castScan k =
    some (if c.text k ∈ ["as", "satisfies"] && c.isCast k then some (c.typeEnd (k + 1))
      else none) := by
  rw [castScan, isCast, typeScan_eq]
  simp only [Option.bind_eq_bind, Option.bind_some, ← apply_ite some, Bool.and_eq_true,
    decide_eq_true_eq, ← ite_and, and_assoc]

theorem statementScan_eq (c : Code) (k : Nat) :
    c.statementScan k = some (if c.startsStatement k then c.typeStatementLast k else none) := by
  rw [statementScan, typeStatementScan_eq]
  exact (apply_ite some _ _ _).symm

theorem visitScan_eq (c : Code) (erased : Erasure) (k : Nat) :
    c.visitScan erased k = (c.visit erased k).map fun v => (v.spans, v.next) := by
  rw [visitScan, statementScan_eq]
  simp only [Option.bind_eq_bind, Option.bind_some, castScan_eq, wordScan_eq, punctScan_eq]
  cases hl : if c.startsStatement k then c.typeStatementLast k else none with
  | some last =>
    obtain ⟨hs, ht⟩ := Option.ite_none_right_eq_some.mp hl
    exact (visits_statement hs ht erased).symm
  | none =>
    rw [map_visit_of_not_statement hl, visitWord]
    by_cases hc : (decide (c.text k ∈ ["as", "satisfies"]) && c.isCast k) = true
    · simp only [hc, if_true]
    · simp only [hc]
      cases c.wordSpans k <;> rfl

/-- The pass ends, with the erasure of the program, or neither has a value. -/
theorem passLoop_eq (c : Code) (erased : Erasure) (k : Nat) :
    c.passLoop erased k = c.erasureFrom erased k := by
  fun_induction erasureFrom c erased k with
  | case1 erased k hk hc ih => rw [passLoop, if_pos hk, if_pos hc, ih]
  | case2 erased k hk hc hv =>
    rw [passLoop, if_pos hk, if_neg hc, visitScan_eq, hv]
    rfl
  | case3 erased k hk hc spans next hlt hv ih =>
    rw [passLoop, if_pos hk, if_neg hc, visitScan_eq, hv]
    exact ih
  | case4 erased k hk => rw [passLoop, if_neg hk]

/-- The pass comes from one token to another. -/
inductive PassesTo (c : Code) : Erasure → Nat → Erasure → Nat → Prop
  | refl (e : Erasure) (k : Nat) : PassesTo c e k e k
  | covered {e e' : Erasure} {k k' : Nat} (hk : k < c.size) (hc : e.covers k = true)
      (h : PassesTo c e (k + 1) e' k') : PassesTo c e k e' k'
  | visited {e e' spans : Erasure} {k k' next : Nat} (hk : k < c.size) (hc : e.covers k = false)
      (hv : c.Visits e k spans next) (h : PassesTo c (spans ++ e) next e' k') : PassesTo c e k e' k'

theorem wordSpans_eq_none_iff (c : Code) (k : Nat) : c.wordSpans k = none ↔
    c.kind? k = some .keyword ∧ c.text k = "class" ∧ c.classSpans k = none := by
  unfold wordSpans
  dsimp only
  split
  case h_5 ht => by_cases hk : c.kind? k = some .keyword <;> simp [hk, ht]
  all_goals simp_all

/-- Only a visit of a class can fail to end. -/
theorem visit_eq_none_iff (c : Code) (e : Erasure) (k : Nat) : c.visit e k = none ↔
    c.kind? k = some .keyword ∧ c.text k = "class" ∧ c.classSpans k = none := by
  rw [← wordSpans_eq_none_iff]
  constructor
  · intro h
    unfold visit at h
    split at h
    · cases h
    · split at h
      · split at h
        · cases h
        · exact Option.map_eq_none_iff.mp h
      · split at h <;> cases h
  · intro h
    obtain ⟨hk, ht, -⟩ := (wordSpans_eq_none_iff c k).mp h
    have hmap := map_visit (p := k) (fun _ => by rw [ht]; decide) e
    have hn : c.isName k = true := by simp [isName, hk]
    rw [visitWord, if_pos hn, if_neg (by simp [ht]), h] at hmap
    exact Option.map_eq_none_iff.mp hmap

theorem erasureFrom_eq_none_iff (c : Code) (e : Erasure) (k : Nat) : c.erasureFrom e k = none ↔
    ∃ e' k', c.PassesTo e k e' k' ∧ k' < c.size ∧ e'.covers k' = false ∧ c.visit e' k' = none := by
  constructor
  · intro h
    fun_induction erasureFrom c e k with
    | case1 e k hk hc ih =>
      obtain ⟨e', k', hreach, hend⟩ := ih h
      exact ⟨e', k', .covered hk hc hreach, hend⟩
    | case2 e k hk hc hv => exact ⟨e, k, .refl e k, hk, by simpa using hc, hv⟩
    | case3 e k hk hc spans next hlt hv ih =>
      obtain ⟨e', k', hreach, hend⟩ := ih h
      exact ⟨e', k', .visited hk (by simpa using hc) (by rw [Visits, hv]; rfl) hreach, hend⟩
    | case4 => cases h
  · rintro ⟨e', k', hreach, hk, hc, hv⟩
    induction hreach with
    | refl e k =>
      rw [erasureFrom, dif_pos hk, if_neg (by simp [hc]), hv]
    | covered hk' hc' _ ih => rw [erasureFrom_covered hk' hc', ih hk hc hv]
    | visited hk' hc' hv' _ ih => rw [hv'.erasureFrom hk' hc', ih hk hc hv]

/-- The pass comes to a class whose body runs from `brace` to `close`, and the scan
of that body to place `t`, where it stands still. -/
structure Stalled (c : Code) (k brace close : Nat) (t : BodyPlace) : Prop where
  reached : ∃ e, c.PassesTo [] 0 e k ∧ e.covers k = false
  classAt : c.ClassAt k brace close
  scanned : c.ScansTo close ⟨brace + 1, true⟩ t
  inside : t.index < close
  stalls : c.StallsAt t.index

theorem erasure_eq_none_iff (c : Code) :
    c.erasure = none ↔ ∃ k brace close t, c.Stalled k brace close t := by
  rw [erasure, erasureFrom_eq_none_iff]
  constructor
  · rintro ⟨e, k, hreach, hk, hc, hv⟩
    obtain ⟨hkind, htext, hclass⟩ := (visit_eq_none_iff c e k).mp hv
    obtain ⟨brace, hbody, hnone⟩ := (classSpans_eq_none_iff c k).mp hclass
    obtain ⟨close, hopens, hcloses, hspans⟩ := (classBody_eq_none_iff c brace).mp hnone
    obtain ⟨t, hscan, hlt, hstall⟩ :=
      (memberSpans_eq_none_iff c close ⟨brace + 1, true⟩).mp hspans
    exact ⟨k, brace, close, t, ⟨e, hreach, hc⟩, ⟨hkind, htext, hbody, hopens, hcloses⟩, hscan, hlt,
      hstall⟩
  · rintro ⟨k, brace, close, t, ⟨e, hreach, hc⟩, hclass, hscan, hlt, hstall⟩
    have hspans := (memberSpans_eq_none_iff c close ⟨brace + 1, true⟩).mpr ⟨t, hscan, hlt, hstall⟩
    have hnone := (classBody_eq_none_iff c brace).mpr ⟨close, hclass.opens, hclass.closes, hspans⟩
    have hnever := (classSpans_eq_none_iff c k).mpr ⟨brace, hclass.body, hnone⟩
    exact ⟨e, k, hreach, lt_size_of_kind? hclass.kind, hc,
      (visit_eq_none_iff c e k).mpr ⟨hclass.kind, hclass.text, hnever⟩⟩

/-- Every scan of the pass but that of a class body ends. -/
structure ScansEnd (c : Code) : Prop where
  types : ∀ p, (c.typeScan p).isSome
  unions : ∀ p, (c.unionScan p).isSome
  members : ∀ p, (c.postfixScan p).isSome
  primaries : ∀ p, (c.primaryScan p).isSome
  angles : ∀ i depth, (c.angleLoop i depth).isSome
  declarations : ∀ erased k, (c.declarationScan erased k).isSome
  parameters : ∀ k close, c.partner k = some close →
    (c.parameterLoop close (k + 1) true false).isSome
  signatures : ∀ erased k, (c.signatureScan erased k).isSome
  classMembers : ∀ i, (c.memberScan i).isSome
  superclasses : ∀ n, (c.heritageLoop n).isSome
  typeStatements : ∀ k, (c.typeStatementScan k).isSome

theorem scansEnd (c : Code) : c.ScansEnd where
  types p := by rw [typeScan_eq]; rfl
  unions p := by rw [(c.agrees p).union]; rfl
  members p := by rw [postfixScan_eq (c.agrees p).primary]; rfl
  primaries p := by rw [(c.agrees p).primary]; rfl
  angles i depth := by rw [angleLoop_eq]; rfl
  declarations erased k := by rw [declarationScan_eq]; rfl
  parameters k close h := by
    rw [parameterLoop_eq (closes_of_partner h) (k + 1) true false (fun _ => rfl)]
    rfl
  signatures erased k := by rw [signatureScan_eq]; rfl
  classMembers i := by rw [memberScan_eq]; rfl
  superclasses n := by rw [heritageLoop_eq]; rfl
  typeStatements k := by rw [typeStatementScan_eq]; rfl

end Retouch.Code

namespace Retouch.Erase
open Syntax Code

/-- The pass over a program, which nothing bounds, ends exactly when it comes to no
class whose scan stands still before the closing brace, and then it gives the
erased text. A scan that stands still is at the same token after any number of
turns. Every other scan of the pass ends wherever it begins. -/
theorem passLoop_isSome_iff_not_stalled (d : Dialect) (hd : d.isTyped = true) (source : String) :
    let c := Code.ofTokens (significant (tokenize d source))
    eraseTypes d source = (c.passLoop [] 0).map
        (fun e => String.ofList (laidOut (c.isErased e) 0 (tokenize d source))) ∧
      ((c.passLoop [] 0).isSome ↔ ¬ ∃ k brace close t, c.Stalled k brace close t) ∧
      (∀ k brace close t, c.Stalled k brace close t →
        ∀ n, (Nat.repeat c.bodyTurn n t).index = t.index) ∧
      c.ScansEnd := by
  intro c
  refine ⟨?_, ?_, ?_, c.scansEnd⟩
  · rw [eraseTypes_eq hd, passLoop_eq]
    rfl
  · rw [passLoop_eq, Option.isSome_iff_ne_none]
    exact not_congr c.erasure_eq_none_iff
  · intro k brace close t h n
    exact h.stalls.repeat n

/-- A field whose value goes on with a call on the next line. -/
def chainedField : String := "class A \x7b\n  x = list\n    .first();\n\x7d\n"

/-- Its scan takes the dot for the front of a member. -/
theorem chainedField_stalled :
    (Code.ofTokens (significant (tokenize .ts chainedField))).Stalled 0 2 11 ⟨6, false⟩ := by
  obtain ⟨hclass, ⟨h₃, h₄, h₅⟩, hstalls⟩ :
      let c := Code.ofTokens (significant (tokenize .ts chainedField))
      (c.kind? 0 = some .keyword ∧ c.text 0 = "class" ∧ c.bodyStart 0 = some 2 ∧
          c.punct 2 "\x7b" = true ∧ c.partner 2 = some 11) ∧
        (c.bodyTurn ⟨3, true⟩ = ⟨4, false⟩ ∧ c.bodyTurn ⟨4, false⟩ = ⟨5, false⟩ ∧
          c.bodyTurn ⟨5, false⟩ = ⟨6, false⟩) ∧
        c.freshLine 6 = true ∧ c.endsExpression 5 = true ∧ c.beginsMember 6 = false := by
    decide +kernel
  obtain ⟨hkind, htext, hbody, hopens, hcloses⟩ := hclass
  obtain ⟨hfresh, hended, houtside⟩ := hstalls
  refine ⟨⟨[], .refl [] 0, rfl⟩, ⟨hkind, htext, hbody, hopens, hcloses⟩, ?_, by decide,
    ⟨hfresh, hended, houtside⟩⟩
  refine .turn (by decide) (h₃ ▸ .turn (by decide) (h₄ ▸ .turn (by decide) (h₅ ▸ .refl _)))

theorem eraseTypes_chainedField :
    Dialect.isTyped .ts = true ∧ eraseTypes .ts chainedField = none := by
  refine ⟨rfl, ?_⟩
  obtain ⟨htext, hends, -, -⟩ := passLoop_isSome_iff_not_stalled .ts rfl chainedField
  have hnone := mt hends.mp (not_not_intro ⟨_, _, _, _, chainedField_stalled⟩)
  rw [Option.not_isSome_iff_eq_none] at hnone
  rw [htext, hnone]
  rfl

end Retouch.Erase
