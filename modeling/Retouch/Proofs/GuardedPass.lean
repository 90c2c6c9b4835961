import Retouch.Proofs.GuardedScans

/-! The erasing pass, with every index checked. A visit reads the tables through the
guard, and so do the loop over a class body, the loop over the program and the loop that
finds the stretches to blank. The pass faults on no program: it does what the pass with
nothing to guard it does, and it fails to end only where that one does. Each visit that
ends goes on further right, and not past the end of the program. -/

namespace Retouch.Code.Guarded
open Syntax Erase

variable {c : Code} {i k n : Nat} {e : Erasure}

/-! ### Members of a class -/

def memberName (c : Code) (i : Nat) : Guarded (Except Nat Nat) :=
  if c.text i = "[" then do
    match ← partnerAt c i with
    | some close => pure (.ok (close + 1))
    | none => pure (.error (i + 1))
  else pure (c.memberName i)

def tailScan (c : Code) (after : Nat) : Guarded (Erasure × Nat) :=
  let marked := (c.punct after "?" || c.punct after "!") &&
    c.text (after + 1) ∈ [":", "(", ";", "=", "\x7d"]
  let colon := if marked then after + 1 else after
  let marker := if marked then [Span.single after] else []
  if c.punct colon ":" then do
    let stop ← typeScan c (colon + 1)
    let span ← spanUpTo colon stop
    pure (marker ++ [span], stop)
  else pure (marker, colon)

def memberScan (c : Code) (i : Nat) : Guarded (Erasure × Nat) := do
  let (lead, j) ← safe (c.leadLoop i)
  match ← memberName c j with
  | .error next => pure (lead, next)
  | .ok after => do
    let (tail, next) ← tailScan c after
    pure (lead ++ tail, next)

def placeWithin (c : Code) (i : Nat) : Guarded BodyPlace :=
  if c.text i ∈ ["(", "[", "\x7b"] then do
    let next ← afterGroup c i
    pure ⟨next, c.text i = "\x7b"⟩
  else pure (c.placeWithin i)

/-- One turn of the loop over a class body. -/
def turnScan (c : Code) (s : BodyPlace) : Guarded (Erasure × BodyPlace) := do
  let fresh ← beside c s.index fun a b => a.stop.line < b.start.line
  let before ← pred s.index
  if s.start || (fresh && c.endsExpression before) then do
    let (spans, next) ← memberScan c s.index
    pure (spans, ⟨next, false⟩)
  else do
    let place ← placeWithin c s.index
    pure ([], place)

def Tables.bodyLoop (c : Tables) (close : Nat) (s : BodyPlace) : Option (Except Fault Erasure) :=
  if s.index < close then do
    match ← (turnScan c s).run with
    | .error fault => some (.error fault)
    | .ok (spans, next) => do
      let rest : Except Fault Erasure ← c |>.bodyLoop close next
      some (rest.map (spans ++ ·))
  else some (.ok [])
partial_fixpoint

export Tables (bodyLoop)

theorem memberName_eq (c : Code) (i : Nat) : memberName c i = pure (c.memberName i) := by
  rw [memberName]
  split
  · rename_i ht
    rw [partnerAt_eq (lt_size_of_text ht (by decide)), pure_bind, Code.memberName, ht]
    cases c.partner i <;> rfl
  · rfl

theorem tailScan_eq (c : Code) (after : Nat) : tailScan c after = pure (c.memberTail after) := by
  have hspan (colon : Nat) : spanUpTo colon (c.typeEnd (colon + 1)) =
      pure (.upTo colon (c.typeEnd (colon + 1))) :=
    spanUpTo_eq colon (Nat.zero_lt_of_lt (lt_typeEnd_succ c colon))
  rw [tailScan, memberTail]
  simp only [typeScan_eq, pure_bind, hspan]
  exact (apply_ite pure _ _ _).symm

theorem memberScan_eq (c : Code) (i : Nat) : memberScan c i = pure (c.member i) := by
  rw [memberScan, member, leadLoop_eq, safe_some, pure_bind]
  simp only [memberName_eq, tailScan_eq, pure_bind]
  cases c.memberName (c.memberLead i).2 <;> rfl

theorem placeWithin_eq (c : Code) (i : Nat) : placeWithin c i = pure (c.placeWithin i) := by
  rw [placeWithin]
  split
  · rename_i ht
    rw [afterGroup_eq (lt_size_of_text_mem ht (by decide)), pure_bind, Code.placeWithin]
    simp only [List.mem_cons, List.not_mem_nil, or_false] at ht
    rcases ht with ht | ht | ht <;> simp [ht]
  · rfl

theorem turnScan_eq {s : BodyPlace} (hpos : 0 < s.index) (hs : s.index < c.size) :
    turnScan c s = pure (c.turnSpans s, c.bodyTurn s) := by
  rw [turnScan, beside_freshLine hpos hs, pure_bind, pred_eq hpos, pure_bind, memberScan_eq,
    placeWithin_eq, turnSpans, bodyTurn, takesMember]
  simp only [pure_bind]
  split <;> rfl

/-- A turn stays right of where it began. -/
theorem bodyTurn_pos {s : BodyPlace} (h : 0 < s.index) : 0 < (c.bodyTurn s).index :=
  Nat.lt_of_lt_of_le h (le_bodyTurn c s)

theorem bodyLoop_of_some {close : Nat} (hc : close ≤ c.size) (s : BodyPlace) (e : Erasure)
    (h : c.bodyLoop close s = some e) : 0 < s.index → bodyLoop c close s = some (.ok e) := by
  refine Code.bodyLoop.partial_correctness c close
    (fun s e => 0 < s.index → bodyLoop c close s = some (.ok e)) ?_ s e h
  intro loop ih s e h hpos
  rw [body_turn] at h
  rw [bodyLoop]
  by_cases hs : s.index < close
  · rw [if_pos hs] at h ⊢
    obtain ⟨rest, hrest, rfl⟩ := Option.map_eq_some_iff.mp h
    rw [turnScan_eq hpos (by omega)]
    show (bodyLoop c close (c.bodyTurn s) >>= _) = _
    rw [ih _ _ hrest (bodyTurn_pos hpos)]
    rfl
  · rw [if_neg hs] at h ⊢
    rw [Option.some.inj h]

theorem some_of_bodyLoop {close : Nat} (hc : close ≤ c.size) (s : BodyPlace)
    (x : Except Fault Erasure) (h : bodyLoop c close s = some x) :
    0 < s.index → ∃ e, x = .ok e ∧ c.bodyLoop close s = some e := by
  refine Tables.bodyLoop.partial_correctness c close
    (fun s x => 0 < s.index → ∃ e, x = .ok e ∧ c.bodyLoop close s = some e) ?_ s x h
  intro loop ih s x h hpos
  rw [Code.bodyLoop, body_turn]
  by_cases hs : s.index < close
  · rw [if_pos hs, turnScan_eq hpos (by omega)] at h
    change (loop (c.bodyTurn s) >>= _) = some x at h
    obtain ⟨rest, hrest, h⟩ := Option.bind_eq_some_iff.mp h
    obtain ⟨e, rfl, he⟩ := ih _ _ hrest (bodyTurn_pos hpos)
    rw [if_pos hs, he]
    exact ⟨_, (Option.some.inj h).symm, rfl⟩
  · rw [if_neg hs] at h ⊢
    exact ⟨[], (Option.some.inj h).symm, rfl⟩

/-- The loop over a class body faults nowhere, and has an end exactly when the one
without guards has. -/
theorem bodyLoop_eq {close : Nat} (hc : close ≤ c.size) {s : BodyPlace} (hs : 0 < s.index) :
    bodyLoop c close s = (c.bodyLoop close s).map .ok := by
  cases h : bodyLoop c close s with
  | some x =>
    obtain ⟨e, rfl, he⟩ := some_of_bodyLoop hc s x h hs
    rw [he]
    rfl
  | none =>
    cases hu : c.bodyLoop close s with
    | none => rfl
    | some e =>
      rw [bodyLoop_of_some hc s e hu hs] at h
      cases h

/-! ### Classes -/

def Tables.heritageLoop (c : Tables) (n : Nat) : Guarded (Erasure × Nat) :=
  if n < c.size && !(c.punct n "\x7b" || c.word n "implements") then do
    match ← argumentScan c n with
    | some stop => do
      let span ← spanUpTo n stop
      let (spans, m) ← (c |>.heritageLoop stop : Guarded (Erasure × Nat))
      pure (span :: spans, m)
    | none =>
      if c.text n ∈ ["(", "["] then do
        let next ← afterGroup c n
        c |>.heritageLoop next
      else c |>.heritageLoop (n + 1)
  else pure ([], n)
partial_fixpoint

export Tables (heritageLoop)

def classParameterScan (c : Code) (n : Nat) : Guarded (Option (Erasure × Nat)) :=
  if c.punct n "<" then do
    match ← angleLoop c n 0 with
    | some stop => do
      let span ← spanUpTo n stop
      pure (some ([span], stop))
    | none => pure none
  else pure (some ([], n))

def superclassScan (c : Code) (n : Nat) : Guarded (Erasure × Nat) :=
  if c.word n "extends" then heritageLoop c (n + 1) else pure ([], n)

def implementsScan (c : Code) (n : Nat) : Guarded (Option (Erasure × Nat)) :=
  if c.word n "implements" then
    match c.findPunct n "\x7b" with
    | some brace => do
      let span ← spanUpTo n brace
      pure (some ([span], brace))
    | none => pure none
  else pure (some ([], n))

def classBodyScan (c : Code) (n : Nat) : Guarded Erasure :=
  if c.punct n "\x7b" then do
    match ← partnerAt c n with
    | some close => ExceptT.mk (bodyLoop c close ⟨n + 1, true⟩)
    | none => pure []
  else pure []

def classScan (c : Code) (k : Nat) : Guarded Erasure := do
  match ← classParameterScan c (if c.kind? (k + 1) = some .identifier then k + 2 else k + 1) with
  | none => pure []
  | some (parameters, n) => do
    let (arguments, m) ← superclassScan c n
    match ← implementsScan c m with
    | none => pure (parameters ++ arguments)
    | some (clause, body) => do
      let members ← classBodyScan c body
      pure (parameters ++ arguments ++ clause ++ members)

theorem heritageLoop_eq (c : Code) (n : Nat) : heritageLoop c n = pure (c.heritage n) := by
  fun_induction heritage c n with
  | case1 n hn h => rw [heritageLoop, if_neg (by simp [h])]
  | case2 n hn h hg stop ha spans m hm ih =>
    rw [dite_eq_ite] at ha
    have hstop : 0 < stop := by
      have := angleEnd_bounds (Option.ite_none_right_eq_some.mp ha).2
      omega
    rw [heritageLoop, if_pos (by simp [h, hn]), argumentScan_eq, ha]
    simp [ih, hm, spanUpTo_eq n hstop]
  | case3 n hn h hg ha ht ih =>
    rw [dite_eq_ite] at ha
    rw [heritageLoop, if_pos (by simp [h, hn]), argumentScan_eq, ha, pure_bind]
    dsimp only
    rw [if_pos ht, afterGroup_eq hn, pure_bind, ih]
  | case4 n hn h hg ha ht ih =>
    rw [dite_eq_ite] at ha
    rw [heritageLoop, if_pos (by simp [h, hn]), argumentScan_eq, ha, pure_bind]
    dsimp only
    rw [if_neg ht, ih]
  | case5 n hn => rw [heritageLoop, if_neg (by simp [hn])]

theorem le_heritage (c : Code) (n : Nat) : n ≤ (c.heritage n).2 := by
  fun_induction heritage c n with
  | case1 => exact Nat.le_refl _
  | case2 n hn h hg stop ha spans m hm ih =>
    rw [dite_eq_ite] at ha
    have := angleEnd_bounds (Option.ite_none_right_eq_some.mp ha).2
    rw [hm] at ih
    dsimp only at ih ⊢
    omega
  | case3 n hn h hg ha ht ih => omega
  | case4 n hn h hg ha ht ih => omega
  | case5 => exact Nat.le_refl _

theorem classParameterScan_eq (c : Code) (n : Nat) :
    classParameterScan c n = pure (c.classParameters n) := by
  rw [classParameterScan, classParameters, angleLoop_eq, pure_bind]
  split
  · rw [angleEnd]
    cases h : c.anglesFrom n 0 with
    | none => rfl
    | some stop =>
      have hstop : 0 < stop := by have := anglesFrom_bounds h; omega
      dsimp only
      rw [spanUpTo_eq n hstop, pure_bind]
      rfl
  · rfl

theorem superclassScan_eq (c : Code) (n : Nat) : superclassScan c n =
    pure (if c.word n "extends" then c.heritage (n + 1) else ([], n)) := by
  rw [superclassScan, heritageLoop_eq]
  exact (apply_ite pure _ _ _).symm

theorem implementsScan_eq (h : 0 < n) : implementsScan c n = pure (c.implementsClause n) := by
  rw [implementsScan, implementsClause]
  split
  · cases hb : c.findPunct n "\x7b" with
    | none => rfl
    | some brace =>
      have hpos : 0 < brace := by have := findPunct_bounds hb; omega
      dsimp only
      rw [spanUpTo_eq n hpos, pure_bind]
      rfl
  · rfl

theorem classBodyScan_eq (c : Code) (n : Nat) : classBodyScan c n = safe (c.classBody n) := by
  rw [classBodyScan, classBody]
  cases hb : c.punct n "\x7b" with
  | false => cases c.partner n <;> rfl
  | true =>
    rw [if_pos rfl, partnerAt_eq (lt_size_of_punct hb), pure_bind]
    cases hp : c.partner n with
    | none => rfl
    | some close =>
      have hclose := (partner_bounds hp).2.le
      simp only [if_true]
      rw [bodyLoop_eq hclose (Nat.succ_pos n), Code.bodyLoop_eq]
      rfl

theorem classParameters_pos {m : Nat} {spans : Erasure} (hn : 0 < n)
    (h : c.classParameters n = some (spans, m)) : 0 < m := by
  unfold classParameters at h
  split at h
  · obtain ⟨stop, hstop, he⟩ := Option.map_eq_some_iff.mp h
    have := angleEnd_bounds hstop
    rw [← (Prod.mk.inj he).2]
    omega
  · rwa [← (Prod.mk.inj (Option.some.inj h)).2]

theorem classScan_eq (c : Code) (k : Nat) : classScan c k = safe (c.classSpans k) := by
  rw [classScan, classSpans, classParameterScan_eq, pure_bind]
  dsimp only
  cases h : c.classParameters (if c.kind? (k + 1) = some .identifier then k + 2 else k + 1) with
  | none => rfl
  | some found =>
    obtain ⟨parameters, n⟩ := found
    have hn : 0 < n := classParameters_pos (by split <;> omega) h
    have hm : 0 < (if c.word n "extends" then c.heritage (n + 1) else ([], n)).2 := by
      have := le_heritage c (n + 1)
      split
      · omega
      · exact hn
    simp only [superclassScan_eq, pure_bind]
    rw [implementsScan_eq hm, pure_bind]
    cases c.implementsClause _ with
    | none => rfl
    | some clause =>
      dsimp only
      rw [classBodyScan_eq, safe_map]
      rfl

/-! ### The pass -/

def startsStatement (c : Code) (k : Nat) : Guarded Bool :=
  if k = 0 then pure true
  else do
    let before ← pred k
    if c.text before ∈ [";", "\x7b", "\x7d"] then pure true
    else beside c k fun a b => a.stop.line < b.start.line

def bindingScan (c : Code) (name : Nat) : Guarded (Option Nat) :=
  if c.text name ∈ ["\x7b", "["] then partnerAt c name
  else pure (if c.kind? name = some .identifier then some name else none)

def declaratorScan (c : Code) (k : Nat) : Guarded Erasure := do
  match ← bindingScan c (k + 1) with
  | none => pure []
  | some last =>
    let colon := if c.punct (last + 1) "!" && c.punct (last + 2) ":" then last + 2 else last + 1
    if c.punct colon ":" then do
      let stop ← typeScan c (colon + 1)
      let span ← spanUpTo (last + 1) stop
      pure [span]
    else pure []

/-- Whether type arguments can stand at `k`. -/
def appliesAt (c : Code) (k : Nat) : Guarded Bool :=
  if k = 0 then pure true
  else do
    let before ← pred k
    pure (!c.endsExpression before || c.kind? before = some .identifier)

def typeArgumentScan (c : Code) (k : Nat) : Guarded Erasure := do
  if ← appliesAt c k then do
    match ← angleLoop c k 0 with
    | some stop =>
      if c.punct stop "(" then do
        let span ← spanUpTo k stop
        pure [span]
      else pure []
    | none => pure []
  else pure []

def wordScan (c : Code) (k : Nat) : Guarded Erasure :=
  let keyword := c.kind? k = some .keyword
  if c.text k = "abstract" then pure (if c.word (k + 1) "class" then [.single k] else [])
  else if c.text k ∈ ["const", "let", "var"] then
    if keyword then declaratorScan c k else pure []
  else if c.text k = "class" then if keyword then classScan c k else pure []
  else pure []

/-- Whether the mark at `k` follows an expression with nothing in between. -/
def assertsAt (c : Code) (k : Nat) : Guarded Bool :=
  if 0 < k then do
    let before ← pred k
    if c.endsExpression before then beside c k fun a b => a.stop.offset = b.start.offset
    else pure false
  else pure false

def punctScan (c : Code) (flags : Array Bool) (k : Nat) : Guarded Erasure :=
  if c.text k = "!" then do
    let asserts ← assertsAt c k
    pure (if asserts then [.single k] else [])
  else if c.text k = "(" then signatureScan c flags k
  else if c.text k = "<" then typeArgumentScan c k
  else pure []

def castScan (c : Code) (clauses : Array Bool) (k : Nat) : Guarded (Option Nat) :=
  if c.text k ∈ ["as", "satisfies"] && 0 < k then do
    let clause ← readAt .clauses clauses k
    let before ← pred k
    if !clause && c.endsExpression before then do
      let stop ← typeScan c (k + 1)
      pure (if k + 1 < stop then some stop else none)
    else pure none
  else pure none

def statementScan (c : Code) (k : Nat) : Guarded (Option Nat) := do
  if ← startsStatement c k then typeStatementScan c k else pure none

/-- A visit of token `k`: what it erases, and where the pass goes on. -/
def visit (c : Code) (clauses flags : Array Bool) (k : Nat) : Guarded (Erasure × Nat) := do
  match ← statementScan c k with
  | some last => pure ([⟨k, last⟩], last + 1)
  | none =>
    if c.isName k then do
      match ← castScan c clauses k with
      | some stop => do
        let span ← spanUpTo k stop
        pure ([span], stop)
      | none => do
        let spans ← wordScan c k
        pure (spans, k + 1)
    else if c.kind? k = some .punctuator then do
      let spans ← punctScan c flags k
      pure (spans, k + 1)
    else pure ([], k + 1)

def Tables.passLoop (c : Tables) (clauses flags : Array Bool) (k : Nat) : Guarded (Array Bool) :=
  if k < c.size then do
    if ← readAt .erased flags k then c |>.passLoop clauses flags (k + 1)
    else do
      let (spans, next) ← visit c clauses flags k
      c |>.passLoop clauses (mark flags spans) next
  else pure flags
partial_fixpoint

/-- The last of the erased tokens that begin at `last`. -/
def Tables.runLoop (c : Tables) (flags : Array Bool) (last : Nat) : Guarded Nat :=
  if last + 1 < c.size then do
    if ← readAt .erased flags (last + 1) then c |>.runLoop flags (last + 1)
    else pure last
  else pure last
partial_fixpoint

/-- The stretches of the text to blank, from token `k` on. -/
def Tables.blankLoop (c : Tables) (flags : Array Bool) (k : Nat) : Guarded (List (Nat × Nat)) :=
  if k < c.size then do
    if ← readAt .erased flags k then do
      let last ← c.runLoop flags k
      let first ← tokenAt c k
      let final ← tokenAt c last
      let rest : List (Nat × Nat) ← c |>.blankLoop flags (last + 1)
      pure ((first.start.offset, final.stop.offset) :: rest)
    else c |>.blankLoop flags (k + 1)
  else pure []
partial_fixpoint

export Tables (passLoop runLoop blankLoop)

/-- The pass over a program, with the stretches of its text to blank. -/
def pass (c : Code) : Guarded (Array Bool × List (Nat × Nat)) := do
  let clauses ← markClauses c
  let flags ← passLoop c clauses (flagsOf c fun _ => false) 0
  let blanks ← blankLoop c flags 0
  pure (flags, blanks)

theorem startsStatement_eq (hk : k < c.size) :
    startsStatement c k = pure (c.startsStatement k) := by
  rw [startsStatement, Code.startsStatement]
  by_cases h : k = 0
  · simp [h]
  · have hpos : 0 < k := by omega
    rw [if_neg h, pred_eq hpos, pure_bind, beside_freshLine hpos hk]
    split
    · rename_i ht
      simp [ht]
    · rename_i ht
      simp [h, ht]

theorem bindingScan_eq (c : Code) (n : Nat) : bindingScan c n = pure (c.bindingLast n) := by
  rw [bindingScan, bindingLast]
  split
  · rename_i ht
    exact partnerAt_eq (lt_size_of_text_mem ht (by decide))
  · rfl

theorem declaratorScan_eq (c : Code) (k : Nat) :
    declaratorScan c k = pure (c.declaratorSpans k) := by
  have hspan (first colon : Nat) : spanUpTo first (c.typeEnd (colon + 1)) =
      pure (.upTo first (c.typeEnd (colon + 1))) :=
    spanUpTo_eq first (Nat.zero_lt_of_lt (lt_typeEnd_succ c colon))
  rw [declaratorScan, bindingScan_eq, pure_bind, declaratorSpans]
  cases c.bindingLast (k + 1) with
  | none => rfl
  | some last =>
    simp only [typeScan_eq, pure_bind, hspan]
    exact (apply_ite pure _ _ _).symm

theorem typeArgumentScan_eq (c : Code) (k : Nat) :
    typeArgumentScan c k = pure (c.typeArgumentSpans k) := by
  have happlies : appliesAt c k = pure (k = 0 || !c.endsExpression (k - 1) ||
      c.kind? (k - 1) = some .identifier) := by
    rw [appliesAt]
    by_cases h : k = 0
    · simp [h]
    · rw [if_neg h, pred_eq (by omega), pure_bind]
      simp [h]
  rw [typeArgumentScan, happlies, pure_bind, typeArgumentSpans, angleLoop_eq, pure_bind]
  split
  · rw [angleEnd]
    cases h : c.anglesFrom k 0 with
    | none => rfl
    | some stop =>
      have hstop : 0 < stop := by have := anglesFrom_bounds h; omega
      simp only [spanUpTo_eq k hstop, pure_bind]
      exact (apply_ite pure _ _ _).symm
  · rfl

theorem wordScan_eq (c : Code) (k : Nat) : wordScan c k = safe (c.wordSpans k) := by
  rw [wordScan, wordSpans, declaratorScan_eq, classScan_eq]
  by_cases habstract : c.text k = "abstract"
  · rw [if_pos habstract]
    simp only [habstract, safe_some]
  rw [if_neg habstract]
  by_cases hbinder : c.text k ∈ ["const", "let", "var"]
  · rw [if_pos hbinder]
    simp only [List.mem_cons, List.not_mem_nil, or_false] at hbinder
    rcases hbinder with ht | ht | ht
    all_goals simp only [ht, safe_some, apply_ite pure]
  rw [if_neg hbinder]
  by_cases hclass : c.text k = "class"
  · rw [if_pos hclass]
    simp only [hclass]
    split <;> rfl
  rw [if_neg hclass]
  simp only [List.mem_cons, List.not_mem_nil, or_false, not_or] at hbinder
  obtain ⟨hconst, hlet, hvar⟩ := hbinder
  split <;> first | rfl | contradiction

theorem assertsAt_eq (hk : k < c.size) :
    assertsAt c k = pure (0 < k && c.endsExpression (k - 1) && c.adjacent k) := by
  rw [assertsAt]
  by_cases h : 0 < k
  · rw [if_pos h, pred_eq h, pure_bind, beside_eq h hk]
    cases he : c.endsExpression (k - 1) with
    | false => simp [h]
    | true =>
      simp only [h, decide_true, Bool.true_and, if_true]
      rfl
  · simp [h]

theorem punctScan_eq (hk : k < c.size) :
    punctScan c (flagsOf c e.covers) k = pure (c.punctSpans e k) := by
  rw [punctScan, punctSpans, assertsAt_eq hk, pure_bind, signatureScan_eq hk, typeArgumentScan_eq]
  by_cases hmark : c.text k = "!"
  · rw [if_pos hmark]
    simp only [hmark]
  rw [if_neg hmark]
  by_cases hround : c.text k = "("
  · rw [if_pos hround]
    simp only [hround]
  rw [if_neg hround]
  by_cases hangle : c.text k = "<"
  · rw [if_pos hangle]
    simp only [hangle]
  rw [if_neg hangle]
  split <;> first | rfl | contradiction

theorem castScan_eq (hk : k < c.size) : castScan c (flagsOf c c.inClause) k =
    pure (if c.text k ∈ ["as", "satisfies"] && c.isCast k then some (c.typeEnd (k + 1))
      else none) := by
  rw [castScan, isCast, readAt, getElem?_flagsOf hk]
  by_cases h : 0 < k
  · rw [pred_eq h]
    simp only [pure_bind, typeScan_eq, h, decide_true, Bool.true_and, Bool.and_true,
      Bool.and_eq_true, decide_eq_true_eq, ← apply_ite pure, ← ite_and, and_assoc]
  · simp [h]

theorem statementScan_eq (hk : k < c.size) : statementScan c k =
    pure (if c.startsStatement k then c.typeStatementLast k else none) := by
  rw [statementScan, startsStatement_eq hk, pure_bind, typeStatementScan_eq]
  exact (apply_ite pure _ _ _).symm

/-- A visit faults nowhere. -/
theorem visit_eq (hk : k < c.size) :
    visit c (flagsOf c c.inClause) (flagsOf c e.covers) k =
      safe ((c.visit e k).map fun v => (v.spans, v.next)) := by
  rw [← visitScan_eq, visit, visitScan, statementScan_eq hk, Code.statementScan_eq, pure_bind]
  simp only [Option.bind_eq_bind, Option.bind_some]
  cases (if c.startsStatement k then c.typeStatementLast k else none) with
  | some last => rfl
  | none =>
    dsimp only
    rw [castScan_eq hk, Code.castScan_eq, wordScan_eq, Code.wordScan_eq, punctScan_eq hk,
      Code.punctScan_eq]
    split
    · simp only [pure_bind, Option.bind_some]
      by_cases hc : (decide (c.text k ∈ ["as", "satisfies"]) && c.isCast k) = true
      · simp only [hc, if_true]
        rw [spanUpTo_eq k (Nat.zero_lt_of_lt (lt_typeEnd_succ c k)), pure_bind]
        rfl
      · simp only [hc]
        cases c.wordSpans k <;> rfl
    · split <;> rfl

theorem visit_next_le {v : Visit k} (hk : k < c.size) (h : c.visit e k = some v) :
    v.next ≤ c.size := by
  unfold Code.visit at h
  split at h
  · rename_i last hl
    obtain rfl := Option.some.inj h
    exact typeStatementLast_lt (Option.ite_none_right_eq_some.mp hl).2
  · split at h
    · split at h
      · obtain rfl := Option.some.inj h
        exact (typeEnd_inRange c (k + 1)).2 hk
      · obtain ⟨spans, -, rfl⟩ := Option.map_eq_some_iff.mp h
        exact hk
    · split at h <;> obtain rfl := Option.some.inj h <;> exact hk

/-- A visit that never ends is one of a class, in whose body the scan stands still. -/
theorem visit_eq_none (h : c.visit e k = none) : ∃ brace close t,
    c.ClassAt k brace close ∧ c.ScansTo close ⟨brace + 1, true⟩ t ∧ t.index < close ∧
      c.StallsAt t.index := by
  obtain ⟨hkind, htext, hclass⟩ := (visit_eq_none_iff c e k).mp h
  obtain ⟨brace, hbody, hnone⟩ := (classSpans_eq_none_iff c k).mp hclass
  obtain ⟨close, hopens, hcloses, hspans⟩ := (classBody_eq_none_iff c brace).mp hnone
  obtain ⟨t, hscan, hlt, hstall⟩ := (memberSpans_eq_none_iff c close ⟨brace + 1, true⟩).mp hspans
  exact ⟨brace, close, t, ⟨hkind, htext, hbody, hopens, hcloses⟩, hscan, hlt, hstall⟩

theorem passLoop_eq (c : Code) (e : Erasure) (k : Nat) :
    passLoop c (flagsOf c c.inClause) (flagsOf c e.covers) k =
      safe ((c.erasureFrom e k).map fun e => flagsOf c e.covers) := by
  fun_induction erasureFrom c e k with
  | case1 e k hk hc ih =>
    rw [passLoop, if_pos hk, readAt, getElem?_flagsOf hk, pure_bind, if_pos hc, ih]
  | case2 e k hk hc hv =>
    rw [passLoop, if_pos hk, readAt, getElem?_flagsOf hk, pure_bind, if_neg hc, visit_eq hk, hv]
    rfl
  | case3 e k hk hc spans next hlt hv ih =>
    have hmark : mark (flagsOf c e.covers) spans = flagsOf c (Erasure.covers (spans ++ e)) := by
      rw [mark_flagsOf]
      congr 1
      funext i
      rw [Erasure.covers_append, Bool.or_comm]
    rw [passLoop, if_pos hk, readAt, getElem?_flagsOf hk, pure_bind, if_neg hc, visit_eq hk, hv,
      Option.map_some, safe_some, pure_bind]
    dsimp only
    rw [hmark, ih]
  | case4 e k hk => rw [passLoop, if_neg hk]; rfl

/-- Past the end of the program there are no flags. -/
theorem flagsOf_isErased (e : Erasure) : flagsOf c e.covers = flagsOf c (c.isErased e) := by
  refine Array.ext (by simp) fun i hi _ => ?_
  have hin : i < c.size := by simpa using hi
  simp [flagsOf, Code.isErased, hin]

theorem runLoop_eq (f : Nat → Bool) (k : Nat) :
    runLoop c (flagsOf c f) k = pure (c.runLast f k) := by
  fun_induction Code.runLast c f k with
  | case1 k hnext ih =>
    rw [runLoop, if_pos hnext.1, readAt, getElem?_flagsOf hnext.1, pure_bind, if_pos hnext.2, ih]
  | case2 k hstop =>
    rw [runLoop]
    by_cases h : k + 1 < c.size
    · rw [if_pos h, readAt, getElem?_flagsOf h, pure_bind, if_neg fun he => hstop ⟨h, he⟩]
    · rw [if_neg h]

theorem runLast_lt {f : Nat → Bool} (hk : k < c.size) : c.runLast f k < c.size := by
  fun_induction Code.runLast c f k with
  | case1 k hnext ih => exact ih hnext.1
  | case2 k hstop => exact hk

/-- The tokens at both ends of a run are there, and so the stretches are found. -/
theorem blankLoop_eq (c : Code) (f : Nat → Bool) (k : Nat) :
    blankLoop c (flagsOf c f) k = pure (c.blanks f k) := by
  fun_induction Code.blanks c f k with
  | case1 k hk herased ih =>
    obtain ⟨first, hfirst⟩ := exists_token hk
    obtain ⟨final, hfinal⟩ := exists_token (@runLast_lt c k f hk)
    rw [blankLoop, if_pos hk, readAt, getElem?_flagsOf hk, pure_bind, if_pos herased, runLoop_eq,
      pure_bind, tokenAt_eq hfirst, pure_bind, tokenAt_eq hfinal, pure_bind, ih, pure_bind,
      Code.startOf, Code.stopOf, hfirst, hfinal]
    rfl
  | case2 k hk hkept ih =>
    rw [blankLoop, if_pos hk, readAt, getElem?_flagsOf hk, pure_bind, if_neg hkept, ih]
  | case3 k hk => rw [blankLoop, if_neg hk]

/-! ### All of it -/

/-- A scan of the program from `p` on ends without a fault, no earlier and not past the
end of the program. -/
def EndsInside (c : Code) (p : Nat) (g : Guarded Nat) : Prop :=
  ∃ r, g = pure r ∧ p ≤ r ∧ r ≤ c.size

theorem Follows.endsInside {p : Nat} {g : Guarded Nat} {u : Option Nat}
    (h : Follows (InRange c p) g u) (hu : u.isSome) (hp : p ≤ c.size) : EndsInside c p g := by
  obtain ⟨r, hr, hin⟩ := h.ends hu
  exact ⟨r, hr, hin.1, hin.2 hp⟩

/-- A visit goes on further right, or has no end in the body of a class. -/
def VisitsInside (c : Code) (e : Erasure) (k : Nat) : Prop :=
  (∃ spans next, visit c (flagsOf c c.inClause) (flagsOf c e.covers) k = pure (spans, next) ∧
      c.Visits e k spans next ∧ k < next ∧ next ≤ c.size) ∨
    (visit c (flagsOf c c.inClause) (flagsOf c e.covers) k = safe none ∧
      ∃ brace close t, c.ClassAt k brace close ∧ c.ScansTo close ⟨brace + 1, true⟩ t ∧
        t.index < close ∧ c.StallsAt t.index)

/-- What the scans of a program read and return. -/
structure StaysInside (c : Code) : Prop where
  types : ∀ p, p ≤ c.size → EndsInside c p (typeScan c p)
  unions : ∀ p, p ≤ c.size → EndsInside c p (unionScan c p)
  members : ∀ p, p ≤ c.size → EndsInside c p (postfixScan c p)
  primaries : ∀ p, p ≤ c.size → EndsInside c p (primaryScan c p)
  angles : ∀ k, ∃ stop, angleLoop c k 0 = pure stop ∧ ∀ r ∈ stop, k < r ∧ r ≤ c.size
  typeStatements : ∀ k, ∃ last, typeStatementScan c k = pure last ∧
    ∀ r ∈ last, k < r ∧ r < c.size
  partners : matchBrackets c = pure c.partners
  clauses : markClauses c = pure (flagsOf c c.inClause)
  visits : ∀ (e : Erasure) (k : Nat), k < c.size → VisitsInside c e k

theorem visitsInside (e : Erasure) (hk : k < c.size) : VisitsInside c e k := by
  rw [VisitsInside, visit_eq hk]
  cases hv : c.visit e k with
  | some v =>
    exact .inl ⟨v.spans, v.next, rfl, by rw [Visits, hv]; rfl, v.lt_next, visit_next_le hk hv⟩
  | none => exact .inr ⟨rfl, visit_eq_none hv⟩

theorem staysInside (c : Code) : StaysInside c := by
  obtain ⟨htypes, hunions, -, hmembers, hprimaries, -⟩ := typeScans_follow c
  have hends := c.scansEnd
  exact {
    types := fun p hp => (htypes p).endsInside (hends.types p) hp
    unions := fun p hp => (hunions p).endsInside (hends.unions p) hp
    members := fun p hp => (hmembers p).endsInside (hends.members p) hp
    primaries := fun p hp => (hprimaries p).endsInside (hends.primaries p) hp
    angles := fun k => ⟨_, angleLoop_eq c k 0, fun r hr => anglesFrom_bounds hr⟩
    typeStatements := fun k => ⟨_, typeStatementScan_eq c k, fun r hr =>
      ⟨typeStatementLast_gt hr, typeStatementLast_lt hr⟩⟩
    partners := matchBrackets_eq c
    clauses := markClauses_eq c
    visits := fun e k hk => visitsInside e hk }

/-- The scans of every program stay inside it, and the pass over it, with its tables,
faults nowhere: it ends where the pass without guards does, with a flag for each token
that is erased and the stretches of the text that the erased tokens take up. -/
theorem pass_never_faults (c : Code) :
    StaysInside c ∧
      match c.erasure with
      | some e => pass c = pure (flagsOf c e.covers, c.blanks (c.isErased e) 0)
      | none => pass c = safe none := by
  refine ⟨staysInside c, ?_⟩
  have hpass := passLoop_eq c [] 0
  rw [pass, markClauses_eq, pure_bind]
  change passLoop c _ (flagsOf c fun _ => false) 0 = safe (c.erasure.map _) at hpass
  rw [hpass]
  cases c.erasure with
  | none => rfl
  | some e =>
    dsimp only
    rw [Option.map_some, safe_some, pure_bind, flagsOf_isErased, blankLoop_eq, pure_bind]

end Retouch.Code.Guarded
