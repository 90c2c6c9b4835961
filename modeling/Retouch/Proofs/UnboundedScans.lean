import Retouch.Proofs.ErasurePass

/-! The scans of the erasing pass with nothing that bounds them. Each is written
as the loop or recursion that it is, with no measure and no check of progress, and
`none` stands for a scan that never ends. All of them end on every list of tokens,
where the bounded ones do, except the loop over a class body; that one has no end
exactly where `memberSpans` has no value. -/

namespace Retouch.Code
open Syntax Erase

variable {c : Code} {i k p q m next : Nat}

/-! ### Types -/

/-- The loop over a list of type arguments. -/
def angleLoop (c : Code) (i : Nat) (depth : Int) : Option (Option Nat) :=
  if i < c.size then
    match c.angleItem i depth with
    | none => some none
    | some (last, d) =>
      if d = 0 then some (some (last + 1))
      else if d < 0 then some none
      else c |>.angleLoop (last + 1) d
  else some none
partial_fixpoint

/-- The loop over the index suffixes of a type. -/
def suffixLoop (c : Code) (q : Nat) : Option Nat :=
  if c.punct q "[" && c.sameLine q then
    match c.partner q with
    | some close => c |>.suffixLoop (close + 1)
    | none => some q
  else some q
partial_fixpoint

/-- The loop over the parts of a dotted name. -/
def dotLoop (c : Code) (q : Nat) : Option Nat :=
  if c.punct q "." && c.isName (q + 1) then c |>.dotLoop (q + 2) else some q
partial_fixpoint

/-- Past the type arguments at `q`, when there are any. -/
def argumentScan (c : Code) (q : Nat) : Option (Option Nat) :=
  if c.punct q "<" then c.angleLoop q 0 else some none

/-- Past the type parameters at `n`, when the tokens there can be some. -/
def typeParameterScan (c : Code) (n : Nat) : Option (Option Nat) :=
  if c.punct n "<" then c.angleLoop n 0 else some (some n)

mutual

def typeScan (c : Code) (p : Nat) : Option Nat := do
  let q : Nat ← c |>.unionScan p
  if q = p || !c.word q "extends" then some q
  else do
    let r : Nat ← c |>.unionScan (q + 1)
    if !c.punct r "?" then some r
    else do
      let s : Nat ← c |>.typeScan (r + 1)
      if c.punct s ":" then c |>.typeScan (s + 1) else some s
partial_fixpoint

def unionScan (c : Code) (p : Nat) : Option Nat :=
  c |>.unionLoop p (if c.isBar p then p + 1 else p)
partial_fixpoint

/-- The loop over the members of a union that begins at `start`. -/
def unionLoop (c : Code) (start p : Nat) : Option Nat := do
  let q : Nat ← c |>.postfixScan p
  if q = p then some (if p = start + 1 then start else p)
  else if c.isBar q then c |>.unionLoop start (q + 1)
  else some q
partial_fixpoint

def postfixScan (c : Code) (p : Nat) : Option Nat := do
  let q : Nat ← c |>.primaryScan p
  if q = p then some p else c.suffixLoop q
partial_fixpoint

def primaryScan (c : Code) (p : Nat) : Option Nat :=
  match c.kind? p with
  | some .punctuator =>
    match c.text p with
    | "(" =>
      match c.partner p with
      | some close =>
        if c.punct (close + 1) "=>" then c |>.typeScan (close + 2) else some (close + 1)
      | none => some p
    | "\x7b" | "[" => some ((c.partner p).elim p (· + 1))
    | "<" => do
      match ← c.angleLoop p 0 with
      | some q => c |>.primaryScan q
      | none => some p
    | "-" => some (if c.kind? (p + 1) = some .number then p + 2 else p)
    | _ => some p
  | some .string | some .number => some (p + 1)
  | some .template =>
    some (if closesTemplate (c.text p) then p + 1 else (c.templateEnd? (p + 1)).getD (p + 1))
  | some .identifier | some .keyword => c |>.namedScan p
  | _ => some p
partial_fixpoint

def namedScan (c : Code) (p : Nat) : Option Nat :=
  if c.text p ∈ typeOperators then do
    let m : Nat ← c |>.primaryScan (p + 1)
    if p + 1 < m then c |>.postfixScan (p + 1) else c |>.nameScan p
  else if c.text p = "new" then c |>.primaryScan (p + 1)
  else c |>.nameScan p
partial_fixpoint

def nameScan (c : Code) (p : Nat) : Option Nat := do
  let q ← c.dotLoop (p + 1)
  let stop ← c.argumentScan q
  let r := stop.getD q
  if c.word r "is" then c |>.typeScan (r + 1) else some r
partial_fixpoint

end

theorem angleLoop_eq (c : Code) (i : Nat) (depth : Int) :
    c.angleLoop i depth = some (c.anglesFrom i depth) := by
  fun_induction anglesFrom c i depth with
  | case1 i depth h =>
    rw [angleLoop, h]
    simp
  | case2 i depth last h =>
    have := angleItem_bounds h
    rw [angleLoop, if_pos (by omega), h]
    simp
  | case3 i depth last d h hd hn =>
    have := angleItem_bounds h
    rw [angleLoop, if_pos (by omega), h]
    simp [hd, hn]
  | case4 i depth last d h hd hn ih =>
    have := angleItem_bounds h
    rw [angleLoop, if_pos (by omega), h]
    simp [hd, hn, ih]

theorem suffixLoop_eq (c : Code) (q : Nat) : c.suffixLoop q = some (c.suffixesEnd q) := by
  fun_induction suffixesEnd c q with
  | case1 q close h hb ih => rw [suffixLoop, if_pos hb, h, ← ih]
  | case2 q close h hb => rw [suffixLoop, if_neg hb]
  | case3 q h =>
    rw [suffixLoop, h]
    simp

theorem dotLoop_eq (c : Code) (q : Nat) : c.dotLoop q = some (c.dottedEnd q) := by
  fun_induction dottedEnd c q with
  | case1 q h ih => rw [dotLoop, if_pos h, ih]
  | case2 q h => rw [dotLoop, if_neg h]

theorem argumentScan_eq (c : Code) (q : Nat) :
    c.argumentScan q = some (if c.punct q "<" then c.angleEnd q else none) := by
  rw [argumentScan, angleLoop_eq]
  split <;> rfl

theorem typeParameterScan_eq (c : Code) (n : Nat) :
    c.typeParameterScan n = some (if c.punct n "<" then c.angleEnd n else some n) := by
  rw [typeParameterScan, angleLoop_eq]
  split <;> rfl

/-- The scans of a type from `p` on end, where the bounded ones do. A union that
begins with a bar and has no member ends before the bar. -/
structure Agrees (c : Code) (p : Nat) : Prop where
  type : c.typeScan p = some (c.typeFrom p).1
  union : c.unionScan p = some (c.unionFrom p).1
  members : ∀ start, start ≤ p → c.unionLoop start p = some
    (if (c.unionMembers p).1 = p ∧ p = start + 1 then start else (c.unionMembers p).1)
  primary : c.primaryScan p = some (c.primaryFrom p).1

theorem nameScan_eq (ih : ∀ r, p < r → p < c.size → c.Agrees r) :
    c.nameScan p = some (c.nameFrom p).1 := by
  have hp : p + 1 ≤ c.argumentsEnd (c.dottedEnd (p + 1)) :=
    Nat.le_trans (le_dottedEnd c (p + 1)) (le_argumentsEnd c _)
  have harguments : (if c.punct (c.dottedEnd (p + 1)) "<" then c.angleEnd (c.dottedEnd (p + 1))
      else none).getD (c.dottedEnd (p + 1)) = c.argumentsEnd (c.dottedEnd (p + 1)) := by
    rw [argumentsEnd]
    split <;> rfl
  rw [nameScan, dotLoop_eq]
  simp only [Option.bind_eq_bind, Option.bind_some, argumentScan_eq, harguments]
  cases hw : c.word (c.argumentsEnd (c.dottedEnd (p + 1))) "is" with
  | false => rw [nameFrom_plain rfl hw]; simp
  | true =>
    have := lt_size_of_word hw
    rw [nameFrom_predicate rfl hw, if_pos rfl, (ih _ (by omega) (by omega)).type]

theorem postfixScan_eq (h : c.primaryScan p = some (c.primaryFrom p).1) :
    c.postfixScan p = some
      (if (c.primaryFrom p).1 = p then p else c.suffixesEnd (c.primaryFrom p).1) := by
  rw [postfixScan, h]
  simp only [Option.bind_eq_bind, Option.bind_some, suffixLoop_eq]
  split <;> rfl

theorem namedScan_eq (hn : c.isName p = true) (ih : ∀ r, p < r → p < c.size → c.Agrees r) :
    c.namedScan p = some (c.namedFrom p).1 := by
  have hp := (ih (p + 1) (by omega) (lt_size_of_isName hn)).primary
  rw [namedScan]
  by_cases ho : c.text p ∈ typeOperators
  · rw [if_pos ho, hp]
    simp only [Option.bind_eq_bind, Option.bind_some]
    split
    · rename_i hm
      rw [namedFrom_operator hn ho rfl hm, postfixScan_eq hp, if_neg (by omega)]
    · rename_i hm
      rw [nameScan_eq ih, namedFrom]
      simp [hn, ho, hm]
  · rw [if_neg ho]
    split
    · rename_i ht
      rw [namedFrom_new hn ht, hp]
    · rename_i ht
      rw [namedFrom_name hn ho ht, nameScan_eq ih]

theorem primaryScan_eq (ih : ∀ r, p < r → p < c.size → c.Agrees r) :
    c.primaryScan p = some (c.primaryFrom p).1 := by
  rw [primaryScan]
  split
  · rename_i hk
    have hs := lt_size_of_kind? hk
    split
    · rename_i ht
      split
      · rename_i close hc
        have := partner_bounds hc
        rw [primaryFrom_round hk ht hc, (ih (close + 2) (by omega) hs).type]
        split <;> rfl
      · rename_i hc
        rw [primaryFrom]
        simp only [hk, ht]
        split <;> simp_all
    · rename_i ht
      rw [primaryFrom]
      simp only [hk, ht]
      split <;> simp_all
    · rename_i ht
      rw [primaryFrom]
      simp only [hk, ht]
      split <;> simp_all
    · rename_i ht
      rw [angleLoop_eq]
      simp only [Option.bind_eq_bind, Option.bind_some]
      cases ha : c.anglesFrom p 0 with
      | some q =>
        have hq := angleEnd_bounds ha
        rw [primaryFrom_angle hk ht ha]
        exact (ih q hq.1 hs).primary
      | none =>
        rw [primaryFrom]
        simp only [hk, ht]
        split
        · rename_i q hq
          exact absurd (ha.symm.trans hq) (by simp)
        · rfl
    · rename_i ht
      rw [primaryFrom]
      simp only [hk, ht]
      split <;> simp
    · rw [primaryFrom]
      simp only [hk]
  · rename_i hk
    rw [primaryFrom]
    simp [hk]
  · rename_i hk
    rw [primaryFrom]
    simp [hk]
  · rename_i hk
    rw [primaryFrom]
    simp only [hk]
    split
    · rfl
    · split <;> simp_all
  · rename_i hk
    have hn : c.isName p = true := by simp [isName, hk]
    rw [primaryFrom_named hn, namedScan_eq hn ih]
  · rename_i hk
    have hn : c.isName p = true := by simp [isName, hk]
    rw [primaryFrom_named hn, namedScan_eq hn ih]
  · rw [primaryFrom]
    split <;> simp_all

theorem unionLoop_eq (h : c.primaryScan p = some (c.primaryFrom p).1)
    (ih : ∀ r, p < r → p < c.size → c.Agrees r) (start : Nat) (hs : start ≤ p) :
    c.unionLoop start p = some
      (if (c.unionMembers p).1 = p ∧ p = start + 1 then start else (c.unionMembers p).1) := by
  rw [unionLoop, postfixScan_eq h]
  simp only [Option.bind_eq_bind, Option.bind_some]
  by_cases hm : (c.primaryFrom p).1 = p
  · have hu : (c.unionMembers p).1 = p := by
      rw [unionMembers]
      simp [hm]
    simp [hm, hu]
  · have hp : p < (c.primaryFrom p).1 := by have := (c.primaryFrom p).2; omega
    have hq := le_suffixesEnd c (c.primaryFrom p).1
    rw [if_neg hm, if_neg (by omega)]
    cases hb : c.isBar (c.suffixesEnd (c.primaryFrom p).1) with
    | false =>
      rw [unionMembers_last rfl hp hb, if_neg (by simp), if_neg (by omega)]
    | true =>
      have := lt_size_of_isBar hb
      rw [unionMembers_bar rfl hp hb, if_pos rfl,
        (ih _ (by omega) (by omega)).members start (by omega)]
      have := (c.unionMembers (c.suffixesEnd (c.primaryFrom p).1 + 1)).2
      rw [if_neg (by omega), if_neg (by omega)]

theorem unionScan_eq (hm : ∀ start, start ≤ p → c.unionLoop start p = some
      (if (c.unionMembers p).1 = p ∧ p = start + 1 then start else (c.unionMembers p).1))
    (ih : ∀ r, p < r → p < c.size → c.Agrees r) : c.unionScan p = some (c.unionFrom p).1 := by
  rw [unionScan]
  cases hb : c.isBar p with
  | false => rw [unionFrom_members hb, if_neg (by simp), hm p (Nat.le_refl p), if_neg (by omega)]
  | true =>
    have hs := lt_size_of_isBar hb
    rw [if_pos rfl, (ih (p + 1) (by omega) hs).members p (by omega), unionFrom]
    simp only [hb, and_true, dite_true]
    split <;> rfl

theorem typeScan_eq_of (hu : c.unionScan p = some (c.unionFrom p).1)
    (ih : ∀ r, p < r → p < c.size → c.Agrees r) : c.typeScan p = some (c.typeFrom p).1 := by
  rw [typeScan, hu, typeFrom]
  rcases c.unionFrom p with ⟨q, hq⟩
  simp only [Option.bind_eq_bind, Option.bind_some]
  by_cases hw : p < q ∧ c.word q "extends" = true
  · have hs : p < c.size := by have := lt_size_of_word hw.2; omega
    rw [dif_pos hw, if_neg (by simp [hw.2]; omega), (ih (q + 1) (by omega) hs).union]
    rcases c.unionFrom (q + 1) with ⟨r, hr⟩
    simp only [Option.bind_some]
    cases hp : c.punct r "?" with
    | false => rfl
    | true =>
      simp only [Bool.not_true, Bool.false_eq_true, if_false, dite_true]
      rw [(ih (r + 1) (by omega) hs).type]
      rcases c.typeFrom (r + 1) with ⟨s, hs'⟩
      simp only [Option.bind_some, (ih (s + 1) (by omega) hs).type]
      split <;> rfl
  · rw [dif_neg hw, if_pos]
    by_cases he : q = p
    · simp [he]
    · have : c.word q "extends" = false := by
        simpa using fun h => hw ⟨by omega, h⟩
      simp [this]

theorem agrees (c : Code) (p : Nat) : c.Agrees p := by
  induction hn : c.size - p using Nat.strongRecOn generalizing p with
  | ind n ih =>
    have hlater : ∀ r, p < r → p < c.size → c.Agrees r := by
      intro r hr hp
      exact ih (c.size - r) (by omega) r rfl
    have hprimary := primaryScan_eq hlater
    have hmembers := unionLoop_eq hprimary hlater
    have hunion := unionScan_eq hmembers hlater
    exact ⟨typeScan_eq_of hunion hlater, hunion, hmembers, hprimary⟩

theorem typeScan_eq (c : Code) (p : Nat) : c.typeScan p = some (c.typeEnd p) := (c.agrees p).type

/-! ### Signatures -/

/-- The loop back over erased tokens before `p`. -/
def keptLoop (c : Code) (erased : Erasure) (p : Nat) : Option Nat :=
  if 0 < p && erased.covers (p - 1) then c |>.keptLoop erased (p - 1) else some p
partial_fixpoint

def declarationScan (c : Code) (erased : Erasure) (k : Nat) : Option Bool := do
  let p ← c.keptLoop erased k
  if p = 0 then some false
  else
    some <| match c.kind? (p - 1) with
      | some .identifier => true
      | some .keyword => c.text (p - 1) ∈ ["function", "catch", "get", "set"]
      | _ => false

/-- The loop over the modifiers of a parameter. -/
def modifierLoop (c : Code) (i : Nat) : Option Nat :=
  if c.isName i && c.text i ∈ modifiers &&
      (c.isName (i + 1) || c.text (i + 1) ∈ ["\x7b", "["]) then
    c |>.modifierLoop (i + 1)
  else some i
partial_fixpoint

/-- What the loop over a parameter list goes on with: the next token, whether a
parameter begins there, and whether a default value goes on. -/
structure ParameterPlace where
  next : Nat
  front : Bool
  inDefault : Bool

/-- One turn of that loop past the front of a parameter. -/
def parameterTurn (c : Code) (i : Nat) (inDefault : Bool) : Option (Erasure × ParameterPlace) :=
  match c.text i with
  | "(" | "[" | "\x7b" => some ([], ⟨c.afterGroup i, false, inDefault⟩)
  | "," => some ([], ⟨i + 1, true, false⟩)
  | "=" => some ([], ⟨i + 1, false, true⟩)
  | "?" =>
    if !inDefault && c.text (i + 1) ∈ [":", ",", ")"] then
      some ([.single i], ⟨i + 1, false, inDefault⟩)
    else some ([], ⟨i + 1, false, inDefault⟩)
  | ":" =>
    if !inDefault then do
      let stop ← c.typeScan (i + 1)
      some ([.upTo i stop], ⟨stop, false, inDefault⟩)
    else some ([], ⟨i + 1, false, inDefault⟩)
  | _ => some ([], ⟨i + 1, false, inDefault⟩)

/-- The loop over a parameter list. -/
def parameterLoop (c : Code) (close i : Nat) (front inDefault : Bool) : Option Erasure :=
  if i < close then do
    let m ← if front then c.modifierLoop i else some i
    let erasedModifiers := if i < m then [Span.upTo i m] else []
    if front && c.word m "this" && c.punct (m + 1) ":" then do
      let stop ← c.typeScan (m + 2)
      let next := if c.punct stop "," then stop + 1 else stop
      let rest : Erasure ← c |>.parameterLoop close next true inDefault
      some (erasedModifiers ++ .upTo m next :: rest)
    else do
      let (spans, place) ← c.parameterTurn m inDefault
      let rest : Erasure ← c |>.parameterLoop close place.next place.front place.inDefault
      some (erasedModifiers ++ spans ++ rest)
  else some []
partial_fixpoint

def signatureScan (c : Code) (erased : Erasure) (k : Nat) : Option Erasure :=
  match c.partner k with
  | none => some []
  | some close =>
    match c.text (close + 1) with
    | "=>" => c.parameterLoop close (k + 1) true false
    | ":" => do
      let stop ← c.typeScan (close + 2)
      let declares ← c.declarationScan erased k
      if c.punct stop "=>" || (c.punct stop "\x7b" && declares) then do
        let spans ← c.parameterLoop close (k + 1) true false
        some (spans ++ [Span.upTo (close + 1) stop])
      else some []
    | "\x7b" => do
      if ← c.declarationScan erased k then c.parameterLoop close (k + 1) true false else some []
    | _ => some []

theorem keptLoop_eq (c : Code) (erased : Erasure) (p : Nat) :
    c.keptLoop erased p = some ((lastKept erased p).elim 0 (· + 1)) := by
  induction p with
  | zero =>
    rw [keptLoop]
    rfl
  | succ p ih =>
    rw [keptLoop, lastKept]
    cases hc : erased.covers p with
    | false => simp [hc]
    | true => simp [hc, ih]

theorem declarationScan_eq (c : Code) (erased : Erasure) (k : Nat) :
    c.declarationScan erased k = some (c.declaresFunction erased k) := by
  rw [declarationScan, declaresFunction, keptLoop_eq]
  cases lastKept erased k with
  | none => rfl
  | some before =>
    simp only [Option.elim_some, Option.bind_eq_bind, Option.bind_some, Nat.add_sub_cancel]
    exact if_neg (Nat.succ_ne_zero before)

theorem modifierLoop_eq (c : Code) (i : Nat) : c.modifierLoop i = some (c.modifiersEnd i) := by
  fun_induction modifiersEnd c i with
  | case1 i h ih => rw [modifierLoop, if_pos h, ih]
  | case2 i h => rw [modifierLoop, if_neg h]

/-- A closing bracket stands at `k`. -/
def Closes (c : Code) (k : Nat) : Prop :=
  c.kind? k = some .punctuator ∧ c.text k ∈ [")", "]", "\x7d"]

/-- What takes the last open bracket off a stack is a closing one. -/
theorem closer?_of_distance {stack : List Bracket} {ts : List Token} {n : Nat}
    (h : distance stack ts = some n) (hs : stack ≠ []) :
    ∃ t, ts[n]? = some t ∧ (closer? t).isSome := by
  induction ts generalizing stack n with
  | nil => simp [distance] at h
  | cons t ts ih =>
    rw [distance] at h
    cases hafter : afterToken stack t with
    | nil =>
      rw [hafter] at h
      obtain rfl : 0 = n := Option.some.inj h
      refine ⟨t, rfl, ?_⟩
      unfold afterToken at hafter
      split at hafter
      · cases hafter
      · split at hafter
        · simp_all
        · exact absurd hafter hs
    | cons x xs =>
      rw [hafter] at h
      obtain ⟨m, hm, rfl⟩ := Option.map_eq_some_iff.mp h
      exact ih hm (by simp)

theorem closes_of_partner {close : Nat} (hp : c.partner k = some close) : c.Closes close := by
  have hk : k < c.tokens.toList.length := by
    have := partner_bounds hp
    simp only [size] at this
    simp only [Array.length_toList]
    omega
  obtain ⟨t, ts, hf⟩ : ∃ t ts, c.From k (t :: ts) := ⟨_, _, List.drop_eq_getElem_cons hk⟩
  rw [hf.partner] at hp
  obtain ⟨b, -, hp⟩ := Option.bind_eq_some_iff.mp hp
  obtain ⟨n, hn, rfl⟩ := Option.map_eq_some_iff.mp hp
  obtain ⟨z, hz, hcloser⟩ := closer?_of_distance hn (by simp)
  have htoken : c.tokens[k + 1 + n]? = some z := by
    rw [← hf.tail, List.getElem?_drop] at hz
    simpa using hz
  have hclose : z.kind = .punctuator ∧ z.text ∈ [")", "]", "\x7d"] := by
    unfold closer? at hcloser
    split at hcloser
    · split at hcloser <;> simp_all
    · cases hcloser
  simpa [Closes, kind?, text, htoken] using hclose

/-- Modifiers end before the bracket that closes their parameter list. -/
theorem modifiersEnd_lt {close : Nat} (hi : i < close) (hc : c.Closes close) :
    c.modifiersEnd i < close := by
  fun_induction modifiersEnd c i with
  | case1 i h ih =>
    refine ih ?_
    have hne : i + 1 ≠ close := by
      rintro rfl
      simp only [isName, hc.1, Bool.and_eq_true, Bool.or_eq_true, decide_eq_true_eq] at h
      rcases h.2 with hk | ht
      · simp at hk
      · exact absurd hc.2 ((by decide : ∀ s ∈ ["\x7b", "["], s ∉ [")", "]", "\x7d"]) _ ht)
    omega
  | case2 => exact hi

/-- Where a parameter list stands, as `parameterSpans` has it. -/
def ParameterState.state (front inDefault : Bool) : ParameterState :=
  if front then .front else if inDefault then .default else .name

theorem parameterTurn_spec {close : Nat} (hm : m < close) (inDefault : Bool) :
    ∃ spans place, c.parameterTurn m inDefault = some (spans, place) ∧ m < place.next ∧
      (place.front = true → place.inDefault = false) ∧
      c.parameterSpans close m (.state false inDefault) =
        spans ++ c.parameterSpans close place.next (.state place.front place.inDefault) := by
  have hg := lt_afterGroup c m
  have ht := le_typeEnd c (m + 1)
  rw [parameterTurn, parameterSpans.eq_def, dif_pos hm, typeScan_eq]
  cases inDefault
  all_goals
    simp only [ParameterState.state, Bool.false_eq_true, if_false, if_true]
    split
    · exact ⟨_, _, rfl, hg, by simp, by simp [*]⟩
    · exact ⟨_, _, rfl, hg, by simp, by simp [*]⟩
    · exact ⟨_, _, rfl, hg, by simp, by simp [*]⟩
    · exact ⟨_, _, rfl, Nat.lt_succ_self m, by simp, by simp [*]⟩
    · exact ⟨_, _, rfl, Nat.lt_succ_self m, by simp, by simp [*]⟩
    · split
      · exact ⟨_, _, rfl, Nat.lt_succ_self m, by simp, by simp_all⟩
      · exact ⟨_, _, rfl, Nat.lt_succ_self m, by simp, by simp_all⟩
    · first
        | exact ⟨_, _, rfl, ht, by simp, by simp [*]⟩
        | exact ⟨_, _, rfl, Nat.lt_succ_self m, by simp, by simp [*]⟩
    · exact ⟨_, _, rfl, Nat.lt_succ_self m, by simp, by simp⟩

theorem parameterLoop_eq {close : Nat} (hc : c.Closes close) (i : Nat)
    (front inDefault : Bool) (hf : front = true → inDefault = false) :
    c.parameterLoop close i front inDefault =
      some (c.parameterSpans close i (.state front inDefault)) := by
  induction hn : close - i using Nat.strongRecOn generalizing i front inDefault with
  | ind n ih =>
    rw [parameterLoop]
    by_cases hi : i < close
    · rw [if_pos hi]
      cases front with
      | false =>
        obtain ⟨spans, place, hturn, hlt, hplace, heq⟩ := c.parameterTurn_spec hi inDefault
        have hrest := ih (close - place.next) (by omega) place.next _ _ hplace rfl
        simp [hturn, hrest, heq]
      | true =>
        obtain rfl := hf rfl
        have hm := modifiersEnd_lt hi hc
        have hle := le_modifiersEnd c i
        rw [parameterSpans.eq_def, dif_pos hi]
        simp only [modifierLoop_eq, typeScan_eq, ParameterState.state, if_true, Bool.true_and,
          Option.bind_eq_bind, Option.bind_some]
        split
        · have ht := le_afterThis c (c.modifiersEnd i)
          have hrest := ih (close - c.afterThis (c.modifiersEnd i)) (by omega) _ true false
            (fun _ => rfl) rfl
          rw [afterThis] at hrest ⊢
          rw [hrest]
          rfl
        · obtain ⟨spans, place, hturn, hlt, hplace, heq⟩ := c.parameterTurn_spec hm false
          have hrest := ih (close - place.next) (by omega) place.next _ _ hplace rfl
          simp only [ParameterState.state, Bool.false_eq_true, if_false] at heq hrest
          simp [hturn, hrest, heq]
    · rw [if_neg hi, parameterSpans.eq_def, dif_neg hi]

theorem signatureScan_eq (c : Code) (erased : Erasure) (k : Nat) :
    c.signatureScan erased k = some (c.signatureSpans erased k) := by
  rw [signatureScan, signatureSpans]
  cases hp : c.partner k with
  | none => rfl
  | some close =>
    have hloop := parameterLoop_eq (closes_of_partner hp) (k + 1) true false (fun _ => rfl)
    simp only [typeScan_eq, declarationScan_eq, hloop, ParameterState.state, if_true,
      Option.bind_eq_bind, Option.bind_some, ← apply_ite some]
    split <;> simp [*]

/-! ### Classes -/

/-- The loop over the modifiers of a member. -/
def leadLoop (c : Code) (i : Nat) : Option (Erasure × Nat) :=
  if c.isName i && c.text i ∈ modifiers && c.nameFollows i then do
    let (spans, j) ← (c |>.leadLoop (i + 1) : Option (Erasure × Nat))
    some (.single i :: spans, j)
  else if c.isName i && c.text i ∈ memberWords && c.nameFollows i then
    c |>.leadLoop (i + 1)
  else if c.punct i "*" then c |>.leadLoop (i + 1)
  else some ([], i)
partial_fixpoint

def tailScan (c : Code) (after : Nat) : Option (Erasure × Nat) :=
  let marked := (c.punct after "?" || c.punct after "!") &&
    c.text (after + 1) ∈ [":", "(", ";", "=", "\x7d"]
  let colon := if marked then after + 1 else after
  let marker := if marked then [Span.single after] else []
  if c.punct colon ":" then do
    let stop ← c.typeScan (colon + 1)
    some (marker ++ [Span.upTo colon stop], stop)
  else some (marker, colon)

def memberScan (c : Code) (i : Nat) : Option (Erasure × Nat) := do
  let (lead, j) ← c.leadLoop i
  match c.memberName j with
  | .error next => some (lead, next)
  | .ok after => do
    let (tail, next) ← c.tailScan after
    some (lead ++ tail, next)

/-- The loop over the superclass of a class. -/
def heritageLoop (c : Code) (n : Nat) : Option (Erasure × Nat) :=
  if n < c.size && !(c.punct n "\x7b" || c.word n "implements") then do
    match ← c.argumentScan n with
    | some stop => do
      let (spans, m) ← (c |>.heritageLoop stop : Option (Erasure × Nat))
      some (.upTo n stop :: spans, m)
    | none =>
      if c.text n ∈ ["(", "["] then c |>.heritageLoop (c.afterGroup n)
      else c |>.heritageLoop (n + 1)
  else some ([], n)
partial_fixpoint

theorem leadLoop_eq (c : Code) (i : Nat) : c.leadLoop i = some (c.memberLead i) := by
  fun_induction memberLead c i with
  | case1 i hi h spans j hj ih =>
    rw [leadLoop, if_pos h, ih, hj]
    rfl
  | case2 i hi h h' ih => rw [leadLoop, if_neg h, if_pos h', ih]
  | case3 i hi h h' hs ih => rw [leadLoop, if_neg h, if_neg h', if_pos hs, ih]
  | case4 i hi h h' hs => rw [leadLoop, if_neg h, if_neg h', if_neg hs]
  | case5 i hi =>
    have hn : ¬ c.isName i = true := fun h => hi (lt_size_of_isName h)
    have hs : ¬ c.punct i "*" = true := fun h => hi (lt_size_of_punct h)
    rw [leadLoop]
    simp [hn, hs]

theorem tailScan_eq (c : Code) (after : Nat) : c.tailScan after = some (c.memberTail after) := by
  rw [tailScan, memberTail, typeScan_eq]
  exact (apply_ite some _ _ _).symm

theorem memberScan_eq (c : Code) (i : Nat) : c.memberScan i = some (c.member i) := by
  rw [memberScan, member, leadLoop_eq]
  simp only [Option.bind_eq_bind, Option.bind_some, tailScan_eq]
  cases c.memberName (c.memberLead i).2 <;> rfl

theorem heritageLoop_eq (c : Code) (n : Nat) : c.heritageLoop n = some (c.heritage n) := by
  fun_induction heritage c n with
  | case1 n hn h => rw [heritageLoop, if_neg (by simp [h])]
  | case2 n hn h hg stop ha spans m hm ih =>
    rw [dite_eq_ite] at ha
    rw [heritageLoop, if_pos (by simp [h, hn]), argumentScan_eq, ha]
    simp [ih, hm]
  | case3 n hn h hg ha ht ih =>
    rw [dite_eq_ite] at ha
    rw [heritageLoop, if_pos (by simp [h, hn]), argumentScan_eq, ha]
    simp only [Option.bind_eq_bind, Option.bind_some]
    rw [if_pos ht, ih]
  | case4 n hn h hg ha ht ih =>
    rw [dite_eq_ite] at ha
    rw [heritageLoop, if_pos (by simp [h, hn]), argumentScan_eq, ha]
    simp only [Option.bind_eq_bind, Option.bind_some]
    rw [if_neg ht, ih]
  | case5 n hn => rw [heritageLoop, if_neg (by simp [hn])]

/-! ### Statements of types -/

/-- The loop over an ambient declaration. -/
def ambientLoop (c : Code) (i : Nat) : Option (Option Nat) :=
  if i < c.size then
    match c.text i with
    | "(" | "[" =>
      match c.partner i with
      | some close => c |>.ambientLoop (close + 1)
      | none => some none
    | "\x7b" => some ((c.partner i).map fun close => c.statementLast (close + 1))
    | ";" => some (some i)
    | ":" => do
      let stop ← c.typeScan (i + 1)
      some (some (c.statementLast stop))
    | _ => c |>.ambientLoop (i + 1)
  else some none
partial_fixpoint

def aliasScan (c : Code) (d : Nat) : Option (Option Nat) := do
  match ← c.typeParameterScan (d + 2) with
  | none => some none
  | some n =>
    if c.punct n "=" then do
      let stop ← c.typeScan (n + 1)
      some (some (c.statementLast stop))
    else some none

def declarationLastScan (c : Code) (d : Nat) : Option (Option Nat) :=
  if c.kind? d = some .keyword then
    match c.text d with
    | "interface" =>
      some <| if c.kind? (d + 1) = some .identifier then
        (c.findPunct (d + 2) "\x7b").bind c.partner
      else none
    | "type" => if c.kind? (d + 1) = some .identifier then c.aliasScan d else some none
    | "declare" => c.ambientLoop (d + 1)
    | _ => some none
  else some none

def typeStatementScan (c : Code) (k : Nat) : Option (Option Nat) :=
  c.declarationLastScan (if c.word k "export" then k + 1 else k)

theorem ambientLoop_eq (c : Code) (i : Nat) : c.ambientLoop i = some (c.ambientLast i) := by
  fun_induction ambientLast c i with
  | case1 i hi ht close hp ih => rw [ambientLoop]; simp [hi, ht, hp, ih]
  | case2 i hi ht hp => rw [ambientLoop]; simp [hi, ht, hp]
  | case3 i hi ht close hp ih => rw [ambientLoop]; simp [hi, ht, hp, ih]
  | case4 i hi ht hp => rw [ambientLoop]; simp [hi, ht, hp]
  | case5 i hi ht => rw [ambientLoop]; simp [hi, ht]
  | case6 i hi ht => rw [ambientLoop]; simp [hi, ht]
  | case7 i hi ht => rw [ambientLoop]; simp [hi, ht, typeScan_eq]
  | case8 i hi h₁ h₂ h₃ h₄ h₅ ih => rw [ambientLoop]; simp [hi, ih]
  | case9 i hi => rw [ambientLoop, if_neg hi]

theorem aliasScan_eq (c : Code) (d : Nat) : c.aliasScan d = some (c.aliasLast d) := by
  rw [aliasScan, aliasLast, typeParameterScan_eq]
  simp only [Option.bind_eq_bind, Option.bind_some, typeScan_eq, ← apply_ite some]
  split <;> simp [*]

theorem declarationLastScan_eq (c : Code) (d : Nat) :
    c.declarationLastScan d = some (c.declarationLast d) := by
  rw [declarationLastScan, declarationLast]
  simp only [aliasScan_eq, ambientLoop_eq, ← apply_ite some]
  split
  · split <;> simp [*]
  · rfl

theorem typeStatementScan_eq (c : Code) (k : Nat) :
    c.typeStatementScan k = some (c.typeStatementLast k) := declarationLastScan_eq c _

end Retouch.Code
