import Retouch.Proofs.GuardedReads

/-! The scans of the erasing pass, with every index checked. Each is the scan of the
same name with nothing that bounds it, reads its tables through the guard, and takes
one off the end of what it erases through it. None of them faults: a scan of a type
that begins inside the program or at its end also ends there, and every other index is
one at which a token has been seen. -/

namespace Retouch.Code.Guarded
open Syntax Erase

variable {α β : Type} {c : Code} {i k p n : Nat}

/-! ### Scans that follow others -/

/-- What the scan `u` gives, the guarded scan `g` gives without a fault, and it has the
property `Q`. -/
def Follows (Q : α → Prop) (g : Guarded α) (u : Option α) : Prop :=
  ∀ a, u = some a → g = pure a ∧ Q a

namespace Follows
variable {P Q : α → Prop} {R : β → Prop} {g g' : Guarded α} {u u' : Option α} {a : α}

theorem pure (h : Q a) : Follows Q (pure a) (some a) := by
  rintro _ ⟨⟩
  exact ⟨rfl, h⟩

theorem bind {f : α → Guarded β} {v : α → Option β} (h : Follows P g u)
    (hf : ∀ a, P a → Follows R (f a) (v a)) : Follows R (g >>= f) (u >>= v) := by
  intro b hb
  obtain ⟨a, ha, hb⟩ := Option.bind_eq_some_iff.mp hb
  obtain ⟨rfl, hP⟩ := h a ha
  rw [pure_bind]
  exact hf a hP b hb

theorem ite {C : Prop} [Decidable C] (ht : C → Follows Q g u) (he : ¬ C → Follows Q g' u') :
    Follows Q (if C then g else g') (if C then u else u') := by
  split
  · exact ht ‹_›
  · exact he ‹_›

theorem mono (h : Follows P g u) (hPQ : ∀ a, P a → Q a) : Follows Q g u :=
  fun a ha => ⟨(h a ha).1, hPQ a (h a ha).2⟩

theorem ends (h : Follows Q g u) (hu : u.isSome) : ∃ a, g = Pure.pure a ∧ Q a := by
  obtain ⟨a, rfl⟩ := Option.isSome_iff_exists.mp hu
  exact ⟨a, h a rfl⟩

end Follows

/-! ### Types -/

/-- Only an opening bracket makes the scan of type arguments read a table. -/
def angleItem (c : Code) (i : Nat) (depth : Int) : Guarded (Option (Nat × Int)) :=
  if c.kind? i = some .punctuator ∧ c.text i ∈ ["(", "[", "\x7b"] then do
    let close ← partnerAt c i
    pure (close.map (·, depth))
  else pure (c.angleItem i depth)

def Tables.angleLoop (c : Tables) (i : Nat) (depth : Int) : Guarded (Option Nat) :=
  if i < c.size then do
    match ← angleItem c i depth with
    | none => pure none
    | some (last, d) =>
      if d = 0 then pure (some (last + 1))
      else if d < 0 then pure none
      else c |>.angleLoop (last + 1) d
  else pure none
partial_fixpoint

def Tables.suffixLoop (c : Tables) (q : Nat) : Guarded Nat :=
  if c.punct q "[" then do
    if ← beside c q fun a b => a.stop.line = b.start.line then
      match ← partnerAt c q with
      | some close => c |>.suffixLoop (close + 1)
      | none => pure q
    else pure q
  else pure q
partial_fixpoint

export Tables (angleLoop suffixLoop)

def argumentScan (c : Code) (q : Nat) : Guarded (Option Nat) :=
  if c.punct q "<" then angleLoop c q 0 else pure none

mutual

def Tables.typeScan (c : Tables) (p : Nat) : Guarded Nat := do
  let q : Nat ← c |>.unionScan p
  if q = p || !c.word q "extends" then pure q
  else do
    let r : Nat ← c |>.unionScan (q + 1)
    if !c.punct r "?" then pure r
    else do
      let s : Nat ← c |>.typeScan (r + 1)
      if c.punct s ":" then c |>.typeScan (s + 1) else pure s
partial_fixpoint

def Tables.unionScan (c : Tables) (p : Nat) : Guarded Nat :=
  c |>.unionLoop p (if c.isBar p then p + 1 else p)
partial_fixpoint

def Tables.unionLoop (c : Tables) (start p : Nat) : Guarded Nat := do
  let q : Nat ← c |>.postfixScan p
  if q = p then pure (if p = start + 1 then start else p)
  else if c.isBar q then c |>.unionLoop start (q + 1)
  else pure q
partial_fixpoint

def Tables.postfixScan (c : Tables) (p : Nat) : Guarded Nat := do
  let q : Nat ← c |>.primaryScan p
  if q = p then pure p else suffixLoop c q
partial_fixpoint

def Tables.primaryScan (c : Tables) (p : Nat) : Guarded Nat :=
  match c.kind? p with
  | some .punctuator =>
    if c.text p = "(" then do
      match ← partnerAt c p with
      | some close =>
        if c.punct (close + 1) "=>" then c |>.typeScan (close + 2) else pure (close + 1)
      | none => pure p
    else if c.text p ∈ ["\x7b", "["] then do
      let close ← partnerAt c p
      pure (close.elim p (· + 1))
    else if c.text p = "<" then do
      match ← angleLoop c p 0 with
      | some q => c |>.primaryScan q
      | none => pure p
    else if c.text p = "-" then pure (if c.kind? (p + 1) = some .number then p + 2 else p)
    else pure p
  | some .string | some .number => pure (p + 1)
  | some .template =>
    pure (if closesTemplate (c.text p) then p + 1 else (c.templateEnd? (p + 1)).getD (p + 1))
  | some .identifier | some .keyword => c |>.namedScan p
  | _ => pure p
partial_fixpoint

def Tables.namedScan (c : Tables) (p : Nat) : Guarded Nat :=
  if c.text p ∈ typeOperators then do
    let m : Nat ← c |>.primaryScan (p + 1)
    if p + 1 < m then c |>.postfixScan (p + 1) else c |>.nameScan p
  else if c.text p = "new" then c |>.primaryScan (p + 1)
  else c |>.nameScan p
partial_fixpoint

def Tables.nameScan (c : Tables) (p : Nat) : Guarded Nat := do
  let q ← safe (c.dotLoop (p + 1))
  let stop ← argumentScan c q
  let r := stop.getD q
  if c.word r "is" then c |>.typeScan (r + 1) else pure r
partial_fixpoint

end

export Tables (typeScan unionScan unionLoop postfixScan primaryScan namedScan nameScan)

theorem angleItem_eq (c : Code) (i : Nat) (depth : Int) :
    angleItem c i depth = pure (c.angleItem i depth) := by
  rw [angleItem]
  split
  · rename_i h
    rw [partnerAt_eq (lt_size_of_kind? h.1), pure_bind, Code.angleItem, h.1]
    simp only [h.2, if_true]
  · rfl

theorem angleLoop_eq (c : Code) (i : Nat) (depth : Int) :
    angleLoop c i depth = pure (c.anglesFrom i depth) := by
  fun_induction anglesFrom c i depth with
  | case1 i depth h =>
    rw [angleLoop, angleItem_eq, h]
    simp
  | case2 i depth last h =>
    have := angleItem_bounds h
    rw [angleLoop, if_pos (by omega), angleItem_eq, h]
    simp
  | case3 i depth last d h hd hn =>
    have := angleItem_bounds h
    rw [angleLoop, if_pos (by omega), angleItem_eq, h]
    simp [hd, hn]
  | case4 i depth last d h hd hn ih =>
    have := angleItem_bounds h
    rw [angleLoop, if_pos (by omega), angleItem_eq, h]
    simp [hd, hn, ih]

theorem argumentScan_eq (c : Code) (q : Nat) :
    argumentScan c q = pure (if c.punct q "<" then c.angleEnd q else none) := by
  rw [argumentScan, angleLoop_eq]
  split <;> rfl

theorem suffixLoop_eq {q : Nat} (hq : 0 < q) : suffixLoop c q = pure (c.suffixesEnd q) := by
  have hread (q : Nat) (hq : 0 < q) (hb : c.punct q "[" = true) : suffixLoop c q =
      if c.sameLine q then
        match c.partner q with
        | some close => suffixLoop c (close + 1)
        | none => pure q
      else pure q := by
    rw [suffixLoop, if_pos hb, beside_eq hq (lt_size_of_punct hb), pure_bind,
      partnerAt_eq (lt_size_of_punct hb), pure_bind]
    rfl
  fun_induction suffixesEnd c q with
  | case1 q close h hb ih =>
    obtain ⟨hb, hl⟩ := Bool.and_eq_true_iff.mp hb
    rw [hread q hq hb, if_pos hl, h]
    exact ih (Nat.succ_pos close)
  | case2 q close h hb =>
    by_cases hp : c.punct q "[" = true
    · rw [hread q hq hp, if_neg fun hl => hb (by rw [hp, hl]; rfl)]
    · rw [suffixLoop, if_neg hp]
  | case3 q h =>
    by_cases hp : c.punct q "[" = true
    · rw [hread q hq hp, h]
      split <;> rfl
    · rw [suffixLoop, if_neg hp]

/-- A scan that begins at `p` ends no earlier, and inside the program if it begins
there. -/
def InRange (c : Code) (p r : Nat) : Prop := p ≤ r ∧ (p ≤ c.size → r ≤ c.size)

theorem suffixesEnd_le {q : Nat} (hq : q ≤ c.size) : c.suffixesEnd q ≤ c.size := by
  fun_induction suffixesEnd c q with
  | case1 q close h _ ih => have := partner_bounds h; exact ih (by omega)
  | case2 => exact hq
  | case3 => exact hq

theorem dottedEnd_le {q : Nat} (hq : q ≤ c.size) : c.dottedEnd q ≤ c.size := by
  fun_induction dottedEnd c q with
  | case1 q h ih =>
    have := lt_size_of_isName (Bool.and_eq_true_iff.mp h).2
    exact ih (by omega)
  | case2 => exact hq

theorem InRange.self : InRange c p p := ⟨Nat.le_refl p, id⟩

theorem InRange.suffixesEnd {q : Nat} (h : InRange c p q) : InRange c p (c.suffixesEnd q) :=
  ⟨Nat.le_trans h.1 (le_suffixesEnd c q), fun hp => suffixesEnd_le (h.2 hp)⟩

theorem InRange.arguments {q : Nat} (h : InRange c p q) :
    InRange c p ((if c.punct q "<" then c.angleEnd q else none).getD q) := by
  split
  · cases ha : c.angleEnd q with
    | none => exact h
    | some stop =>
      have := angleEnd_bounds ha
      exact ⟨Nat.le_trans h.1 this.1.le, fun _ => this.2⟩
  · exact h

/-- From a token that is there on to a later one. -/
theorem InRange.of_lt {q r : Nat} (h : InRange c (q + 1) r) (hq : q < c.size) (hp : p ≤ q) :
    InRange c p r :=
  ⟨by have := h.1; omega, fun _ => h.2 hq⟩

/-- What a scan of a union that began at `start` knows of its end. -/
def InUnion (c : Code) (start p r : Nat) : Prop :=
  start ≤ p → start ≤ r ∧ (p ≤ c.size → r ≤ c.size)

/-- The scans of types follow those without guards. -/
theorem typeScans_follow (c : Code) :
    (∀ p, Follows (InRange c p) (typeScan c p) (c.typeScan p)) ∧
    (∀ p, Follows (InRange c p) (unionScan c p) (c.unionScan p)) ∧
    (∀ start p, Follows (InUnion c start p) (unionLoop c start p) (c.unionLoop start p)) ∧
    (∀ p, Follows (InRange c p) (postfixScan c p) (c.postfixScan p)) ∧
    (∀ p, Follows (InRange c p) (primaryScan c p) (c.primaryScan p)) ∧
    (∀ p r, c.namedScan p = some r → c.isName p = true →
      namedScan c p = pure r ∧ InRange c p r) ∧
    (∀ p r, c.nameScan p = some r → c.isName p = true →
      nameScan c p = pure r ∧ InRange c p r) := by
  refine Code.typeScan.mutual_partial_correctness c _ _ _ _ _ _ _ ?_ ?_ ?_ ?_ ?_ ?_ ?_
  · intro type union iht ihu p
    rw [typeScan]
    refine Follows.bind (ihu p) fun q hq => .ite (fun _ => .pure hq) fun hw => ?_
    have hsq : q < c.size := lt_size_of_word (s := "extends") (by simp_all)
    refine .bind (ihu (q + 1)) fun r hr => .ite (fun _ => .pure (hr.of_lt hsq hq.1)) fun hm => ?_
    have hsr : r < c.size := lt_size_of_punct (s := "?") (by simpa using hm)
    have hpr := hr.of_lt hsq hq.1
    refine .bind (iht (r + 1)) fun s hs => .ite (fun hd => ?_) fun _ => .pure (hs.of_lt hsr hpr.1)
    exact Follows.mono (iht (s + 1)) fun t ht =>
      ht.of_lt (lt_size_of_punct hd) (hs.of_lt hsr hpr.1).1
  · intro loop ihl p
    rw [unionScan]
    refine Follows.mono (ihl p _) fun r hr => ?_
    by_cases hb : c.isBar p = true
    · rw [if_pos hb] at hr
      have := lt_size_of_isBar hb
      exact ⟨(hr (by omega)).1, fun _ => (hr (by omega)).2 this⟩
    · rw [if_neg hb] at hr
      exact hr (Nat.le_refl p)
  · intro loop scan ihl ihp start p
    rw [unionLoop]
    refine Follows.bind (ihp p) fun q hq => .ite (fun _ => .pure fun hs => ?_) fun _ =>
      .ite (fun hb => ?_) fun _ => .pure fun hs => ⟨Nat.le_trans hs hq.1, hq.2⟩
    · split
      · exact ⟨Nat.le_refl start, fun _ => by omega⟩
      · exact ⟨hs, id⟩
    · have hsq := lt_size_of_isBar hb
      have hpq := hq.1
      exact Follows.mono (ihl start (q + 1)) fun r hr hs =>
        ⟨(hr (by omega)).1, fun _ => (hr (by omega)).2 hsq⟩
  · intro primary ih p
    rw [postfixScan]
    refine Follows.bind (ih p) fun q hq => .ite (fun _ => .pure .self) fun hne => ?_
    have hpq := hq.1
    rw [suffixLoop_eq (by omega), Code.suffixLoop_eq]
    exact .pure hq.suffixesEnd
  · intro type primary named iht ihp ihn p
    rw [primaryScan]
    show Follows (InRange c p) _ _
    have hnext (hs : p < c.size) : InRange c p (p + 1) := InRange.self.of_lt hs (Nat.le_refl p)
    cases hk : c.kind? p with
    | none => exact .pure .self
    | some kind =>
      have hs := lt_size_of_kind? hk
      cases kind with
      | punctuator =>
        have hgroup : InRange c p ((c.partner p).elim p (· + 1)) := by
          cases hp : c.partner p with
          | none => exact .self
          | some close => exact InRange.self.of_lt (partner_bounds hp).2 (partner_bounds hp).1.le
        simp only [partnerAt_eq hs, pure_bind]
        by_cases hround : c.text p = "("
        · rw [if_pos hround]
          simp only [hround]
          cases hp : c.partner p with
          | none => exact .pure .self
          | some close =>
            have hb := partner_bounds hp
            refine .ite (fun ha => ?_) fun _ => .pure (InRange.self.of_lt hb.2 hb.1.le)
            exact Follows.mono (iht (close + 2)) fun r hr =>
              hr.of_lt (lt_size_of_punct ha) (by omega)
        rw [if_neg hround]
        by_cases hpair : c.text p ∈ ["\x7b", "["]
        · rw [if_pos hpair]
          rcases List.mem_pair.mp hpair with ht | ht
          · simp only [ht]
            exact .pure hgroup
          · simp only [ht]
            exact .pure hgroup
        rw [if_neg hpair]
        obtain ⟨hcurly, hsquare⟩ := not_or.mp fun h => hpair (List.mem_pair.mpr h)
        by_cases hangle : c.text p = "<"
        · rw [if_pos hangle]
          simp only [hangle]
          rw [angleLoop_eq, Code.angleLoop_eq, pure_bind]
          show Follows (InRange c p) _ _
          cases ha : c.anglesFrom p 0 with
          | none => exact .pure .self
          | some q =>
            have hq := angleEnd_bounds ha
            exact Follows.mono (ihp q) fun r hr => ⟨by have := hr.1; omega, fun _ => hr.2 hq.2⟩
        rw [if_neg hangle]
        by_cases hminus : c.text p = "-"
        · rw [if_pos hminus]
          simp only [hminus]
          refine .pure ?_
          split
          · rename_i hk'
            exact InRange.self.of_lt (lt_size_of_kind? hk') (by omega)
          · exact .self
        rw [if_neg hminus]
        split <;> first | exact .pure .self | contradiction
      | string => exact .pure (hnext hs)
      | number => exact .pure (hnext hs)
      | template =>
        refine .pure ?_
        split
        · exact hnext hs
        · cases ht : c.templateEnd? (p + 1) with
          | none => exact hnext hs
          | some e => have := templateEnd?_bounds ht; exact ⟨by simp; omega, fun _ => this.2⟩
      | identifier => exact fun r hr => ihn p r hr (by simp [isName, hk])
      | keyword => exact fun r hr => ihn p r hr (by simp [isName, hk])
      | _ => exact .pure .self
  · intro scan primary name ihs ihp ihn p r h hn
    have hs := lt_size_of_isName hn
    rw [namedScan]
    refine Follows.ite (Q := InRange c p) (fun _ => ?_)
      (fun _ => .ite (fun _ => ?_) fun _ => ?_) r h
    · refine Follows.bind (ihp (p + 1)) fun m hm => .ite (fun _ => ?_) fun _ r hr => ihn p r hr hn
      exact Follows.mono (ihs (p + 1)) fun r hr => hr.of_lt hs (Nat.le_refl p)
    · exact Follows.mono (ihp (p + 1)) fun r hr => hr.of_lt hs (Nat.le_refl p)
    · exact fun r hr => ihn p r hr hn
  · intro type ih p r h hn
    have hs := lt_size_of_isName hn
    revert r h
    rw [nameScan]
    refine Follows.bind (P := InRange c (p + 1)) ?_ fun q hq =>
      .bind (P := fun stop => InRange c (p + 1) (stop.getD q)) ?_ fun stop hstop =>
        .ite (fun hw => ?_) fun _ => .pure (hstop.of_lt hs (Nat.le_refl p))
    · rw [Code.dotLoop_eq]
      exact .pure ⟨le_dottedEnd c (p + 1), dottedEnd_le⟩
    · rw [argumentScan_eq, Code.argumentScan_eq]
      exact .pure hq.arguments
    · have hle := hstop.1
      exact Follows.mono (ih _) fun r hr => hr.of_lt (lt_size_of_word hw) (by omega)

theorem typeScan_eq (c : Code) (p : Nat) : typeScan c p = pure (c.typeEnd p) :=
  ((typeScans_follow c).1 p _ (Code.typeScan_eq c p)).1

theorem typeEnd_inRange (c : Code) (p : Nat) : InRange c p (c.typeEnd p) :=
  ((typeScans_follow c).1 p _ (Code.typeScan_eq c p)).2

/-! ### Statements of types -/

def statementLast (c : Code) (stop : Nat) : Guarded Nat :=
  if c.punct stop ";" then pure stop else pred stop

def Tables.ambientLoop (c : Tables) (i : Nat) : Guarded (Option Nat) :=
  if i < c.size then
    match c.text i with
    | "(" | "[" => do
      match ← partnerAt c i with
      | some close => c |>.ambientLoop (close + 1)
      | none => pure none
    | "\x7b" => do
      match ← partnerAt c i with
      | some close => some <$> statementLast c (close + 1)
      | none => pure none
    | ";" => pure (some i)
    | ":" => do
      let stop ← typeScan c (i + 1)
      some <$> statementLast c stop
    | _ => c |>.ambientLoop (i + 1)
  else pure none
partial_fixpoint

export Tables (ambientLoop)

def typeParameterScan (c : Code) (n : Nat) : Guarded (Option Nat) :=
  if c.punct n "<" then angleLoop c n 0 else pure (some n)

def aliasScan (c : Code) (d : Nat) : Guarded (Option Nat) := do
  match ← typeParameterScan c (d + 2) with
  | none => pure none
  | some n =>
    if c.punct n "=" then do
      let stop ← typeScan c (n + 1)
      some <$> statementLast c stop
    else pure none

def interfaceScan (c : Code) (d : Nat) : Guarded (Option Nat) :=
  match c.findPunct (d + 2) "\x7b" with
  | some brace => partnerAt c brace
  | none => pure none

def declarationLastScan (c : Code) (d : Nat) : Guarded (Option Nat) :=
  if c.kind? d = some .keyword then
    if c.text d = "interface" then
      if c.kind? (d + 1) = some .identifier then interfaceScan c d else pure none
    else if c.text d = "type" then
      if c.kind? (d + 1) = some .identifier then aliasScan c d else pure none
    else if c.text d = "declare" then ambientLoop c (d + 1)
    else pure none
  else pure none

def typeStatementScan (c : Code) (k : Nat) : Guarded (Option Nat) :=
  declarationLastScan c (if c.word k "export" then k + 1 else k)

theorem statementLast_eq (h : 0 < n) : statementLast c n = pure (c.statementLast n) := by
  rw [statementLast, pred_eq h, Code.statementLast]
  split <;> rfl

theorem ambientLoop_eq (c : Code) (i : Nat) : ambientLoop c i = pure (c.ambientLast i) := by
  fun_induction ambientLast c i with
  | case1 i hi ht close hp ih => rw [ambientLoop]; simp [hi, ht, partnerAt_eq hi, hp, ih]
  | case2 i hi ht hp => rw [ambientLoop]; simp [hi, ht, partnerAt_eq hi, hp]
  | case3 i hi ht close hp ih => rw [ambientLoop]; simp [hi, ht, partnerAt_eq hi, hp, ih]
  | case4 i hi ht hp => rw [ambientLoop]; simp [hi, ht, partnerAt_eq hi, hp]
  | case5 i hi ht =>
    rw [ambientLoop]
    cases hp : c.partner i <;> simp [hi, ht, partnerAt_eq hi, hp, statementLast_eq]
  | case6 i hi ht => rw [ambientLoop]; simp [hi, ht]
  | case7 i hi ht =>
    have hstop : 0 < c.typeEnd (i + 1) := by have := le_typeEnd c (i + 1); omega
    rw [ambientLoop]
    simp [hi, ht, typeScan_eq, statementLast_eq hstop]
  | case8 i hi h₁ h₂ h₃ h₄ h₅ ih => rw [ambientLoop]; simp [hi, ih]
  | case9 i hi => rw [ambientLoop, if_neg hi]

theorem typeParameterScan_eq (c : Code) (n : Nat) : typeParameterScan c n =
    pure (if c.punct n "<" then c.angleEnd n else some n) := by
  rw [typeParameterScan, angleLoop_eq]
  exact (apply_ite pure _ _ _).symm

theorem aliasScan_eq (c : Code) (d : Nat) : aliasScan c d = pure (c.aliasLast d) := by
  have hstop (n : Nat) : 0 < c.typeEnd (n + 1) := by have := le_typeEnd c (n + 1); omega
  rw [aliasScan, typeParameterScan_eq, pure_bind, aliasLast]
  cases if c.punct (d + 2) "<" then c.angleEnd (d + 2) else some (d + 2) with
  | none => rfl
  | some n =>
    simp only [typeScan_eq, pure_bind, statementLast_eq (hstop n)]
    split <;> rfl

theorem interfaceScan_eq (c : Code) (d : Nat) :
    interfaceScan c d = pure ((c.findPunct (d + 2) "\x7b").bind c.partner) := by
  rw [interfaceScan]
  cases h : c.findPunct (d + 2) "\x7b" with
  | none => rfl
  | some brace => exact partnerAt_eq (findPunct_bounds h).2

theorem typeStatementScan_eq (c : Code) (k : Nat) :
    typeStatementScan c k = pure (c.typeStatementLast k) := by
  rw [typeStatementScan, typeStatementLast]
  generalize (if c.word k "export" then k + 1 else k) = d
  rw [declarationLastScan, declarationLast, interfaceScan_eq, aliasScan_eq, ambientLoop_eq]
  split
  · by_cases hinterface : c.text d = "interface"
    · rw [if_pos hinterface]
      simp only [hinterface, apply_ite pure]
    rw [if_neg hinterface]
    by_cases htype : c.text d = "type"
    · rw [if_pos htype]
      simp only [htype, apply_ite pure]
    rw [if_neg htype]
    by_cases hdeclare : c.text d = "declare"
    · rw [if_pos hdeclare]
      simp only [hdeclare]
    rw [if_neg hdeclare]
    split <;> first | rfl | contradiction
  · rfl

theorem statementLast_lt (h : 0 < n) (hn : n ≤ c.size) : c.statementLast n < c.size := by
  unfold Code.statementLast
  split
  · exact lt_size_of_punct ‹_›
  · omega

theorem typeEnd_statementLast_lt (hi : i < c.size) :
    c.statementLast (c.typeEnd (i + 1)) < c.size := by
  have h := typeEnd_inRange c (i + 1)
  exact statementLast_lt (by have := h.1; omega) (h.2 hi)

theorem ambientLast_lt {e : Nat} (h : c.ambientLast i = some e) : e < c.size := by
  fun_induction ambientLast c i with
  | case1 i hi ht close hp ih => exact ih h
  | case2 => cases h
  | case3 i hi ht close hp ih => exact ih h
  | case4 => cases h
  | case5 i hi ht =>
    obtain ⟨close, hp, rfl⟩ := Option.map_eq_some_iff.mp h
    exact statementLast_lt (Nat.succ_pos close) (partner_bounds hp).2
  | case6 i hi => exact Option.some.inj h ▸ hi
  | case7 i hi => exact Option.some.inj h ▸ typeEnd_statementLast_lt hi
  | case8 i hi _ _ _ _ _ ih => exact ih h
  | case9 => cases h

theorem aliasLast_lt {d e : Nat} (h : c.aliasLast d = some e) : e < c.size := by
  unfold aliasLast at h
  split at h
  · cases h
  · obtain ⟨he, h⟩ := Option.ite_none_right_eq_some.mp h
    exact Option.some.inj h ▸ typeEnd_statementLast_lt (lt_size_of_punct he)

/-- A statement of types ends inside the program. -/
theorem typeStatementLast_lt {e : Nat} (h : c.typeStatementLast k = some e) : e < c.size := by
  unfold typeStatementLast declarationLast at h
  obtain ⟨-, h⟩ := Option.ite_none_right_eq_some.mp h
  split at h
  · obtain ⟨brace, -, hp⟩ := Option.bind_eq_some_iff.mp (Option.ite_none_right_eq_some.mp h).2
    exact (partner_bounds hp).2
  · exact aliasLast_lt (Option.ite_none_right_eq_some.mp h).2
  · exact ambientLast_lt h
  · cases h

/-! ### Signatures -/

def Tables.keptLoop (c : Tables) (flags : Array Bool) (p : Nat) : Guarded Nat :=
  if 0 < p then do
    let before ← pred p
    if ← readAt .erased flags before then c |>.keptLoop flags before
    else pure p
  else pure p
partial_fixpoint

export Tables (keptLoop)

def declarationScan (c : Code) (flags : Array Bool) (k : Nat) : Guarded Bool := do
  let p ← keptLoop c flags k
  if p = 0 then pure false
  else do
    let before ← pred p
    pure <| match c.kind? before with
      | some .identifier => true
      | some .keyword => c.text before ∈ ["function", "catch", "get", "set"]
      | _ => false

def afterGroup (c : Code) (i : Nat) : Guarded Nat := do
  let close ← partnerAt c i
  pure (close.getD i + 1)

def parameterTurn (c : Code) (i : Nat) (inDefault : Bool) :
    Guarded (Erasure × ParameterPlace) :=
  if c.text i ∈ ["(", "[", "\x7b"] then do
    let next ← afterGroup c i
    pure ([], ⟨next, false, inDefault⟩)
  else if c.text i = ":" ∧ inDefault = false then do
    let stop ← typeScan c (i + 1)
    let span ← spanUpTo i stop
    pure ([span], ⟨stop, false, inDefault⟩)
  else safe (c.parameterTurn i inDefault)

def Tables.parameterLoop (c : Tables) (close i : Nat) (front inDefault : Bool) :
    Guarded Erasure :=
  if i < close then do
    let m ← if front then safe (c.modifierLoop i) else pure i
    let erasedModifiers := if i < m then [Span.upTo i m] else []
    if front && c.word m "this" && c.punct (m + 1) ":" then do
      let stop ← typeScan c (m + 2)
      let next := if c.punct stop "," then stop + 1 else stop
      let span ← spanUpTo m next
      let rest : Erasure ← c |>.parameterLoop close next true inDefault
      pure (erasedModifiers ++ span :: rest)
    else do
      let (spans, place) ← parameterTurn c m inDefault
      let rest : Erasure ← c |>.parameterLoop close place.next place.front place.inDefault
      pure (erasedModifiers ++ spans ++ rest)
  else pure []
partial_fixpoint

export Tables (parameterLoop)

def signatureScan (c : Code) (flags : Array Bool) (k : Nat) : Guarded Erasure := do
  match ← partnerAt c k with
  | none => pure []
  | some close =>
    match c.text (close + 1) with
    | "=>" => parameterLoop c close (k + 1) true false
    | ":" => do
      let stop ← typeScan c (close + 2)
      let declares ← declarationScan c flags k
      if c.punct stop "=>" || (c.punct stop "\x7b" && declares) then do
        let spans ← parameterLoop c close (k + 1) true false
        let span ← spanUpTo (close + 1) stop
        pure (spans ++ [span])
      else pure []
    | "\x7b" => do
      if ← declarationScan c flags k then parameterLoop c close (k + 1) true false else pure []
    | _ => pure []

section
variable {e : Erasure}

theorem keptLoop_eq (hp : p ≤ c.size) :
    keptLoop c (flagsOf c e.covers) p = pure ((lastKept e p).elim 0 (· + 1)) := by
  induction p with
  | zero =>
    rw [keptLoop]
    rfl
  | succ p ih =>
    rw [keptLoop, if_pos (Nat.succ_pos p), pred, pure_bind, readAt, getElem?_flagsOf (by omega),
      pure_bind, lastKept]
    cases e.covers p with
    | false => rfl
    | true => exact ih (by omega)

theorem declarationScan_eq (hk : k ≤ c.size) :
    declarationScan c (flagsOf c e.covers) k = pure (c.declaresFunction e k) := by
  rw [declarationScan, declaresFunction, keptLoop_eq hk, pure_bind]
  cases lastKept e k with
  | none => rfl
  | some before => rfl

theorem afterGroup_eq (hi : i < c.size) : afterGroup c i = pure (c.afterGroup i) := by
  rw [afterGroup, partnerAt_eq hi, pure_bind, Code.afterGroup]

theorem parameterTurn_eq (c : Code) (i : Nat) (inDefault : Bool) :
    parameterTurn c i inDefault = safe (c.parameterTurn i inDefault) := by
  rw [parameterTurn]
  split
  · rename_i ht
    rw [afterGroup_eq (lt_size_of_text_mem ht (by decide)), pure_bind, Code.parameterTurn]
    simp only [List.mem_cons, List.not_mem_nil, or_false] at ht
    rcases ht with ht | ht | ht <;> rw [ht] <;> rfl
  · split
    · rename_i ht
      have hstop : 0 < c.typeEnd (i + 1) := by have := le_typeEnd c (i + 1); omega
      rw [typeScan_eq, pure_bind, spanUpTo_eq i hstop, pure_bind, Code.parameterTurn, ht.1, ht.2,
        Code.typeScan_eq]
      rfl
    · rfl

theorem parameterLoop_eq {close : Nat} (hc : c.Closes close) (i : Nat)
    (front inDefault : Bool) (hf : front = true → inDefault = false) :
    parameterLoop c close i front inDefault =
      pure (c.parameterSpans close i (.state front inDefault)) := by
  induction hn : close - i using Nat.strongRecOn generalizing i front inDefault with
  | ind n ih =>
    rw [parameterLoop]
    by_cases hi : i < close
    · rw [if_pos hi]
      cases front with
      | false =>
        obtain ⟨spans, place, hturn, hlt, hplace, heq⟩ := c.parameterTurn_spec hi inDefault
        have hrest := ih (close - place.next) (by omega) place.next _ _ hplace rfl
        simp [parameterTurn_eq, hturn, hrest, heq]
      | true =>
        obtain rfl := hf rfl
        have hm := modifiersEnd_lt hi hc
        have hle := le_modifiersEnd c i
        rw [parameterSpans.eq_def, dif_pos hi]
        simp only [modifierLoop_eq, safe_some, typeScan_eq, ParameterState.state, if_true,
          Bool.true_and, pure_bind]
        split
        · have ht := le_afterThis c (c.modifiersEnd i)
          have hrest := ih (close - c.afterThis (c.modifiersEnd i)) (by omega) _ true false
            (fun _ => rfl) rfl
          have hspan := spanUpTo_eq (c.modifiersEnd i)
            (show 0 < c.afterThis (c.modifiersEnd i) by omega)
          rw [afterThis] at hrest hspan ⊢
          rw [hspan, pure_bind, hrest]
          rfl
        · obtain ⟨spans, place, hturn, hlt, hplace, heq⟩ := c.parameterTurn_spec hm false
          have hrest := ih (close - place.next) (by omega) place.next _ _ hplace rfl
          simp only [ParameterState.state, Bool.false_eq_true, if_false] at heq hrest
          simp [parameterTurn_eq, hturn, hrest, heq]
    · rw [if_neg hi, parameterSpans.eq_def, dif_neg hi]

theorem signatureScan_eq (hk : k < c.size) :
    signatureScan c (flagsOf c e.covers) k = pure (c.signatureSpans e k) := by
  rw [signatureScan, signatureSpans, partnerAt_eq hk, pure_bind]
  cases hp : c.partner k with
  | none => rfl
  | some close =>
    have hloop := parameterLoop_eq (closes_of_partner hp) (k + 1) true false (fun _ => rfl)
    have hstop : 0 < c.typeEnd (close + 2) := by have := le_typeEnd c (close + 2); omega
    simp only [typeScan_eq, declarationScan_eq hk.le, hloop, ParameterState.state, if_true,
      pure_bind, spanUpTo_eq (close + 1) hstop, ← apply_ite pure]
    split <;> simp [*]

end

end Retouch.Code.Guarded
