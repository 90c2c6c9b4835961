import Retouch.Proofs.ErasureTermination

/-! Reads that check their index. The pass over a program keeps four tables with an
entry for each token: the tokens, the partners of their brackets, which of them stand
in a list of specifiers, and which are erased. A guarded scan reads a table only inside
it and takes one off a number only above zero, and faults otherwise. What a guarded
scan does without a fault is an ordinary scan, `safe o`.

The tables of partners and of specifiers are filled by loops over the tokens. Both end
without a fault, with what `partner` and `inClause` say of each token. -/

namespace Retouch.Code
open Syntax Erase

inductive Table where
  | tokens
  | partners
  | clauses
  | erased
  deriving DecidableEq, Repr

inductive Fault where
  /-- An index past the end of a table. -/
  | outside (table : Table) (k : Nat)
  /-- One less than zero. -/
  | belowZero
  deriving DecidableEq, Repr

/-- A scan that may fault, and that may have no end. -/
abbrev Guarded := ExceptT Fault Option

namespace Guarded

/-- A program as guarded scans read it. -/
abbrev Tables := Code

variable {α β : Type} {c : Code} {k n : Nat}

/-! ### Reads -/

/-- A scan without a fault. -/
def safe (o : Option α) : Guarded α := ExceptT.mk (o.map .ok)

@[simp] theorem safe_some (a : α) : safe (some a) = pure a := rfl

theorem safe_map (f : α → β) (o : Option α) : safe (o.map f) = f <$> safe o := by
  cases o <;> rfl

def readAt (table : Table) (xs : Array α) (k : Nat) : Guarded α :=
  match xs[k]? with
  | some a => pure a
  | none => throw (.outside table k)

def writeAt (table : Table) (xs : Array α) (k : Nat) (a : α) : Guarded (Array α) :=
  if k < xs.size then pure (xs.setIfInBounds k a) else throw (.outside table k)

def pred : Nat → Guarded Nat
  | 0 => throw .belowZero
  | n + 1 => pure n

theorem pred_eq (h : 0 < n) : pred n = pure (n - 1) := by
  obtain ⟨m, rfl⟩ := Nat.exists_eq_add_one.mpr h
  rfl

def tokenAt (c : Code) (k : Nat) : Guarded Token := readAt .tokens c.tokens k

def partnerAt (c : Code) (k : Nat) : Guarded (Option Nat) := readAt .partners c.partners k

theorem tokenAt_eq {t : Token} (h : c.tokens[k]? = some t) : tokenAt c k = pure t := by
  rw [tokenAt, readAt, h]

example (c : Code) : tokenAt c c.size = throw (.outside .tokens c.size) := by
  simp [tokenAt, readAt, size]

theorem size_partners (c : Code) : c.partners.size = c.size := by
  rw [← Array.length_toList, c.partners_eq, partnersFrom_length, Array.length_toList, size]

theorem getElem?_partners (h : k < c.size) : c.partners[k]? = some (c.partner k) := by
  obtain ⟨x, hx⟩ : ∃ x, c.partners[k]? = some x :=
    ⟨_, Array.getElem?_eq_getElem (size_partners c ▸ h)⟩
  rw [partner, hx]
  rfl

theorem partnerAt_eq (h : k < c.size) : partnerAt c k = pure (c.partner k) := by
  rw [partnerAt, readAt, getElem?_partners h]

/-- A mark that is looked for is found at a token only. -/
theorem lt_size_of_text_mem {marks : List String} (h : c.text k ∈ marks) (hm : "" ∉ marks) :
    k < c.size :=
  lt_size_of_text rfl fun he => hm (he ▸ h)

/-- How token `k` stands to the one before it. -/
def beside (c : Code) (k : Nat) (r : Token → Token → Bool) : Guarded Bool := do
  let before ← pred k
  let a ← tokenAt c before
  let b ← tokenAt c k
  pure (r a b)

theorem beside_eq (hk : 0 < k) (hs : k < c.size) (r : Token → Token → Bool) :
    beside c k r = pure
      (match c.tokens[k - 1]?, c.tokens[k]? with | some a, some b => r a b | _, _ => false) := by
  obtain ⟨a, ha⟩ := exists_token (show k - 1 < c.size by omega)
  obtain ⟨b, hb⟩ := exists_token hs
  rw [beside, pred_eq hk, pure_bind, tokenAt_eq ha, pure_bind, tokenAt_eq hb, pure_bind, ha, hb]

theorem beside_freshLine (hk : 0 < k) (hs : k < c.size) :
    (beside c k fun a b => a.stop.line < b.start.line) = pure (c.freshLine k) := beside_eq hk hs _

/-- The tokens from `first` up to, but not including, `stop`. -/
def spanUpTo (first stop : Nat) : Guarded Span := do
  let last ← pred stop
  pure ⟨first, last⟩

theorem spanUpTo_eq (first : Nat) (h : 0 < n) : spanUpTo first n = pure (.upTo first n) := by
  rw [spanUpTo, pred_eq h, pure_bind]
  rfl

/-! ### Partners -/

def openerAt (c : Code) (k : Nat) : Option Bracket := c.tokens[k]?.bind opener?

def closerAt (c : Code) (k : Nat) : Option Bracket := c.tokens[k]?.bind closer?

/-- The brackets that are open, innermost first, and the partners found so far. -/
structure Matching where
  opened : List Nat
  partners : Array (Option Nat)

def matchStep (c : Code) (s : Matching) (k : Nat) : Guarded Matching :=
  if (openerAt c k).isSome then pure ⟨k :: s.opened, s.partners⟩
  else
    match s.opened with
    | [] => pure s
    | o :: outer =>
      if (closerAt c k).isSome && closerAt c k = openerAt c o then do
        let partners ← writeAt .partners s.partners o (some k)
        pure ⟨outer, partners⟩
      else pure s

/-- The loop that fills the table of partners. -/
def matchBrackets (c : Code) : Guarded (Array (Option Nat)) := do
  let s ← (List.range c.size).foldlM (matchStep c) ⟨[], Array.replicate c.size none⟩
  pure s.partners

/-- Brackets that are open at `k`, innermost first, inside which those of `inner` are
open too: each has the partner that closes it together with those. -/
def Open (c : Code) (k : Nat) : List Bracket → List Nat → Prop
  | _, [] => True
  | inner, o :: outer => ∃ b, openerAt c o = some b ∧
      c.partner o = (distance (inner ++ [b]) (c.tokens.toList.drop k)).map (k + ·) ∧
      Open c k (inner ++ [b]) outer

theorem distance_step {t : Token} {ts : List Token} {stack stack' : List Bracket}
    (h : afterToken stack t = stack') (hne : stack' ≠ []) (k : Nat) :
    (distance stack (t :: ts)).map (k + ·) = (distance stack' ts).map (k + 1 + ·) := by
  rw [distance, h]
  obtain ⟨b, bs, rfl⟩ := List.exists_cons_of_ne_nil hne
  rw [Option.map_map]
  congr 1
  funext m
  simp only [Function.comp_apply]
  omega

theorem Open.step {t : Token} {inner inner' : List Bracket} {opened : List Nat}
    (h : Open c k inner opened) (hf : c.From k (t :: c.tokens.toList.drop (k + 1)))
    (ht : ∀ xs, xs ≠ [] → afterToken (inner ++ xs) t = inner' ++ xs) :
    Open c (k + 1) inner' opened := by
  induction opened generalizing inner inner' with
  | nil => trivial
  | cons o outer ih =>
    obtain ⟨b, hb, hp, hrest⟩ := h
    refine ⟨b, hb, ?_, ih hrest fun xs hx => ?_⟩
    · rw [hp, hf]
      exact distance_step (ht [b] (by simp)) (by simp) k
    · rw [List.append_assoc, List.append_assoc]
      exact ht ([b] ++ xs) (by simp)

/-- What the loop has found when it comes to token `k`. -/
structure Matched (c : Code) (k : Nat) (s : Matching) : Prop where
  size : s.partners.size = c.size
  nodup : s.opened.Nodup
  before : ∀ o ∈ s.opened, o < k
  pending : Open c k [] s.opened
  entries : ∀ o, o < c.size →
    s.partners[o]? = some (if o ∈ s.opened ∨ k ≤ o then none else c.partner o)

theorem Matched.init (c : Code) : Matched c 0 ⟨[], Array.replicate c.size none⟩ where
  size := by simp
  nodup := .nil
  before := by simp
  pending := trivial
  entries o ho := by simp [ho]

/-- A turn that leaves the table as it is, at a token that has no partner unless it
is open now. -/
theorem Matched.keep {s : Matching} {opened : List Nat} (h : Matched c k s)
    (hnodup : opened.Nodup) (hbefore : ∀ o ∈ opened, o < k + 1)
    (hpending : Open c (k + 1) [] opened)
    (hmem : ∀ o, o ≠ k → (o ∈ opened ↔ o ∈ s.opened)) (hk : k ∈ opened ∨ c.partner k = none) :
    Matched c (k + 1) ⟨opened, s.partners⟩ where
  size := h.size
  nodup := hnodup
  before := hbefore
  pending := hpending
  entries o ho := by
    rw [h.entries o ho]
    by_cases heq : o = k
    · subst heq
      rcases hk with hk | hk
      · simp [hk]
      · simp [hk]
    · have hle : k + 1 ≤ o ↔ k ≤ o := by omega
      simp only [hmem o heq, hle]

theorem exists_from (h : k < c.size) :
    ∃ t, c.tokens[k]? = some t ∧ c.From k (t :: c.tokens.toList.drop (k + 1)) := by
  have hlen : k < c.tokens.toList.length := by
    rw [Array.length_toList]
    exact h
  exact ⟨_, Array.getElem?_eq_getElem h, List.drop_eq_getElem_cons hlen⟩

theorem partner_eq_none (hk : k < c.size) (h : openerAt c k = none) : c.partner k = none := by
  obtain ⟨t, ht, hf⟩ := exists_from hk
  rw [openerAt, ht, Option.bind_some] at h
  rw [hf.partner, h]
  rfl

/-- A turn of the loop faults nowhere. -/
theorem Matched.step {s : Matching} (h : Matched c k s) (hk : k < c.size) :
    ∃ s', matchStep c s k = pure s' ∧ Matched c (k + 1) s' := by
  obtain ⟨t, ht, hf⟩ := exists_from hk
  have hopener : openerAt c k = opener? t := by rw [openerAt, ht, Option.bind_some]
  have hcloser : closerAt c k = closer? t := by rw [closerAt, ht, Option.bind_some]
  rw [matchStep]
  cases ho : opener? t with
  | some b =>
    rw [hopener, ho, if_pos Option.isSome_some]
    refine ⟨_, rfl, h.keep ?_ ?_ ?_ ?_ (.inl (by simp))⟩
    · exact List.nodup_cons.mpr ⟨fun hm => Nat.lt_irrefl k (h.before k hm), h.nodup⟩
    · intro o hm
      rcases List.mem_cons.mp hm with rfl | hm
      · omega
      · have := h.before o hm
        omega
    · refine ⟨b, by rw [hopener, ho], ?_, ?_⟩
      · rw [hf.partner, ho]
        rfl
      · exact h.pending.step hf fun xs _ => by rw [afterToken, ho]; rfl
    · intro o ho
      simp [ho]
  | none =>
    have hnone := partner_eq_none hk (hopener.trans ho)
    rw [hopener, ho, if_neg (by simp)]
    obtain ⟨opened, partners⟩ := s
    cases opened with
    | nil => exact ⟨_, rfl, h.keep .nil (by simp) trivial (by simp) (.inr hnone)⟩
    | cons o outer =>
      obtain ⟨b, hb, hp, hpending⟩ := h.pending
      have hlt := h.before o (by simp)
      have hafter (xs : List Bracket) : afterToken (b :: xs) t =
          if (closer? t).isSome && closer? t = some b then xs else b :: xs := by
        rw [afterToken, ho]
        rfl
      dsimp only
      rw [hcloser, hb]
      split
      · rename_i hfits
        have hself : c.partner o = some k := by
          rw [hp, hf, List.nil_append, distance, hafter, if_pos hfits]
          rfl
        rw [writeAt, if_pos (by rw [h.size]; omega), pure_bind]
        refine ⟨_, rfl, ?_⟩
        obtain ⟨hout, hnodup⟩ := List.nodup_cons.mp h.nodup
        refine ⟨by simpa using h.size, hnodup, fun o' hm => ?_, ?_, fun o' ho' => ?_⟩
        · have := h.before o' (by simp [hm])
          omega
        · exact hpending.step hf fun xs _ => by
            rw [List.nil_append, List.singleton_append, hafter, if_pos hfits]
            rfl
        · have hentry := h.entries o' ho'
          by_cases heq : o' = o
          · subst heq
            rw [Array.getElem?_setIfInBounds_self_of_lt (by rw [h.size]; exact ho'),
              if_neg (by simp only [hout, false_or]; omega), hself]
          · rw [Array.getElem?_setIfInBounds_ne (Ne.symm heq), hentry]
            by_cases hk' : o' = k
            · subst hk'
              simp [hnone]
            · have hle : k + 1 ≤ o' ↔ k ≤ o' := by omega
              simp [heq, hle]
      · rename_i hfits
        refine ⟨_, rfl, h.keep h.nodup (fun o' hm => ?_) ?_ (by simp) (.inr hnone)⟩
        · have := h.before o' hm
          omega
        · refine ⟨b, hb, ?_, hpending.step hf fun xs _ => ?_⟩
          · rw [hp, hf]
            exact distance_step (by rw [List.nil_append, hafter, if_neg hfits]) (by simp) k
          · rw [List.nil_append, List.singleton_append, hafter, if_neg hfits]

theorem Matched.run (hk : k ≤ c.size) :
    ∃ s, (List.range k).foldlM (matchStep c) ⟨[], Array.replicate c.size none⟩ = pure s ∧
      Matched c k s := by
  induction k with
  | zero => exact ⟨_, rfl, .init c⟩
  | succ k ih =>
    obtain ⟨s, hs, hm⟩ := ih (by omega)
    obtain ⟨s', hs', hm'⟩ := hm.step hk
    refine ⟨s', ?_, hm'⟩
    rw [List.range_succ, List.foldlM_append, hs, pure_bind, List.foldlM_cons, hs', pure_bind]
    rfl

theorem Open.partner_eq_none {inner : List Bracket} {opened : List Nat}
    (h : Open c c.size inner opened) {o : Nat} (ho : o ∈ opened) : c.partner o = none := by
  induction opened generalizing inner with
  | nil => cases ho
  | cons o' outer ih =>
    obtain ⟨b, -, hp, hrest⟩ := h
    rcases List.mem_cons.mp ho with rfl | ho
    · rw [hp, List.drop_of_length_le (by simp [Code.size])]
      rfl
    · exact ih hrest ho

/-- The table of partners is filled without a fault. -/
theorem matchBrackets_eq (c : Code) : matchBrackets c = pure c.partners := by
  obtain ⟨s, hs, hm⟩ := Matched.run (Nat.le_refl c.size)
  rw [matchBrackets, hs, pure_bind]
  congr 1
  refine Array.ext_getElem? fun o => ?_
  by_cases ho : o < c.size
  · rw [hm.entries o ho, getElem?_partners ho]
    split
    · rename_i hopen
      rw [hm.pending.partner_eq_none (hopen.resolve_right (by omega))]
    · rfl
  · rw [Array.getElem?_eq_none (by rw [hm.size]; omega),
      Array.getElem?_eq_none (by rw [size_partners]; omega)]

/-! ### Flags -/

/-- A table with a flag for each token. -/
def flagsOf (c : Code) (f : Nat → Bool) : Array Bool := (Array.range c.size).map f

@[simp] theorem size_flagsOf (c : Code) (f : Nat → Bool) : (flagsOf c f).size = c.size := by
  simp [flagsOf]

theorem getElem?_flagsOf {f : Nat → Bool} (h : k < c.size) : (flagsOf c f)[k]? = some (f k) := by
  simp [flagsOf, h]

/-- The flags of all tokens that are erased set, those past the end left out. -/
def mark (flags : Array Bool) (e : Erasure) : Array Bool :=
  flags.mapIdx fun i flag => flag || e.covers i

theorem mark_flagsOf (c : Code) (f : Nat → Bool) (e : Erasure) :
    mark (flagsOf c f) e = flagsOf c fun i => f i || e.covers i := by
  refine Array.ext (by simp [mark]) fun i hi _ => ?_
  simp [mark, flagsOf]

/-- The flags from `first` to `last` set, all of which have to be there. -/
def fill (table : Table) (flags : Array Bool) (first last : Nat) : Guarded (Array Bool) :=
  if first ≤ last + 1 ∧ last < flags.size then pure (mark flags [⟨first, last⟩])
  else throw (.outside table last)

def clauseStep (c : Code) (flags : Array Bool) (k : Nat) : Guarded (Array Bool) :=
  if c.punct k "\x7b" then do
    match ← partnerAt c k with
    | some close => if c.opensClause k then fill .clauses flags k close else pure flags
    | none => pure flags
  else pure flags

/-- The loop that flags the tokens in lists of specifiers. -/
def markClauses (c : Code) : Guarded (Array Bool) :=
  (List.range' 1 (c.size - 1)).foldlM (clauseStep c) (flagsOf c fun _ => false)

/-- Whether token `i` stands in the list of specifiers that opens at `o`. -/
def inClauseAt (c : Code) (o i : Nat) : Bool :=
  c.opensClause o && (c.partner o).any fun close => Span.covers ⟨o, close⟩ i

theorem clauseStep_eq (hk : k < c.size) (f : Nat → Bool) :
    clauseStep c (flagsOf c f) k = pure (flagsOf c fun i => f i || inClauseAt c k i) := by
  have hkeep (h : ∀ i, inClauseAt c k i = false) :
      flagsOf c f = flagsOf c fun i => f i || inClauseAt c k i := by
    simp [h]
  rw [clauseStep]
  cases hb : c.punct k "\x7b" with
  | false =>
    rw [if_neg (by simp), ← hkeep fun i => ?_]
    simp [inClauseAt, opensClause, hb]
  | true =>
    rw [if_pos rfl, partnerAt_eq hk, pure_bind]
    cases hp : c.partner k with
    | none => rw [← hkeep fun i => by simp [inClauseAt, hp]]
    | some close =>
      have hbounds := partner_bounds hp
      cases ho : c.opensClause k with
      | false => simp only [Bool.false_eq_true, if_false, ← hkeep fun i => by simp [inClauseAt, ho]]
      | true =>
        simp only [if_true]
        rw [fill, if_pos ⟨by omega, by simpa using hbounds.2⟩, mark_flagsOf]
        simp [inClauseAt, ho, hp, Erasure.covers]

theorem foldlM_clauseStep {m : Nat} (hm : m ≤ c.size - 1) :
    (List.range' 1 m).foldlM (clauseStep c) (flagsOf c fun _ => false) =
      pure (flagsOf c fun i => (List.range' 1 m).any (inClauseAt c · i)) := by
  induction m with
  | zero => rfl
  | succ m ih =>
    rw [List.range'_concat, List.foldlM_append, ih (by omega), pure_bind, List.foldlM_cons,
      clauseStep_eq (by omega), pure_bind]
    simp [List.any_append]

theorem inClause_eq {i : Nat} (hi : i < c.size) :
    (List.range' 1 (c.size - 1)).any (inClauseAt c · i) = c.inClause i := by
  refine Bool.eq_iff_iff.mpr ?_
  simp only [List.any_eq_true, List.mem_range'_1, inClause, List.mem_range, inClauseAt,
    Bool.and_eq_true, Option.any_eq_true, Span.covers, decide_eq_true_eq]
  constructor
  · rintro ⟨o, -, ho, close, hp, hle, hle'⟩
    exact ⟨o, by omega, ho, close, hp, hle'⟩
  · rintro ⟨o, hle, ho, close, hp, hle'⟩
    have hpos : 0 < o := by
      simp only [opensClause, Bool.and_eq_true, decide_eq_true_eq] at ho
      exact ho.1.1
    exact ⟨o, by omega, ho, close, hp, by omega, hle'⟩

/-- The table of specifiers is filled without a fault. -/
theorem markClauses_eq (c : Code) : markClauses c = pure (flagsOf c c.inClause) := by
  rw [markClauses, foldlM_clauseStep (Nat.le_refl _)]
  congr 1
  refine Array.map_congr_left fun i hi => inClause_eq ?_
  simpa using hi

end Guarded

end Retouch.Code
