import Retouch.Proofs.Brackets

/-! Partners nest. The brackets on a stack are closed from the top down, whatever else
is read, so an opener between two partners has its own partner between them, and
pairs never cross. Reading all tokens once, with the open brackets on one stack, finds
the same pairs. And where the brackets of a stretch match, every opener in it has the
closer that belongs to it. -/

namespace Retouch
open Syntax

/-! ### Closing a stack -/

/-- What one token does to the open brackets. -/
theorem afterToken_cases (stack : List Bracket) (t : Token) :
    (∃ b, opener? t = some b ∧ afterToken stack t = b :: stack) ∨
    (∃ b rest, opener? t = none ∧ closer? t = some b ∧ stack = b :: rest ∧
      afterToken stack t = rest) ∨
    (opener? t = none ∧ (∀ b, stack.head? = some b → closer? t ≠ some b) ∧
      afterToken stack t = stack) := by
  cases ho : opener? t with
  | some b => exact .inl ⟨b, rfl, afterToken_opener ho stack⟩
  | none =>
    refine .inr ?_
    cases stack with
    | nil => exact .inr ⟨rfl, by simp, by simp [afterToken, ho]⟩
    | cons b rest =>
      by_cases hc : closer? t = some b
      · exact .inl ⟨b, rest, rfl, hc, rfl, afterToken_closer hc rest⟩
      · refine .inr ⟨rfl, fun b' hb' => ?_, by simp [afterToken, ho, hc]⟩
        rwa [← Option.some.inj hb']

/-- Brackets further down play no part while there is one on top of them. -/
theorem afterToken_append {upper : List Bracket} (hu : upper ≠ []) (lower : List Bracket)
    (t : Token) : afterToken (upper ++ lower) t = afterToken upper t ++ lower := by
  cases upper with
  | nil => exact absurd rfl hu
  | cons b rest =>
    rcases afterToken_cases (b :: rest) t with ⟨b', ho, he⟩ | ⟨b', rest', ho, hc, hs, he⟩ |
      ⟨ho, hc, he⟩
    · rw [he, afterToken_opener ho]
      rfl
    · cases hs
      rw [he, List.cons_append, afterToken_closer hc]
    · have hb : closer? t ≠ some b := hc b rfl
      rw [he]
      simp [afterToken, ho, hb]

theorem distance_cons (stack : List Bracket) (t : Token) (ts : List Token) :
    distance stack (t :: ts) =
      if afterToken stack t = [] then some 0
      else (distance (afterToken stack t) ts).map (· + 1) := by
  rw [distance]
  cases afterToken stack t <;> rfl

/-- A stack is closed from the top down: first its upper part, then the rest. -/
theorem distance_stack {upper lower : List Bracket} (hu : upper ≠ []) (hl : lower ≠ [])
    (ts : List Token) : distance (upper ++ lower) ts =
      (distance upper ts).bind fun n => (distance lower (ts.drop (n + 1))).map (n + 1 + ·) := by
  induction ts generalizing upper with
  | nil => rfl
  | cons t ts ih =>
    rw [distance_cons, distance_cons, afterToken_append hu]
    by_cases hempty : afterToken upper t = []
    · simp only [hempty, List.nil_append, if_neg hl, if_true, Option.bind_some,
        List.drop_succ_cons, List.drop_zero, Nat.zero_add]
      congr 1
      funext n
      exact Nat.add_comm n 1
    · rw [if_neg (by simp [hempty]), if_neg hempty, ih hempty]
      cases distance (afterToken upper t) ts with
      | none => rfl
      | some n =>
        simp only [Option.bind_some, Option.map_some, Option.map_map, List.drop_succ_cons]
        congr 1
        funext m
        simp only [Function.comp_apply]
        omega

/-- What closes a stack fits its lowest bracket. -/
theorem closer?_of_distance {stack : List Bracket} {b : Bracket} {ts : List Token} {n : Nat}
    (h : distance (stack ++ [b]) ts = some n) : ts[n]?.bind closer? = some b := by
  induction ts generalizing stack n with
  | nil => cases h
  | cons t ts ih =>
    rw [distance_cons] at h
    split at h
    · rename_i hempty
      cases h
      rcases afterToken_cases (stack ++ [b]) t with ⟨b', -, he⟩ | ⟨b', rest, -, hc, hs, he⟩ |
        ⟨-, -, he⟩
      · rw [he] at hempty
        cases hempty
      · rw [← he, hempty] at hs
        obtain ⟨rfl, hb⟩ := List.append_eq_singleton_iff.mp hs |>.resolve_right (by simp)
        cases hb
        simpa using hc
      · rw [he] at hempty
        exact absurd hempty (by simp)
    · rename_i hopen
      obtain ⟨m, hm, rfl⟩ := Option.map_eq_some_iff.mp h
      -- the lowest bracket stays where it is while the stack is not empty
      obtain ⟨stack', hstack'⟩ : ∃ stack', afterToken (stack ++ [b]) t = stack' ++ [b] := by
        cases stack with
        | nil =>
          rcases afterToken_cases [b] t with ⟨b', -, he⟩ | ⟨b', rest, -, -, hs, he⟩ | ⟨-, -, he⟩
          · exact ⟨[b'], he⟩
          · cases hs
            exact absurd he hopen
          · exact ⟨[], he⟩
        | cons b' rest => exact ⟨_, afterToken_append (List.cons_ne_nil _ _) [b] t⟩
      rw [hstack'] at hm
      simpa using ih hm

/-- An opener read while a stack is being closed is closed before the stack is. -/
theorem distance_of_opener {stack : List Bracket} {ts : List Token} {n i : Nat} {t : Token}
    {b : Bracket} (hs : stack ≠ []) (h : distance stack ts = some n) (hi : i < n)
    (ht : ts[i]? = some t) (hb : opener? t = some b) :
    ∃ m, distance [b] (ts.drop (i + 1)) = some m ∧ i + 1 + m < n := by
  induction ts generalizing stack n i with
  | nil => cases h
  | cons u ts ih =>
    rw [distance_cons] at h
    split at h
    · cases h
      exact absurd hi (Nat.not_lt_zero i)
    · rename_i hopen
      obtain ⟨n, hn, rfl⟩ := Option.map_eq_some_iff.mp h
      cases i with
      | zero =>
        cases (Option.some.inj ht : u = t)
        rw [afterToken_opener hb] at hn
        have hsplit := distance_stack (List.cons_ne_nil b []) hs ts
        rw [List.singleton_append, hn] at hsplit
        obtain ⟨m, hm, hrest⟩ := Option.bind_eq_some_iff.mp hsplit.symm
        obtain ⟨k, -, hk⟩ := Option.map_eq_some_iff.mp hrest
        exact ⟨m, hm, by omega⟩
      | succ i =>
        obtain ⟨m, hm, hlt⟩ := ih hopen hn (by omega) ht
        exact ⟨m, hm, by omega⟩

/-! ### One pass -/

/-- The pairs that are found from index `k` on, with the openers before it that are
still open, innermost first. -/
def pairsFrom (k : Nat) (opened : List (Nat × Bracket)) : List Token → List (Nat × Nat)
  | [] => []
  | t :: ts =>
    match opener? t, opened with
    | some b, _ => pairsFrom (k + 1) ((k, b) :: opened) ts
    | none, [] => pairsFrom (k + 1) [] ts
    | none, (o, b) :: outer =>
      if closer? t = some b then (o, k) :: pairsFrom (k + 1) outer ts
      else pairsFrom (k + 1) ((o, b) :: outer) ts

/-- One of the openers that are still open is at `o`, and `z` closes it. -/
def ClosedAt (k : Nat) (opened : List (Nat × Bracket)) (ts : List Token) (o z : Nat) : Prop :=
  ∃ inner b outer n, opened = inner ++ (o, b) :: outer ∧
    distance (inner.map Prod.snd ++ [b]) ts = some n ∧ z = k + n

theorem not_closedAt_nil {k o z : Nat} {ts : List Token} : ¬ ClosedAt k [] ts o z := by
  rintro ⟨inner, b, outer, n, hnil, -⟩
  exact absurd hnil (by simp)

/-- The innermost opener, or one further out that waits for it. -/
theorem closedAt_cons {k o z top : Nat} {b : Bracket} {outer : List (Nat × Bracket)}
    {ts : List Token} : ClosedAt k ((top, b) :: outer) ts o z ↔
      (o = top ∧ (distance [b] ts).map (k + ·) = some z) ∨
      ∃ inner b' outer' n, outer = inner ++ (o, b') :: outer' ∧
        distance (b :: (inner.map Prod.snd ++ [b'])) ts = some n ∧ z = k + n := by
  constructor
  · rintro ⟨inner, b', outer', n, hopened, hn, rfl⟩
    cases inner with
    | nil =>
      cases hopened
      exact .inl ⟨rfl, by simpa using hn⟩
    | cons first inner =>
      cases hopened
      exact .inr ⟨inner, b', outer', n, rfl, hn, rfl⟩
  · rintro (⟨rfl, hz⟩ | ⟨inner, b', outer', n, rfl, hn, rfl⟩)
    · obtain ⟨n, hn, rfl⟩ := Option.map_eq_some_iff.mp hz
      exact ⟨[], b, outer, n, rfl, hn, rfl⟩
    · exact ⟨(top, b) :: inner, b', outer', n, rfl, hn, rfl⟩

theorem closedAt_opener {k o z : Nat} {opened : List (Nat × Bracket)} {t : Token}
    {ts : List Token} {b : Bracket} (h : opener? t = some b) :
    ClosedAt k opened (t :: ts) o z ↔ ∃ inner b' outer n, opened = inner ++ (o, b') :: outer ∧
      distance (b :: (inner.map Prod.snd ++ [b'])) ts = some n ∧ z = k + 1 + n := by
  have hstep (stack : List Bracket) :
      distance stack (t :: ts) = (distance (b :: stack) ts).map (· + 1) := by
    rw [distance_cons, afterToken_opener h, if_neg (List.cons_ne_nil _ _)]
  simp only [ClosedAt, hstep, Option.map_eq_some_iff]
  constructor
  · rintro ⟨inner, b', outer, _, hopened, ⟨n, hn, rfl⟩, rfl⟩
    exact ⟨inner, b', outer, n, hopened, hn, by omega⟩
  · rintro ⟨inner, b', outer, n, hopened, hn, rfl⟩
    exact ⟨inner, b', outer, n + 1, hopened, ⟨n, hn, rfl⟩, by omega⟩

theorem closedAt_closer {k o z top : Nat} {outer : List (Nat × Bracket)} {t : Token}
    {ts : List Token} {b : Bracket} (h : closer? t = some b) :
    ClosedAt k ((top, b) :: outer) (t :: ts) o z ↔
      (o = top ∧ z = k) ∨ ClosedAt (k + 1) outer ts o z := by
  rw [closedAt_cons]
  have htop : distance [b] (t :: ts) = some 0 := by
    rw [distance_cons, afterToken_closer h, if_pos rfl]
  have hstep (inner : List (Nat × Bracket)) (b' : Bracket) :
      distance (b :: (inner.map Prod.snd ++ [b'])) (t :: ts) =
        (distance (inner.map Prod.snd ++ [b']) ts).map (· + 1) := by
    rw [distance_cons, afterToken_closer h, if_neg (by simp)]
  simp only [ClosedAt, htop, hstep, Option.map_eq_some_iff, Option.map_some, Option.some.injEq,
    Nat.add_zero]
  constructor
  · rintro (⟨rfl, rfl⟩ | ⟨inner, b', outer', _, houter, ⟨n, hn, rfl⟩, rfl⟩)
    · exact .inl ⟨rfl, rfl⟩
    · exact .inr ⟨inner, b', outer', n, houter, hn, by omega⟩
  · rintro (⟨rfl, rfl⟩ | ⟨inner, b', outer', n, houter, hn, rfl⟩)
    · exact .inl ⟨rfl, rfl⟩
    · exact .inr ⟨inner, b', outer', n + 1, houter, ⟨n, hn, rfl⟩, by omega⟩

theorem closedAt_other {k o z : Nat} {opened : List (Nat × Bracket)} {t : Token}
    {ts : List Token} (ho : opener? t = none)
    (hc : ∀ e, opened.head? = some e → closer? t ≠ some e.2) :
    ClosedAt k opened (t :: ts) o z ↔ ClosedAt (k + 1) opened ts o z := by
  have hstep {inner outer : List (Nat × Bracket)} {b : Bracket}
      (hopened : opened = inner ++ (o, b) :: outer) :
      distance (inner.map Prod.snd ++ [b]) (t :: ts) =
        (distance (inner.map Prod.snd ++ [b]) ts).map (· + 1) := by
    have hsame : afterToken (inner.map Prod.snd ++ [b]) t = inner.map Prod.snd ++ [b] := by
      cases inner with
      | nil =>
        have hb : closer? t ≠ some b := hc (o, b) (by simp [hopened])
        simp [afterToken, ho, hb]
      | cons first inner =>
        have hb : closer? t ≠ some first.2 := hc first (by simp [hopened])
        simp [afterToken, ho, hb]
    rw [distance_cons, hsame, if_neg (by simp)]
  constructor
  · rintro ⟨inner, b, outer, _, hopened, hclose, rfl⟩
    rw [hstep hopened] at hclose
    obtain ⟨n, hn, rfl⟩ := Option.map_eq_some_iff.mp hclose
    exact ⟨inner, b, outer, n, hopened, hn, by omega⟩
  · rintro ⟨inner, b, outer, n, hopened, hn, rfl⟩
    refine ⟨inner, b, outer, n + 1, hopened, ?_, by omega⟩
    rw [hstep hopened, hn]
    rfl

/-- The opener at `o`, not before `k`, has its partner at `z`. -/
def PartnerAt (k : Nat) (ts : List Token) (o z : Nat) : Prop :=
  ∃ i, o = k + i ∧ (partnersFrom k ts)[i]? = some (some z)

theorem partnerAt_cons {k o z : Nat} {t : Token} {ts : List Token} :
    PartnerAt k (t :: ts) o z ↔
      (o = k ∧ (opener? t).bind (fun b => (distance [b] ts).map (k + 1 + ·)) = some z) ∨
      PartnerAt (k + 1) ts o z := by
  have hhead : (partnersFrom k (t :: ts))[0]? =
      some ((opener? t).bind fun b => (distance [b] ts).map (k + 1 + ·)) := by
    rw [partnersFrom_getElem?]
    rfl
  constructor
  · rintro ⟨i, rfl, hi⟩
    cases i with
    | zero => exact .inl ⟨rfl, Option.some.inj (hhead.symm.trans hi)⟩
    | succ i => exact .inr ⟨i, by omega, hi⟩
  · rintro (⟨rfl, hz⟩ | ⟨i, rfl, hi⟩)
    · exact ⟨0, rfl, hhead.trans (congrArg some hz)⟩
    · exact ⟨i + 1, by omega, hi⟩

/-- Along the pass, a pair is one that closes an opener on the stack, or a pair of
partners among the tokens to come. -/
theorem mem_pairsFrom {k : Nat} {opened : List (Nat × Bracket)} {ts : List Token} {o z : Nat} :
    (o, z) ∈ pairsFrom k opened ts ↔ ClosedAt k opened ts o z ∨ PartnerAt k ts o z := by
  induction ts generalizing k opened with
  | nil => simp [pairsFrom, ClosedAt, PartnerAt, distance, partnersFrom]
  | cons t ts ih =>
    rw [partnerAt_cons]
    cases ho : opener? t with
    | some b =>
      simp only [pairsFrom, ho]
      rw [ih, closedAt_cons, closedAt_opener ho, Option.bind_some, or_assoc, or_left_comm]
    | none =>
      cases opened with
      | nil =>
        simp only [pairsFrom, ho]
        rw [ih, closedAt_other ho (by simp)]
        simp
      | cons top outer =>
        obtain ⟨top, b⟩ := top
        simp only [pairsFrom, ho]
        by_cases hc : closer? t = some b
        · rw [if_pos hc, List.mem_cons, ih, closedAt_closer hc]
          simp [or_assoc]
        · have hother : ∀ e, ((top, b) :: outer).head? = some e → closer? t ≠ some e.2 := by
            rintro e he
            rw [← Option.some.inj he]
            exact hc
          rw [if_neg hc, ih, closedAt_other ho hother]
          simp

/-! ### Stretches whose brackets match -/

/-- The opener at `i` and the closer at `j` belong together: they are of one kind, and
the brackets between them match. -/
def Mates (ts : List Token) (i j : Nat) : Prop :=
  ∃ before o inside z behind b, ts = before ++ o :: (inside ++ z :: behind) ∧
    opener? o = some b ∧ closer? z = some b ∧ Balanced inside ∧
    i = before.length ∧ j = before.length + 1 + inside.length

theorem Mates.within {ts : List Token} {i j : Nat} (h : Mates ts i j) (front back : List Token) :
    Mates (front ++ (ts ++ back)) (front.length + i) (front.length + j) := by
  obtain ⟨before, o, inside, z, behind, b, rfl, ho, hz, hin, rfl, rfl⟩ := h
  refine ⟨front ++ before, o, inside, z, behind ++ back, b, by simp, ho, hz, hin, ?_, ?_⟩
  · simp
  · simp only [List.length_append]
    omega

theorem Mates.lt_length {ts : List Token} {i j : Nat} (h : Mates ts i j) : j < ts.length := by
  obtain ⟨before, o, inside, z, behind, b, rfl, -, -, -, -, rfl⟩ := h
  simp only [List.length_append, List.length_cons]
  omega

/-- In a stretch whose brackets match, every opener has a mate. -/
theorem Balanced.mates {ts : List Token} (h : Balanced ts) {i : Nat} {t : Token} {b : Bracket}
    (ht : ts[i]? = some t) (hb : opener? t = some b) : ∃ j, Mates ts i j := by
  induction h generalizing i with
  | nil => cases ht
  | @plain u us hu _ _ ih =>
    cases i with
    | zero =>
      cases ht
      rw [hu] at hb
      cases hb
    | succ i =>
      obtain ⟨j, hj⟩ := ih ht
      have hwithin := hj.within [u] []
      rw [List.append_nil, List.singleton_append, List.length_singleton,
        Nat.add_comm 1 i] at hwithin
      exact ⟨_, hwithin⟩
  | @group o z b' xs ys ho hz hx _ ihx ihy =>
    by_cases hzero : i = 0
    · exact ⟨_, [], o, xs, z, ys, b', rfl, ho, hz, hx, hzero, rfl⟩
    · obtain ⟨i, rfl⟩ := Nat.exists_eq_add_of_lt (Nat.pos_of_ne_zero hzero)
      rw [Nat.zero_add, List.getElem?_cons_succ] at ht
      by_cases hin : i < xs.length
      · rw [List.getElem?_append_left hin] at ht
        obtain ⟨j, hj⟩ := ihx ht
        have hwithin := hj.within [o] (z :: ys)
        rw [List.singleton_append, List.length_singleton, Nat.add_comm 1 i] at hwithin
        exact ⟨_, by simpa using hwithin⟩
      · rw [List.getElem?_append_right (by omega)] at ht
        cases hk : i - xs.length with
        | zero =>
          rw [hk] at ht
          cases ht
          rw [opener?_of_closer? hz] at hb
          cases hb
        | succ k =>
          rw [hk] at ht
          obtain ⟨j, hj⟩ := ihy ht
          have hwithin := hj.within (o :: (xs ++ [z])) []
          have hindex : (o :: (xs ++ [z])).length + k = 0 + i + 1 := by
            simp only [List.length_cons, List.length_append, List.length_nil]
            omega
          rw [hindex] at hwithin
          exact ⟨_, by simpa using hwithin⟩

namespace Code

/-! ### Partners -/

/-- Which kind of bracket a token opens. -/
def opens (c : Code) (k : Nat) : Option Bracket := c.tokens[k]?.bind opener?

/-- Which kind of bracket a token closes. -/
def closes (c : Code) (k : Nat) : Option Bracket := c.tokens[k]?.bind closer?

variable {c : Code} {o z o' z' : Nat}

theorem partner_eq (c : Code) (o : Nat) : c.partner o = (c.opens o).bind fun b =>
    (distance [b] (c.tokens.toList.drop (o + 1))).map (o + 1 + ·) := by
  rw [partner, ← Array.getElem?_toList, c.partners_eq, partnersFrom_getElem?, opens,
    Array.getElem?_toList]
  cases c.tokens[o]? <;> simp

theorem partner_eq_some (h : c.partner o = some z) : ∃ b n, c.opens o = some b ∧
    distance [b] (c.tokens.toList.drop (o + 1)) = some n ∧ z = o + 1 + n := by
  rw [partner_eq] at h
  obtain ⟨b, hb, hz⟩ := Option.bind_eq_some_iff.mp h
  obtain ⟨n, hn, rfl⟩ := Option.map_eq_some_iff.mp hz
  exact ⟨b, n, hb, hn, rfl⟩

/-- Partners are brackets of one kind. -/
theorem closes_partner (h : c.partner o = some z) :
    ∃ b, c.opens o = some b ∧ c.closes z = some b := by
  obtain ⟨b, n, hb, hn, rfl⟩ := partner_eq_some h
  refine ⟨b, hb, ?_⟩
  have hclose := @closer?_of_distance [] b _ n hn
  rwa [List.getElem?_drop, Array.getElem?_toList] at hclose

/-- An opener between partners has its partner between them. -/
theorem partner_between (h : c.partner o = some z) {q : Nat} (hoq : o < q) (hqz : q < z)
    (hq : (c.opens q).isSome) : ∃ r, c.partner q = some r ∧ q < r ∧ r < z := by
  obtain ⟨b, n, hb, hn, rfl⟩ := partner_eq_some h
  obtain ⟨b', hb'⟩ := Option.isSome_iff_exists.mp hq
  obtain ⟨t, ht, hopen⟩ := Option.bind_eq_some_iff.mp hb'
  obtain ⟨i, rfl⟩ : ∃ i, q = o + 1 + i := ⟨q - (o + 1), by omega⟩
  have hget : (c.tokens.toList.drop (o + 1))[i]? = some t := by
    rwa [List.getElem?_drop, Array.getElem?_toList]
  obtain ⟨m, hm, hlt⟩ := distance_of_opener (List.cons_ne_nil b []) hn (by omega) hget hopen
  rw [List.drop_drop] at hm
  refine ⟨o + 1 + i + 1 + m, ?_, by omega, by omega⟩
  rw [partner_eq, hb', Option.bind_some, show o + 1 + i + 1 = o + 1 + (i + 1) by omega, hm]
  rfl

/-- Of two pairs the later one lies behind the other or inside it. -/
theorem partner_behind_or_inside (h : c.partner o = some z) (h' : c.partner o' = some z')
    (hlt : o < o') : z < o' ∨ z' < z := by
  obtain ⟨b', hopen', -⟩ := closes_partner h'
  by_cases hin : o' < z
  · obtain ⟨r, hr, -, hrz⟩ := partner_between h hlt hin (Option.isSome_of_eq_some hopen')
    rw [h'] at hr
    cases hr
    exact .inr hrz
  · -- a token does not open and close a bracket at once
    have hne : o' ≠ z := by
      rintro rfl
      obtain ⟨b, -, hclose⟩ := closes_partner h
      obtain ⟨t, ht, hopen⟩ := Option.bind_eq_some_iff.mp hopen'
      rw [closes, ht, Option.bind_some, closer?_of_opener? hopen] at hclose
      cases hclose
    exact .inl (by omega)

theorem partner_of_mates (h : Mates c.tokens.toList o z) : c.partner o = some z := by
  obtain ⟨before, t, inside, u, behind, b, hts, ht, hu, hin, rfl, rfl⟩ := h
  have hfrom : c.From before.length (t :: (inside ++ u :: behind)) := by
    rw [From, hts, List.drop_left]
  exact hfrom.partner_closer ht hin hu

/-- The table of partners is a proper nesting, and it is the one that a single pass
finds: partners are brackets of one kind in their order, each closer belongs to one
opener, pairs lie apart or one inside the other, and between partners every opener
has its partner too. Where the brackets of a stretch match, its openers have the
partners that they have there. -/
theorem partner_nesting (c : Code) :
    (∀ o z, c.partner o = some z ↔ (o, z) ∈ pairsFrom 0 [] c.tokens.toList) ∧
    (∀ o z, c.partner o = some z →
      o < z ∧ (∃ b, c.opens o = some b ∧ c.closes z = some b) ∧
      (∀ o', c.partner o' = some z → o' = o) ∧
      (∀ o' z', c.partner o' = some z' → o' ≠ o →
        z < o' ∨ z' < o ∨ (o < o' ∧ z' < z) ∨ (o' < o ∧ z < z')) ∧
      ∀ q, o < q → q < z → (c.opens q).isSome → ∃ r, c.partner q = some r ∧ q < r ∧ r < z) ∧
    ∀ front stretch back, c.tokens.toList = front ++ (stretch ++ back) → Balanced stretch →
      ∀ i, ((stretch[i]?).bind opener?).isSome → ∃ j, j < stretch.length ∧ Mates stretch i j ∧
        c.partner (front.length + i) = some (front.length + j) := by
  refine ⟨fun o z => ?_, fun o z h => ⟨(partner_bounds h).1, closes_partner h, fun o' h' => ?_,
    fun o' z' h' hne => ?_, fun q => partner_between h⟩, fun front stretch back hts hb i hi => ?_⟩
  · rw [mem_pairsFrom, or_iff_right not_closedAt_nil, PartnerAt, partner, Option.join_eq_some_iff,
      ← Array.getElem?_toList, c.partners_eq]
    simp
  · -- the closer would close the outer one of two openers before itself
    rcases Nat.lt_trichotomy o o' with hlt | heq | hlt
    · have := (partner_bounds h').1
      have := partner_behind_or_inside h h' hlt
      omega
    · exact heq.symm
    · have := (partner_bounds h).1
      have := partner_behind_or_inside h' h hlt
      omega
  · rcases Nat.lt_or_gt_of_ne hne with hlt | hlt
    · have := partner_behind_or_inside h' h hlt
      omega
    · have := partner_behind_or_inside h h' hlt
      omega
  · obtain ⟨b, hopen⟩ := Option.isSome_iff_exists.mp hi
    obtain ⟨t, ht, hopen⟩ := Option.bind_eq_some_iff.mp hopen
    obtain ⟨j, hj⟩ := hb.mates ht hopen
    refine ⟨j, hj.lt_length, hj, partner_of_mates ?_⟩
    rw [hts]
    exact hj.within front back

def bracketToken (text : String) : Token := ⟨.punctuator, text, .origin, .origin⟩

/-- Two closers that fit nothing, and two openers that are never closed. -/
def strayBrackets : Code :=
  .ofTokens (["(", "[", ")", "]", "\x7d", "\x7b", "(", ")"].map bracketToken)

theorem partner_nesting_stray :
    strayBrackets.partner 0 = none ∧ strayBrackets.partner 1 = some 3 ∧
    (∀ o', strayBrackets.partner o' = some 3 → o' = 1) ∧
    (∃ j, Mates (["(", ")"].map bracketToken) 0 j ∧ strayBrackets.partner 6 = some (6 + j)) := by
  obtain ⟨-, hpairs, hstretch⟩ := partner_nesting strayBrackets
  have hpair : strayBrackets.partner 1 = some 3 := by decide +kernel
  have hmatch : Balanced (["(", ")"].map bracketToken) :=
    @Balanced.bracketed _ _ .round [] (by decide +kernel) (by decide +kernel) .nil
  obtain ⟨j, -, hj, hpartner⟩ := hstretch
    (["(", "[", ")", "]", "\x7d", "\x7b"].map bracketToken) _ [] rfl hmatch 0 (by decide +kernel)
  exact ⟨by decide +kernel, hpair, (hpairs 1 3 hpair).2.2.1, j, hj, hpartner⟩

end Code

end Retouch
