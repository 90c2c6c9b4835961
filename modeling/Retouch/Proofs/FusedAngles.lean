import Mathlib.Logic.Relation
import Retouch.Proofs.TypeReach

/-! Closing angle brackets that stand side by side may be one token. The grammar of
types holds whichever way they are written: from the tokens of a type any run of such
brackets can be fused, and they are still the tokens of that type. So the scan of a
type, which counts angle brackets and knows no nesting, ends right behind it in every
spelling. -/

namespace Retouch
open Syntax

/-! ### Tokens that close no angle bracket -/

namespace Syntax.Token
variable {t : Token} {s : String}

/-- A token that closes no angle bracket cannot be fused with another. -/
def Unfusable (t : Token) : Prop := ∀ n, ¬ t.IsClosing n

theorem IsClosing.kind {n : Nat} (h : t.IsClosing n) : t.kind = .punctuator := by
  obtain ⟨s, -, h⟩ := h
  exact h.1

theorem IsClosing.text_mem {n : Nat} (h : t.IsClosing n) : t.text ∈ [">", ">>", ">>>"] := by
  obtain ⟨s, hs, -, rfl⟩ := h
  have hall : ∀ x ∈ [(">", 1), (">>", 2), (">>>", 3)], x.1 ∈ [">", ">>", ">>>"] := by decide
  exact hall _ hs

theorem IsClosing.pos {n : Nat} (h : t.IsClosing n) : 0 < n := by
  obtain ⟨s, hs, -⟩ := h
  have hall : ∀ x ∈ [(">", 1), (">>", 2), (">>>", 3)], 0 < x.2 := by decide
  exact hall _ hs

theorem IsClosing.unique {m n : Nat} (h : t.IsClosing m) (h' : t.IsClosing n) : m = n := by
  obtain ⟨s, hs, -, rfl⟩ := h
  obtain ⟨s', hs', -, rfl⟩ := h'
  simp only [List.mem_cons, Prod.mk.injEq, List.not_mem_nil, or_false] at hs hs'
  rcases hs with ⟨hs, rfl⟩ | ⟨hs, rfl⟩ | ⟨hs, rfl⟩ <;> simpa [hs, eq_comm] using hs'

theorem unfusable_of_kind (h : t.kind ≠ .punctuator) : t.Unfusable := fun _ hc => h hc.kind

theorem unfusable_of_text (h : t.text ∉ [">", ">>", ">>>"]) : t.Unfusable :=
  fun _ hc => h hc.text_mem

theorem IsPunct.unfusable (h : t.IsPunct s) (hs : s ∉ [">", ">>", ">>>"] := by decide) :
    t.Unfusable := unfusable_of_text (h.2 ▸ hs)

theorem IsInert.unfusable (h : t.IsInert) : t.Unfusable := by
  rcases h with h | ⟨s, hs, hp⟩
  · exact unfusable_of_kind fun hk => by simp [hk] at h
  · have hmarks : ∀ s ∈ [",", ".", "|", "&", "?", ":", "=>", "-"], s ∉ [">", ">>", ">>>"] := by
      decide
    exact hp.unfusable (hmarks s hs)

theorem unfusable_of_opener? {b : Bracket} (h : opener? t = some b) : t.Unfusable := by
  refine unfusable_of_text fun hm => ?_
  simp only [List.mem_cons, List.not_mem_nil, or_false] at hm
  rcases hm with hm | hm | hm <;> simp [opener?, hm] at h

theorem unfusable_of_closer? {b : Bracket} (h : closer? t = some b) : t.Unfusable := by
  refine unfusable_of_text fun hm => ?_
  simp only [List.mem_cons, List.not_mem_nil, or_false] at hm
  rcases hm with hm | hm | hm <;> simp [closer?, hm] at h

end Syntax.Token

/-! ### Fusing -/

/-- `Fused ts us`: two tokens of `ts` side by side that close angle brackets are one
token of `us`, from where the first begins to where the second ends. -/
inductive Fused : List Token → List Token → Prop
  | here {a b z : Token} {m n : Nat} {ts : List Token} : a.IsClosing m → b.IsClosing n →
      z.IsClosing (m + n) → z.start = a.start → z.stop = b.stop → Fused (a :: b :: ts) (z :: ts)
  | there {t : Token} {ts us : List Token} : Fused ts us → Fused (t :: ts) (t :: us)

/-- The tokens with another one in the place of the last. -/
def reended (ts : List Token) (z : Token) : List Token := ts.dropLast ++ [z]

theorem reended_append {us : List Token} (h : us ≠ []) (ts : List Token) (z : Token) :
    reended (ts ++ us) z = ts ++ reended us z := by
  rw [reended, List.dropLast_append_of_ne_nil h, List.append_assoc, reended]

theorem getLast?_append_right {us : List Token} (h : us ≠ []) (ts : List Token) :
    (ts ++ us).getLast? = us.getLast? := by
  obtain ⟨t, ht⟩ := Option.isSome_iff_exists.mp (List.getLast?_isSome.mpr h)
  rw [List.getLast?_append, ht, Option.some_or]

theorem reended_cons {ts : List Token} (h : ts ≠ []) (t z : Token) :
    reended (t :: ts) z = t :: reended ts z := reended_append h [t] z

theorem getLast?_cons_right {ts : List Token} (h : ts ≠ []) (t : Token) :
    (t :: ts).getLast? = ts.getLast? := getLast?_append_right h [t]

namespace Fused
variable {t : Token} {xs ys ts us : List Token}

theorem length (h : Fused ts us) : 1 < ts.length := by
  induction h with
  | here => simp
  | there _ ih => simp only [List.length_cons]; omega

theorem cons (h : Fused (t :: ts) us) (ht : t.Unfusable) : ∃ us', us = t :: us' ∧ Fused ts us' := by
  cases h with
  | here ha => exact absurd ha (ht _)
  | there h => exact ⟨_, rfl, h⟩

/-- In two lists put together something is fused in the first, or in the second, or
the last token of the first is fused with the first of the second. -/
theorem append (h : Fused (xs ++ ys) us) :
    (∃ xs', Fused xs xs' ∧ us = xs' ++ ys) ∨ (∃ ys', Fused ys ys' ∧ us = xs ++ ys') ∨
      ∃ a b z m n ys', xs.getLast? = some a ∧ ys = b :: ys' ∧ a.IsClosing m ∧ b.IsClosing n ∧
        z.IsClosing (m + n) ∧ z.stop = b.stop ∧ us = reended xs z ++ ys' := by
  induction xs generalizing us with
  | nil => exact .inr (.inl ⟨us, h, rfl⟩)
  | cons x xs ih =>
    rw [List.cons_append] at h
    generalize hall : xs ++ ys = all at h ih
    cases h with
    | @here _ b z m n ts ha hb hz hstart hstop =>
      cases xs with
      | nil => exact .inr (.inr ⟨x, b, z, m, n, ts, rfl, hall, ha, hb, hz, hstop, rfl⟩)
      | cons x' xs =>
        obtain ⟨rfl, rfl⟩ := List.cons.inj hall
        exact .inl ⟨z :: xs, .here ha hb hz hstart hstop, rfl⟩
    | there h =>
      subst hall
      rcases ih h with ⟨xs', hx, rfl⟩ | ⟨ys', hy, rfl⟩ | ⟨a, b, z, m, n, ys', hl, hrest⟩
      · exact .inl ⟨x :: xs', .there hx, rfl⟩
      · exact .inr (.inl ⟨ys', hy, rfl⟩)
      · obtain ⟨hy, ha, hb, hz, hstop, rfl⟩ := hrest
        have hne : xs ≠ [] := List.ne_nil_of_mem (List.mem_of_getLast? hl)
        refine .inr (.inr ⟨a, b, z, m, n, ys', ?_, hy, ha, hb, hz, hstop, ?_⟩)
        · rwa [getLast?_cons_right hne]
        · rw [reended_cons hne, List.cons_append]

/-- Nothing is fused across a token that closes no angle bracket. -/
theorem around (h : Fused (xs ++ t :: ys) us) (ht : t.Unfusable) :
    (∃ xs', Fused xs xs' ∧ us = xs' ++ t :: ys) ∨ ∃ ys', Fused ys ys' ∧ us = xs ++ t :: ys' := by
  rcases h.append with hx | ⟨zs, hz, rfl⟩ | ⟨a, b, z, m, n, ys', -, hy, -, hb, -⟩
  · exact .inl hx
  · obtain ⟨ys', rfl, hy⟩ := hz.cons ht
    exact .inr ⟨ys', hy, rfl⟩
  · obtain ⟨rfl, -⟩ := List.cons.inj hy
    exact absurd hb (ht n)

theorem not_single (h : Fused [t] us) : False := absurd h.length (by simp)

theorem front (h : Fused (xs ++ [t]) us) (ht : t.Unfusable) :
    ∃ xs', Fused xs xs' ∧ us = xs' ++ [t] := by
  rcases h.around ht with hx | ⟨ys', hy, -⟩
  · exact hx
  · exact absurd hy.length (by simp)

/-- What is fused ends where its tokens ended. -/
theorem last (h : Fused (ts ++ [t]) us) : ∃ us' u, us = us' ++ [u] ∧ u.stop = t.stop := by
  rcases h.append with ⟨xs, -, rfl⟩ | ⟨ys, hy, -⟩ | ⟨a, b, z, m, n, ys, -, hy, -, -, -, hstop, rfl⟩
  · exact ⟨xs, t, rfl, rfl⟩
  · exact hy.not_single.elim
  · obtain ⟨rfl, rfl⟩ := List.cons.inj hy
    exact ⟨ts.dropLast, z, by rw [reended, List.append_nil], hstop⟩

theorem forall_kind (h : Fused ts us) (hk : ∀ t ∈ ts, t.kind ≠ .template) :
    ∀ t ∈ us, t.kind ≠ .template := by
  induction h with
  | here _ _ hz =>
    intro t ht
    rcases List.mem_cons.mp ht with rfl | ht
    · simp [hz.kind]
    · exact hk t (by simp [ht])
  | there _ ih =>
    intro t ht
    rcases List.mem_cons.mp ht with rfl | ht
    · exact hk t (by simp)
    · exact ih (fun u hu => hk u (by simp [hu])) t ht

end Fused

theorem Syntax.Token.IsClosing.opener? {t : Token} {n : Nat} (h : t.IsClosing n) :
    opener? t = none := by
  cases ho : Retouch.opener? t with
  | none => rfl
  | some b => exact absurd h (Token.unfusable_of_opener? ho n)

theorem Syntax.Token.IsClosing.closer? {t : Token} {n : Nat} (h : t.IsClosing n) :
    closer? t = none := by
  cases hc : Retouch.closer? t with
  | none => rfl
  | some b => exact absurd h (Token.unfusable_of_closer? hc n)

theorem Balanced.fuse {ts us : List Token} (h : Balanced ts) (hf : Fused ts us) : Balanced us := by
  induction h generalizing us with
  | nil => exact absurd hf.length (by simp)
  | plain ho hc hts ih =>
    cases hf with
    | here _ hb hz =>
      -- the second token is no bracket either, so what follows it is balanced
      cases hts with
      | plain _ _ hts => exact .plain hz.opener? hz.closer? hts
      | group ho => rw [hb.opener?] at ho; cases ho
    | there hf => exact .plain ho hc (ih hf)
  | group ho hc hx hy ihx ihy =>
    obtain ⟨zs, rfl, hrest⟩ := hf.cons (Token.unfusable_of_opener? ho)
    rcases hrest.around (Token.unfusable_of_closer? hc) with ⟨xs, hfx, rfl⟩ | ⟨ys, hfy, rfl⟩
    · exact .group ho hc (ihx hfx) hy
    · exact .group ho hc hx (ihy hfy)

/-! ### Types with fused brackets -/

namespace IsType
open Token
variable {part : TypePart} {n m j : Nat} {ts us : List Token} {a z : Token}

theorem ne_nil (h : IsType part n ts) : ts ≠ [] := List.ne_nil_of_length_pos h.length_pos

/-- Names end with a word, and template literals with a chunk. -/
theorem getLast?_kind (h : IsType part n ts) (hp : part = .name ∨ part = .chunks) :
    ∃ t, ts.getLast? = some t ∧ t.kind ≠ .punctuator := by
  induction h with
  | name ht =>
    refine ⟨_, rfl, ?_⟩
    rcases ht with ht | ⟨s, -, ht⟩ <;> simp [ht.1]
  | dotted _ _ h ih =>
    obtain ⟨t, ht, hk⟩ := ih hp
    exact ⟨t, by simp [List.getLast?_cons, ht], hk⟩
  | @lastChunk _ z _ _ hk _ _ => exact ⟨z, by simp, by simp [hk]⟩
  | chunk _ _ _ _ _ _ ih =>
    obtain ⟨t, ht, hk⟩ := ih hp
    exact ⟨t, by simp [List.getLast?_append, List.getLast?_cons, ht], hk⟩
  | _ => simp at hp

theorem last_not_closing (h : IsType part n ts) (hp : part = .name ∨ part = .chunks)
    (hl : ts.getLast? = some a) (ha : a.IsClosing m) : False := by
  obtain ⟨t, ht, hk⟩ := h.getLast?_kind hp
  obtain rfl : t = a := Option.some.inj (ht.symm.trans hl)
  exact hk ha.kind

/-- A type whose last token closes angle brackets is one, too, when that token closes
more of them. -/
theorem widen (h : IsType part n ts) (hl : ts.getLast? = some a) (ha : a.IsClosing m)
    (hz : z.IsClosing (m + j)) : IsType part (n + j) (reended ts z) := by
  have hstuck {t : Token} (ht : some t = some a) (hs : t.Unfusable) : False :=
    hs m (Option.some.inj ht ▸ ha)
  induction h with
  | name ht | parameter ht | literal ht => exact (hstuck hl ht.inert.unfusable).elim
  | dotted ht hd h _ => exact ((IsType.dotted ht hd h).last_not_closing (.inl rfl) hl ha).elim
  | named h _ => exact (h.last_not_closing (.inl rfl) hl ha).elim
  | @generic n _ _ _ hn hlt has _ ih =>
    have hne := has.ne_nil
    rw [reended_append (by simp), reended_cons hne]
    rw [getLast?_append_right (by simp), getLast?_cons_right hne] at hl
    have h := ih hl
    rw [Nat.add_right_comm] at h
    exact .generic hn hlt h
  | negative _ hk => exact (hstuck hl (unfusable_of_kind (by simp [hk]))).elim
  | template hk _ => exact (hstuck hl (unfusable_of_kind (by simp [hk]))).elim
  | substituted _ _ h _ =>
    rw [getLast?_cons_right h.ne_nil] at hl
    exact (h.last_not_closing (.inr rfl) hl ha).elim
  | group _ hc _ =>
    rw [getLast?_cons_right (by simp), getLast?_append_right (by simp)] at hl
    exact (hstuck hl (unfusable_of_closer? hc)).elim
  | lastChunk h hts hk hc _ =>
    exact ((IsType.lastChunk h hts hk hc).last_not_closing (.inr rfl) hl ha).elim
  | chunk h hts hk hc hus _ _ =>
    exact ((IsType.chunk h hts hk hc hus).last_not_closing (.inr rfl) hl ha).elim
  | primary _ ih => exact .primary (ih hl)
  | index _ _ _ _ hc _ =>
    rw [getLast?_append_right (by simp), getLast?_cons_right (by simp),
      getLast?_cons_right (by simp), getLast?_append_right (by simp)] at hl
    exact (hstuck hl hc.unfusable).elim
  | suffixed _ ih => exact .suffixed (ih hl)
  | operator ht h ih =>
    rw [getLast?_cons_right h.ne_nil] at hl
    rw [reended_cons h.ne_nil]
    exact .operator ht (ih hl)
  | function ho hx hc harrow h ih =>
    have hne := h.ne_nil
    rw [getLast?_cons_right (by simp), getLast?_append_right (by simp),
      getLast?_cons_right (by simp), getLast?_cons_right hne] at hl
    rw [reended_cons (by simp), reended_append (by simp), reended_cons (by simp),
      reended_cons hne]
    exact .function ho hx hc harrow (ih hl)
  | callable _ ih => exact .callable (ih hl)
  | polymorphic hlt has h _ ih =>
    have hne := h.ne_nil
    rw [getLast?_cons_right (by simp [hne]), getLast?_append_right hne] at hl
    rw [reended_cons (by simp [hne]), reended_append hne]
    exact .polymorphic hlt has (ih hl)
  | trailing _ ih => exact .trailing (ih hl)
  | constructor hw h ih =>
    rw [getLast?_cons_right h.ne_nil] at hl
    rw [reended_cons h.ne_nil]
    exact .constructor hw (ih hl)
  | predicate hn hw h _ ih =>
    rw [getLast?_append_right (by simp), getLast?_cons_right h.ne_nil] at hl
    rw [reended_append (by simp), reended_cons h.ne_nil]
    exact .predicate hn hw (ih hl)
  | operatorOn ht h ih =>
    rw [getLast?_cons_right h.ne_nil] at hl
    rw [reended_cons h.ne_nil]
    exact .operatorOn ht (ih hl)
  | member _ ih => exact .member (ih hl)
  | lastMember _ ih => exact .lastMember (ih hl)
  | bar ht ho h _ ih =>
    rw [getLast?_append_right (by simp), getLast?_cons_right h.ne_nil] at hl
    rw [reended_append (by simp), reended_cons h.ne_nil]
    exact .bar ht ho (ih hl)
  | union _ ih => exact .union (ih hl)
  | leading ho h ih =>
    rw [getLast?_cons_right h.ne_nil] at hl
    rw [reended_cons h.ne_nil]
    exact .leading ho (ih hl)
  | whole _ ih => exact .whole (ih hl)
  | conditional hx he hy hq hu hd h _ _ _ ih =>
    have hne := h.ne_nil
    rw [getLast?_append_right (by simp), getLast?_cons_right (by simp),
      getLast?_append_right (by simp), getLast?_cons_right (by simp),
      getLast?_append_right (by simp), getLast?_cons_right hne] at hl
    rw [reended_append (by simp), reended_cons (by simp), reended_append (by simp),
      reended_cons (by simp), reended_append (by simp), reended_cons hne]
    exact .conditional hx he hy hq hu hd (ih hl)
  | argument _ ih => exact .argument (ih hl)
  | bounded ht he h ih =>
    rw [getLast?_cons_right (by simp), getLast?_cons_right h.ne_nil] at hl
    rw [reended_cons (by simp), reended_cons h.ne_nil]
    exact .bounded ht he (ih hl)
  | close h hc _ =>
    rw [getLast?_append_right (by simp)] at hl
    obtain rfl := Option.some.inj hl
    obtain rfl := hc.unique ha
    rw [reended_append (by simp)]
    exact .close h hz
  | fused _ ih =>
    have h := ih hl
    rw [Nat.add_right_comm] at h ⊢
    exact .fused h
  | more h hd hus _ ih =>
    have hne := hus.ne_nil
    rw [getLast?_append_right (by simp), getLast?_cons_right hne] at hl
    rw [reended_append (by simp), reended_cons hne]
    exact .more h hd (ih hl)

theorem head_function (h : IsType .function n ts) : ∃ o us, ts = o :: us ∧ o.IsPunct "(" := by
  cases h with
  | function ho => exact ⟨_, _, rfl, ho⟩

/-- Fused brackets make no difference to the grammar. -/
theorem fuse (h : IsType part n ts) (hf : Fused ts us) : IsType part n us := by
  induction h generalizing us with
  | name | parameter | literal | template => exact hf.not_single.elim
  | dotted ht hd _ ih =>
    obtain ⟨_, rfl, hf₁⟩ := hf.cons ht.inert.unfusable
    obtain ⟨_, rfl, hf₂⟩ := hf₁.cons hd.unfusable
    exact .dotted ht hd (ih hf₂)
  | named _ ih => exact .named (ih hf)
  | generic hn hlt has ihn ih =>
    rcases hf.around hlt.unfusable with ⟨_, hf', rfl⟩ | ⟨_, hf', rfl⟩
    · exact .generic (ihn hf') hlt has
    · exact .generic hn hlt (ih hf')
  | negative hm _ =>
    obtain ⟨_, rfl, hf'⟩ := hf.cons hm.unfusable
    exact hf'.not_single.elim
  | substituted hk hc _ ih =>
    obtain ⟨_, rfl, hf'⟩ := hf.cons (inert_template hk).unfusable
    exact .substituted hk hc (ih hf')
  | group ho hc hx =>
    obtain ⟨_, rfl, hf₁⟩ := hf.cons (unfusable_of_opener? ho)
    obtain ⟨_, hf₂, rfl⟩ := hf₁.front (unfusable_of_closer? hc)
    exact .group ho hc (hx.fuse hf₂)
  | lastChunk _ hts hk hc ih =>
    obtain ⟨_, hf', rfl⟩ := hf.front (inert_template hk).unfusable
    exact .lastChunk (ih hf') (hf'.forall_kind hts) hk hc
  | chunk h hts hk hc hus ih ihu =>
    rcases hf.around (inert_template hk).unfusable with ⟨_, hf', rfl⟩ | ⟨_, hf', rfl⟩
    · exact .chunk (ih hf') (hf'.forall_kind hts) hk hc hus
    · exact .chunk h hts hk hc (ihu hf')
  | primary _ ih => exact .primary (ih hf)
  | @index ts t o xs z h hline ho hx hz ih =>
    have hassoc : ts ++ t :: o :: (xs ++ [z]) = (ts ++ [t]) ++ o :: (xs ++ [z]) := by simp
    rw [hassoc] at hf
    rcases hf.around ho.unfusable with ⟨us, hf', rfl⟩ | ⟨_, hf', rfl⟩
    · obtain ⟨us, u, rfl, hstop⟩ := hf'.last
      rw [List.append_assoc, List.singleton_append]
      exact .index (ih hf') (hstop ▸ hline) ho hx hz
    · obtain ⟨_, hf'', rfl⟩ := hf'.front hz.unfusable
      rw [List.append_assoc, List.singleton_append]
      exact .index h hline ho (hx.fuse hf'') hz
  | suffixed _ ih => exact .suffixed (ih hf)
  | operator ht _ ih =>
    obtain ⟨_, rfl, hf'⟩ := hf.cons ht.inert.unfusable
    exact .operator ht (ih hf')
  | function ho hx hz ha h ih =>
    obtain ⟨_, rfl, hf₁⟩ := hf.cons ho.unfusable
    rcases hf₁.around hz.unfusable with ⟨_, hf₂, rfl⟩ | ⟨_, hf₂, rfl⟩
    · exact .function ho (hx.fuse hf₂) hz ha h
    · obtain ⟨_, rfl, hf₃⟩ := hf₂.cons ha.unfusable
      exact .function ho hx hz ha (ih hf₃)
  | callable _ ih => exact .callable (ih hf)
  | polymorphic hlt has h iha ih =>
    obtain ⟨_, rfl, hf₁⟩ := hf.cons hlt.unfusable
    rcases hf₁.append with ⟨_, hf₂, rfl⟩ | ⟨_, hf₂, rfl⟩ | ⟨_, _, _, _, k, _, -, hts, -, hb, -⟩
    · exact .polymorphic hlt (iha hf₂) h
    · exact .polymorphic hlt has (ih hf₂)
    · obtain ⟨o, us, hhead, ho⟩ := h.head_function
      obtain ⟨rfl, -⟩ := List.cons.inj (hhead.symm.trans hts)
      exact (ho.unfusable (by decide) k hb).elim
  | trailing _ ih => exact .trailing (ih hf)
  | constructor hw _ ih =>
    obtain ⟨_, rfl, hf'⟩ := hf.cons hw.inert.unfusable
    exact .constructor hw (ih hf')
  | predicate hn hw h ihn ih =>
    rcases hf.around hw.inert.unfusable with ⟨_, hf', rfl⟩ | ⟨_, hf', rfl⟩
    · exact .predicate (ihn hf') hw h
    · exact .predicate hn hw (ih hf')
  | operatorOn ht _ ih =>
    obtain ⟨_, rfl, hf'⟩ := hf.cons ht.inert.unfusable
    exact .operatorOn ht (ih hf')
  | member _ ih => exact .member (ih hf)
  | lastMember _ ih => exact .lastMember (ih hf)
  | bar ht ho h iht ih =>
    rcases hf.around ho.inert.unfusable with ⟨_, hf', rfl⟩ | ⟨_, hf', rfl⟩
    · exact .bar (iht hf') ho h
    · exact .bar ht ho (ih hf')
  | union _ ih => exact .union (ih hf)
  | leading ho _ ih =>
    obtain ⟨_, rfl, hf'⟩ := hf.cons ho.inert.unfusable
    exact .leading ho (ih hf')
  | whole _ ih => exact .whole (ih hf)
  | conditional hx he hy hq hu hd hv ihx ihy ihu ihv =>
    rcases hf.around he.inert.unfusable with ⟨_, hf₁, rfl⟩ | ⟨_, hf₁, rfl⟩
    · exact .conditional (ihx hf₁) he hy hq hu hd hv
    rcases hf₁.around hq.unfusable with ⟨_, hf₂, rfl⟩ | ⟨_, hf₂, rfl⟩
    · exact .conditional hx he (ihy hf₂) hq hu hd hv
    rcases hf₂.around hd.unfusable with ⟨_, hf₃, rfl⟩ | ⟨_, hf₃, rfl⟩
    · exact .conditional hx he hy hq (ihu hf₃) hd hv
    · exact .conditional hx he hy hq hu hd (ihv hf₃)
  | argument _ ih => exact .argument (ih hf)
  | bounded ht he _ ih =>
    obtain ⟨_, rfl, hf₁⟩ := hf.cons ht.inert.unfusable
    obtain ⟨_, rfl, hf₂⟩ := hf₁.cons he.inert.unfusable
    exact .bounded ht he (ih hf₂)
  | close h hz ih =>
    rcases hf.append with
      ⟨_, hf', rfl⟩ | ⟨_, hf', -⟩ | ⟨_, _, _, _, _, _, hl, hts, ha, hb, hc, hend⟩
    · exact .close (ih hf') hz
    · exact hf'.not_single.elim
    · obtain ⟨-, rfl⟩ := hend
      -- the bracket that closes the list becomes part of its last entry
      obtain ⟨rfl, rfl⟩ := List.cons.inj hts
      obtain rfl := hb.unique hz
      obtain ⟨k, rfl⟩ := Nat.exists_eq_add_one.mpr hb.pos
      have h' := h.widen hl ha hc
      rw [Nat.zero_add] at h'
      rw [List.append_nil]
      exact .fused h'
  | fused _ ih => exact .fused (ih hf)
  | more h hd hus ih ihu =>
    rcases hf.around hd.unfusable with ⟨_, hf', rfl⟩ | ⟨_, hf', rfl⟩
    · exact .more (ih hf') hd hus
    · exact .more h hd (ihu hf')

/-- So does any number of them. -/
theorem merged (h : IsType part n ts) (hm : Relation.ReflTransGen Fused ts us) :
    IsType part n us := by
  induction hm with
  | refl => exact h
  | tail _ hf ih => exact ih.fuse hf

end IsType

/-! ### The scan of a type -/

/-- What stands right behind a type, if anything does. -/
def typeFollowers : List String := ["=", ";", ",", ")", "]", "\x7d", "\x7b"]

theorem Code.From.text_nil {c : Code} {p : Nat} (h : c.From p []) : c.text p = "" := by
  have hp : c.tokens.size ≤ p := by simpa [From] using h
  simp [Code.text, Array.getElem?_eq_none hp]

/-- The scan of a type ends right behind it, wherever the type stands and however its
closing angle brackets are fused. -/
theorem Code.typeEnd_behind_type {c : Code} {p : Nat} {ts us rest : List Token}
    (h : IsType .whole 0 ts) (hm : Relation.ReflTransGen Fused ts us)
    (hf : c.From p (us ++ rest)) (hrest : ∀ t ∈ rest.head?, ∃ s ∈ typeFollowers, t.IsPunct s) :
    c.typeEnd p = p + us.length := by
  refine hf.typeEnd (h.merged hm) ?_
  have hnext := hf.append
  cases rest with
  | nil => rw [hnext.text_nil]; decide
  | cons t rest =>
    obtain ⟨s, hs, hp⟩ := hrest t rfl
    have hmarks : ∀ s ∈ typeFollowers, s ∉ typeJoints := by decide
    rw [hnext.text, hp.2]
    exact hmarks s hs

/-- `A<B<C>>` before a semicolon, with its last two brackets in one token. -/
theorem Code.typeEnd_behind_shift :
    let word s n : Token := ⟨.identifier, s, ⟨n, 1, n⟩, ⟨n + 1, 1, n + 1⟩⟩
    let mark s n m : Token := ⟨.punctuator, s, ⟨n, 1, n⟩, ⟨m, 1, m⟩⟩
    let front := [word "A" 0, mark "<" 1 2, word "B" 2, mark "<" 3 4, word "C" 4]
    Fused (front ++ [mark ">" 5 6, mark ">" 6 7]) (front ++ [mark ">>" 5 7]) ∧
      (Code.ofTokens (front ++ [mark ">>" 5 7] ++ [mark ";" 7 8])).typeEnd 0 = 6 := by
  intro word mark front
  have hname (s : String) (n : Nat) (hs : s ∉ reserved ++ contextual ++ typedContextual) :
      IsType .name 0 [word s n] := by
    simp only [List.mem_append, not_or] at hs
    exact .name (.inl ⟨rfl, hs.1.1, hs.1.2, hs.2⟩)
  have hclose (n m : Nat) : (mark ">" n m).IsClosing 1 := ⟨">", by simp, rfl, rfl⟩
  have hwhole {n : Nat} {ts : List Token} (h : IsType .primary n ts) : IsType .whole n ts :=
    .whole (.union (.member (.suffixed (.primary h))))
  have hc := hwhole (.named (hname "C" 4 (by decide)))
  have hb := @IsType.generic 0 _ (mark "<" 3 4) _ (hname "B" 2 (by decide)) ⟨rfl, rfl⟩
    (.close (.argument hc) (hclose 5 6))
  have ha := @IsType.generic 0 _ (mark "<" 1 2) _ (hname "A" 0 (by decide)) ⟨rfl, rfl⟩
    (.close (.argument (hwhole hb)) (hclose 6 7))
  have hfused : Fused (front ++ [mark ">" 5 6, mark ">" 6 7]) (front ++ [mark ">>" 5 7]) :=
    .there (.there (.there (.there (.there
      (.here (hclose 5 6) (hclose 6 7) ⟨">>", by simp, rfl, rfl⟩ rfl rfl)))))
  refine ⟨hfused, Code.typeEnd_behind_type (hwhole ha) (.single hfused) rfl ?_⟩
  rintro t ⟨⟩
  exact ⟨";", by decide, rfl, rfl⟩

end Retouch
