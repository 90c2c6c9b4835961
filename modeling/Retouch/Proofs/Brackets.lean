import Retouch.Code.Basic

/-! Stretches of code and the brackets in them. `c.From p ts` says that the tokens
of `c` from index `p` on are `ts`; every look at a token is then a look at the head
of a list. In a stretch whose brackets match, wherever it stands, the partner of an
opener is the closer that belongs to it, and it lies in the stretch. -/

namespace Retouch
open Syntax

/-- Tokens whose brackets match. -/
inductive Balanced : List Token → Prop
  | nil : Balanced []
  | plain {t ts} : opener? t = none → closer? t = none → Balanced ts → Balanced (t :: ts)
  | group {o c b xs ys} : opener? o = some b → closer? c = some b → Balanced xs → Balanced ys →
      Balanced (o :: (xs ++ c :: ys))

theorem Balanced.append {xs ys : List Token} (hx : Balanced xs) (hy : Balanced ys) :
    Balanced (xs ++ ys) := by
  induction hx with
  | nil => exact hy
  | plain ho hc _ ih => exact .plain ho hc ih
  | group ho hc hx _ _ ih =>
    rw [List.cons_append, List.append_assoc, List.cons_append]
    exact .group ho hc hx ih

theorem Balanced.single {t : Token} (ho : opener? t = none) (hc : closer? t = none) :
    Balanced [t] := .plain ho hc .nil

theorem Balanced.cons {t : Token} {ts : List Token} (h : Balanced [t]) (hx : Balanced ts) :
    Balanced (t :: ts) := h.append hx

theorem Balanced.bracketed {o c : Token} {b : Bracket} {xs : List Token}
    (ho : opener? o = some b) (hc : closer? c = some b) (hx : Balanced xs) :
    Balanced (o :: (xs ++ [c])) := .group ho hc hx .nil

theorem opener?_of_kind {t : Token} (h : t.kind ≠ .punctuator) : opener? t = none := if_neg h

theorem closer?_of_kind {t : Token} (h : t.kind ≠ .punctuator) : closer? t = none := if_neg h

theorem kind_of_opener? {t : Token} {b : Bracket} (h : opener? t = some b) :
    t.kind = .punctuator := by
  unfold opener? at h
  split at h
  · assumption
  · cases h

theorem closer?_of_opener? {t : Token} {b : Bracket} (h : opener? t = some b) :
    closer? t = none := by
  unfold opener? at h
  unfold closer?
  split at h
  · rename_i hk
    rw [if_pos hk]
    split at h <;> simp_all
  · simp at h

theorem opener?_of_closer? {t : Token} {b : Bracket} (h : closer? t = some b) :
    opener? t = none := by
  cases ho : opener? t with
  | none => rfl
  | some b' => rw [closer?_of_opener? ho] at h; cases h

/-! ### Distances -/

theorem afterToken_opener {t : Token} {b : Bracket} (h : opener? t = some b)
    (stack : List Bracket) : afterToken stack t = b :: stack := by
  simp [afterToken, h]

theorem afterToken_closer {t : Token} {b : Bracket} (h : closer? t = some b)
    (stack : List Bracket) : afterToken (b :: stack) t = stack := by
  simp [afterToken, opener?_of_closer? h, h]

theorem afterToken_plain {t : Token} (ho : opener? t = none) (hc : closer? t = none)
    (stack : List Bracket) : afterToken stack t = stack := by
  simp [afterToken, ho, hc]

/-- A stretch whose brackets match leaves the brackets around it open. -/
theorem distance_append {xs : List Token} (hx : Balanced xs) (b : Bracket)
    (stack : List Bracket) (ys : List Token) :
    distance (b :: stack) (xs ++ ys) = (distance (b :: stack) ys).map (xs.length + ·) := by
  induction hx generalizing b stack ys with
  | nil => simp
  | plain ho hc _ ih =>
    rw [List.cons_append, distance, afterToken_plain ho hc]
    simp only [ih, Option.map_map, List.length_cons]
    congr 1
    funext n
    simp only [Function.comp_apply]
    omega
  | @group o c b' xs zs ho hc _ _ ihx ihz =>
    rw [List.cons_append, List.append_assoc, List.cons_append, distance, afterToken_opener ho]
    simp only [ihx, distance, afterToken_closer hc, ihz, Option.map_map, List.length_cons,
      List.length_append]
    congr 1
    funext n
    simp only [Function.comp_apply]
    omega

theorem distance_closer {xs ys : List Token} {c : Token} {b : Bracket} (hx : Balanced xs)
    (hc : closer? c = some b) : distance [b] (xs ++ c :: ys) = some xs.length := by
  rw [distance_append hx, distance, afterToken_closer hc]
  simp

theorem partnersFrom_getElem? (k : Nat) (ts : List Token) (i : Nat) :
    (partnersFrom k ts)[i]? = ts[i]?.map fun t =>
      (opener? t).bind fun b => (distance [b] (ts.drop (i + 1))).map (k + i + 1 + ·) := by
  induction ts generalizing k i with
  | nil => simp [partnersFrom]
  | cons t ts ih =>
    cases i with
    | zero =>
      simp only [partnersFrom, List.getElem?_cons_zero, Option.map_some, Nat.add_zero,
        Nat.zero_add, List.drop_succ_cons, List.drop_zero]
      cases opener? t <;> rfl
    | succ i =>
      simp only [partnersFrom, List.getElem?_cons_succ, ih, List.drop_succ_cons]
      congr 1
      funext u
      simp only [show k + 1 + i + 1 = k + (i + 1) + 1 by omega]

/-! ### Reading a stretch -/

/-! Where a list of tokens ends that begins at `p`. -/

theorem end_cons {α : Type} (p : Nat) (t : α) (ts : List α) :
    p + (t :: ts).length = p + 1 + ts.length := by
  rw [List.length_cons, Nat.add_right_comm, Nat.add_assoc]

theorem end_single {α : Type} (p : Nat) (t : α) : p + [t].length = p + 1 := rfl

theorem end_append {α : Type} (p : Nat) (xs ys : List α) :
    p + (xs ++ ys).length = p + xs.length + ys.length := by
  rw [List.length_append, Nat.add_assoc]

namespace Code
variable {c : Code} {p : Nat} {t : Token} {ts xs ys : List Token}

/-- The tokens from index `p` on. -/
def From (c : Code) (p : Nat) (ts : List Token) : Prop := c.tokens.toList.drop p = ts

theorem From.append (h : c.From p (xs ++ ys)) : c.From (p + xs.length) ys := by
  unfold From at h ⊢
  rw [← List.drop_drop, h, List.drop_left]

theorem From.tail (h : c.From p (t :: ts)) : c.From (p + 1) ts := @From.append c p [t] ts h

/-- The last token of a stretch, with what follows it. -/
theorem From.getLast? (h : c.From p (xs ++ ys)) (ht : xs.getLast? = some t) :
    c.From (p + xs.length - 1) (t :: ys) := by
  obtain ⟨us, rfl⟩ := List.getLast?_eq_some_iff.mp ht
  rw [List.append_assoc] at h
  simpa using h.append

theorem From.getElem? (h : c.From p (t :: ts)) : c.tokens[p]? = some t := by
  have hp : (c.tokens.toList.drop p)[0]? = some t := by rw [h]; rfl
  rw [List.getElem?_drop] at hp
  simpa using hp

theorem From.lt_size (h : c.From p (t :: ts)) : p < c.size :=
  (Array.getElem?_eq_some_iff.mp h.getElem?).1

theorem From.kind? (h : c.From p (t :: ts)) : c.kind? p = some t.kind := by
  simp [Code.kind?, h.getElem?]

theorem From.text (h : c.From p (t :: ts)) : c.text p = t.text := by
  simp [Code.text, h.getElem?]

theorem From.punct (h : c.From p (t :: ts)) (s : String) :
    c.punct p s = (decide (t.kind = .punctuator) && decide (t.text = s)) := by
  simp [Code.punct, h.kind?, h.text]

theorem From.isName (h : c.From p (t :: ts)) :
    c.isName p = (decide (t.kind = .identifier) || decide (t.kind = .keyword)) := by
  simp [Code.isName, h.kind?]

theorem From.word (h : c.From p (t :: ts)) (s : String) :
    c.word p s = ((decide (t.kind = .identifier) || decide (t.kind = .keyword)) &&
      decide (t.text = s)) := by
  simp [Code.word, h.isName, h.text]

/-- What is read at an index by its text is not there when the text is another. -/
theorem punct_eq_false {s : String} (h : c.text p ≠ s) : c.punct p s = false := by
  simp [Code.punct, h]

theorem word_eq_false {s : String} (h : c.text p ≠ s) : c.word p s = false := by
  simp [Code.word, h]

theorem From.partner (h : c.From p (t :: ts)) :
    c.partner p = (opener? t).bind fun b => (distance [b] ts).map (p + 1 + ·) := by
  unfold Code.partner
  rw [← Array.getElem?_toList, c.partners_eq, partnersFrom_getElem?, Array.getElem?_toList,
    h.getElem?]
  have hd : c.tokens.toList.drop (p + 1) = ts := h.tail
  simp [hd]

/-- The partner of an opener, across a stretch whose brackets match. -/
theorem From.partner_closer {o z : Token} {b : Bracket} (h : c.From p (o :: (xs ++ z :: ys)))
    (ho : opener? o = some b) (hx : Balanced xs) (hz : closer? z = some b) :
    c.partner p = some (p + 1 + xs.length) := by
  rw [h.partner, ho, Option.bind_some, distance_closer hx hz]
  rfl

/-- Inside a stretch whose brackets match, all partners are inside too. -/
theorem From.partner_lt (hx : Balanced xs) (h : c.From p (xs ++ ys)) {o close : Nat}
    (hp : p ≤ o) (ho : o < p + xs.length) (hc : c.partner o = some close) :
    close < p + xs.length := by
  induction hx generalizing p ys with
  | nil => simp at ho; omega
  | @plain t ts hto _ _ ih =>
    simp only [List.cons_append] at h
    simp only [List.length_cons] at ho ⊢
    by_cases he : o = p
    · subst he
      rw [h.partner, hto] at hc
      cases hc
    · have := ih h.tail (by omega) (by omega)
      omega
  | @group q z b us vs hq hz hu _ ihu ihv =>
    simp only [List.cons_append, List.append_assoc] at h
    simp only [List.length_cons, List.length_append] at ho ⊢
    by_cases he : o = p
    · subst he
      rw [h.partner_closer hq hu hz] at hc
      cases hc
      omega
    · by_cases hlt : o < p + 1 + us.length
      · have := ihu h.tail (by omega) hlt
        omega
      · have hz' := h.tail.append
        by_cases he' : o = p + 1 + us.length
        · subst he'
          rw [hz'.partner, opener?_of_closer? hz] at hc
          cases hc
        · have := ihv hz'.tail (by omega) (by omega)
          omega

end Code

end Retouch
