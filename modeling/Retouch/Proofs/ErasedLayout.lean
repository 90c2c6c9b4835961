import Mathlib
import Retouch.Proofs.BlankRuns

/-! Erasure keeps the layout. The erased text has a character for every character
of the source: the same one, or a space in the place of one that ends no line.
Lines and columns are measures of the characters before them, so they do not
move. Seen by tokens, every token is shown or blanked as a whole, and trivia is
blanked exactly when the significant tokens around it are. -/

namespace Retouch.Erase
open Retouch.Syntax

/-! ### Character by character -/

/-- What may stand in the place of a character. -/
def Stands (a b : Char) : Prop := b = a ∨ (b = ' ' ∧ a ≠ '\n' ∧ a ≠ '\r')

theorem stands_blank (c : Char) : Stands c (blank c) := by
  unfold blank Stands
  split
  · exact Or.inl rfl
  · rename_i h
    exact Or.inr ⟨rfl, fun hn => h (Or.inl hn), fun hr => h (Or.inr hr)⟩

theorem shown_stands (hide : Bool) (cs : List Char) : List.Forall₂ Stands cs (shown hide cs) := by
  unfold shown
  split
  · rw [List.forall₂_map_right_iff, List.forall₂_same]
    exact fun c _ => stands_blank c
  · exact List.forall₂_same.mpr fun c _ => Or.inl rfl

theorem laidOut_stands (erased : Nat → Bool) (k : Nat) (ts : List Token) :
    List.Forall₂ Stands (ts.flatMap fun t => t.text.toList) (laidOut erased k ts) := by
  induction ts generalizing k with
  | nil => exact .nil
  | cons t ts ih =>
    simp only [laidOut, List.flatMap_cons]
    split
    · exact List.rel_append (shown_stands _ _) (ih k)
    · exact List.rel_append (shown_stands _ _) (ih (k + 1))

/-- Characters that stand for others end the same lines, so a place after them
has the same line and column. -/
theorem past_stands {xs ys : List Char} (h : List.Forall₂ Stands xs ys) {p q : Place}
    (hl : q.line = p.line) (hc : q.column = p.column) :
    (q.past ys).line = (p.past xs).line ∧ (q.past ys).column = (p.past xs).column := by
  induction h generalizing p q with
  | nil => exact ⟨hl, hc⟩
  | @cons a b xs ys hab _ ih =>
    simp only [Place.past_cons]
    rcases hab with rfl | ⟨rfl, hn, -⟩
    · apply ih <;> simp only [Place.step] <;> split <;> simp [hl, hc]
    · apply ih <;> simp [Place.step, hn, hl, hc]

/-! ### Token by token -/

/-- A token, and whether its text is blanked out. -/
structure Piece where
  token : Token
  hidden : Bool

def Piece.text (p : Piece) : List Char := shown p.hidden p.token.text.toList

def significantPieces (ps : List Piece) : List Piece := ps.filter (!·.token.isTrivia)

/-- Whether the last significant piece is blanked out; there may be none. -/
def lastHidden (ps : List Piece) : Bool := (significantPieces ps).getLast?.any Piece.hidden

def firstHidden (ps : List Piece) : Bool := (significantPieces ps).head?.any Piece.hidden

/-- The tokens of a list whose first significant token has index `k`, each with
what happens to it. -/
def pieces (erased : Nat → Bool) (k : Nat) : List Token → List Piece
  | [] => []
  | t :: ts =>
    if t.isTrivia then ⟨t, 0 < k && erased (k - 1) && erased k⟩ :: pieces erased k ts
    else ⟨t, erased k⟩ :: pieces erased (k + 1) ts

theorem pieces_tokens (erased : Nat → Bool) (k : Nat) (ts : List Token) :
    (pieces erased k ts).map Piece.token = ts := by
  induction ts generalizing k with
  | nil => rfl
  | cons t ts ih =>
    unfold pieces
    split <;> simp [ih]

theorem pieces_texts (erased : Nat → Bool) (k : Nat) (ts : List Token) :
    (pieces erased k ts).flatMap Piece.text = laidOut erased k ts := by
  induction ts generalizing k with
  | nil => rfl
  | cons t ts ih =>
    simp only [pieces, laidOut]
    split <;> simp [Piece.text, ih]

theorem pieces_append (erased : Nat → Bool) (k : Nat) (us vs : List Token) :
    pieces erased k (us ++ vs) =
      pieces erased k us ++ pieces erased (k + (significant us).length) vs := by
  induction us generalizing k with
  | nil => simp [pieces, significant]
  | cons t us ih =>
    simp only [List.cons_append, pieces, significant, List.filter_cons]
    split
    · rename_i ht
      simp [ih, ht, significant]
    · rename_i ht
      simp [ih, ht, significant, Nat.add_assoc, Nat.add_comm 1]

/-- The significant pieces are hidden as their indices say. -/
theorem hidden_significantPieces (erased : Nat → Bool) (k : Nat) (ts : List Token) :
    (significantPieces (pieces erased k ts)).map Piece.hidden =
      (List.range' k (significant ts).length).map erased := by
  induction ts generalizing k with
  | nil => rfl
  | cons t ts ih =>
    by_cases ht : t.isTrivia = true
    · simpa [pieces, significantPieces, significant, ht] using ih k
    · simpa [pieces, significantPieces, significant, ht, List.range'_succ] using ih (k + 1)

theorem lastHidden_pieces (erased : Nat → Bool) (us : List Token) :
    lastHidden (pieces erased 0 us) =
      (0 < (significant us).length && erased ((significant us).length - 1)) := by
  have h := congrArg List.getLast? (hidden_significantPieces erased 0 us)
  rw [List.getLast?_map, List.getLast?_map] at h
  unfold lastHidden
  generalize hn : (significant us).length = n at h ⊢
  cases n with
  | zero =>
    simp only [List.range'_zero, List.getLast?_nil, Option.map_none, Option.map_eq_none_iff] at h
    simp [h]
  | succ n =>
    rw [List.range'_1_concat, List.getLast?_concat, Option.map_some] at h
    obtain ⟨p, hp, he⟩ := Option.map_eq_some_iff.mp h
    simp [hp, he]

/-- Past the last significant token nothing counts as erased. -/
theorem firstHidden_pieces {erased : Nat → Bool} {k : Nat} {vs : List Token}
    (h : erased (k + (significant vs).length) = false) :
    firstHidden (pieces erased k vs) = erased k := by
  have hh := congrArg List.head? (hidden_significantPieces erased k vs)
  rw [List.head?_map, List.head?_map] at hh
  unfold firstHidden
  generalize hn : (significant vs).length = n at h hh
  cases n with
  | zero =>
    simp only [List.range'_zero, List.head?_nil, Option.map_none, Option.map_eq_none_iff] at hh
    simpa [hh] using h.symm
  | succ n =>
    rw [List.range'_succ, List.head?_cons, Option.map_some] at hh
    obtain ⟨p, hp, he⟩ := Option.map_eq_some_iff.mp hh
    simp [hp, he]

theorem hidden_trivia {erased : Nat → Bool} {ts : List Token}
    (hend : erased (significant ts).length = false) {xs ys : List Piece} {p : Piece}
    (h : pieces erased 0 ts = xs ++ p :: ys) (hp : p.token.isTrivia = true) :
    p.hidden = (lastHidden xs && firstHidden ys) := by
  have ht := congrArg (List.map Piece.token) h
  rw [pieces_tokens, List.map_append, List.map_cons] at ht
  subst ht
  -- both sides of the cut are the pieces of the tokens on that side
  rw [pieces_append] at h
  obtain ⟨hx, hy⟩ := List.append_inj h (by
    simpa using congrArg List.length (pieces_tokens erased 0 (xs.map Piece.token)))
  rw [pieces, if_pos hp, List.cons.injEq] at hy
  have hend' : erased (0 + (significant (xs.map Piece.token)).length +
      (significant (ys.map Piece.token)).length) = false := by
    simpa [significant, hp] using hend
  have hlast := lastHidden_pieces erased (xs.map Piece.token)
  have hfirst := firstHidden_pieces hend'
  rw [hx] at hlast
  rw [hy.2] at hfirst
  rw [hlast, hfirst, ← congrArg Piece.hidden hy.1]
  simp

/-! ### The whole text -/

theorem eraseTypes_eq_some {d : Dialect} {source out : String} (hd : d.isTyped = true)
    (h : eraseTypes d source = some out) :
    ∃ e, (Code.ofTokens (significant (tokenize d source))).erasure = some e ∧
      out.toList = laidOut ((Code.ofTokens (significant (tokenize d source))).isErased e) 0
        (tokenize d source) := by
  rw [eraseTypes_eq hd] at h
  obtain ⟨e, he, rfl⟩ := Option.map_eq_some_iff.mp h
  exact ⟨e, he, String.toList_ofList⟩

theorem isErased_size (c : Code) (e : Erasure) : c.isErased e c.size = false := by
  simp [Code.isErased]

theorem eraseTypes_layout {d : Dialect} {source out : String} (hd : d.isTyped = true)
    (h : eraseTypes d source = some out) :
    out.toList.length = source.toList.length ∧
    (∀ (i : Nat) b, out.toList[i]? = some b → ∃ a, source.toList[i]? = some a ∧
      (b = a ∨ (b = ' ' ∧ a ≠ '\n' ∧ a ≠ '\r'))) ∧
    (∀ n, (Place.origin.past (out.toList.take n)).line =
        (Place.origin.past (source.toList.take n)).line ∧
      (Place.origin.past (out.toList.take n)).column =
        (Place.origin.past (source.toList.take n)).column) ∧
    ∃ e ps, (Code.ofTokens (significant (tokenize d source))).erasure = some e ∧
      ps.map Piece.token = tokenize d source ∧ out.toList = ps.flatMap Piece.text ∧
      (∀ (k : Nat) p, (significantPieces ps)[k]? = some p → p.hidden = e.covers k) ∧
      ∀ xs p ys, ps = xs ++ p :: ys → p.token.isTrivia = true →
        p.hidden = (lastHidden xs && firstHidden ys) := by
  obtain ⟨e, he, ho⟩ := eraseTypes_eq_some hd h
  have hs : List.Forall₂ Stands source.toList out.toList := by
    rw [ho, ← tokenize_texts d source]
    exact laidOut_stands _ _ _
  have hlen := hs.length_eq
  let erased := (Code.ofTokens (significant (tokenize d source))).isErased e
  refine ⟨hlen.symm, ?_, fun n => past_stands (List.forall₂_take n hs) rfl rfl, e,
    pieces erased 0 (tokenize d source), he, pieces_tokens _ 0 _, ?_, ?_, ?_⟩
  · intro i b hb
    obtain ⟨hi, rfl⟩ := List.getElem?_eq_some_iff.mp hb
    exact ⟨_, List.getElem?_eq_getElem (by omega), hs.get (by omega) hi⟩
  · rw [ho, pieces_texts]
  · intro k p hp
    have hm := congrArg (·[k]?) (hidden_significantPieces erased 0 (tokenize d source))
    simp only [List.getElem?_map, hp, Option.map_some] at hm
    obtain ⟨j, hj, hje⟩ := Option.map_eq_some_iff.mp hm.symm
    obtain ⟨hk, rfl⟩ := List.getElem?_eq_some_iff.mp hj
    rw [List.length_range'] at hk
    rw [← hje]
    simp [erased, Code.isErased, Code.size, Code.ofTokens, hk]
  · intro xs p ys hps hp
    exact hidden_trivia (isErased_size _ e) hps hp

/-- A comment inside an annotation, with a wide character and a line end in it. -/
theorem eraseTypes_layout_comment :
    eraseTypes .ts "let x: /* é\r\n */ T;" = some "let x      \r\n     ;" ∧
    "let x      \r\n     ;".toList.length = "let x: /* é\r\n */ T;".toList.length := by
  have h : eraseTypes .ts "let x: /* é\r\n */ T;" = some "let x      \r\n     ;" := by cbv
  exact ⟨h, (eraseTypes_layout rfl h).1⟩

end Retouch.Erase
