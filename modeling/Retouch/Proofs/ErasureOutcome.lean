import Retouch.Proofs.ProgramTwice

/-! What an erasure leaves of a source, as marks on its significant tokens. The text
that it writes tells the marks, because every significant token has a character that
is not blank. So at most one list of marks describes the outcome, and that is the one
which the pass computes. -/

namespace Retouch.Erase
open Syntax Text

/-! ### Marks and texts -/

/-- Tokens that are all hidden or all kept. -/
def mark (hidden : Bool) (ts : List Token) : List Piece := ts.map fun t => ⟨t, hidden⟩

theorem mark_true (ts : List Token) : mark true ts = hide ts := rfl

@[simp] theorem mark_nil (hidden : Bool) : mark hidden [] = [] := rfl

theorem mark_cons (hidden : Bool) (t : Token) (ts : List Token) :
    mark hidden (t :: ts) = ⟨t, hidden⟩ :: mark hidden ts := rfl

theorem mark_append (hidden : Bool) (ts us : List Token) :
    mark hidden (ts ++ us) = mark hidden ts ++ mark hidden us := List.map_append

@[simp] theorem tokensOf_mark (hidden : Bool) (ts : List Token) :
    tokensOf (mark hidden ts) = ts := by
  simp [tokensOf, mark, Function.comp_def]

@[simp] theorem length_mark (hidden : Bool) (ts : List Token) :
    (mark hidden ts).length = ts.length := by simp [mark]

@[simp] theorem hides_mark_false (ts : List Token) (p k : Nat) :
    hides (mark false ts) p k = false := by
  induction ts generalizing p with
  | nil => simp
  | cons t ts ih => rw [mark_cons, hides_cons, ih]; simp

theorem length_of_tokensOf {ps : List Piece} {ts : List Token} (h : tokensOf ps = ts) :
    ps.length = ts.length := by
  rw [← h, List.length_map]

theorem tokensOf_flatMap {α : Type} {f : α → List Piece} {g : α → List Token}
    (h : ∀ a, tokensOf (f a) = g a) (xs : List α) :
    tokensOf (xs.flatMap f) = xs.flatMap g := by
  rw [tokensOf, List.map_flatMap, ← funext h]

/-- Lists that are put together from parts of the same lengths are equal when the parts
are. -/
theorem flatMap_eq_iff {α β : Type} {f g : α → List β} (hlen : ∀ a, (f a).length = (g a).length)
    (xs : List α) : xs.flatMap f = xs.flatMap g ↔ ∀ x ∈ xs, f x = g x := by
  induction xs with
  | nil => simp
  | cons x xs ih =>
    rw [List.forall_mem_cons, ← ih, List.flatMap_cons, List.flatMap_cons]
    exact ⟨fun h => List.append_inj h (hlen x), fun ⟨hx, hxs⟩ => by rw [hx, hxs]⟩

/-- A text shows whether it is blanked out. -/
theorem shown_inj {a b : Bool} {cs : List Char} (h : shown a cs = shown b cs)
    (hc : ∃ c ∈ cs, isBlank c = false) : a = b := by
  obtain ⟨c, hmem, hc⟩ := hc
  have hne : cs.map blank ≠ cs := by
    intro hsame
    have hblank : blank c = c := List.map_inj_left.mp (hsame.trans (List.map_id _).symm) c hmem
    rw [isBlank_of_blank_eq hblank] at hc
    cases hc
  cases a <;> cases b
  · rfl
  · exact absurd h.symm hne
  · exact absurd h hne
  · rfl

theorem significantPieces_of_texts {xs ys : List Piece}
    (htokens : xs.map Piece.token = ys.map Piece.token)
    (htexts : xs.flatMap Piece.text = ys.flatMap Piece.text)
    (hsolid : ∀ t ∈ xs.map Piece.token, t.isTrivia = false →
      ∃ c ∈ t.text.toList, isBlank c = false) :
    significantPieces xs = significantPieces ys := by
  induction xs generalizing ys with
  | nil => rw [List.map_eq_nil_iff.mp htokens.symm]
  | cons x xs ih =>
    obtain _ | ⟨y, ys⟩ := ys
    · cases htokens
    obtain ⟨hxy, htokens⟩ := List.cons.inj htokens
    rw [List.flatMap_cons, List.flatMap_cons] at htexts
    have hlength : x.text.length = y.text.length := by
      rw [Piece.text, Piece.text, shown_length, shown_length, hxy]
    obtain ⟨htext, htexts⟩ := List.append_inj htexts hlength
    have hrest := ih htokens htexts fun t ht => hsolid t (List.mem_cons_of_mem _ ht)
    unfold significantPieces at hrest ⊢
    rw [List.filter_cons, List.filter_cons, hrest, hxy]
    split
    · rename_i ht
      have hsig : y.token.isTrivia = false := by simpa using ht
      have hhidden : x.hidden = y.hidden := by
        rw [Piece.text, Piece.text, hxy] at htext
        exact shown_inj htext (hsolid y.token (hxy ▸ List.mem_cons_self) hsig)
      obtain ⟨t, a⟩ := x
      obtain ⟨u, b⟩ := y
      obtain rfl : t = u := hxy
      obtain rfl : a = b := hhidden
      rfl
    · rfl

section
variable {source : String} {t : Token}

theorem scanned_mem (h : t ∈ tokenize .ts source) :
    scanned t ∈ scan false none [] source.toList :=
  scanned_tokenize source ▸ List.mem_map_of_mem h

theorem tokenize_notBlank (h : t ∈ tokenize .ts source) (ht : t.isTrivia = false) :
    ∃ c ∈ t.text.toList, isBlank c = false :=
  scan_notBlank (List.forall_mem_nil _) (scanned t) (scanned_mem h) (by rwa [scanned_isTrivia])

end

/-! ### Outcomes -/

/-- The significant tokens of the source are `ps`, and erasure blanks out exactly the
hidden ones and the trivia between two hidden ones. -/
def ErasedAs (source : String) (ps : List Piece) : Prop :=
  ∃ qs : List Piece, qs.map Piece.token = tokenize .ts source ∧ significantPieces qs = ps ∧
    (∀ xs q ys, qs = xs ++ q :: ys → q.token.isTrivia = true →
      q.hidden = (lastHidden xs && firstHidden ys)) ∧
    eraseTypes .ts source = some (String.ofList (qs.flatMap Piece.text))

variable {source : String} {ps : List Piece}

theorem ErasedAs.tokens (h : ErasedAs source ps) :
    significant (tokenize .ts source) = tokensOf ps := by
  obtain ⟨qs, htokens, rfl, -, -⟩ := h
  rw [← htokens, significant, List.filter_map]
  rfl

/-- The marks of the outcome are those of the pass. -/
theorem erasedAs_iff :
    ErasedAs source ps ↔ significant (tokenize .ts source) = tokensOf ps ∧
      ∃ e, (Code.ofTokens (significant (tokenize .ts source))).erasure = some e ∧
        ∀ k < ps.length, e.covers k = ps[k]?.any Piece.hidden := by
  have hmarks : ∀ e, significant (tokenize .ts source) = tokensOf ps →
      ((∀ k < ps.length, e.covers k = ps[k]?.any Piece.hidden) ↔
        significantPieces (erasedPieces .ts source e) = ps) := by
    intro e hs
    have hlen : (significant (tokenize .ts source)).length = ps.length := by
      rw [hs, List.length_map]
    have herased : ∀ k < ps.length, (Code.ofTokens (significant (tokenize .ts source))).isErased e k
        = e.covers k := by
      intro k hk
      simp [Code.isErased, Code.size, Code.ofTokens, hlen, hk]
    refine ⟨fun h => significantPieces_pieces hs fun k hk => ?_, fun h k hk => ?_⟩
    · rw [herased k hk, h k hk]
    · have hk' := congrArg (·[k]?) (hidden_significantPieces
        ((Code.ofTokens (significant (tokenize .ts source))).isErased e) 0 (tokenize .ts source))
      rw [← erasedPieces, h] at hk'
      simpa [hlen, hk, herased k hk] using hk'.symm
  constructor
  · intro h
    have hs := h.tokens
    obtain ⟨qs, htokens, hps, -, hout⟩ := h
    obtain ⟨e, he, htext⟩ := eraseTypes_eq_some rfl hout
    refine ⟨hs, e, he, (hmarks e hs).mpr (Eq.trans ?_ hps)⟩
    rw [String.toList_ofList, ← pieces_texts] at htext
    exact (significantPieces_of_texts (htokens.trans (pieces_tokens ..).symm) htext
      fun t ht => tokenize_notBlank (htokens ▸ ht)).symm
  · rintro ⟨hs, e, he, hc⟩
    exact ⟨erasedPieces .ts source e, pieces_tokens .., (hmarks e hs).mp hc,
      fun xs q ys hq ht => hidden_trivia (isErased_size _ e) hq ht, eraseTypes_erasedPieces rfl he⟩

theorem ErasedAs.unique {qs : List Piece} (h : ErasedAs source ps) (h' : ErasedAs source qs) :
    ps = qs := by
  obtain ⟨hs, e, he, hc⟩ := erasedAs_iff.mp h
  obtain ⟨hs', e', he', hc'⟩ := erasedAs_iff.mp h'
  obtain rfl : e = e' := Option.some.inj (he.symm.trans he')
  have htokens : tokensOf ps = tokensOf qs := hs.symm.trans hs'
  have hlen : ps.length = qs.length := by simpa using congrArg List.length htokens
  refine pieces_ext htokens (List.ext_getElem (by simpa using hlen) fun k hk hk' => ?_)
  have hk := hc k (by simpa using hk)
  rw [hc' k (by simpa using hk')] at hk
  simp_all

/-- The marks tell the text. -/
theorem ErasedAs.eraseTypes_eq (h : ErasedAs source ps) : eraseTypes .ts source =
    some (String.ofList (laidOut (fun k => ps[k]?.any Piece.hidden) 0 (tokenize .ts source))) := by
  obtain ⟨hs, e, he, hc⟩ := erasedAs_iff.mp h
  have hsize : (Code.ofTokens (significant (tokenize .ts source))).size = ps.length := by
    simp [Code.size, Code.ofTokens, hs]
  have herased : (Code.ofTokens (significant (tokenize .ts source))).isErased e =
      fun k => ps[k]?.any Piece.hidden := by
    funext k
    rw [Code.isErased, hsize]
    by_cases hk : k < ps.length
    · simp only [hk, decide_true, Bool.true_and, hc k hk]
    · simp [hk]
  have hout := eraseTypes_erasedPieces rfl he
  rw [hout, erasedPieces, pieces_texts, herased]

/-- A pass that crosses the whole source. -/
theorem erasedAs_of_crosses (hs : significant (tokenize .ts source) = tokensOf ps)
    (h : (Code.ofTokens (significant (tokenize .ts source))).From 0 (tokensOf ps ++ []) →
      (Code.ofTokens (significant (tokenize .ts source))).Crosses 0 ps fun _ => false) :
    ErasedAs source ps := by
  have hf : (Code.ofTokens (significant (tokenize .ts source))).From 0 (tokensOf ps ++ []) := by
    simp [Code.From, Code.ofTokens, hs]
  obtain ⟨e, he, hc⟩ := h hf [] fun _ _ _ => rfl
  refine erasedAs_iff.mpr ⟨hs, e, ?_, fun k _ => by
    rw [hc, Erasure.covers_nil, Bool.false_or, hides_zero]⟩
  have hsize : 0 + ps.length = (Code.ofTokens (significant (tokenize .ts source))).size := by
    simp [Code.size, Code.ofTokens, hs]
  rw [Code.erasure, he, hsize, Code.erasureFrom, dif_neg (Nat.lt_irrefl _)]

end Retouch.Erase
