import Retouch.Proofs.FadedScan

/-! The tokens of a text in which some tokens of a source are blanked out. Each token
stands at the index of its first character, and its place is a measure of the text
before it; its kind is what it was scanned as, unless the words around it make it a
keyword. So the significant tokens of the new text are the kept ones, placed in the
new text, provided that contextual words stay what they are. -/

namespace Retouch.Erase
open Syntax Text

/-! ### Words as they are scanned -/

section
variable {elements : Bool} {before : Option Lexeme} {stack : List Context} {c : Char}
  {r : List Char}

/-- Words are told by their texts alone when they are scanned. -/
def ScannedWord (l : Lexeme) : Prop :=
  l.kind = .keyword ∨ l.kind = .identifier → l.kind = wordKind l.text

theorem codeStep_scannedWord :
    ScannedWord ((codeStep elements before stack c r).lexeme c r) := by
  by_cases hc : isNameStart c = true
  · intro _
    rw [codeStep_word hc]
    rfl
  · -- only words begin like words
    intro hk
    have hbegins := codeStep_begins elements before stack c r
    rcases hk with hk | hk <;>
      exact absurd ((congrArg (Kind.canBegin · c) hk).symm.trans hbegins) hc

end

theorem scanned_resolved {d : Dialect} {before after : Option Lexeme} {l : Lexeme}
    (h : ScannedWord l) {p q : Place} :
    scanned ⟨resolvedKind d before l after, l.text, p, q⟩ = l := by
  obtain ⟨kind, text⟩ := l
  unfold scanned resolvedKind
  dsimp only
  split
  · rename_i hc
    simp only [Bool.and_eq_true, decide_eq_true_eq] at hc
    rw [if_pos rfl, ← h (.inr hc.1.1)]
  · split
    · rename_i hk
      rw [← h (.inl hk)]
    · rfl

theorem scanned_placed {d : Dialect} {before : Option Lexeme} {p : Place} {ls : List Lexeme}
    (h : ∀ l ∈ ls, ScannedWord l) : (placed p (resolve d before ls)).map scanned = ls := by
  induction ls generalizing before p with
  | nil => rfl
  | cons l ls ih =>
    rw [resolve, placed, List.map_cons, scanned_resolved (h l (by simp)),
      ih fun l' hl' => h l' (by simp [hl'])]

theorem scanned_tokenize (source : String) :
    (tokenize .ts source).map scanned = scan false none [] source.toList := by
  rw [tokenize, lexemes_eq]
  exact scanned_placed (CodeOnly.nil.scan_forall fun _ _ _ _ => codeStep_scannedWord)

/-! ### Tokens by the index of their first character -/

/-- The token that a lexeme is where it stands in a text. -/
def tokenAt (cs : List Char) (q : Nat × Lexeme) : Token :=
  ⟨q.2.kind, q.2.text, Place.origin.past (cs.take q.1),
    Place.origin.past (cs.take (q.1 + q.2.text.toList.length))⟩

theorem placed_cons (front : List Char) (l : Lexeme) (ls : List Lexeme) :
    placed (Place.origin.past front) (l :: ls) =
      tokenAt (front ++ (l :: ls).flatMap fun l => l.text.toList) (front.length, l) ::
        placed (Place.origin.past (front ++ l.text.toList)) ls := by
  have hstop : (front ++ (l.text.toList ++ ls.flatMap fun l => l.text.toList)).take
      (front.length + l.text.toList.length) = front ++ l.text.toList := by
    rw [← List.append_assoc]
    exact List.take_left' (List.length_append ..)
  rw [placed, tokenAt, ← Place.past_append, List.flatMap_cons, List.take_left, hstop]

theorem significant_placed (front : List Char) (ls : List Lexeme) :
    significant (placed (Place.origin.past front) ls) =
      (located front.length ls).map (tokenAt (front ++ ls.flatMap fun l => l.text.toList)) := by
  induction ls generalizing front with
  | nil => rfl
  | cons l ls ih =>
    have hi := ih (front ++ l.text.toList)
    rw [List.length_append, List.append_assoc] at hi
    rw [placed_cons, significant, List.filter_cons, located, ← significant, hi, List.flatMap_cons]
    have htrivia : ∀ cs, (tokenAt cs (front.length, l)).isTrivia = l.isTrivia := fun _ => rfl
    cases ht : l.isTrivia with
    | true => rw [htrivia, ht, if_neg (by simp), if_pos rfl]
    | false => rw [htrivia, ht, if_pos (by simp), if_neg (by simp), List.map_cons]

theorem lexemes_texts (d : Dialect) (source : String) :
    (lexemes d source).flatMap (fun l => l.text.toList) = source.toList := by
  rw [← tokenize_texts d source, ← placed_lexemes .origin (lexemes d source), List.flatMap_map]
  rfl

theorem significant_tokenize (d : Dialect) (source : String) :
    significant (tokenize d source) =
      (located 0 (lexemes d source)).map (tokenAt source.toList) := by
  have h := significant_placed [] (lexemes d source)
  rwa [List.nil_append, lexemes_texts] at h

/-- What is kept of a text stands where its index says. -/
theorem keptAt_tokenAt {front : List Char} {ls : List Lexeme} {ps : List Piece}
    (h : ps.map Piece.token = placed (Place.origin.past front) ls) :
    ∀ q ∈ keptAt front.length ps,
      q.2 = tokenAt (front ++ ls.flatMap fun l => l.text.toList) (q.1, q.2.lexeme) := by
  induction ls generalizing front ps with
  | nil =>
    obtain rfl := List.map_eq_nil_iff.mp h
    simp [keptAt]
  | cons l ls ih =>
    rw [placed_cons, List.flatMap_cons] at h
    rw [List.flatMap_cons]
    obtain _ | ⟨p, ps⟩ := ps
    · cases h
    obtain ⟨hp, hps⟩ := List.cons.inj h
    have htext : p.token.text = l.text := by rw [hp]; rfl
    have hlexeme : p.token.lexeme = l := by rw [hp]; rfl
    have hi := ih hps
    rw [List.length_append, List.append_assoc] at hi
    intro q hq
    rw [keptAt, htext] at hq
    split at hq
    · exact hi q hq
    · rcases List.mem_cons.mp hq with rfl | hq
      · rwa [hlexeme]
      · exact hi q hq

/-! ### Contextual words without trivia -/

theorem located_lexemes (n : Nat) (ls : List Lexeme) :
    (located n ls).map Prod.snd = significantLexemes ls := by
  induction ls generalizing n with
  | nil => rfl
  | cons l ls ih =>
    rw [located, significantLexemes, List.filter_cons, ← significantLexemes]
    cases ht : l.isTrivia <;> simp [ih]

theorem firstSignificant_significantLexemes (ls : List Lexeme) :
    firstSignificant (significantLexemes ls) = firstSignificant ls := by
  rw [firstSignificant, significantLexemes, List.find?_filter]
  simp [firstSignificant]

/-- Words are told by the significant lexemes around them alone. -/
theorem located_resolve (d : Dialect) (before : Option Lexeme) (n : Nat) (ls : List Lexeme) :
    located n (resolve d before ls) =
      ((located n ls).map Prod.fst).zip (resolve d before (significantLexemes ls)) := by
  induction ls generalizing before n with
  | nil => rfl
  | cons l ls ih =>
    rw [resolve]
    cases ht : l.isTrivia with
    | true =>
      have hsig : significantLexemes (l :: ls) = significantLexemes ls :=
        List.filter_cons_of_neg (by simp [ht])
      rw [located_trivia (by rw [isTrivia_resolved, ht]), located_trivia ht, hsig, ih]
      rfl
    | false =>
      have hsig : significantLexemes (l :: ls) = l :: significantLexemes ls :=
        List.filter_cons_of_pos (by simp [ht])
      rw [located_significant (by simp [isTrivia_resolved, ht]), located_significant (by simp [ht]),
        hsig, resolve, ih, ht, firstSignificant_significantLexemes]
      rfl

/-! ### What is kept -/

/-- The significant tokens that are not blanked out. -/
def keptTokens (ps : List Piece) : List Token :=
  ((significantPieces ps).filter (!·.hidden)).map Piece.token

theorem keptAt_tokens (n : Nat) (ps : List Piece) : (keptAt n ps).map Prod.snd = keptTokens ps := by
  induction ps generalizing n with
  | nil => rfl
  | cons p ps ih =>
    rw [keptAt, keptTokens, significantPieces, List.filter_filter, List.filter_cons,
      ← List.filter_filter, ← significantPieces]
    cases hh : p.hidden <;> cases ht : p.token.isTrivia <;> simp [ih, keptTokens]

/-- What is kept, where it stands in a text. -/
def keptIn (cs : List Char) (ps : List Piece) : List Token :=
  (keptAt 0 ps).map fun q => tokenAt cs (q.1, q.2.lexeme)

theorem keptIn_source {d : Dialect} {source : String} {ps : List Piece}
    (h : ps.map Piece.token = tokenize d source) :
    keptIn source.toList ps = keptTokens ps := by
  have hat := @keptAt_tokenAt [] _ _ h
  rw [List.nil_append, lexemes_texts] at hat
  rw [← keptAt_tokens 0]
  exact List.map_congr_left fun q hq => (hat q hq).symm

/-- The significant tokens of the text in which the others are blanked out. -/
theorem significant_faded {d : Dialect} {source out : String} {ps : List Piece}
    (hps : ps.map Piece.token = tokenize .ts source) (hout : out.toList = ps.flatMap Piece.text)
    (hread : readsAlike d.hasElements none none [] (significantPieces ps) = true)
    (hwords : resolve d none ((keptTokens ps).map scanned) = (keptTokens ps).map Token.lexeme) :
    significant (tokenize d out) = keptIn out.toList ps := by
  have hscan : located 0 (scan d.hasElements none [] out.toList) =
      (keptAt 0 ps).map fun q => (q.1, scanned q.2) := by
    have hscanned : ps.map (fun p => scanned p.token) = scan false none [] source.toList := by
      rw [← scanned_tokenize, ← hps, List.map_map]
      rfl
    rw [hout]
    exact scan_faded hscanned (List.forall_mem_nil _) (List.forall_mem_nil _) hread
  have hkept : significantLexemes (scan d.hasElements none [] out.toList) =
      (keptTokens ps).map scanned := by
    rw [← located_lexemes 0, hscan, ← keptAt_tokens 0, List.map_map, List.map_map]
    rfl
  rw [significant_tokenize, lexemes_eq, located_resolve, hkept, hwords, hscan, ← keptAt_tokens 0,
    List.map_map, List.map_map, List.zip_map', List.map_map]
  rfl

end Retouch.Erase
