import Retouch.Proofs.KeptTokens
import Retouch.Proofs.PassView
import Retouch.Proofs.PlainErasure
import Retouch.Proofs.TokenPositions

/-! Erasing the types of a text that has been erased already. The second pass reads
the kept tokens at new byte offsets, but on the same lines and next to each other as
before, so it does what the pass would do on the kept tokens alone. It need not be
idle: each operator behind an expression is told by the token before it, and the first
pass looks at tokens that it erases itself. -/

namespace Retouch.Erase
open Syntax Text

/-! ### Places do not matter -/

theorem byteLength_take_eq_iff (cs : List Char) (m n : Nat) :
    byteLength (cs.take m) = byteLength (cs.take n) ↔ min m cs.length = min n cs.length := by
  induction cs generalizing m n with
  | nil => simp
  | cons c cs ih =>
    have hpos := Char.utf8Size_pos c
    cases m with
    | zero =>
      cases n with
      | zero => simp
      | succ n => simp; omega
    | succ m =>
      cases n with
      | zero => simp; omega
      | succ n => simp [ih]

section
variable {t t' : Token} {ts ts' : List Token}

theorem opener?_lexeme (h : t'.lexeme = t.lexeme) : opener? t' = opener? t := by
  obtain ⟨hk, ht⟩ := Lexeme.mk.inj h
  rw [opener?, opener?, hk, ht]

theorem closer?_lexeme (h : t'.lexeme = t.lexeme) : closer? t' = closer? t := by
  obtain ⟨hk, ht⟩ := Lexeme.mk.inj h
  rw [closer?, closer?, hk, ht]

theorem distance_lexemes (h : ts'.map Token.lexeme = ts.map Token.lexeme)
    (stack : List Bracket) : distance stack ts' = distance stack ts := by
  induction ts generalizing ts' stack with
  | nil => rw [List.map_eq_nil_iff.mp h]
  | cons t ts ih =>
    obtain ⟨t', ts', rfl, ht, hts⟩ := List.map_eq_cons_iff.mp h
    rw [distance, distance, afterToken, afterToken, opener?_lexeme ht, closer?_lexeme ht]
    simp only [ih hts]

theorem partnersFrom_lexemes (h : ts'.map Token.lexeme = ts.map Token.lexeme) (k : Nat) :
    partnersFrom k ts' = partnersFrom k ts := by
  induction ts generalizing ts' k with
  | nil => rw [List.map_eq_nil_iff.mp h]
  | cons t ts ih =>
    obtain ⟨t', ts', rfl, ht, hts⟩ := List.map_eq_cons_iff.mp h
    rw [partnersFrom, partnersFrom, opener?_lexeme ht, ih hts]
    simp only [distance_lexemes hts]

end

/-- Where tokens stand in a faded text is on the same lines, and next to each other or
not as before. -/
theorem alike_tokenAt {xs ys : List Char} (h : Faded xs ys) (qs : List (Nat × Lexeme)) :
    (Code.ofTokens (qs.map (tokenAt xs))).Alike (Code.ofTokens (qs.map (tokenAt ys))) := by
  have hlines : ∀ n, (Place.origin.past (ys.take n)).line = (Place.origin.past (xs.take n)).line :=
    fun n => (past_stands (List.forall₂_take n h) rfl rfl).1
  have hoffsets : ∀ m n,
      ((Place.origin.past (ys.take m)).offset = (Place.origin.past (ys.take n)).offset) =
        ((Place.origin.past (xs.take m)).offset = (Place.origin.past (xs.take n)).offset) := by
    intro m n
    simp only [Place.past_origin, byteLength_take_eq_iff, h.length_eq]
  have hlexemes : (qs.map (tokenAt ys)).map Token.lexeme =
      (qs.map (tokenAt xs)).map Token.lexeme := by
    rw [List.map_map, List.map_map]
    rfl
  constructor
  · simp [Code.size, Code.ofTokens]
  · funext k
    simp [Code.kind?, Code.ofTokens]
    rfl
  · funext k
    simp [Code.text, Code.ofTokens]
    rfl
  · funext k
    simp only [Code.partner, Code.ofTokens, partnersFrom_lexemes hlexemes]
  · funext k
    simp only [Code.freshLine, Code.ofTokens, List.getElem?_toArray, List.getElem?_map]
    cases qs[k - 1]? <;> cases qs[k]? <;> simp [tokenAt, hlines]
  · funext k
    simp only [Code.sameLine, Code.ofTokens, List.getElem?_toArray, List.getElem?_map]
    cases qs[k - 1]? <;> cases qs[k]? <;> simp [tokenAt, hlines]
  · funext k
    simp only [Code.adjacent, Code.ofTokens, List.getElem?_toArray, List.getElem?_map]
    cases qs[k - 1]? <;> cases qs[k]? <;> simp [tokenAt, hoffsets]

/-! ### The second pass -/

theorem isBlank_of_blank_eq {c : Char} (h : blank c = c) : isBlank c = true := h ▸ isBlank_blank c

/-- A text with every significant token shown as it is has none blanked out, if each
has a character that is not blank. -/
theorem kept_of_laidOut_eq {erased : Nat → Bool} {k : Nat} {ts : List Token}
    (h : laidOut erased k ts = ts.flatMap fun t => t.text.toList)
    (hsolid : ∀ t ∈ significant ts, ∃ c ∈ t.text.toList, isBlank c = false) :
    ∀ i < (significant ts).length, erased (k + i) = false := by
  induction ts generalizing k with
  | nil => simp [significant]
  | cons t ts ih =>
    rw [laidOut, List.flatMap_cons] at h
    cases ht : t.isTrivia with
    | true =>
      rw [ht, if_pos rfl] at h
      have hsig : significant (t :: ts) = significant ts :=
        List.filter_cons_of_neg (by simp [ht])
      rw [hsig] at hsolid ⊢
      exact ih (List.append_inj h (shown_length _ _)).2 hsolid
    | false =>
      rw [ht, if_neg (by simp)] at h
      have hsig : significant (t :: ts) = t :: significant ts :=
        List.filter_cons_of_pos (by simp [ht])
      rw [hsig] at hsolid ⊢
      obtain ⟨hshown, hrest⟩ := List.append_inj h (shown_length _ _)
      have hkept : erased k = false := by
        refine Bool.eq_false_iff.mpr fun he => ?_
        obtain ⟨c, hc, hblank⟩ := hsolid t (by simp)
        rw [he] at hshown
        have hsame : blank c = c :=
          List.map_inj_left.mp (hshown.trans (List.map_id _).symm) c hc
        rw [isBlank_of_blank_eq hsame] at hblank
        cases hblank
      intro i hi
      cases i with
      | zero => exact hkept
      | succ i =>
        have hi' := ih hrest (fun u hu => hsolid u (by simp [hu])) i (by simpa using hi)
        rwa [Nat.add_right_comm, Nat.add_assoc] at hi'

theorem scan_notBlank {before : Option Lexeme} {stack : List Context} {cs : List Char}
    (hstack : CodeOnly stack) :
    ∀ l ∈ scan false before stack cs, l.isTrivia = false →
      ∃ c ∈ l.text.toList, isBlank c = false := by
  refine hstack.scan_forall fun before stack c r ht => ?_
  refine ⟨c, by simp [Step.lexeme], Bool.eq_false_iff.mpr fun hc => ?_⟩
  have hblank : codeStep false before stack c r = ⟨.whitespace, run isBlank r, stack⟩ := if_pos hc
  rw [hblank] at ht
  cases ht

/-- The tokens of a source, with those blanked out that an erasure covers. -/
def erasedPieces (d : Dialect) (source : String) (e : Erasure) : List Piece :=
  pieces ((Code.ofTokens (significant (tokenize d source))).isErased e) 0 (tokenize d source)

theorem eraseTypes_erasedPieces {d : Dialect} {source : String} {e : Erasure}
    (hd : d.isTyped = true)
    (he : (Code.ofTokens (significant (tokenize d source))).erasure = some e) :
    eraseTypes d source = some (String.ofList ((erasedPieces d source e).flatMap Piece.text)) := by
  rw [eraseTypes_eq hd, he, Option.map_some, erasedPieces, pieces_texts]

/-- What is kept reads as before when the rest is blanked out: the marks whose
reading depends on what stands around them, and the contextual words. -/
structure RereadsAlike (d : Dialect) (ps : List Piece) : Prop where
  marks : readsAlike d.hasElements none none [] (significantPieces ps) = true
  words : resolve d none ((keptTokens ps).map scanned) = (keptTokens ps).map Token.lexeme

/-- The pass finds no type syntax in these tokens. -/
def Bare (ts : List Token) : Prop :=
  ∃ e, (Code.ofTokens ts).erasure = some e ∧ ∀ k < ts.length, e.covers k = false

section
variable {d : Dialect} {source out : String} {ps : List Piece}

/-- The second pass does what the pass does on the kept tokens alone. -/
theorem erasure_faded (hps : ps.map Piece.token = tokenize .ts source)
    (hout : out.toList = ps.flatMap Piece.text) (hread : RereadsAlike d ps) :
    (Code.ofTokens (significant (tokenize d out))).erasure =
      (Code.ofTokens (keptTokens ps)).erasure := by
  have hfaded : Faded source.toList out.toList := by
    have hf := pieces_faded ps
    have htexts : (ps.flatMap fun p => p.token.text.toList) = source.toList := by
      rw [← tokenize_texts .ts source, ← hps, List.flatMap_map]
    rwa [htexts, ← hout] at hf
  rw [significant_faded hps hout hread.marks hread.words, ← keptIn_source hps, keptIn, keptIn]
  have halike := alike_tokenAt hfaded ((keptAt 0 ps).map fun q => (q.1, q.2.lexeme))
  rw [List.map_map, List.map_map] at halike
  exact halike.erasure

theorem length_keptIn (cs : List Char) (ps : List Piece) :
    (keptIn cs ps).length = (keptTokens ps).length := by
  rw [keptIn, ← keptAt_tokens 0, List.length_map, List.length_map]

theorem notBlank_faded (hps : ps.map Piece.token = tokenize .ts source)
    (hout : out.toList = ps.flatMap Piece.text) (hread : RereadsAlike d ps) :
    ∀ t ∈ significant (tokenize d out), ∃ c ∈ t.text.toList, isBlank c = false := by
  rw [significant_faded hps hout hread.marks hread.words]
  intro t ht
  obtain ⟨q, hq, rfl⟩ := List.mem_map.mp ht
  have hkept : q.2 ∈ keptTokens ps := keptAt_tokens 0 ps ▸ List.mem_map_of_mem hq
  obtain ⟨p, hp, hpq⟩ := List.mem_map.mp hkept
  obtain ⟨hp, hsig⟩ := List.mem_filter.mp (List.mem_of_mem_filter hp)
  have hmem : scanned q.2 ∈ scan false none [] source.toList := by
    rw [← scanned_tokenize, ← hps, ← hpq]
    exact List.mem_map_of_mem (List.mem_map_of_mem hp)
  refine scan_notBlank (List.forall_mem_nil _) (scanned q.2) hmem ?_
  rw [scanned_isTrivia, ← hpq]
  simpa using hsig

/-- A second pass leaves the text as it is exactly when the pass finds nothing among
the kept tokens. -/
theorem eraseTypes_faded_iff (hd : d.isTyped = true)
    (hps : ps.map Piece.token = tokenize .ts source)
    (hout : out.toList = ps.flatMap Piece.text) (hread : RereadsAlike d ps) :
    eraseTypes d out = some out ↔ Bare (keptTokens ps) := by
  have hlen : (significant (tokenize d out)).length = (keptTokens ps).length := by
    rw [significant_faded hps hout hread.marks hread.words, length_keptIn]
  have hsize : (Code.ofTokens (significant (tokenize d out))).size = (keptTokens ps).length := by
    rw [← hlen]
    simp [Code.size, Code.ofTokens]
  have htexts := tokenize_texts d out
  rw [eraseTypes_eq hd, erasure_faded hps hout hread, Option.map_eq_some_iff, Bare]
  refine exists_congr fun e => and_congr_right fun _ => ⟨fun h k hk => ?_, fun h => ?_⟩
  · have hsame := congrArg String.toList h
    rw [String.toList_ofList, ← htexts] at hsame
    have hk' := kept_of_laidOut_eq hsame (notBlank_faded hps hout hread) k (by omega)
    simpa [Code.isErased, hsize, hk] using hk'
  · have hnone : (Code.ofTokens (significant (tokenize d out))).isErased e = fun _ => false := by
      funext k
      rw [Code.isErased, hsize]
      by_cases hk : k < (keptTokens ps).length
      · simp [h k hk]
      · simp [hk]
    rw [hnone, Plain.laidOut_kept, htexts, String.ofList_toList]

theorem bare_of_plain (hps : ps.map Piece.token = tokenize d source)
    (h : Plain.IsStatement .many (keptTokens ps)) : Bare (keptTokens ps) := by
  have hsolid : (Code.ofTokens (keptTokens ps)).Solid := by
    intro i t ht hk
    have hm : t ∈ keptTokens ps := List.mem_of_getElem? (by simpa [Code.ofTokens] using ht)
    obtain ⟨p, hp, rfl⟩ := List.mem_map.mp hm
    have hp' := List.mem_of_mem_filter (List.mem_of_mem_filter hp)
    exact tokenize_solid (hps ▸ List.mem_map_of_mem hp') hk
  exact ⟨[], h.erasure hsolid, fun _ _ => rfl⟩

end

/-- Erasing twice. Where no elements are read and what is kept reads as before, the
text that the pass writes has the kept tokens; a second pass changes nothing exactly
when the pass finds nothing among them, and so it does if they form a program without
types. -/
theorem eraseTypes_twice {d : Dialect} {source : String} {e : Erasure} (hd : d.isTyped = true)
    (helements : tokenize d source = tokenize .ts source)
    (he : (Code.ofTokens (significant (tokenize d source))).erasure = some e)
    (hread : RereadsAlike d (erasedPieces d source e)) :
    ∃ out, eraseTypes d source = some out ∧
      (significant (tokenize d out)).map Token.lexeme =
        (keptTokens (erasedPieces d source e)).map Token.lexeme ∧
      (eraseTypes d out = some out ↔ Bare (keptTokens (erasedPieces d source e))) ∧
      (Plain.IsStatement .many (keptTokens (erasedPieces d source e)) →
        eraseTypes d out = some out) := by
  have hps : (erasedPieces d source e).map Piece.token = tokenize .ts source := by
    rw [erasedPieces, pieces_tokens, helements]
  have hout : (String.ofList ((erasedPieces d source e).flatMap Piece.text)).toList =
      (erasedPieces d source e).flatMap Piece.text := String.toList_ofList
  have hiff := eraseTypes_faded_iff hd hps hout hread
  refine ⟨_, ?_, ?_, hiff, fun hplain => hiff.mpr (bare_of_plain hps hplain)⟩
  · exact eraseTypes_erasedPieces hd he
  · rw [significant_faded hps hout hread.marks hread.words, keptIn, ← keptAt_tokens 0,
      List.map_map, List.map_map]
    rfl

/-- A quotient with a cast in it, after an annotation. -/
def castQuotient : String := "let x: T = a / (b as T);"

def castQuotientErasure : Erasure := [⟨9, 10⟩, ⟨2, 3⟩]

/-- A quotient stays one, though its divisor loses a cast. -/
theorem eraseTypes_twice_quotient :
    ∃ out, eraseTypes .tsx castQuotient = some out ∧ eraseTypes .tsx out = some out := by
  have he : (Code.ofTokens (significant (tokenize .tsx castQuotient))).erasure =
      some castQuotientErasure := by cbv
  have hread : tokenize .tsx castQuotient = tokenize .ts castQuotient ∧
      readsAlike true none none []
        (significantPieces (erasedPieces .tsx castQuotient castQuotientErasure)) = true ∧
      resolve .tsx none
          ((keptTokens (erasedPieces .tsx castQuotient castQuotientErasure)).map scanned) =
        (keptTokens (erasedPieces .tsx castQuotient castQuotientErasure)).map Token.lexeme ∧
      (Code.ofTokens (keptTokens (erasedPieces .tsx castQuotient castQuotientErasure))).erasure =
        some [] := by
    decide +kernel
  obtain ⟨hsame, hmarks, hwords, hkept⟩ := hread
  obtain ⟨out, hfirst, -, hsecond, -⟩ := eraseTypes_twice rfl hsame he ⟨hmarks, hwords⟩
  exact ⟨out, hfirst, hsecond.mpr ⟨[], hkept, fun _ _ => rfl⟩⟩

/-- The cast behind an assertion is found only when the assertion is gone: a second
pass erases what the first one left. -/
theorem eraseTypes_assertedCast :
    eraseTypes .ts "const y = x! as T;" = some "const y = x  as T;" ∧
    eraseTypes .ts "const y = x  as T;" = some "const y = x      ;" ∧
    eraseTypes .ts "const y = x  as T;" ≠ some "const y = x  as T;" := by
  have h : eraseTypes .ts "const y = x  as T;" = some "const y = x      ;" := by cbv
  exact ⟨by cbv, h, by rw [h]; decide⟩

end Retouch.Erase
