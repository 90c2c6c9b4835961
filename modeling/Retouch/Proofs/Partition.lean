import Retouch.Syntax.Tokenize
import Retouch.Text.Bytes

/-! The tokens of a source partition it. Every scanner takes at least one character,
whatever the context, so no lexeme is empty; places are measures of the text before
them, so each token starts where the one before it ends; and the texts put
together are the source. Nothing here asks the source to be well formed. -/

namespace Retouch.Syntax
open Retouch.Text

/-! ### Progress in every context -/

/-- One turn of the main loop, whatever is open and whatever came before: a lexeme that is
not empty, since its scanner left an end of the text behind the first character, and the
loop again on what is left. -/
theorem lex_cons (elements : Bool) (before : Option Lexeme) (stack : List Context) (c : Char)
    (r : List Char) :
    (read elements before stack c r).rest <:+ r ∧
    ∃ l before' stack',
      lex elements before stack (c :: r) =
        l :: lex elements before' stack' (read elements before stack c r).rest ∧
      l.text ≠ "" ∧ c :: r = l.text.toList ++ (read elements before stack c r).rest := by
  have hrest := read_suffix elements before stack c r
  rw [lex]
  refine ⟨hrest, _, _, _, rfl, ?_, ?_⟩
  · intro h
    apply textBefore_ne_nil (c := c) hrest
    simpa using congrArg String.toList h
  · rw [String.toList_ofList, textBefore_append (hrest.trans (List.suffix_cons c r))]

theorem lex_nonempty (elements : Bool) (before : Option Lexeme) (stack : List Context)
    (cs : List Char) : ∀ l ∈ lex elements before stack cs, l.text ≠ "" := by
  fun_induction lex elements before stack cs with
  | case1 => simp
  | case2 before stack c r s l ih =>
    intro l' hl'
    rcases List.mem_cons.mp hl' with rfl | hl'
    · intro h
      apply textBefore_ne_nil (c := c) (read_suffix elements before stack c r)
      simpa [l] using congrArg String.toList h
    · exact ih l' hl'

theorem lexemes_nonempty (d : Dialect) (source : String) :
    ∀ l ∈ lexemes d source, l.text ≠ "" := by
  intro l hl
  have ht : l.text ∈ (lexemes d source).map Lexeme.text := List.mem_map_of_mem hl
  rw [lexemes, resolve_texts] at ht
  obtain ⟨l', hl', he⟩ := List.mem_map.mp ht
  exact he ▸ lex_nonempty _ _ _ _ l' hl'

/-! ### Places -/

theorem Place.past_offset (p : Place) (cs : List Char) :
    (p.past cs).offset = p.offset + byteLength cs := by
  induction cs generalizing p with
  | nil => simp
  | cons c cs ih =>
    have hs : (p.step c).offset = p.offset + c.utf8Size := by
      unfold Place.step
      split <;> rfl
    simp [ih, hs, Nat.add_assoc]

theorem byteLength_toList (s : String) : byteLength s.toList = s.utf8ByteSize := by
  obtain ⟨cs, rfl⟩ : ∃ cs, s = String.ofList cs := ⟨s.toList, (String.ofList_toList).symm⟩
  rw [String.toList_ofList]
  induction cs with
  | nil => simp
  | cons c cs ih =>
    have hc : String.ofList (c :: cs) = String.singleton c ++ String.ofList cs := by
      apply String.toList_inj.mp
      simp [String.toList_ofList]
    rw [byteLength_cons, ih, hc, String.utf8ByteSize_append, String.utf8ByteSize_singleton]

/-- Where a placed lexeme stands: behind the texts of all lexemes before it. -/
theorem placed_append_cons {p : Place} {ls : List Lexeme} {xs ys : List Token} {t : Token}
    (h : placed p ls = xs ++ t :: ys) :
    t.start = p.past (xs.flatMap fun x => x.text.toList) ∧
      t.stop = t.start.past t.text.toList := by
  induction ls generalizing p xs with
  | nil => simp [placed] at h
  | cons l ls ih =>
    cases xs with
    | nil =>
      simp only [placed, List.nil_append, List.cons.injEq] at h
      simp [← h.1]
    | cons x xs =>
      simp only [placed, List.cons_append, List.cons.injEq] at h
      obtain ⟨hs, he⟩ := ih h.2
      refine ⟨?_, he⟩
      rw [hs, ← h.1]
      simp

theorem placed_chained {p : Place} {ls : List Lexeme} {i : Nat} {t u : Token}
    (ht : (placed p ls)[i]? = some t) (hu : (placed p ls)[i + 1]? = some u) :
    u.start = t.stop := by
  induction ls generalizing p i with
  | nil => simp [placed] at ht
  | cons l ls ih =>
    cases i with
    | zero =>
      simp only [placed, List.getElem?_cons_zero, Option.some.injEq] at ht
      cases ls with
      | nil => simp [placed] at hu
      | cons m ls =>
        simp only [placed, Nat.zero_add, List.getElem?_cons_succ, List.getElem?_cons_zero,
          Option.some.injEq] at hu
        simp [← ht, ← hu]
    | succ i =>
      simp only [placed, List.getElem?_cons_succ] at ht hu
      exact ih ht hu

/-! ### The partition -/

/-- Tokens that cut a source into consecutive pieces, from its first byte to its
last, at character boundaries. -/
structure Partition (source : String) (ts : List Token) : Prop where
  nonempty : ∀ t ∈ ts, t.text ≠ "" ∧ t.start.offset < t.stop.offset
  boundary : ∀ t ∈ ts, (⟨t.start.offset⟩ : String.Pos.Raw).IsValid source ∧
    (⟨t.stop.offset⟩ : String.Pos.Raw).IsValid source
  sliced : ∀ t ∈ ts, ∃ before after, source = before ++ t.text ++ after ∧
    before.utf8ByteSize = t.start.offset ∧ (before ++ t.text).utf8ByteSize = t.stop.offset
  first : ∀ t, ts.head? = some t → t.start.offset = 0
  chained : ∀ i t u, ts[i]? = some t → ts[i + 1]? = some u → u.start.offset = t.stop.offset
  last : ∀ t, ts.getLast? = some t → t.stop.offset = source.utf8ByteSize
  empty_iff : ts = [] ↔ source = ""
  joined : String.join (ts.map Token.text) = source

theorem tokenize_joined (d : Dialect) (source : String) :
    String.join ((tokenize d source).map Token.text) = source := by
  apply String.toList_inj.mp
  rw [String.toList_join, List.flatMap_map]
  exact tokenize_texts d source

theorem tokenize_nonempty (d : Dialect) (source : String) :
    ∀ t ∈ tokenize d source, t.text ≠ "" := by
  intro t ht
  have hm : t.text ∈ (tokenize d source).map Token.text := List.mem_map_of_mem ht
  rw [tokenize, placed_texts] at hm
  obtain ⟨l, hl, he⟩ := List.mem_map.mp hm
  exact he ▸ lexemes_nonempty d source l hl

/-- The text around a token, with the byte lengths that its two offsets are. -/
theorem tokenize_sliced {d : Dialect} {source : String} {xs ys : List Token} {t : Token}
    (h : tokenize d source = xs ++ t :: ys) :
    ∃ before after, source = before ++ t.text ++ after ∧
      before = String.join (xs.map Token.text) ∧ after = String.join (ys.map Token.text) ∧
      before.utf8ByteSize = t.start.offset ∧ (before ++ t.text).utf8ByteSize = t.stop.offset := by
  obtain ⟨hs, he⟩ := placed_append_cons h
  have hoffset : t.start.offset = (String.join (xs.map Token.text)).utf8ByteSize := by
    rw [hs, Place.past_offset, ← byteLength_toList, String.toList_join, List.flatMap_map]
    simp [Place.origin]
  refine ⟨_, _, ?_, rfl, rfl, hoffset.symm, ?_⟩
  · rw [← tokenize_joined d source, h]
    simp [String.join_append, String.join_cons, String.append_assoc]
  · rw [he, Place.past_offset, byteLength_toList, hoffset, String.utf8ByteSize_append]

theorem tokenize_eq_nil_iff (d : Dialect) (source : String) :
    tokenize d source = [] ↔ source = "" := by
  constructor
  · intro h
    have hj := tokenize_joined d source
    rw [h] at hj
    simpa using hj.symm
  · rintro rfl
    simp [tokenize, lexemes, lex, resolve, placed]

theorem tokenize_partition (d : Dialect) (source : String) :
    Partition source (tokenize d source) ∧
      ∀ elements before stack c r, (read elements before stack c r).rest <:+ r ∧
        ∃ l before' stack',
          lex elements before stack (c :: r) =
            l :: lex elements before' stack' (read elements before stack c r).rest ∧
          l.text ≠ "" ∧ c :: r = l.text.toList ++ (read elements before stack c r).rest := by
  refine ⟨⟨?_, ?_, ?_, ?_, ?_, ?_, tokenize_eq_nil_iff d source, tokenize_joined d source⟩,
    lex_cons⟩
  · intro t ht
    have hne := tokenize_nonempty d source t ht
    obtain ⟨xs, ys, h⟩ := List.append_of_mem ht
    obtain ⟨before, after, -, -, -, hs, he⟩ := tokenize_sliced h
    have hp : t.text.utf8ByteSize ≠ 0 := fun h0 => hne (String.utf8ByteSize_eq_zero_iff.mp h0)
    rw [String.utf8ByteSize_append] at he
    exact ⟨hne, by omega⟩
  · intro t ht
    obtain ⟨xs, ys, h⟩ := List.append_of_mem ht
    obtain ⟨before, after, hsrc, -, -, hs, he⟩ := tokenize_sliced h
    constructor
    · exact String.Pos.Raw.isValid_iff_exists_append.mpr
        ⟨before, t.text ++ after, by rw [hsrc, String.append_assoc], by rw [← hs]; rfl⟩
    · exact String.Pos.Raw.isValid_iff_exists_append.mpr
        ⟨before ++ t.text, after, hsrc, by rw [← he]; rfl⟩
  · intro t ht
    obtain ⟨xs, ys, h⟩ := List.append_of_mem ht
    obtain ⟨before, after, hsrc, -, -, hs, he⟩ := tokenize_sliced h
    exact ⟨before, after, hsrc, hs, he⟩
  · intro t ht
    obtain ⟨ys, h⟩ := List.head?_eq_some_iff.mp ht
    have hcut : tokenize d source = [] ++ t :: ys := h
    obtain ⟨hs, -⟩ := placed_append_cons hcut
    simp [hs, Place.origin]
  · intro i t u ht hu
    rw [placed_chained ht hu]
  · intro t ht
    obtain ⟨xs, h⟩ := List.getLast?_eq_some_iff.mp ht
    obtain ⟨before, after, hsrc, -, hafter, -, he⟩ := tokenize_sliced h
    rw [← he, hsrc, hafter]
    simp

end Retouch.Syntax
