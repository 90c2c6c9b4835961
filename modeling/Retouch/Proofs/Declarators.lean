import Retouch.Proofs.IdleTokens

/-! Declarations of several variables. The visit of the keyword reads the annotation of
the first variable and no further, and no other visit looks for annotations of
variables. So the types behind the first comma stay, and a declaration loses all its
types exactly when none stands there. -/

namespace Retouch.Erase
open Syntax Code Token

/-! ### Declarations -/

/-- An annotation, or none. -/
inductive IsTyping : List Token → Prop
  | none : IsTyping []
  | typed {d ts} : IsPunct d ":" → IsNamed ts → IsTyping (d :: ts)

/-- A name or a number as initial value, or none. -/
inductive IsInitial : List Token → Prop
  | none : IsInitial []
  | value {a t} : IsPunct a "=" → t.kind = .identifier ∨ t.kind = .number → IsInitial [a, t]

structure Declarator where
  name : Token
  typing : List Token
  initial : List Token
  isPlain : name.IsPlain
  isTyping : IsTyping typing
  isInitial : IsInitial initial

/-- A variable with its annotation hidden or kept. -/
def Declarator.pieces (hidden : Bool) (b : Declarator) : List Piece :=
  keep b.name :: (mark hidden b.typing ++ mark false b.initial)

/-- Variables behind the first, each with the comma before it. -/
def laterPieces (hidden : Bool) (more : List (Token × Declarator)) : List Piece :=
  more.flatMap fun x => keep x.1 :: x.2.pieces hidden

structure Declaration where
  keyword : Token
  first : Declarator
  more : List (Token × Declarator)
  semicolon : Token
  isDeclarator : keyword.IsDeclarator
  isComma : ∀ x ∈ more, x.1.IsPunct ","
  isSemicolon : semicolon.IsPunct ";"

/-- A declaration whose first annotation is hidden; `later` says whether the others are
hidden too. -/
def Declaration.pieces (d : Declaration) (later : Bool) : List Piece :=
  keep d.keyword :: (d.first.pieces true ++ (laterPieces later d.more ++ [keep d.semicolon]))

@[simp] theorem Declarator.tokensOf_pieces (b : Declarator) (hidden : Bool) :
    tokensOf (b.pieces hidden) = b.name :: (b.typing ++ b.initial) := by
  have h := tokensOf_mark hidden b.typing
  have h' := tokensOf_mark false b.initial
  simp_all [tokensOf, Declarator.pieces]

@[simp] theorem Declarator.length_pieces (b : Declarator) (hidden : Bool) :
    (b.pieces hidden).length = 1 + (b.typing.length + b.initial.length) := by
  simp [Declarator.pieces]
  omega

theorem tokensOf_laterPieces (hidden : Bool) (more : List (Token × Declarator)) :
    tokensOf (laterPieces hidden more) =
      more.flatMap fun x => x.1 :: x.2.name :: (x.2.typing ++ x.2.initial) := by
  rw [tokensOf, laterPieces, List.map_flatMap]
  congr 1
  funext x
  exact congrArg (x.1 :: ·) (x.2.tokensOf_pieces hidden)

theorem Declaration.tokensOf_pieces (d : Declaration) (later : Bool) :
    tokensOf (d.pieces later) = tokensOf (d.pieces false) := by
  have h := tokensOf_laterPieces later d.more
  rw [← tokensOf_laterPieces false d.more] at h
  simp only [tokensOf] at h
  simp [Declaration.pieces, tokensOf, h]

theorem Declarator.pieces_eq_iff (b : Declarator) :
    b.pieces true = b.pieces false ↔ b.typing = [] := by
  constructor
  · intro h
    rw [Declarator.pieces, Declarator.pieces, List.cons.injEq] at h
    have hmark := (List.append_inj h.2 (by simp)).1
    cases ha : b.typing with
    | nil => rfl
    | cons t ts => simp [ha, mark] at hmark
  · intro h
    simp [Declarator.pieces, h]

theorem laterPieces_eq_iff (more : List (Token × Declarator)) :
    laterPieces true more = laterPieces false more ↔ ∀ x ∈ more, x.2.typing = [] := by
  unfold laterPieces
  rw [flatMap_eq_iff (by simp)]
  simp [Declarator.pieces_eq_iff]

theorem Declaration.pieces_eq_iff (d : Declaration) :
    d.pieces true = d.pieces false ↔ ∀ x ∈ d.more, x.2.typing = [] := by
  rw [← laterPieces_eq_iff, Declaration.pieces, Declaration.pieces]
  simp

/-! ### What follows a variable -/

/-- A comma or a semicolon. -/
def EndsDeclarator (t : Token) : Prop := t.IsPunct "," ∨ t.IsPunct ";"

theorem laterPieces_head {more : List (Token × Declarator)} {s : Token} (rest : List Token)
    (hidden : Bool) (hm : ∀ x ∈ more, x.1.IsPunct ",") (hs : s.IsPunct ";") :
    ∃ u us, tokensOf (laterPieces hidden more) ++ s :: rest = u :: us ∧ EndsDeclarator u := by
  cases more with
  | nil => exact ⟨s, rest, rfl, .inr hs⟩
  | cons x more => exact ⟨x.1, _, rfl, .inl (hm x (by simp))⟩

/-- Neither an annotation nor a type goes on where an initial value begins or the next
variable. -/
theorem IsInitial.head {ts : List Token} {u : Token} (h : IsInitial ts) (rest : List Token)
    (hu : EndsDeclarator u) :
    ∃ v vs, ts ++ u :: rest = v :: vs ∧ v.text ∉ ":" :: "!" :: typeJoints := by
  cases h with
  | none =>
    refine ⟨u, rest, rfl, ?_⟩
    rcases hu with hu | hu <;> rw [hu.2] <;> decide
  | value ha _ => exact ⟨_, _, rfl, by rw [ha.2]; decide⟩

/-! ### The pass -/

variable {c : Code} {p : Nat} {rest : List Token}

theorem IsInitial.crosses {ts : List Token} {u : Token} (h : IsInitial ts)
    (hf : c.From p (ts ++ u :: rest)) (hu : EndsDeclarator u) :
    c.Crosses p (mark false ts) fun _ => false := by
  cases h with
  | none => exact .nil
  | @value a t ha ht =>
    refine .cons (hf.crosses_keep rfl (ha.idle.quiet hf)) (hf.tail.crosses_keep rfl ?_)
    rcases ht with ht | ht
    · have honward : c.Onward (p + 1 + 1) := by
        rcases hu with hu | hu
        · exact hf.tail.tail.onward_punct hu (by decide) (hf.tail.tail.follow_punct hu (by decide))
        · exact hf.tail.tail.onward_punct hu (by decide) (hf.tail.tail.follow_punct hu (by decide))
      exact hf.tail.quiet_word (.inl ht) honward fun _ => hf.endsExpression_punct ha (by decide)
    · exact hf.tail.quiet_literal (.inl ht)

theorem IsTyping.idle {ts : List Token} (h : IsTyping ts) : ∀ t ∈ ts, Idle t := by
  cases h with
  | none => simp
  | typed hd ht => simpa using ⟨hd.idle, ht.idle⟩

/-- A variable behind a comma is kept with its annotation. -/
theorem Declarator.crosses (b : Declarator) {u : Token}
    (hf : c.From p (b.name :: (b.typing ++ (b.initial ++ u :: rest)))) (hu : EndsDeclarator u) :
    c.Crosses p (b.pieces false) fun _ => false := by
  refine .cons (hf.crosses_keep rfl (hf.quiet_plain b.isPlain))
    (.append (hf.tail.crosses_idle b.isTyping.idle fun _ _ _ => rfl) ?_)
  rw [length_mark]
  exact b.isInitial.crosses hf.tail.append hu

theorem crosses_later {more : List (Token × Declarator)} {s : Token}
    (hm : ∀ x ∈ more, x.1.IsPunct ",") (hs : s.IsPunct ";")
    (hf : c.From p (tokensOf (laterPieces false more) ++ s :: rest)) :
    c.Crosses p (laterPieces false more) fun _ => false := by
  induction more generalizing p with
  | nil => exact .nil
  | cons x more ih =>
    have hm' : ∀ x ∈ more, x.1.IsPunct "," := fun y hy => hm y (by simp [hy])
    have hcomma := hm x (by simp)
    replace hf : c.From p (x.1 :: (x.2.name :: (x.2.typing ++ x.2.initial)) ++
        (tokensOf (laterPieces false more) ++ s :: rest)) := by
      rw [tokensOf_laterPieces] at hf ⊢
      simpa using hf
    have hrest := ih hm' hf.append
    obtain ⟨u, us, hnext, hu⟩ := laterPieces_head rest false hm' hs
    rw [hnext] at hf
    have hname : c.From (p + 1) (x.2.name :: (x.2.typing ++ (x.2.initial ++ u :: us))) := by
      simpa using hf.tail
    have hvar := x.2.crosses hname hu
    have hfirst : c.Crosses p (keep x.1 :: x.2.pieces false) fun _ => false :=
      .cons (hf.crosses_keep rfl (hcomma.idle.quiet hf)) hvar
    refine hfirst.append ?_
    have hlen : p + (keep x.1 :: x.2.pieces false).length =
        p + (x.1 :: x.2.name :: (x.2.typing ++ x.2.initial)).length := by
      simp
      omega
    rwa [hlen]

/-- The keyword announces the annotation of the first variable. -/
theorem Declarator.covers_declaratorSpans (b : Declarator) {k v : Token} {vs : List Token}
    (hc : c.Spelt) (hf : c.From p (k :: b.name :: (b.typing ++ v :: vs)))
    (hv : v.text ∉ ":" :: "!" :: typeJoints) (i : Nat) :
    (c.declaratorSpans p).covers i = (p + 1 + 1 ≤ i && i < p + 1 + 1 + b.typing.length) := by
  have hlast : c.bindingLast (p + 1) = some (p + 1) := by
    have hbrace := hf.tail.text_ne (m := "\x7b") hc b.isPlain.solid
    have hsquare := hf.tail.text_ne (m := "[") hc b.isPlain.solid
    simp [bindingLast, hbrace, hsquare, hf.tail.kind?, b.isPlain.1]
  have hann := b.isTyping
  generalize b.typing = as at hf hann ⊢
  cases hann with
  | none =>
    have hstop : c.text (p + 1 + 1) ∉ [":", "!"] := by
      rw [hf.tail.tail.text]
      exact fun hm => hv ((by decide : ∀ w ∈ [":", "!"], w ∈ ":" :: "!" :: typeJoints) _ hm)
    rw [declaratorSpans_eq_nil hlast hstop]
    simp
  | @typed d ts hd ht =>
    have hcolon := hf.tail.tail
    have hstop : c.text (p + 1 + 1 + 1 + ts.length) ∉ typeJoints := by
      rw [hcolon.tail.append.text]
      exact fun hm => hv (by simp [hm])
    have hspans : c.declaratorSpans p = [.upTo (p + 1 + 1) (p + 1 + 1 + 1 + ts.length)] := by
      have hmark : c.punct (p + 1 + 1) ":" = true := by simp [hcolon.punct, hd.1, hd.2]
      have hbang : c.punct (p + 1 + 1) "!" = false := by simp [hcolon.punct, hd.2]
      simp [declaratorSpans, hlast, hbang, hmark, hcolon.tail.typeEnd ht.isType hstop]
    rw [hspans, covers_upTo (by omega), List.length_cons]
    congr 2
    rw [eq_iff_iff]
    omega

theorem From.visits_declarator {k : Token} (hf : c.From p (k :: rest)) (hk : k.IsDeclarator)
    (e : Erasure) : c.Visits e p (c.declaratorSpans p) (p + 1) := by
  obtain ⟨s, hs, hk⟩ := hk
  have hwords : ∀ s ∈ ["const", "let", "var"], s ∉ "as" :: "satisfies" :: declarationWords := by
    decide
  have htext : c.text p ∉ "as" :: "satisfies" :: declarationWords := by
    rw [hf.text, hk.2]
    exact hwords s hs
  have hcast : c.text p ∉ ["as", "satisfies"] := fun hm =>
    htext (List.mem_append_left declarationWords hm)
  have hspans : c.wordSpans p = some (c.declaratorSpans p) := by
    simp only [List.mem_cons, List.not_mem_nil, or_false] at hs
    rcases hs with rfl | rfl | rfl <;> simp [wordSpans, hf.text, hf.kind?, hk.1, hk.2]
  rw [Visits, map_visit (fun _ hm => htext (by simp [hm])), visitWord, hspans]
  simp [hf.isName, hk.1, hcast]

theorem Declaration.crosses (d : Declaration) (hc : c.Spelt)
    (hf : c.From p (tokensOf (d.pieces false) ++ rest)) :
    c.Crosses p (d.pieces false) fun _ => false := by
  replace hf : c.From p (d.keyword :: d.first.name :: (d.first.typing ++ (d.first.initial ++
      (tokensOf (laterPieces false d.more) ++ d.semicolon :: rest)))) := by
    have h := d.first.tokensOf_pieces true
    simp only [tokensOf] at h
    simpa [Declaration.pieces, tokensOf, h] using hf
  have hlater := crosses_later d.isComma d.isSemicolon hf.tail.tail.append.append
  have hend := hf.tail.tail.append.append.append
  obtain ⟨u, us, hnext, hu⟩ := laterPieces_head rest false d.isComma d.isSemicolon
  rw [hnext] at hf
  obtain ⟨v, vs, hvalue, hv⟩ := d.first.isInitial.head us hu
  have hinitial := d.first.isInitial.crosses hf.tail.tail.append hu
  rw [hvalue] at hf
  have hname : Announced c (p + 1) (keep d.first.name :: hide d.first.typing)
      (c.declaratorSpans p) :=
    announced_name hf.tail d.first.isPlain (d.first.covers_declaratorSpans hc hf hv)
  have hrest : c.Crosses (p + 1 + 1 + d.first.typing.length)
      (mark false d.first.initial ++ (laterPieces false d.more ++ [keep d.semicolon]))
      fun _ => false := by
    refine .append hinitial ?_
    rw [length_mark]
    refine .append hlater ?_
    rw [List.length_map] at hend
    exact hend.crosses_keep rfl (d.isSemicolon.idle.quiet hend)
  have hlen : p + 1 + (keep d.first.name :: hide d.first.typing).length =
      p + 1 + 1 + d.first.typing.length := by
    simp
    omega
  have hall := hname.append (.none (hlen ▸ hrest))
  rw [List.append_nil] at hall
  have hvisit := Announced.crosses_front hf (From.visits_declarator hf d.isDeclarator) hall
  simpa [Declaration.pieces, Declarator.pieces, mark_true] using hvisit

theorem Declaration.erasedAs (d : Declaration) {source : String} {later : Bool}
    (hs : significant (tokenize .ts source) = tokensOf (d.pieces later)) :
    ErasedAs source (d.pieces false) := by
  rw [d.tokensOf_pieces later] at hs
  exact erasedAs_of_crosses hs fun hf => d.crosses (spelt_tokenize source) hf

/-- A declaration loses the annotation of its first variable and nothing else. So it loses
every annotation exactly when no other variable has one. -/
theorem erasedAs_declaration (d : Declaration) {source : String}
    (hs : significant (tokenize .ts source) = tokensOf (d.pieces true)) :
    ErasedAs source (d.pieces false) ∧
      (ErasedAs source (d.pieces true) ↔ ∀ x ∈ d.more, x.2.typing = []) := by
  have h := d.erasedAs hs
  refine ⟨h, fun h' => d.pieces_eq_iff.mp (h'.unique h), fun hmore => ?_⟩
  rwa [d.pieces_eq_iff.mpr hmore]

def qualifiedList : String := "var a: N.T[] = 1, b = a, c;"

/-- The declaration that `qualifiedList` is. -/
def qualifiedDeclaration : Declaration where
  keyword := onFirstLine .keyword "var" 0
  first := {
    name := onFirstLine .identifier "a" 4
    typing := [onFirstLine .punctuator ":" 5, onFirstLine .identifier "N" 7,
      onFirstLine .punctuator "." 8, onFirstLine .identifier "T" 9, onFirstLine .punctuator "[" 10,
      onFirstLine .punctuator "]" 11]
    initial := [onFirstLine .punctuator "=" 13, onFirstLine .number "1" 15]
    isPlain := by decide
    isTyping := .typed ⟨rfl, rfl⟩ (@IsNamed.array [_, _] _ _ _ (.name (.dotted (.inl (by decide))
      ⟨rfl, rfl⟩ (.name (.inl (by decide))))) rfl ⟨rfl, rfl⟩ ⟨rfl, rfl⟩)
    isInitial := .value ⟨rfl, rfl⟩ (.inr rfl) }
  more := [
    (onFirstLine .punctuator "," 16, {
      name := onFirstLine .identifier "b" 18
      typing := []
      initial := [onFirstLine .punctuator "=" 20, onFirstLine .identifier "a" 22]
      isPlain := by decide
      isTyping := .none
      isInitial := .value ⟨rfl, rfl⟩ (.inl rfl) }),
    (onFirstLine .punctuator "," 23, {
      name := onFirstLine .identifier "c" 25
      typing := []
      initial := []
      isPlain := by decide
      isTyping := .none
      isInitial := .none })]
  semicolon := onFirstLine .punctuator ";" 26
  isDeclarator := ⟨"var", by decide, rfl, rfl⟩
  isComma := by simp [IsPunct, onFirstLine]
  isSemicolon := ⟨rfl, rfl⟩

theorem erasedAs_declaration_qualified :
    significant (tokenize .ts qualifiedList) = tokensOf (qualifiedDeclaration.pieces true) ∧
      ErasedAs qualifiedList (qualifiedDeclaration.pieces true) := by
  have hs : significant (tokenize .ts qualifiedList) =
      tokensOf (qualifiedDeclaration.pieces true) := by decide +kernel
  refine ⟨hs, (erasedAs_declaration _ hs).2.mpr ?_⟩
  simp [qualifiedDeclaration]

def annotatedPair : String := "let a: T, b: U;"

def annotatedDeclaration : Declaration where
  keyword := onFirstLine .keyword "let" 0
  first := {
    name := onFirstLine .identifier "a" 4
    typing := [onFirstLine .punctuator ":" 5, onFirstLine .identifier "T" 7]
    initial := []
    isPlain := by decide
    isTyping := .typed ⟨rfl, rfl⟩ (.name (.name (.inl (by decide))))
    isInitial := .none }
  more := [
    (onFirstLine .punctuator "," 8, {
      name := onFirstLine .identifier "b" 10
      typing := [onFirstLine .punctuator ":" 11, onFirstLine .identifier "U" 13]
      initial := []
      isPlain := by decide
      isTyping := .typed ⟨rfl, rfl⟩ (.name (.name (.inl (by decide))))
      isInitial := .none })]
  semicolon := onFirstLine .punctuator ";" 14
  isDeclarator := ⟨"let", by decide, rfl, rfl⟩
  isComma := by simp [IsPunct, onFirstLine]
  isSemicolon := ⟨rfl, rfl⟩

/-- The type of the second variable stays. -/
theorem not_erasedAs_annotatedPair :
    significant (tokenize .ts annotatedPair) = tokensOf (annotatedDeclaration.pieces true) ∧
      eraseTypes .ts annotatedPair = some "let a   , b: U;" ∧
      ¬ ErasedAs annotatedPair (annotatedDeclaration.pieces true) := by
  have hs : significant (tokenize .ts annotatedPair) =
      tokensOf (annotatedDeclaration.pieces true) := by decide +kernel
  have hleft := annotatedDeclaration.erasedAs hs
  refine ⟨hs, hleft.eraseTypes_eq.trans (by decide +kernel), fun h => ?_⟩
  have hmore := annotatedDeclaration.pieces_eq_iff.mp (h.unique hleft)
  simp [annotatedDeclaration] at hmore

end Retouch.Erase
