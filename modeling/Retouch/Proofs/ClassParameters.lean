import Retouch.Proofs.ClassScan

/-! Modifiers, and the parameters of constructors that have some. Before a member every
modifier goes but `static`, in whatever order they stand. Before a parameter `static`
has no meaning, and the scan for modifiers ends with it: those behind it stay. -/

namespace Retouch.Erase
open Syntax Code Token

/-! ### Modifiers -/

/-- Modifiers that only the type system knows. -/
def typeModifiers : List String :=
  ["public", "private", "protected", "readonly", "abstract", "override"]

def IsModifier (m : Token) : Prop := ∃ s ∈ "static" :: typeModifiers, m.IsWord s

instance (m : Token) : Decidable (IsModifier m) := inferInstanceAs (Decidable (∃ _ ∈ _, _))

/-- Whether a modifier means something when the program runs. -/
def isStatic (m : Token) : Bool := m.text = "static"

/-- Modifiers without those of the type system. -/
def typedLead (ms : List Token) : List Piece := ms.map fun m => ⟨m, !isStatic m⟩

/-- What is left of the modifiers of a parameter. -/
def leftLead (ms : List Token) : List Piece :=
  hide (ms.takeWhile (!isStatic ·)) ++ mark false (ms.dropWhile (!isStatic ·))

@[simp] theorem tokensOf_typedLead (ms : List Token) : tokensOf (typedLead ms) = ms := by
  simp [tokensOf, typedLead, Function.comp_def]

@[simp] theorem tokensOf_leftLead (ms : List Token) : tokensOf (leftLead ms) = ms := by
  have hfront := tokensOf_hide (ms.takeWhile (!isStatic ·))
  have hback := tokensOf_mark false (ms.dropWhile (!isStatic ·))
  simp only [tokensOf, leftLead, List.map_append] at hfront hback ⊢
  rw [hfront, hback, List.takeWhile_append_dropWhile]

/-- The modifiers go as they should when none of the type system stands behind
`static`. -/
theorem leftLead_eq_iff (ms : List Token) :
    leftLead ms = typedLead ms ↔ ∀ m ∈ ms.dropWhile (!isStatic ·), isStatic m = true := by
  have hfront : typedLead (ms.takeWhile (!isStatic ·)) = hide (ms.takeWhile (!isStatic ·)) := by
    refine List.map_inj_left.mpr fun m hm => ?_
    rw [List.mem_takeWhile_imp hm]
  have happend : typedLead ms = hide (ms.takeWhile (!isStatic ·)) ++
      typedLead (ms.dropWhile (!isStatic ·)) := by
    rw [← hfront, typedLead, typedLead, typedLead, ← List.map_append,
      List.takeWhile_append_dropWhile]
  rw [happend, leftLead, List.append_cancel_left_eq, mark, typedLead, List.map_inj_left]
  simp

/-! ### Parameters -/

structure Parameter where
  lead : List Token
  name : Token
  marker : List Token
  colon : Token
  type : List Token
  isLead : ∀ m ∈ lead, IsModifier m
  isPlain : name.IsPlain
  isMarker : marker = [] ∨ ∃ q, marker = [q] ∧ q.IsPunct "?"
  isColon : colon.IsPunct ":"
  isType : IsType .whole 0 type

/-- A parameter without its type. -/
def Parameter.pieces (lead : List Token → List Piece) (x : Parameter) : List Piece :=
  lead x.lead ++ keep x.name :: hide (x.marker ++ x.colon :: x.type)

inductive Parameters where
  | none
  | last (x : Parameter)
  | more (x : Parameter) (comma : Token) (isComma : comma.IsPunct ",") (rest : Parameters)

namespace Parameters

def toList : Parameters → List Parameter
  | none => []
  | last x => [x]
  | more x _ _ rest => x :: rest.toList

def pieces (lead : List Token → List Piece) : Parameters → List Piece
  | none => []
  | last x => x.pieces lead
  | more x comma _ rest => x.pieces lead ++ keep comma :: rest.pieces lead

end Parameters

def Parameter.tokens (x : Parameter) : List Token :=
  x.lead ++ x.name :: (x.marker ++ x.colon :: x.type)

def Parameters.tokens : Parameters → List Token
  | none => []
  | last x => x.tokens
  | more x comma _ rest => x.tokens ++ comma :: rest.tokens

section
variable {lead : List Token → List Piece} (hlead : ∀ ms, tokensOf (lead ms) = ms)
include hlead

theorem Parameter.tokensOf_pieces (x : Parameter) : tokensOf (x.pieces lead) = x.tokens := by
  have hfront := hlead x.lead
  have hback := tokensOf_hide (x.marker ++ x.colon :: x.type)
  simp only [tokensOf, Parameter.pieces, Parameter.tokens, List.map_append, List.map_cons]
    at hfront hback ⊢
  rw [hfront, hback]
  rfl

theorem Parameters.tokensOf_pieces (xs : Parameters) : tokensOf (xs.pieces lead) = xs.tokens := by
  induction xs with
  | none => rfl
  | last x => exact x.tokensOf_pieces hlead
  | more x comma _ rest ih =>
    have hx := x.tokensOf_pieces hlead
    simp only [tokensOf, pieces, tokens, List.map_append, List.map_cons] at hx ih ⊢
    rw [hx, ih]
    rfl

end

theorem Parameter.pieces_eq_iff (x : Parameter) : x.pieces leftLead = x.pieces typedLead ↔
    ∀ m ∈ x.lead.dropWhile (!isStatic ·), isStatic m = true := by
  rw [← leftLead_eq_iff, Parameter.pieces, Parameter.pieces, List.append_cancel_right_eq]

theorem Parameters.pieces_eq_iff (xs : Parameters) : xs.pieces leftLead = xs.pieces typedLead ↔
    ∀ x ∈ xs.toList, ∀ m ∈ x.lead.dropWhile (!isStatic ·), isStatic m = true := by
  induction xs with
  | none => simp [pieces, toList]
  | last x => simpa [pieces, toList] using x.pieces_eq_iff
  | more x comma _ rest ih =>
    have hlen : (x.pieces leftLead).length = (x.pieces typedLead).length := by
      rw [length_of_tokensOf (x.tokensOf_pieces tokensOf_leftLead),
        length_of_tokensOf (x.tokensOf_pieces tokensOf_typedLead)]
    rw [toList, List.forall_mem_cons, ← ih, ← x.pieces_eq_iff, pieces, pieces]
    refine ⟨fun h => ?_, fun ⟨hx, hrest⟩ => by rw [hx, hrest]⟩
    obtain ⟨hx, hrest⟩ := List.append_inj h hlen
    exact ⟨hx, (List.cons.inj hrest).2⟩

/-! ### Modifiers in the pass -/

variable {c : Code} {p close : Nat} {m n : Token} {ms ts rest : List Token}

theorem IsModifier.isName (h : IsModifier m) (hf : c.From p (m :: rest)) : c.isName p = true := by
  obtain ⟨s, -, hm⟩ := h
  rcases hm.1 with hk | hk <;> simp [hf.isName, hk]

theorem IsModifier.solid (h : IsModifier m) : ¬ m.kind.IsLoose := by
  obtain ⟨s, -, hm⟩ := h
  exact hm.solid

theorem IsModifier.text {words : List String} (h : IsModifier m)
    (hw : ∀ s ∈ "static" :: typeModifiers, s ∉ words) : m.text ∉ words := by
  obtain ⟨s, hs, hm⟩ := h
  rw [hm.2]
  exact hw s hs

theorem IsModifier.mem_modifiers (h : IsModifier m) (hs : isStatic m = false) :
    m.text ∈ modifiers := by
  obtain ⟨s, hmem, hm⟩ := h
  have hne : m.text ≠ "static" := by simpa [isStatic] using hs
  have hsub : ∀ s ∈ "static" :: typeModifiers, s ≠ "static" → s ∈ modifiers := by decide
  rw [hm.2] at hne ⊢
  exact hsub s hmem hne

/-- A modifier that is kept, before another one or the name. -/
theorem IsModifier.quiet (h : IsModifier m) (hf : c.From p (m :: n :: rest))
    (hn : n.text ≠ "class") : c.Quiet p := by
  have htext : m.text ∉ ["as", "satisfies", "const", "let", "var", "class"] ++ declarationWords :=
    h.text (by decide)
  have hclass : c.word (p + 1) "class" = false := word_eq_false (by rwa [hf.tail.text])
  rw [← hf.text] at htext
  refine quiet_name (h.isName hf)
    (typeStatementLast_eq_none fun _ hm => htext (List.mem_append_right _ hm))
    (fun hm => absurd hm fun hm => htext ?_) ?_
  · simp only [List.mem_cons, List.not_mem_nil, or_false] at hm
    rcases hm with hm | hm <;> rw [hm] <;> decide
  · unfold wordSpans
    split
    · simp [hclass]
    all_goals simp_all [declarationWords]

/-- What can stand behind a modifier. -/
def Leads (n : Token) : Prop := IsModifier n ∨ n.IsPlain

theorem Leads.isName (h : Leads n) (hf : c.From p (n :: rest)) : c.isName p = true := by
  rcases h with h | h
  · exact h.isName hf
  · simp [hf.isName, h.1]

theorem Leads.text_ne_class (h : Leads n) : n.text ≠ "class" := by
  rcases h with h | h
  · exact fun he => (h.text (by decide) : n.text ∉ ["class"]) (by simp [he])
  · exact fun he => (h.notMem (by decide) : n.text ∉ ["class"]) (by simp [he])

theorem leads_head (rest : List Token) (hms : ∀ m ∈ ms, IsModifier m) (hn : n.IsPlain) :
    ∃ u us, ms ++ n :: rest = u :: us ∧ Leads u := by
  cases ms with
  | nil => exact ⟨n, rest, rfl, .inr hn⟩
  | cons m ms => exact ⟨m, _, rfl, .inl (hms m (by simp))⟩

theorem crosses_lead (hf : c.From p (ms ++ n :: rest)) (hms : ∀ m ∈ ms, IsModifier m)
    (hn : n.IsPlain) : c.Crosses p (mark false ms) fun _ => false := by
  induction ms generalizing p with
  | nil => exact .nil
  | cons m ms ih =>
    have hms' : ∀ m ∈ ms, IsModifier m := fun u hu => hms u (by simp [hu])
    have hrest := ih hf.tail hms'
    obtain ⟨u, us, hhead, hu⟩ := leads_head rest hms' hn
    rw [List.cons_append, hhead] at hf
    exact .cons (hf.crosses_keep rfl ((hms m (by simp)).quiet hf hu.text_ne_class)) hrest

/-! ### Parameters in the scan -/

theorem modifiersEnd_eq (hf : c.From p (ms ++ n :: rest)) (hms : ∀ m ∈ ms, IsModifier m)
    (hn : n.IsPlain) : c.modifiersEnd p = p + (ms.takeWhile (!isStatic ·)).length := by
  have hstop {p : Nat} (ht : c.text p ∉ modifiers) : c.modifiersEnd p = p := by
    rw [modifiersEnd]
    simp [ht]
  induction ms generalizing p with
  | nil =>
    refine hstop ?_
    rw [hf.text]
    exact hn.notMem (by decide)
  | cons m ms ih =>
    have hms' : ∀ m ∈ ms, IsModifier m := fun u hu => hms u (by simp [hu])
    have hrest := ih hf.tail hms'
    obtain ⟨u, us, hhead, hu⟩ := leads_head rest hms' hn
    rw [List.cons_append, hhead] at hf
    have hm := hms m (by simp)
    cases hs : isStatic m with
    | true =>
      have htext : m.text = "static" := by simpa [isStatic] using hs
      rw [List.takeWhile_cons_of_neg (by simp [hs])]
      refine hstop ?_
      rw [hf.text, htext]
      decide
    | false =>
      have htext : c.text p ∈ modifiers := hf.text ▸ hm.mem_modifiers hs
      rw [List.takeWhile_cons_of_pos (by simp [hs]), end_cons, ← hrest, modifiersEnd,
        dif_pos (by simp [hm.isName hf, htext, hu.isName hf.tail])]

theorem parameterSpans_words {state : ParameterState} (hlex : c.Lexed) (hf : c.From p (ts ++ rest))
    (hts : ∀ t ∈ ts, Leads t) (hs : state ≠ .front) (hclose : p + ts.length ≤ close) :
    c.parameterSpans close p state = c.parameterSpans close (p + ts.length) state := by
  induction ts generalizing p with
  | nil => rfl
  | cons t ts ih =>
    have hspelled : t.kind.IsSpelled := by
      rcases hts t (by simp) with ⟨s, -, ht⟩ | ht
      · exact ht.1.imp id .inl
      · exact .inl ht.1
    rw [end_cons] at hclose ⊢
    rw [parameterSpans_skip (by omega) hs (hf.notMem_listMarks hlex hspelled),
      ih hf.tail (fun u hu => hts u (by simp [hu])) hclose]

/-- A marker and an annotation, erased as a whole. -/
theorem announced_typing {marker : List Token} {colon : Token}
    (hf : c.From p (marker ++ colon :: (ts ++ rest))) :
    Announced c p (hide (marker ++ colon :: ts)) (stretch p (p + marker.length) ++
      [.upTo (p + marker.length) (p + marker.length + 1 + ts.length)]) := by
  have hcolon : Announced c (p + marker.length) (hide (colon :: ts))
      [.upTo (p + marker.length) (p + marker.length + 1 + ts.length)] :=
    announced_hidden hf.append (by simp) (by rw [end_cons])
  have hmarker := announced_stretch hf
  rw [← mark_true, mark_append, mark_true, mark_true]
  exact hmarker.append (by rwa [length_hide])

theorem parameterSpans_lead {n : Nat} (hend : c.modifiersEnd p = n) (hp : p < close)
    (hthis : c.text n ≠ "this") :
    c.parameterSpans close p .front = stretch p n ++ c.parameterSpans close n .name := by
  rw [parameterSpans.eq_def, dif_pos hp]
  simp only [hend, word_eq_false hthis, Bool.false_and, Bool.false_eq_true, if_false]
  rfl

/-- One parameter, whose first modifiers are `front`, in the scan and in the pass. -/
theorem announced_parameter {front back marker type : List Token} {name colon : Token}
    (hlex : c.Lexed)
    (hf : c.From p (front ++ (back ++ name :: (marker ++ colon :: (type ++ rest)))))
    (hend : c.modifiersEnd p = p + front.length) (hback : ∀ m ∈ back, IsModifier m)
    (hname : name.IsPlain) (hmarker : marker = [] ∨ ∃ q, marker = [q] ∧ q.IsPunct "?")
    (hcolon : colon.IsPunct ":") (htype : IsType .whole 0 type) {stop : Nat}
    (hlen : stop = p + front.length + back.length + 1 + marker.length + 1 + type.length)
    (hclose : stop ≤ close) (hstop : c.text stop ∈ [",", ")"]) :
    ∃ spans, c.parameterSpans close p .front = spans ++ c.parameterSpans close stop .name ∧
      Announced c p (hide front ++ (mark false back ++ ([keep name] ++
        hide (marker ++ colon :: type)))) spans := by
  subst hlen
  have hlead := hf.append
  have hnamed := hlead.append
  have hmarked := hnamed.tail
  have hcolon' := hmarked.append
  have hjoint : c.text (p + front.length + back.length + 1 + marker.length + 1 + type.length) ∉
      typeJoints := by
    simp only [List.mem_cons, List.not_mem_nil, or_false] at hstop
    rcases hstop with h | h <;> rw [h] <;> decide
  have hend' := hcolon'.tail.typeEnd htype hjoint
  have hthis : c.text (p + front.length) ≠ "this" := by
    obtain ⟨u, us, hhead, hu⟩ := leads_head (marker ++ colon :: (type ++ rest)) hback hname
    rw [hhead] at hlead
    rw [hlead.text]
    rcases hu with hu | hu
    · exact fun he => (hu.text (by decide) : u.text ∉ ["this"]) (by simp [he])
    · exact fun he => (hu.notMem (by decide) : u.text ∉ ["this"]) (by simp [he])
  have hwords : ∀ t ∈ back ++ [name], Leads t := by
    intro t ht
    rcases List.mem_append.mp ht with ht | ht
    · exact .inl (hback t ht)
    · exact .inr (List.mem_singleton.mp ht ▸ hname)
  have hskip : c.parameterSpans close (p + front.length) .name =
      c.parameterSpans close (p + front.length + back.length + 1) .name := by
    have hlead' : c.From (p + front.length) ((back ++ [name]) ++ (marker ++ colon ::
        (type ++ rest))) := by simpa using hlead
    rw [parameterSpans_words hlex hlead' hwords (by decide) (by simp; omega), List.length_append]
    rfl
  have hquestion : c.parameterSpans close (p + front.length + back.length + 1) .name =
      stretch (p + front.length + back.length + 1)
        (p + front.length + back.length + 1 + marker.length) ++
      c.parameterSpans close (p + front.length + back.length + 1 + marker.length) .name := by
    rcases hmarker with rfl | ⟨q, rfl, hq⟩
    · simp [stretch]
    · rw [parameterSpans_question (by omega) (by rw [hmarked.text, hq.2])
        (by rw [hmarked.tail.text, hcolon.2])]
      simp [stretch]
      rfl
  have hannotated := Announced.keep_cons hnamed (hnamed.quiet_plain hname)
    (announced_typing hmarked)
  have hkept := (Announced.none (crosses_lead hlead hback hname)).append
    (by rw [length_mark]; exact hannotated)
  have hall := (announced_stretch hf).append (by rw [length_hide]; exact hkept)
  refine ⟨_, ?_, hall⟩
  rw [parameterSpans_lead hend (by omega) hthis, hskip, hquestion,
    parameterSpans_colon (by omega) (by rw [hcolon'.text, hcolon.2]), hend']
  simp

theorem Parameter.announced (x : Parameter) (close : Nat) (hlex : c.Lexed)
    (hf : c.From p (x.tokens ++ rest)) (hclose : p + x.tokens.length ≤ close)
    (hstop : c.text (p + x.tokens.length) ∈ [",", ")"]) :
    ∃ spans, c.parameterSpans close p .front =
        spans ++ c.parameterSpans close (p + x.tokens.length) .name ∧
      Announced c p (x.pieces leftLead) spans := by
  have hf' : c.From p (x.lead ++ x.name :: (x.marker ++ x.colon :: (x.type ++ rest))) := by
    simpa [Parameter.tokens] using hf
  have hend := modifiersEnd_eq hf' x.isLead x.isPlain
  have hback : ∀ m ∈ x.lead.dropWhile (!isStatic ·), IsModifier m := fun m hm =>
    x.isLead m ((List.dropWhile_sublist _).subset hm)
  have hpieces : x.pieces leftLead = hide (x.lead.takeWhile (!isStatic ·)) ++
      (mark false (x.lead.dropWhile (!isStatic ·)) ++ ([keep x.name] ++
        hide (x.marker ++ x.colon :: x.type))) := by simp [Parameter.pieces, leftLead]
  have hlen : p + x.tokens.length = p + (x.lead.takeWhile (!isStatic ·)).length +
      (x.lead.dropWhile (!isStatic ·)).length + 1 + x.marker.length + 1 + x.type.length := by
    have hcut := congrArg List.length
      (List.takeWhile_append_dropWhile (p := (!isStatic ·)) (l := x.lead))
    rw [List.length_append] at hcut
    simp [Parameter.tokens]
    omega
  rw [← List.takeWhile_append_dropWhile (p := (!isStatic ·)) (l := x.lead),
    List.append_assoc] at hf'
  rw [hpieces]
  exact announced_parameter hlex hf' hend hback x.isPlain x.isMarker x.isColon x.isType hlen hclose
    hstop

theorem Parameters.announced (xs : Parameters) (hlex : c.Lexed)
    (hf : c.From p (xs.tokens ++ rest)) (hclose : p + xs.tokens.length = close)
    (hstop : c.text close = ")") :
    Announced c p (xs.pieces leftLead) (c.parameterSpans close p .front) := by
  induction xs generalizing p with
  | none =>
    obtain rfl : p = close := hclose
    rw [parameterSpans_close]
    exact .none .nil
  | last x =>
    have hclose' : p + x.tokens.length = close := hclose
    obtain ⟨spans, he, ha⟩ := x.announced close hlex hf (by omega)
      (by rw [hclose', hstop]; decide)
    rw [hclose', parameterSpans_close, List.append_nil] at he
    rwa [he]
  | more x comma hcomma xs ih =>
    replace hf : c.From p (x.tokens ++ comma :: (xs.tokens ++ rest)) := by
      simpa [Parameters.tokens] using hf
    have hclose' : p + x.tokens.length + 1 + xs.tokens.length = close := by
      rw [← hclose]
      simp [Parameters.tokens]
      omega
    have hnext := hf.append
    obtain ⟨spans, he, ha⟩ := x.announced close hlex hf (by omega)
      (by rw [hnext.text, hcomma.2]; decide)
    have hrest := ih hnext.tail hclose'
    have hlen := length_of_tokensOf (x.tokensOf_pieces tokensOf_leftLead)
    rw [he, parameterSpans_comma (by omega) (by decide) (by rw [hnext.text, hcomma.2])]
    refine ha.append ?_
    rw [hlen]
    exact .keep_cons hnext (hcomma.idle.quiet hnext) hrest

/-! ### Brackets -/

theorem balanced_lead (hms : ∀ m ∈ ms, IsModifier m) : Balanced ms := by
  induction ms with
  | nil => exact .nil
  | cons m ms ih =>
    exact .cons (Plain.balanced_solid (hms m (by simp)).solid) (ih fun u hu => hms u (by simp [hu]))

theorem Parameter.balanced (x : Parameter) : Balanced x.tokens := by
  have hmarker : Balanced x.marker := by
    rcases x.isMarker with h | ⟨q, h, hq⟩ <;> rw [h]
    · exact .nil
    · exact hq.balanced
  exact (balanced_lead x.isLead).append (.cons x.isPlain.inert.balanced
    (hmarker.append (.cons x.isColon.balanced x.isType.scanned.balanced)))

theorem Parameters.balanced (xs : Parameters) : Balanced xs.tokens := by
  induction xs with
  | none => exact .nil
  | last x => exact x.balanced
  | more x _ hcomma _ ih => exact x.balanced.append (.cons hcomma.balanced ih)

end Retouch.Erase
