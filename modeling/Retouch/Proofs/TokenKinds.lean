import Retouch.Proofs.FadedScan
import Retouch.Proofs.LexicalShapes

/-! The kind of a token tells what its text is. One step of the scanner cuts off a text of
the shape that belongs to the kind it names, in code, inside a tag and among the children
of an element; so every lexeme of a text has its shape, with what is open in front of it.
Deciding the contextual words turns names into keywords and leaves all else as it is. -/

namespace Retouch.Syntax
open Retouch.Text

/-! ### Shapes by kind -/

/-- Whether a lexeme begins inside a tag. -/
def inTag : List Context → Bool
  | .tag _ :: _ => true
  | _ => false

/-- A mark of code is the longest operator that stands there, or one character where none
does. Elsewhere it is one character, or the end of a tag without children. -/
def IsPunctuator (stack : List Context) (text rest : List Char) : Prop :=
  if inCode stack then
    IsLongest (String.ofList text) (text ++ rest) ∨
      (∃ c, text = [c]) ∧ ∀ op ∈ operators, ¬ Stands op (text ++ rest)
  else (∃ c, text = [c]) ∨ inTag stack = true ∧ text = ['/', '>']

/-- A character of the text between tags. -/
def isChildText (c : Char) : Bool := c != '<' && c != '\x7b'

/-- What a token of a kind is, where the contexts of `stack` are open in front of it and
`rest` follows it. -/
def HasShape (d : Dialect) (stack : List Context) (text rest : List Char) : Kind → Prop
  | .whitespace => Munch isBlank isBlank text rest
  | .comment => IsComment text rest
  | .identifier => Munch isNameStart isNameChar text rest ∧ String.ofList text ∉ reserved
  | .keyword => Munch isNameStart isNameChar text rest ∧
      (String.ofList text ∈ reserved ∨ d.isContextual (String.ofList text) = true)
  | .number => text.head?.any (fun c => isDigit c || c == '.') = true
  | .string => if inTag stack then IsAttribute text rest else IsString text rest
  | .template => IsChunk text rest
  | .regex => text.head? = some '/'
  | .punctuator => IsPunctuator stack text rest
  | .jsxIdentifier => Munch isNameStart (fun c => isNameChar c || c == '-') text rest
  | .jsxText => Munch isChildText isChildText text rest ∧ ∃ c ∈ text, isBlank c = false

/-! ### One step -/

/-- A step from the character `c` before `r` takes what its kind says. -/
def Step.Sound (s : Step) (d : Dialect) (stack : List Context) (c : Char) (r : List Char) : Prop :=
  HasShape d stack (c :: r.take s.more) (r.drop s.more) s.kind

section
variable {d : Dialect} {elements : Bool} {before : Option Lexeme} {stack outer : List Context}
  {closing : Bool} {c : Char} {r : List Char}

theorem Step.Sound.ite {p : Prop} [Decidable p] {x y : Step} (hx : p → x.Sound d stack c r)
    (hy : ¬ p → y.Sound d stack c r) : (if p then x else y).Sound d stack c r := by
  split
  · exact hx ‹p›
  · exact hy ‹¬ p›

theorem inTag_of_inCode (h : inCode stack = true) : inTag stack = false := by
  unfold inTag
  split
  · cases h
  · rfl

theorem isPunctuator_single (h : inCode stack = true) (ho : operatorAt (c :: r) = none) :
    IsPunctuator stack [c] r := by
  rw [IsPunctuator, if_pos h]
  exact .inr ⟨⟨c, rfl⟩, operatorAt_none_iff.mp ho⟩

theorem punctuatorStep_sound (h : inCode stack = true) :
    (punctuatorStep stack c r).Sound d stack c r := by
  cases ho : operatorAt (c :: r) with
  | none =>
    rw [Erase.punctuatorStep_single ho]
    exact isPunctuator_single h ho
  | some op =>
    have hlongest := operatorAt_longest ho
    have htext := Erase.operatorAt_text ho
    rw [Erase.punctuatorStep_operator ho]
    show IsPunctuator stack (c :: r.take (op.toList.length - 1)) (r.drop (op.toList.length - 1))
    rw [IsPunctuator, if_pos h, List.cons_append, List.take_append_drop, ← htext,
      String.ofList_toList]
    exact .inl hlongest

theorem operatorAt_elementBegins (h : elementBegins before r = true) :
    operatorAt ('<' :: r) = none := by
  cases ho : operatorAt ('<' :: r) with
  | none => rfl
  | some op =>
    -- an operator would go on with a mark, and an element goes on with a name or its end
    have hop := Erase.operatorAt_text ho
    have hmark := Erase.operators_less op (Erase.operatorAt_mem ho).1 (by rw [hop]; rfl)
    rw [hop, List.tail_cons] at hmark
    have hhead : ∀ m, (r.take (op.toList.length - 1)).head? = some m → r.head? = some m := by
      intro m hm
      obtain ⟨t, ht⟩ := List.head?_eq_some_iff.mp hm
      rw [← List.take_append_drop (op.toList.length - 1) r, ht]
      rfl
    rw [Erase.elementBegins_mark (hmark.imp (hhead _) (hhead _))] at h
    cases h

theorem wordKind_sound {n : Nat} {st : List Context}
    (h : Munch isNameStart isNameChar (c :: r.take n) (r.drop n)) :
    (⟨wordKind (String.ofList (c :: r.take n)), n, st⟩ : Step).Sound d stack c r := by
  unfold wordKind
  split
  · rename_i hword
    exact ⟨h, .inl hword⟩
  · rename_i hword
    exact ⟨h, hword⟩

theorem codeStep_sound (h : inCode stack = true) :
    (codeStep elements before stack c r).Sound d stack c r := by
  unfold codeStep
  refine .ite (fun hblank => munch_run hblank r) fun _ => ?_
  refine .ite (fun hline => ?_) fun _ => ?_
  · simp only [Bool.and_eq_true, decide_eq_true_eq] at hline
    obtain ⟨rfl, hslash⟩ := hline
    obtain ⟨r, rfl⟩ := List.isPrefixOf_iff_prefix.mp hslash
    exact isComment_line r
  refine .ite (fun hblock => ?_) fun _ => ?_
  · simp only [Bool.and_eq_true, decide_eq_true_eq] at hblock
    obtain ⟨rfl, hstar⟩ := hblock
    obtain ⟨r, rfl⟩ := List.isPrefixOf_iff_prefix.mp hstar
    exact isComment_block r
  refine .ite (fun hname => wordKind_sound (munch_run hname r)) fun _ => ?_
  refine .ite (fun hdigit => ?_) fun _ => ?_
  · simp only [Bool.or_eq_true, Bool.and_eq_true, decide_eq_true_eq] at hdigit
    rcases hdigit with hdigit | ⟨rfl, -⟩
    · simp [Step.Sound, HasShape, hdigit]
    · rfl
  refine .ite (fun hquote => ?_) fun _ => ?_
  · simp only [Bool.or_eq_true, decide_eq_true_eq] at hquote
    simp only [Step.Sound, HasShape, inTag_of_inCode h, Bool.false_eq_true, if_false]
    exact ⟨c, _, hquote, rfl, stringBody_quoted c r⟩
  refine .ite (fun htick => isChunk_templateChunk (.inl htick) r) fun _ => ?_
  refine .ite (fun hbrace => ?_) fun _ => ?_
  · simp only [Bool.and_eq_true, decide_eq_true_eq] at hbrace
    exact isChunk_templateChunk (.inr hbrace.1) r
  refine .ite (fun hbrace => ?_) fun _ => ?_
  · simp only [Bool.and_eq_true, decide_eq_true_eq] at hbrace
    obtain ⟨rfl, -⟩ := hbrace
    exact isPunctuator_single h (Erase.operatorAt_closing r)
  refine .ite (fun helement => ?_) fun _ => ?_
  · simp only [Bool.and_eq_true, decide_eq_true_eq] at helement
    obtain ⟨⟨rfl, -⟩, hbegins⟩ := helement
    exact isPunctuator_single h (operatorAt_elementBegins hbegins)
  refine .ite (fun hslash => ?_) fun _ => punctuatorStep_sound h
  simp only [Bool.and_eq_true, decide_eq_true_eq] at hslash
  exact congrArg some hslash.1

theorem tagStep_sound : (tagStep closing outer c r).Sound d (.tag closing :: outer) c r := by
  unfold tagStep
  refine .ite (fun hblank => munch_run hblank r) fun _ => ?_
  refine .ite (fun hblock => ?_) fun _ => ?_
  · simp only [Bool.and_eq_true, decide_eq_true_eq] at hblock
    obtain ⟨rfl, hstar⟩ := hblock
    obtain ⟨r, rfl⟩ := List.isPrefixOf_iff_prefix.mp hstar
    exact isComment_block r
  refine .ite (fun hname => munch_run hname r) fun _ => ?_
  refine .ite (fun hquote => ?_) fun _ => ?_
  · simp only [Bool.or_eq_true, decide_eq_true_eq] at hquote
    exact isAttribute_run hquote r
  refine .ite (fun _ => .inl ⟨c, rfl⟩) fun _ => ?_
  refine .ite (fun hend => ?_) fun _ => ?_
  · simp only [Bool.and_eq_true, decide_eq_true_eq] at hend
    obtain ⟨rfl, hangle⟩ := hend
    obtain ⟨r, rfl⟩ := List.isPrefixOf_iff_prefix.mp hangle
    exact .inr ⟨rfl, rfl⟩
  exact .ite (fun _ => .inl ⟨c, rfl⟩) fun _ => .inl ⟨c, rfl⟩

theorem childrenStep_sound : (childrenStep outer c r).Sound d (.children :: outer) c r := by
  unfold childrenStep
  refine .ite (fun _ => .inl ⟨c, rfl⟩) fun hopen => ?_
  refine .ite (fun _ => .inl ⟨c, rfl⟩) fun hbrace => ?_
  have htext : isChildText c = true := by simp [isChildText, hopen, hbrace]
  have hmunch : Munch isChildText isChildText (c :: r.take (run isChildText r))
      (r.drop (run isChildText r)) := munch_run htext r
  show HasShape d _ (c :: r.take (run isChildText r)) (r.drop (run isChildText r))
    (if (c :: r.take (run isChildText r)).all isBlank then .whitespace else .jsxText)
  split
  · rename_i hblank
    rw [List.all_eq_true] at hblank
    refine ⟨hblank c List.mem_cons_self, fun x hx => hblank x (List.mem_of_mem_tail hx), ?_⟩
    -- what ends the text is a mark and no blank
    cases hrest : r.drop (run isChildText r) with
    | nil => rfl
    | cons m rest =>
      have hstop := hmunch.stop
      rw [hrest] at hstop
      simp only [isChildText, List.head?_cons, Option.any_some, Bool.and_eq_false_iff,
        bne_eq_false_iff_eq] at hstop
      rcases hstop with rfl | rfl <;> rfl
  · rename_i hblank
    obtain ⟨x, hx, hnot⟩ := List.all_eq_false.mp (Bool.eq_false_iff.mpr hblank)
    exact ⟨hmunch, x, hx, Bool.eq_false_iff.mpr hnot⟩

/-- One step of the scanner, whatever is open. -/
theorem nextStep_sound : (nextStep elements before stack c r).Sound d stack c r := by
  match stack with
  | .tag closing :: outer => exact tagStep_sound
  | .children :: outer => exact childrenStep_sound
  | [] | .brace :: _ | .substitution :: _ | .container :: _ => exact codeStep_sound rfl

/-! ### The whole text -/

/-- The contexts that are open in front of the lexeme with a given index. -/
def contextsAt (elements : Bool) : Nat → Option Lexeme → List Context → List Char → List Context
  | 0, _, stack, _ => stack
  | _ + 1, _, stack, [] => stack
  | n + 1, before, stack, c :: r =>
    let s := read elements before stack c r
    let l : Lexeme := ⟨s.kind, String.ofList (textBefore (c :: r) s.rest)⟩
    contextsAt elements n (lastSignificant before l) s.stack s.rest

theorem contextsAt_succ (n : Nat) :
    contextsAt elements (n + 1) before stack (c :: r) =
      let s := nextStep elements before stack c r
      contextsAt elements n (lastSignificant before (s.lexeme c r)) s.stack (r.drop s.more) := by
  rw [contextsAt, read_eq]
  simp only [Step.reading, textBefore_drop]
  rfl

theorem scan_hasShape {cs : List Char} {xs ys : List Lexeme} {l : Lexeme}
    (h : scan elements before stack cs = xs ++ l :: ys) :
    HasShape d (contextsAt elements xs.length before stack cs) l.text.toList
      (ys.flatMap fun y => y.text.toList) l.kind := by
  induction xs generalizing before stack cs with
  | nil =>
    cases cs with
    | nil => simp [scan] at h
    | cons c r =>
      rw [scan, List.nil_append, List.cons.injEq] at h
      obtain ⟨rfl, rfl⟩ := h
      rw [scan_texts, String.toList_ofList]
      exact nextStep_sound
  | cons x xs ih =>
    cases cs with
    | nil => simp [scan] at h
    | cons c r =>
      rw [scan, List.cons_append, List.cons.injEq] at h
      rw [List.length_cons, contextsAt_succ]
      exact ih h.2

/-- Where there are no elements in the dialect, all of a text is code. -/
theorem contextsAt_codeOnly {n : Nat} {cs : List Char} (h : Erase.CodeOnly stack) :
    Erase.CodeOnly (contextsAt false n before stack cs) := by
  induction n generalizing before stack cs with
  | zero => exact h
  | succ n ih =>
    cases cs with
    | nil => exact h
    | cons c r =>
      rw [contextsAt_succ]
      refine ih ?_
      rw [nextStep_of_inCode h.inCode]
      exact h.codeStep

/-! ### Contextual words -/

theorem resolvedKind_hasShape {after : Option Lexeme} {l : Lexeme} {rest : List Char}
    (h : HasShape d stack l.text.toList rest l.kind) :
    HasShape d stack l.text.toList rest (resolvedKind d before l after) := by
  unfold resolvedKind
  split
  · rename_i hword
    simp only [Bool.and_eq_true, decide_eq_true_eq] at hword
    obtain ⟨⟨hname, hcontextual⟩, -⟩ := hword
    rw [hname] at h
    exact ⟨h.1, .inr (by rwa [String.ofList_toList])⟩
  · exact h

/-- A resolved lexeme is the one at its place with its kind decided. -/
theorem resolve_split {ls xs ys : List Lexeme} {l : Lexeme}
    (h : resolve d before ls = xs ++ l :: ys) :
    ∃ xs' l' ys' before' after, ls = xs' ++ l' :: ys' ∧ xs'.length = xs.length ∧
      ys'.map Lexeme.text = ys.map Lexeme.text ∧
      l = ⟨resolvedKind d before' l' after, l'.text⟩ := by
  induction ls generalizing before xs with
  | nil => simp [resolve] at h
  | cons l' ls ih =>
    cases xs with
    | nil =>
      rw [resolve, List.nil_append, List.cons.injEq] at h
      obtain ⟨rfl, rfl⟩ := h
      exact ⟨[], l', ls, before, firstSignificant ls, rfl, rfl, (resolve_texts ..).symm, rfl⟩
    | cons x xs =>
      rw [resolve, List.cons_append, List.cons.injEq] at h
      obtain ⟨xs', k, ys', before', after, rfl, hlen, htexts, hl⟩ := ih h.2
      exact ⟨l' :: xs', k, ys', before', after, rfl, by simp [hlen], htexts, hl⟩

end

/-- Every token has the shape of its kind, with what is open in front of it and what
follows it. Without elements in the dialect no token is inside a tag. -/
theorem tokenize_shapes {d : Dialect} {source : String} {xs ys : List Token} {t : Token}
    (h : tokenize d source = xs ++ t :: ys) :
    HasShape d (contextsAt d.hasElements xs.length none [] source.toList) t.text.toList
      (ys.flatMap fun u => u.text.toList) t.kind ∧
    (d.hasElements = false →
      inTag (contextsAt d.hasElements xs.length none [] source.toList) = false) := by
  constructor
  · have hlexemes := placed_lexemes .origin (lexemes d source)
    rw [← tokenize, h, List.map_append, List.map_cons, lexemes_eq] at hlexemes
    obtain ⟨xs', l, ys', before, after, hscan, hlen, htexts, hl⟩ := resolve_split hlexemes.symm
    rw [Token.lexeme, Lexeme.mk.injEq] at hl
    have hshape := scan_hasShape (d := d) hscan
    have hrest : ys'.flatMap (fun y => y.text.toList) = ys.flatMap fun u => u.text.toList := by
      have hjoin := congrArg (List.flatMap String.toList) htexts
      simpa [List.flatMap_map, Token.lexeme] using hjoin
    rw [hlen, List.length_map, hrest] at hshape
    rw [hl.1, hl.2]
    exact resolvedKind_hasShape hshape
  · intro helements
    rw [helements]
    exact inTag_of_inCode (contextsAt_codeOnly .nil).inCode

/-- Before a digit a question mark stands alone, and the point begins the number. -/
theorem tokenize_shapes_conditional :
    tokenize .ts "a?.5" =
      [⟨.identifier, "a", ⟨0, 1, 0⟩, ⟨1, 1, 1⟩⟩] ++
        ⟨.punctuator, "?", ⟨1, 1, 1⟩, ⟨2, 1, 2⟩⟩ :: [⟨.number, ".5", ⟨2, 1, 2⟩, ⟨4, 1, 4⟩⟩] ∧
    ∀ op ∈ operators, ¬ Stands op "?.5".toList := by
  have htokens : tokenize .ts "a?.5" =
      [⟨.identifier, "a", ⟨0, 1, 0⟩, ⟨1, 1, 1⟩⟩] ++
        ⟨.punctuator, "?", ⟨1, 1, 1⟩, ⟨2, 1, 2⟩⟩ :: [⟨.number, ".5", ⟨2, 1, 2⟩, ⟨4, 1, 4⟩⟩] := by
    decide +kernel
  have hcode : inCode (contextsAt false 1 none [] "a?.5".toList) = true := by decide +kernel
  have hshape : IsPunctuator (contextsAt false 1 none [] "a?.5".toList) ['?'] ['.', '5'] :=
    (tokenize_shapes htokens).1
  rw [IsPunctuator, if_pos hcode] at hshape
  rcases hshape with hlongest | ⟨-, hnone⟩
  · exact absurd hlongest.listed (by decide)
  · exact ⟨htokens, hnone⟩

end Retouch.Syntax
