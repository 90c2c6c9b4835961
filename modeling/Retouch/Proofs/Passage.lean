import Retouch.Proofs.Lockstep

/-! Stretches of a text that are scanned from end to end. A passage says which
lexemes a stretch is cut into and which contexts are open after it, whatever
follows it; passages one after the other make a passage, so that the scan of a
nested text is put together along its nesting. -/

namespace Retouch.Syntax
open Retouch.Text

/-- The contexts that are open at the end of a text. -/
def openContexts (elements : Bool) (before : Option Lexeme) (stack : List Context) :
    List Char → List Context
  | [] => stack
  | c :: r =>
    let s := nextStep elements before stack c r
    let l : Lexeme := ⟨s.kind, String.ofList (c :: r.take s.more)⟩
    openContexts elements (lastSignificant before l) s.stack (r.drop s.more)
termination_by cs => cs.length
decreasing_by
  simp only [List.length_drop, List.length_cons]
  omega

/-- Before `rest`, the text `cs` is cut into the lexemes `ls`, and the contexts of
`stack'` are open after it. -/
structure Passage (elements : Bool) (before : Option Lexeme) (stack : List Context)
    (cs : List Char) (ls : List Lexeme) (stack' : List Context) (rest : List Char) : Prop where
  lexemes : scan elements before stack (cs ++ rest) =
    ls ++ scan elements (ls.foldl lastSignificant before) stack' rest
  contexts : openContexts elements before stack (cs ++ rest) =
    openContexts elements (ls.foldl lastSignificant before) stack' rest

variable {elements : Bool} {before : Option Lexeme} {stack stack' stack'' outer : List Context}
  {cs ds r y rest : List Char} {ls ms : List Lexeme} {c : Char} {k : Kind}

namespace Passage

theorem nil : Passage elements before stack [] [] stack rest := ⟨rfl, rfl⟩

theorem trans (h₁ : Passage elements before stack cs ls stack' (ds ++ rest))
    (h₂ : Passage elements (ls.foldl lastSignificant before) stack' ds ms stack'' rest) :
    Passage elements before stack (cs ++ ds) (ls ++ ms) stack'' rest where
  lexemes := by
    rw [List.append_assoc, h₁.lexemes, h₂.lexemes, List.append_assoc, List.foldl_append]
  contexts := by rw [List.append_assoc, h₁.contexts, h₂.contexts, List.foldl_append]

/-- One lexeme is a passage. -/
theorem step (h : nextStep elements before stack c (r ++ rest) = ⟨k, r.length, stack'⟩) :
    Passage elements before stack (c :: r) [⟨k, String.ofList (c :: r)⟩] stack' rest where
  lexemes := by
    rw [List.cons_append, scan, h]
    simp
  contexts := by
    rw [List.cons_append, openContexts, h]
    simp

/-- A mark of one character, and a passage after it. -/
theorem mark (h : nextStep elements before stack c (ds ++ rest) = ⟨.punctuator, 0, stack'⟩)
    (h' : Passage elements (some ⟨.punctuator, String.ofList [c]⟩) stack' ds ms stack'' rest) :
    Passage elements before stack (c :: ds) (⟨.punctuator, String.ofList [c]⟩ :: ms) stack'' rest :=
  trans (step (r := []) h) h'

/-- A passage that ends the text. -/
theorem whole (h : Passage elements before stack cs ls stack' []) :
    scan elements before stack cs = ls ∧ openContexts elements before stack cs = stack' := by
  have hl := h.lexemes
  have hc := h.contexts
  rw [List.append_nil, scan, List.append_nil] at hl
  rw [List.append_nil, openContexts] at hc
  exact ⟨hl, hc⟩

end Passage

/-! ### Words and gaps -/

/-- A character that begins names, and characters that continue them. -/
structure WordText where
  first : Char
  more : List Char
  isNameStart_first : isNameStart first = true
  isNameChar_more : ∀ x ∈ more, isNameChar x = true

def WordText.chars (w : WordText) : List Char := w.first :: w.more

/-- A run of blanks. -/
structure Gap where
  first : Char
  more : List Char
  isBlank_first : isBlank first = true
  isBlank_more : ∀ x ∈ more, isBlank x = true

def Gap.chars (g : Gap) : List Char := g.first :: g.more

theorem WordText.passage (w : WordText) (hstack : inCode stack = true)
    (hrest : rest.head?.any isNameChar = false) :
    Passage elements before stack w.chars
      [⟨wordKind (String.ofList w.chars), String.ofList w.chars⟩] stack rest :=
  .step (nextStep_word hstack w.isNameStart_first w.isNameChar_more hrest)

theorem Gap.passage (g : Gap) (hstack : inCode stack = true)
    (hrest : rest.head?.any isBlank = false) :
    Passage elements before stack g.chars [⟨.whitespace, String.ofList g.chars⟩] stack rest := by
  refine .step ?_
  rw [nextStep_of_inCode hstack, codeStep, if_pos g.isBlank_first,
    run_append_eq.mpr ⟨g.isBlank_more, hrest⟩]

theorem Gap.ends_word (g : Gap) : (g.chars ++ y).head?.any isNameChar = false := by
  refine Bool.eq_false_iff.mpr fun h => ?_
  have hb := isBlank_of_isNameChar h
  rw [g.isBlank_first] at hb
  cases hb

theorem WordText.ends_gap (w : WordText) : (w.chars ++ y).head?.any isBlank = false :=
  isBlank_of_isNameStart w.isNameStart_first

end Retouch.Syntax
