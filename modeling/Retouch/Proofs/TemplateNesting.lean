import Mathlib.Data.List.Forall2
import Retouch.Proofs.Passage

/-! Template literals, their substitutions and braces nest to any depth. `Block` is
the syntax of such nested code, `chars` its text and `marks` the cut that is right
for it. A closing brace ends a group or goes on with a template, and the stack of
open contexts tells which, because every item leaves the stack as it found it. -/

namespace Retouch.Syntax.Nesting
open Retouch.Text

/-! ### Nested code -/

/-- A piece of a template literal that no substitution interrupts. -/
inductive ChunkPiece where
  | plain (c : Char) (h : c ∉ ['`', '\\', '$'])
  | escaped (c : Char)

def ChunkPiece.chars : ChunkPiece → List Char
  | .plain c _ => [c]
  | .escaped c => ['\\', c]

def chunkChars (chunk : List ChunkPiece) : List Char := chunk.flatMap ChunkPiece.chars

mutual

inductive Item where
  | word (w : WordText)
  | group (body : Block)
  | template (t : Template)

/-- Items with gaps between them. -/
inductive Items where
  | nil
  | last (item : Item)
  | cons (item : Item) (gap : Gap) (rest : Items)

/-- What stands in a text, in braces or in a substitution. -/
inductive Block where
  | mk (lead : Option Gap) (items : Items)

/-- A template literal, or what is left of one after a substitution. -/
inductive Template where
  | final (chunk : List ChunkPiece)
  | hole (chunk : List ChunkPiece) (body : Block) (rest : Template)

end

def leadChars : Option Gap → List Char
  | none => []
  | some g => g.chars

mutual

def Item.chars : Item → List Char
  | .word w => w.chars
  | .group body => '\x7b' :: (body.chars ++ ['\x7d'])
  | .template t => '`' :: t.chars

def Items.chars : Items → List Char
  | .nil => []
  | .last item => item.chars
  | .cons item gap rest => item.chars ++ (gap.chars ++ rest.chars)

def Block.chars : Block → List Char
  | .mk lead items => leadChars lead ++ items.chars

/-- The text after the character that the template begins or goes on with. -/
def Template.chars : Template → List Char
  | .final chunk => chunkChars chunk ++ ['`']
  | .hole chunk body rest =>
    chunkChars chunk ++ ['$', '\x7b'] ++ (body.chars ++ '\x7d' :: rest.chars)

end

/-! ### The cut -/

/-- What a stretch of nested code is. -/
inductive Role where
  | gap
  | word
  | brace
  | chunk
  deriving DecidableEq, Repr

def Role.kinds : Role → List Kind
  | gap => [.whitespace]
  | word => [.identifier, .keyword]
  | brace => [.punctuator]
  | chunk => [.template]

/-- A stretch of nested code that makes one token. -/
structure Mark where
  role : Role
  chars : List Char
  deriving DecidableEq, Repr

/-- A token for a mark has its text and one of its kinds. -/
def Mark.Fits (m : Mark) (t : Token) : Prop :=
  t.text = String.ofList m.chars ∧ t.kind ∈ m.role.kinds

def leadMarks : Option Gap → List Mark
  | none => []
  | some g => [⟨.gap, g.chars⟩]

mutual

def Item.marks : Item → List Mark
  | .word w => [⟨.word, w.chars⟩]
  | .group body => ⟨.brace, ['\x7b']⟩ :: (body.marks ++ [⟨.brace, ['\x7d']⟩])
  | .template t => t.marks '`'

def Items.marks : Items → List Mark
  | .nil => []
  | .last item => item.marks
  | .cons item gap rest => item.marks ++ ⟨.gap, gap.chars⟩ :: rest.marks

def Block.marks : Block → List Mark
  | .mk lead items => leadMarks lead ++ items.marks

/-- A chunk reaches from the character before it to the mark that ends it. -/
def Template.marks (first : Char) : Template → List Mark
  | .final chunk => [⟨.chunk, first :: (chunkChars chunk ++ ['`'])⟩]
  | .hole chunk body rest =>
    ⟨.chunk, first :: (chunkChars chunk ++ ['$', '\x7b'])⟩ :: body.marks ++ rest.marks '\x7d'

end

/-! ### Scanning it -/

/-- The lexeme of a mark, before contextual words are decided. -/
def Mark.lexeme (m : Mark) : Lexeme :=
  let text := String.ofList m.chars
  match m.role with
  | .gap => ⟨.whitespace, text⟩
  | .word => ⟨wordKind text, text⟩
  | .brace => ⟨.punctuator, text⟩
  | .chunk => ⟨.template, text⟩

theorem templateChunk_append (chunk : List ChunkPiece) (y : List Char) :
    templateChunk (chunkChars chunk ++ y) =
      ((chunkChars chunk).length + (templateChunk y).1, (templateChunk y).2) := by
  induction chunk with
  | nil => simp [chunkChars]
  | cons piece chunk ih =>
    rw [chunkChars] at ih ⊢
    cases piece with
    | plain c h =>
      simp only [List.mem_cons, List.not_mem_nil, or_false, not_or] at h
      simp only [List.flatMap_cons, ChunkPiece.chars, List.cons_append, List.nil_append]
      rw [templateChunk, ih]
      · simp only [List.length_cons]
        congr 1
        omega
      all_goals simp_all
    | escaped c =>
      simp only [List.flatMap_cons, ChunkPiece.chars, List.cons_append, List.nil_append]
      rw [templateChunk, ih]
      simp only [List.length_cons]
      congr 1
      omega

/-- The lexeme that begins or goes on with a template. -/
def chunkStep (stack : List Context) (r : List Char) : Step :=
  ⟨.template, (templateChunk r).1, if (templateChunk r).2 then .substitution :: stack else stack⟩

variable {elements : Bool} {before : Option Lexeme} {stack entry : List Context}
  {r rest : List Char}

theorem nextStep_backtick (hstack : inCode stack = true) :
    nextStep elements before stack '`' r = chunkStep stack r := by
  rw [nextStep_of_inCode hstack]
  rfl

theorem nextStep_resume :
    nextStep elements before (.substitution :: stack) '\x7d' r = chunkStep stack r := rfl

theorem nextStep_brace (hstack : inCode stack = true) :
    nextStep elements before stack '\x7b' r = ⟨.punctuator, 0, .brace :: stack⟩ := by
  rw [nextStep_of_inCode hstack]
  simp [codeStep]
  rfl

theorem nextStep_closingBrace :
    nextStep elements before (.brace :: stack) '\x7d' r = ⟨.punctuator, 0, stack⟩ := by
  simp [nextStep, codeStep]
  rfl

/-! A template begins in code with a backtick or goes on after a substitution. In
both cases the chunk is read in the same way, and `stack` is what is left open
after the last chunk. -/

theorem passage_finalChunk {first : Char}
    (hfirst : ∀ before r, nextStep elements before entry first r = chunkStep stack r)
    (chunk : List ChunkPiece) :
    Passage elements before entry (first :: (chunkChars chunk ++ ['`']))
      [⟨.template, String.ofList (first :: (chunkChars chunk ++ ['`']))⟩] stack rest := by
  refine .step ?_
  rw [hfirst, chunkStep, List.append_assoc, templateChunk_append]
  simp [templateChunk]

theorem passage_openChunk {first : Char}
    (hfirst : ∀ before r, nextStep elements before entry first r = chunkStep stack r)
    (chunk : List ChunkPiece) :
    Passage elements before entry (first :: (chunkChars chunk ++ ['$', '\x7b']))
      [⟨.template, String.ofList (first :: (chunkChars chunk ++ ['$', '\x7b']))⟩]
      (.substitution :: stack) rest := by
  refine .step ?_
  rw [hfirst, chunkStep, List.append_assoc, templateChunk_append]
  simp [templateChunk]

/-- Neither a word nor a gap can go on with this text. -/
def EndsItems (rest : List Char) : Prop :=
  rest.head?.any isNameChar = false ∧ rest.head?.any isBlank = false

theorem endsItems_brace : EndsItems ('\x7d' :: r) := ⟨rfl, rfl⟩

theorem Item.ends_gap (i : Item) : (i.chars ++ rest).head?.any isBlank = false := by
  cases i with
  | word w => exact w.ends_gap
  | group body => rfl
  | template t => rfl

theorem Items.ends_gap (is : Items) (hrest : EndsItems rest) :
    (is.chars ++ rest).head?.any isBlank = false := by
  cases is with
  | nil => exact hrest.2
  | last i => exact i.ends_gap
  | cons i gap is =>
    rw [Items.chars, List.append_assoc]
    exact i.ends_gap

-- The texts and stacks around an item change along the induction, so they are
-- bound in each statement.
mutual

theorem Item.passage (i : Item) {before : Option Lexeme} {stack : List Context}
    {rest : List Char} (hstack : inCode stack = true)
    (hrest : rest.head?.any isNameChar = false) :
    Passage elements before stack i.chars (i.marks.map Mark.lexeme) stack rest := by
  match i with
  | .word w => exact w.passage hstack hrest
  | .group body =>
    rw [Item.chars, Item.marks, List.map_cons, List.map_append]
    exact .mark (nextStep_brace hstack) (.trans (body.passage rfl endsItems_brace)
      (.mark nextStep_closingBrace .nil))
  | .template t => exact t.passage hstack (fun _ _ => nextStep_backtick hstack)

theorem Items.passage (is : Items) {before : Option Lexeme} {stack : List Context}
    {rest : List Char} (hstack : inCode stack = true) (hrest : EndsItems rest) :
    Passage elements before stack is.chars (is.marks.map Mark.lexeme) stack rest := by
  match is with
  | .nil => exact .nil
  | .last i => exact i.passage hstack hrest.1
  | .cons i gap is =>
    rw [Items.chars, Items.marks, List.map_append, List.map_cons]
    refine .trans (i.passage hstack ?_) (.trans (gap.passage hstack ?_) (is.passage hstack hrest))
    · rw [List.append_assoc]
      exact gap.ends_word
    · exact is.ends_gap hrest

theorem Block.passage (b : Block) {before : Option Lexeme} {stack : List Context}
    {rest : List Char} (hstack : inCode stack = true) (hrest : EndsItems rest) :
    Passage elements before stack b.chars (b.marks.map Mark.lexeme) stack rest := by
  match b with
  | .mk none items => exact items.passage hstack hrest
  | .mk (some gap) items =>
    rw [Block.chars, Block.marks, List.map_append]
    exact .trans (gap.passage hstack (items.ends_gap hrest)) (items.passage hstack hrest)

theorem Template.passage (t : Template) {first : Char} {before : Option Lexeme}
    {stack entry : List Context} {rest : List Char} (hstack : inCode stack = true)
    (hfirst : ∀ before r, nextStep elements before entry first r = chunkStep stack r) :
    Passage elements before entry (first :: t.chars) ((t.marks first).map Mark.lexeme) stack
      rest := by
  match t with
  | .final chunk => exact passage_finalChunk hfirst chunk
  | .hole chunk body t =>
    rw [Template.chars, Template.marks, List.map_append, List.map_cons]
    exact .trans (passage_openChunk hfirst chunk)
      (.trans (body.passage rfl endsItems_brace) (t.passage hstack fun _ _ => nextStep_resume))

end

/-! ### The tokens -/

/-- Deciding contextual words makes keywords of words only. -/
theorem Mark.resolvedKind_mem (m : Mark) (d : Dialect) (before after : Option Lexeme) :
    resolvedKind d before m.lexeme after ∈ m.role.kinds := by
  obtain ⟨role, chars⟩ := m
  cases role with
  | word =>
    simp only [resolvedKind, Mark.lexeme, wordKind, Role.kinds]
    split <;> split <;> simp
  | gap | brace | chunk => simp [resolvedKind, Mark.lexeme, Role.kinds]

theorem fits_placed (d : Dialect) (marks : List Mark) (before : Option Lexeme) (p : Place) :
    List.Forall₂ Mark.Fits marks (placed p (resolve d before (marks.map Mark.lexeme))) := by
  induction marks generalizing before p with
  | nil => exact .nil
  | cons m marks ih =>
    have htext : m.lexeme.text = String.ofList m.chars := by
      unfold Mark.lexeme
      split <;> rfl
    exact .cons ⟨htext, m.resolvedKind_mem d _ _⟩ (ih _ _)

/-- Nested code is cut at its marks, in every dialect, and it leaves the open
contexts as they are. -/
theorem tokenize_templates (d : Dialect) (code : Block) :
    List.Forall₂ Mark.Fits code.marks (tokenize d (String.ofList code.chars)) ∧
    ∀ before stack, inCode stack = true →
      openContexts d.hasElements before stack code.chars = stack := by
  refine ⟨?_, fun before stack hstack => (code.passage hstack ⟨rfl, rfl⟩).whole.2⟩
  have hscan : scan d.hasElements none [] code.chars = code.marks.map Mark.lexeme :=
    (code.passage rfl ⟨rfl, rfl⟩).whole.1
  rw [tokenize, lexemes_eq, String.toList_ofList, hscan]
  exact fits_placed d code.marks none .origin

theorem isNameChar_nil : ∀ c ∈ ([] : List Char), isNameChar c = true := List.forall_mem_nil _

/-- A group with a template whose substitution holds a group and a template. -/
def nestedBlock : Block :=
  let space : Gap := ⟨' ', [], rfl, by simp⟩
  let word (c : Char) (h : isNameStart c = true) : Item := .word ⟨c, [], h, isNameChar_nil⟩
  let inner : Template := .hole [.escaped '`'] (.mk none (.last (word 'c' rfl))) (.final [])
  .mk none (.last (.group (.mk (some space)
    (.cons (.template (.hole [.plain '\x7d' (by decide)]
      (.mk none (.cons (.group (.mk none (.last (word 'b' rfl)))) space
        (.last (.template inner))))
      (.final [])))
    space .nil))))

theorem tokenize_templates_nested :
    String.ofList nestedBlock.chars = "\x7b `\x7d$\x7b\x7bb\x7d `\\`$\x7bc\x7d`\x7d` \x7d" ∧
    nestedBlock.marks.map (String.ofList ·.chars) =
      ["\x7b", " ", "`\x7d$\x7b", "\x7b", "b", "\x7d", " ", "`\\`$\x7b", "c", "\x7d`", "\x7d`", " ",
        "\x7d"] ∧
    List.Forall₂ Mark.Fits nestedBlock.marks
      (tokenize .tsx (String.ofList nestedBlock.chars)) ∧
    inCode [.container, .children] = true ∧
    openContexts true none [.container, .children] nestedBlock.chars = [.container, .children] :=
  ⟨rfl, rfl, (tokenize_templates .tsx nestedBlock).1, rfl,
    (tokenize_templates .tsx nestedBlock).2 none [.container, .children] rfl⟩

end Retouch.Syntax.Nesting
