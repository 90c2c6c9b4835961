import Retouch.Proofs.Passage

/-! Elements in code, with attributes, texts, containers and elements inside
containers, nest to any depth. `Element` is their syntax, `lexemes` the cut that is
right for it and `leaves` what is left of that without blanks and marks. From the
bracket that opens an element to the one that ends it, the scanner comes back to
the contexts that were open before, whether code or the children of another
element are around it. -/

namespace Retouch.Syntax.Markup
open Retouch.Text

/-! ### Elements -/

def isTagChar (c : Char) : Bool := isNameChar c || c == '-'

/-- The name of a tag or an attribute. -/
structure TagName where
  first : Char
  more : List Char
  isNameStart_first : isNameStart first = true
  isTagChar_more : ∀ x ∈ more, isTagChar x = true

def TagName.chars (n : TagName) : List Char := n.first :: n.more

/-- A name that is no keyword anywhere. -/
structure PlainName extends WordText where
  free : String.ofList toWordText.chars ∉ reserved ++ contextual ++ typedContextual

/-- What stands between the quotes of an attribute. -/
structure AttributeText where
  chars : List Char
  quotes : '"' ∉ chars

/-- A text among children. -/
structure ChildText where
  first : Char
  more : List Char
  marks : ∀ x ∈ first :: more, x ≠ '<' ∧ x ≠ '\x7b'
  solid : (first :: more).all isBlank = false

def ChildText.chars (t : ChildText) : List Char := t.first :: t.more

mutual

inductive Element where
  /-- One tag that closes itself. -/
  | empty (name : TagName) (attributes : Attributes)
  | full (name : TagName) (attributes : Attributes) (children : Children)
  | fragment (children : Children)

inductive Attributes where
  | nil
  | text (name : TagName) (value : AttributeText) (rest : Attributes)
  | container (name : TagName) (content : Content) (rest : Attributes)

/-- What a container holds. -/
inductive Content where
  | name (n : PlainName)
  | element (e : Element)

/-- Children of an element. No text stands next to another. -/
inductive Children where
  | plain (rest : Siblings)
  | text (t : ChildText) (rest : Siblings)

/-- Children that do not begin with a text. -/
inductive Siblings where
  | nil
  | element (e : Element) (rest : Children)
  | container (content : Content) (rest : Children)

end

mutual

/-- The text of an element after its first bracket. -/
def Element.tail : Element → List Char
  | .empty name attributes => name.chars ++ (attributes.chars ++ ['/', '>'])
  | .full name attributes children => name.chars ++ (attributes.chars ++ '>' ::
      (children.chars ++ '<' :: '/' :: (name.chars ++ ['>'])))
  | .fragment children => '>' :: (children.chars ++ '<' :: ['/', '>'])

def Attributes.chars : Attributes → List Char
  | .nil => []
  | .text name value rest =>
    ' ' :: (name.chars ++ '=' :: ('"' :: (value.chars ++ ['"']) ++ rest.chars))
  | .container name content rest =>
    ' ' :: (name.chars ++ '=' :: '\x7b' :: (content.chars ++ '\x7d' :: rest.chars))

def Content.chars : Content → List Char
  | .name n => n.chars
  | .element e => '<' :: e.tail

def Children.chars : Children → List Char
  | .plain rest => rest.chars
  | .text t rest => t.chars ++ rest.chars

def Siblings.chars : Siblings → List Char
  | .nil => []
  | .element e rest => '<' :: (e.tail ++ rest.chars)
  | .container content rest => '\x7b' :: (content.chars ++ '\x7d' :: rest.chars)

end

def Element.chars (e : Element) : List Char := '<' :: e.tail

/-! ### The cut -/

def mark (c : Char) : Lexeme := ⟨.punctuator, String.ofList [c]⟩

/-- The mark that ends a tag which closes itself, and a closing tag without name. -/
def closer : Lexeme := ⟨.punctuator, String.ofList ['/', '>']⟩

def space : Lexeme := ⟨.whitespace, String.ofList [' ']⟩

/-- What an element says: its names, strings, texts and the names in its containers. -/
inductive Leaf where
  | tag (n : TagName)
  | value (v : AttributeText)
  | text (t : ChildText)
  | name (n : PlainName)

def Leaf.lexeme : Leaf → Lexeme
  | .tag n => ⟨.jsxIdentifier, String.ofList n.chars⟩
  | .value v => ⟨.string, String.ofList ('"' :: (v.chars ++ ['"']))⟩
  | .text t => ⟨.jsxText, String.ofList t.chars⟩
  | .name n => ⟨.identifier, String.ofList n.chars⟩

mutual

/-- The lexemes of an element after its first bracket. -/
def Element.tailLexemes : Element → List Lexeme
  | .empty name attributes => (Leaf.tag name).lexeme :: (attributes.lexemes ++ [closer])
  | .full name attributes children =>
    (Leaf.tag name).lexeme :: (attributes.lexemes ++ mark '>' ::
      (children.lexemes ++ [mark '<', mark '/', (Leaf.tag name).lexeme, mark '>']))
  | .fragment children => mark '>' :: (children.lexemes ++ [mark '<', closer])

def Attributes.lexemes : Attributes → List Lexeme
  | .nil => []
  | .text name value rest =>
    space :: (Leaf.tag name).lexeme :: mark '=' :: (Leaf.value value).lexeme :: rest.lexemes
  | .container name content rest =>
    space :: (Leaf.tag name).lexeme :: mark '=' :: mark '\x7b' ::
      (content.lexemes ++ mark '\x7d' :: rest.lexemes)

def Content.lexemes : Content → List Lexeme
  | .name n => [(Leaf.name n).lexeme]
  | .element e => mark '<' :: e.tailLexemes

def Children.lexemes : Children → List Lexeme
  | .plain rest => rest.lexemes
  | .text t rest => (Leaf.text t).lexeme :: rest.lexemes

def Siblings.lexemes : Siblings → List Lexeme
  | .nil => []
  | .element e rest => mark '<' :: (e.tailLexemes ++ rest.lexemes)
  | .container content rest => mark '\x7b' :: (content.lexemes ++ mark '\x7d' :: rest.lexemes)

end

def Element.lexemes (e : Element) : List Lexeme := mark '<' :: e.tailLexemes

mutual

def Element.leaves : Element → List Leaf
  | .empty name attributes => .tag name :: attributes.leaves
  | .full name attributes children =>
    .tag name :: (attributes.leaves ++ (children.leaves ++ [.tag name]))
  | .fragment children => children.leaves

def Attributes.leaves : Attributes → List Leaf
  | .nil => []
  | .text name value rest => .tag name :: .value value :: rest.leaves
  | .container name content rest => .tag name :: (content.leaves ++ rest.leaves)

def Content.leaves : Content → List Leaf
  | .name n => [.name n]
  | .element e => e.leaves

def Children.leaves : Children → List Leaf
  | .plain rest => rest.leaves
  | .text t rest => .text t :: rest.leaves

def Siblings.leaves : Siblings → List Leaf
  | .nil => []
  | .element e rest => e.leaves ++ rest.leaves
  | .container content rest => content.leaves ++ rest.leaves

end

/-! ### Lexemes of tags and children -/

section Steps
variable {before : Option Lexeme} {stack outer : List Context} {closing : Bool}
  {r rest : List Char}

theorem TagName.passage (n : TagName) (hrest : rest.head?.any isTagChar = false) :
    Passage true before (.tag closing :: outer) n.chars [(Leaf.tag n).lexeme]
      (.tag closing :: outer) rest := by
  have hslash : n.first ≠ '/' := by
    intro h
    have hstart := n.isNameStart_first
    rw [h] at hstart
    cases hstart
  have hrun : run (fun x => isNameChar x || x == '-') (n.more ++ rest) = n.more.length :=
    run_append_eq.mpr ⟨n.isTagChar_more, hrest⟩
  refine .step ?_
  rw [nextStep, tagStep, isBlank_of_isNameStart n.isNameStart_first, n.isNameStart_first, hrun]
  simp [hslash]

theorem PlainName.passage (n : PlainName) (hstack : inCode stack = true)
    (hrest : rest.head?.any isNameChar = false) :
    Passage true before stack n.chars [(Leaf.name n).lexeme] stack rest := by
  have hkind : wordKind (String.ofList n.chars) = .identifier :=
    if_neg fun h => n.free (by simp [h])
  rw [Leaf.lexeme, ← hkind]
  exact n.toWordText.passage hstack hrest

theorem passage_space (hrest : rest.head?.any isBlank = false) :
    Passage true before (.tag closing :: outer) [' '] [space] (.tag closing :: outer) rest := by
  refine .step (r := []) ?_
  have hrun : run isBlank ([] ++ rest) = 0 := run_append_eq.mpr ⟨by simp, hrest⟩
  rw [nextStep, tagStep, hrun]
  rfl

theorem AttributeText.passage (v : AttributeText) :
    Passage true before (.tag closing :: outer) ('"' :: (v.chars ++ ['"'])) [(Leaf.value v).lexeme]
      (.tag closing :: outer) rest := by
  have hrun : run (· != '"') (v.chars ++ ('"' :: rest)) = v.chars.length := by
    refine run_append_eq.mpr ⟨fun c hc => ?_, rfl⟩
    rw [bne_iff_ne]
    rintro rfl
    exact v.quotes hc
  refine .step ?_
  rw [List.append_assoc, List.length_append, ← hrun]
  rfl

theorem passage_closer :
    Passage true before (.tag closing :: outer) ['/', '>'] [closer] outer rest :=
  .step (r := ['>']) rfl

theorem ChildText.passage (t : ChildText)
    (hrest : rest.head?.any (fun x => x != '<' && x != '\x7b') = false) :
    Passage true before (.children :: outer) t.chars [(Leaf.text t).lexeme] (.children :: outer)
      rest := by
  have hmarks (x : Char) (hx : x ∈ t.more) : (x != '<' && x != '\x7b') = true := by
    obtain ⟨hless, hbrace⟩ := t.marks x (by simp [hx])
    simp [hless, hbrace]
  have hrun : run (fun x => x != '<' && x != '\x7b') (t.more ++ rest) = t.more.length :=
    run_append_eq.mpr ⟨hmarks, hrest⟩
  obtain ⟨hless, hbrace⟩ := t.marks t.first (by simp)
  refine .step ?_
  rw [nextStep, childrenStep, if_neg hless, if_neg hbrace, hrun]
  dsimp only
  rw [List.take_left, t.solid]
  rfl

theorem TagName.first_ne (n : TagName) {d : Char} (hd : isNameStart d = false) : n.first ≠ d := by
  rintro rfl
  rw [n.isNameStart_first] at hd
  cases hd

/-- A slash before a name does not end a tag. -/
theorem TagName.nextStep_slash (n : TagName) :
    nextStep true before (.tag closing :: outer) '/' (n.chars ++ r) =
      ⟨.punctuator, 0, .tag closing :: outer⟩ := by
  have hstar : ['*'].isPrefixOf (n.chars ++ r) = false := by
    simp [TagName.chars, List.isPrefixOf, (n.first_ne (d := '*') rfl).symm]
  have hangle : ['>'].isPrefixOf (n.chars ++ r) = false := by
    simp [TagName.chars, List.isPrefixOf, (n.first_ne (d := '>') rfl).symm]
  rw [nextStep, tagStep, hstar, hangle]
  rfl

/-! Marks that open and close contexts. -/

theorem nextStep_tagEnd :
    nextStep true before (.tag false :: outer) '>' r = ⟨.punctuator, 0, .children :: outer⟩ := rfl

theorem nextStep_closingTag : nextStep true before (.children :: outer) '<' ('/' :: r) =
    ⟨.punctuator, 0, .tag true :: outer⟩ := rfl

theorem nextStep_closingTagEnd :
    nextStep true before (.tag true :: outer) '>' r = ⟨.punctuator, 0, outer⟩ := rfl

theorem nextStep_attributeContainer : nextStep true before (.tag false :: outer) '\x7b' r =
    ⟨.punctuator, 0, .container :: .tag false :: outer⟩ := rfl

theorem nextStep_childContainer : nextStep true before (.children :: outer) '\x7b' r =
    ⟨.punctuator, 0, .container :: .children :: outer⟩ := rfl

theorem nextStep_containerEnd :
    nextStep true before (.container :: stack) '\x7d' r = ⟨.punctuator, 0, stack⟩ := rfl

/-- The closing tag of an element with a name. -/
theorem TagName.passage_closing (n : TagName) :
    Passage true before (.children :: outer) ('<' :: '/' :: (n.chars ++ ['>']))
      [mark '<', mark '/', (Leaf.tag n).lexeme, mark '>'] outer rest := by
  refine .mark nextStep_closingTag
    (.mark ?_ (.trans (n.passage rfl) (.mark nextStep_closingTagEnd .nil)))
  rw [List.append_assoc]
  exact n.nextStep_slash

theorem passage_closingFragment :
    Passage true before (.children :: outer) ['<', '/', '>'] [mark '<', closer] outer rest :=
  .mark nextStep_closingTag passage_closer

theorem nextStep_element (hstack : inCode stack = true) (h : elementBegins before r = true) :
    nextStep true before stack '<' r = ⟨.punctuator, 0, .tag false :: stack⟩ := by
  rw [nextStep_of_inCode hstack, codeStep, h]
  rfl

end Steps

/-! ### Where an element begins -/

theorem TagName.isTagChar_chars (n : TagName) : ∀ c ∈ n.chars, isTagChar c = true := by
  intro c hc
  rcases List.mem_cons.mp hc with rfl | hc
  · simp [isTagChar, isNameChar_of_isNameStart n.isNameStart_first]
  · exact n.isTagChar_more c hc

/-- An attribute is not taken for the bound of a type parameter. -/
theorem TagName.not_extends (n : TagName) (r : List Char) :
    "extends ".toList.isPrefixOf (n.chars ++ '=' :: r) = false := by
  refine Bool.eq_false_iff.mpr fun h => ?_
  have hw : "extends ".toList <+: n.chars ++ '=' :: r := List.isPrefixOf_iff_prefix.mp h
  -- the name would hold the blank, because the word has no equals sign
  have hname : "extends ".toList <+: n.chars := by
    rcases List.prefix_or_prefix_of_prefix hw (List.prefix_append n.chars _) with h | ⟨t, ht⟩
    · exact h
    · rw [← ht, List.prefix_append_right_inj] at hw
      cases t with
      | nil =>
        rw [List.append_nil] at ht
        exact ⟨[], by rw [List.append_nil, ht]⟩
      | cons c t =>
        obtain ⟨rfl, -⟩ := List.cons_prefix_cons.mp hw
        have hmem : '=' ∈ "extends ".toList := by rw [← ht]; simp
        exact absurd hmem (by decide)
  have hblank : isTagChar ' ' = true := n.isTagChar_chars ' ' (hname.subset (by decide))
  cases hblank

theorem Attributes.chars_eq (as : Attributes) :
    as.chars = [] ∨ ∃ (n : TagName) (r : List Char), as.chars = ' ' :: (n.chars ++ '=' :: r) := by
  cases as with
  | nil => exact .inl rfl
  | text n v rest => exact .inr ⟨n, _, rfl⟩
  | container n c rest => exact .inr ⟨n, _, rfl⟩

/-- The end of a tag. -/
def EndsTag (r : List Char) : Prop := r.head? = some '/' ∨ r.head? = some '>'

section
variable (as : Attributes) {y : List Char}

theorem Attributes.ends_name (hy : EndsTag y) :
    (as.chars ++ y).head?.any isTagNameChar = false := by
  rcases as.chars_eq with h | ⟨n, r, h⟩
  · rw [h, List.nil_append]
    rcases hy with hy | hy <;> rw [hy] <;> rfl
  · rw [h]
    rfl

/-- No comma and no bound of a type parameter comes after the name of a tag. -/
theorem Attributes.not_parameter (hy : EndsTag y) :
    ([','].isPrefixOf (trimStart (as.chars ++ y)) ||
      "extends ".toList.isPrefixOf (trimStart (as.chars ++ y))) = false := by
  rcases as.chars_eq with h | ⟨n, r, h⟩
  · rw [h, List.nil_append]
    rcases hy with hy | hy
    all_goals
      obtain ⟨y', rfl⟩ := List.head?_eq_some_iff.mp hy
      rfl
  · have htrim : trimStart (' ' :: (n.chars ++ '=' :: r) ++ y) = n.chars ++ '=' :: (r ++ y) := by
      have hfirst := isBlank_of_isNameStart n.isNameStart_first
      simp [trimStart, TagName.chars, List.dropWhile_cons, hfirst]
      rfl
    have hcomma : [','].isPrefixOf (n.chars ++ '=' :: (r ++ y)) = false := by
      simp [TagName.chars, List.isPrefixOf, (n.first_ne (d := ',') rfl).symm]
    rw [h, htrim, hcomma, n.not_extends]
    rfl

end

theorem elementBegins_name (n : TagName) (as : Attributes) {before : Option Lexeme} {y : List Char}
    (hbefore : expressionMayBegin before = true) (hy : EndsTag y) :
    elementBegins before (n.chars ++ (as.chars ++ y)) = true := by
  have hchars (c : Char) (hc : c ∈ n.chars) : isTagNameChar c = true := by
    have ht := n.isTagChar_chars c hc
    simp only [isTagChar] at ht
    simp [isTagNameChar, ht]
  have hdrop : (n.chars ++ (as.chars ++ y)).dropWhile isTagNameChar = as.chars ++ y := by
    rw [List.dropWhile_append_of_pos hchars]
    have hends := as.ends_name hy
    cases hz : as.chars ++ y with
    | nil => rfl
    | cons c z =>
      rw [hz] at hends
      exact List.dropWhile_cons_of_neg (by simpa using hends)
  change elementBegins before (n.first :: (n.more ++ (as.chars ++ y))) = true
  change (n.first :: (n.more ++ (as.chars ++ y))).dropWhile isTagNameChar = as.chars ++ y at hdrop
  rw [elementBegins, hdrop]
  dsimp only
  rw [as.not_parameter hy, hbefore, n.isNameStart_first]
  simp

theorem Element.begins (e : Element) {before : Option Lexeme} {rest : List Char}
    (hbefore : expressionMayBegin before = true) :
    elementBegins before (e.tail ++ rest) = true := by
  cases e with
  | empty n as =>
    rw [Element.tail, List.append_assoc, List.append_assoc]
    exact elementBegins_name n as hbefore (.inl rfl)
  | full n as cs =>
    rw [Element.tail, List.append_assoc, List.append_assoc]
    exact elementBegins_name n as hbefore (.inr rfl)
  | fragment cs =>
    rw [Element.tail, List.cons_append, elementBegins, hbefore]
    rfl

/-- An element among children is not taken for a closing tag. -/
theorem Element.nextStep_child (e : Element) {before : Option Lexeme} {outer : List Context}
    {rest : List Char} :
    nextStep true before (.children :: outer) '<' (e.tail ++ rest) =
      ⟨.punctuator, 0, .tag false :: .children :: outer⟩ := by
  have hname (n : TagName) (r : List Char) :
      ['/'].isPrefixOf (trimStart (n.chars ++ r)) = false := by
    have hfirst := isBlank_of_isNameStart n.isNameStart_first
    simp [trimStart, TagName.chars, hfirst, List.isPrefixOf, (n.first_ne (d := '/') rfl).symm]
  cases e with
  | empty n as =>
    rw [Element.tail, List.append_assoc, nextStep, childrenStep, hname]
    rfl
  | full n as cs =>
    rw [Element.tail, List.append_assoc, nextStep, childrenStep, hname]
    rfl
  | fragment cs => rfl

/-! ### Scanning it -/

theorem Siblings.ends_text (ss : Siblings) (r : List Char) :
    (ss.chars ++ '<' :: r).head?.any (fun x => x != '<' && x != '\x7b') = false := by
  cases ss <;> rfl

theorem Attributes.ends_tagName (as : Attributes) {y : List Char} (hy : EndsTag y) :
    (as.chars ++ y).head?.any isTagChar = false := by
  have h := as.ends_name hy
  cases hz : (as.chars ++ y).head? with
  | none => rfl
  | some c =>
    rw [hz, Option.any_some, isTagNameChar] at h
    simp_all [isTagChar]

mutual

theorem Element.passage (e : Element) {before : Option Lexeme} {outer : List Context}
    {rest : List Char} :
    Passage true before (.tag false :: outer) e.tail e.tailLexemes outer rest := by
  match e with
  | .empty n as =>
    refine .trans (n.passage ?_) (.trans as.passage passage_closer)
    rw [List.append_assoc]
    exact as.ends_tagName (.inl rfl)
  | .full n as cs =>
    refine .trans (n.passage ?_) (.trans as.passage
      (.mark nextStep_tagEnd (.trans cs.passage n.passage_closing)))
    rw [List.append_assoc]
    exact as.ends_tagName (.inr rfl)
  | .fragment cs => exact .mark nextStep_tagEnd (.trans cs.passage passage_closingFragment)

theorem Attributes.passage (as : Attributes) {before : Option Lexeme} {outer : List Context}
    {rest : List Char} :
    Passage true before (.tag false :: outer) as.chars as.lexemes (.tag false :: outer) rest := by
  match as with
  | .nil => exact .nil
  | .text n v as =>
    refine .trans (passage_space ?_) (.trans (n.passage rfl) (.mark rfl
      (.trans v.passage as.passage)))
    exact isBlank_of_isNameStart n.isNameStart_first
  | .container n c as =>
    refine .trans (passage_space ?_) (.trans (n.passage rfl) (.mark rfl
      (.mark nextStep_attributeContainer (.trans (c.passage rfl rfl rfl)
        (.mark nextStep_containerEnd as.passage)))))
    exact isBlank_of_isNameStart n.isNameStart_first

theorem Content.passage (c : Content) {before : Option Lexeme} {stack : List Context}
    {rest : List Char} (hstack : inCode stack = true) (hbefore : expressionMayBegin before = true)
    (hrest : rest.head?.any isNameChar = false) :
    Passage true before stack c.chars c.lexemes stack rest := by
  match c with
  | .name n => exact n.passage hstack hrest
  | .element e => exact .mark (nextStep_element hstack (e.begins hbefore)) e.passage

theorem Children.passage (cs : Children) {before : Option Lexeme} {outer : List Context}
    {rest : List Char} :
    Passage true before (.children :: outer) cs.chars cs.lexemes (.children :: outer)
      ('<' :: rest) := by
  match cs with
  | .plain ss => exact ss.passage
  | .text t ss => exact .trans (t.passage (ss.ends_text rest)) ss.passage

theorem Siblings.passage (ss : Siblings) {before : Option Lexeme} {outer : List Context}
    {rest : List Char} :
    Passage true before (.children :: outer) ss.chars ss.lexemes (.children :: outer)
      ('<' :: rest) := by
  match ss with
  | .nil => exact .nil
  | .element e cs =>
    refine .mark ?_ (.trans e.passage cs.passage)
    rw [List.append_assoc]
    exact e.nextStep_child
  | .container c cs =>
    exact .mark nextStep_childContainer (.trans (c.passage rfl rfl rfl)
      (.mark nextStep_containerEnd cs.passage))

end

/-! ### What the lexemes say -/

/-- Whether a lexeme is neither a blank nor a mark. -/
def speaks (l : Lexeme) : Bool := l.kind != .whitespace && l.kind != .punctuator

@[simp] theorem speaks_leaf (l : Leaf) : speaks l.lexeme = true := by cases l <;> rfl

@[simp] theorem speaks_identifier (s : String) : speaks ⟨.identifier, s⟩ = true := rfl

@[simp] theorem speaks_mark (c : Char) : speaks (mark c) = false := rfl

@[simp] theorem speaks_closer : speaks closer = false := rfl

@[simp] theorem speaks_space : speaks space = false := rfl

mutual

theorem Element.speaking (e : Element) :
    e.tailLexemes.filter speaks = e.leaves.map Leaf.lexeme := by
  match e with
  | .empty n as => simp [Element.tailLexemes, Element.leaves, as.speaking]
  | .full n as cs => simp [Element.tailLexemes, Element.leaves, as.speaking, cs.speaking]
  | .fragment cs => simp [Element.tailLexemes, Element.leaves, cs.speaking]

theorem Attributes.speaking (as : Attributes) :
    as.lexemes.filter speaks = as.leaves.map Leaf.lexeme := by
  match as with
  | .nil => rfl
  | .text n v as => simp [Attributes.lexemes, Attributes.leaves, as.speaking]
  | .container n c as => simp [Attributes.lexemes, Attributes.leaves, c.speaking, as.speaking]

theorem Content.speaking (c : Content) : c.lexemes.filter speaks = c.leaves.map Leaf.lexeme := by
  match c with
  | .name n => simp [Content.lexemes, Content.leaves]
  | .element e => simp [Content.lexemes, Content.leaves, e.speaking]

theorem Children.speaking (cs : Children) :
    cs.lexemes.filter speaks = cs.leaves.map Leaf.lexeme := by
  match cs with
  | .plain ss => simp [Children.lexemes, Children.leaves, ss.speaking]
  | .text t ss => simp [Children.lexemes, Children.leaves, ss.speaking]

theorem Siblings.speaking (ss : Siblings) :
    ss.lexemes.filter speaks = ss.leaves.map Leaf.lexeme := by
  match ss with
  | .nil => rfl
  | .element e cs => simp [Siblings.lexemes, Siblings.leaves, e.speaking, cs.speaking]
  | .container c cs => simp [Siblings.lexemes, Siblings.leaves, c.speaking, cs.speaking]

end

/-- The kind of no leaf is left for its place to decide. -/
theorem Leaf.isContextual (leaf : Leaf) (d : Dialect) (hk : leaf.lexeme.kind = .identifier) :
    d.isContextual leaf.lexeme.text = false := by
  cases leaf with
  | name n =>
    have h := n.free
    simp only [List.mem_append, not_or] at h
    simp [Leaf.lexeme, Dialect.isContextual, h]
  | tag n | value v | text t => cases hk

theorem resolve_eq_self {d : Dialect} {ls : List Lexeme}
    (h : ∀ l ∈ ls, l.kind = .identifier → d.isContextual l.text = false)
    (before : Option Lexeme) : resolve d before ls = ls := by
  induction ls generalizing before with
  | nil => rfl
  | cons l ls ih =>
    have hkind : resolvedKind d before l (firstSignificant ls) = l.kind := by
      unfold resolvedKind
      split
      · rename_i hc
        simp only [Bool.and_eq_true, decide_eq_true_eq] at hc
        rw [h l (by simp) hc.1.1] at hc
        simp at hc
      · rfl
    rw [resolve, hkind, ih fun l' hl' => h l' (by simp [hl'])]

/-- The lexemes of an assignment of an element with a name behind it. -/
def assignment (e : Element) : List Lexeme :=
  [⟨.identifier, "x"⟩, space, mark '=', space] ++
    (e.lexemes ++ [mark ';', space, ⟨.identifier, "y"⟩])

theorem passage_assignment (e : Element) :
    Passage true none [] (['x', ' ', '=', ' '] ++ (e.chars ++ [';', ' ', 'y'])) (assignment e)
      [] [] := by
  have hgap (before : Option Lexeme) (c : Char) (r : List Char) (hc : isBlank c = false) :
      Passage true before [] [' '] [space] [] (c :: r) :=
    Gap.passage ⟨' ', [], rfl, by simp⟩ rfl hc
  have hfront (r : List Char) : Passage true none [] ['x', ' ', '=', ' ']
      [⟨.identifier, "x"⟩, space, mark '=', space] [] ('<' :: r) :=
    .trans (.step (r := []) rfl) (.trans (hgap _ _ _ rfl) (.mark rfl (hgap _ '<' r rfl)))
  have hback (before : Option Lexeme) : Passage true before [] [';', ' ', 'y']
      [mark ';', space, ⟨.identifier, "y"⟩] [] [] :=
    .mark rfl (.trans (hgap _ _ _ rfl) (.step (r := []) rfl))
  refine .trans (hfront _) (.trans (.mark ?_ e.passage) (hback _))
  exact nextStep_element rfl (e.begins rfl)

theorem assignment_speaking (e : Element) :
    (assignment e).filter speaks =
      ⟨.identifier, "x"⟩ :: (e.leaves.map Leaf.lexeme ++ [⟨.identifier, "y"⟩]) := by
  rw [assignment, Element.lexemes]
  simp [List.filter_cons, e.speaking]

theorem resolve_assignment (d : Dialect) (e : Element) :
    resolve d none (assignment e) = assignment e := by
  refine resolve_eq_self (fun l hl hk => ?_) none
  have hmem : l ∈ (assignment e).filter speaks :=
    List.mem_filter.mpr ⟨hl, by simp [speaks, hk]⟩
  rw [assignment_speaking, List.mem_cons, List.mem_append, List.mem_singleton] at hmem
  rcases hmem with rfl | hleaf | rfl
  · cases d <;> rfl
  · obtain ⟨leaf, -, rfl⟩ := List.mem_map.mp hleaf
    exact leaf.isContextual d hk
  · cases d <;> rfl

/-- An element is cut into its tags, attributes, texts and containers, whatever
nests in it. Besides blanks and marks these are its leaves, and no context stays
open. -/
theorem tokenize_elements {d : Dialect} (hd : d.hasElements = true) (e : Element) :
    let source := "x = " ++ String.ofList e.chars ++ "; y"
    (tokenize d source).map Token.lexeme = assignment e ∧
    ((tokenize d source).map Token.lexeme).filter speaks =
      ⟨.identifier, "x"⟩ :: (e.leaves.map Leaf.lexeme ++ [⟨.identifier, "y"⟩]) ∧
    openContexts d.hasElements none [] source.toList = [] := by
  intro source
  have hsource : source.toList = ['x', ' ', '=', ' '] ++ (e.chars ++ [';', ' ', 'y']) := by
    simp [source, String.toList_append, String.toList_ofList]
  obtain ⟨hscan, hopen⟩ := (passage_assignment e).whole
  have hlexemes : (tokenize d source).map Token.lexeme = assignment e := by
    rw [tokenize, placed_lexemes, lexemes_eq, hsource, hd, hscan, resolve_assignment]
  refine ⟨hlexemes, ?_, ?_⟩
  · rw [hlexemes, assignment_speaking]
  · rw [hd, hsource, hopen]

/-- An element in an attribute, a text with a quote and a brace, a container and a
fragment. -/
def nestedElement : Element :=
  let a : TagName := ⟨'a', [], rfl, by simp⟩
  let data : TagName := ⟨'d', ['-', 'x'], rfl, List.all_eq_true.mp rfl⟩
  let quoted : ChildText := ⟨' ', ['"', '\x7d', '>'], by simp, rfl⟩
  let name : PlainName := ⟨⟨'n', [], rfl, by simp⟩, by decide⟩
  .full a (.container data (.element (.empty a (.text data ⟨['\n', '<'], by decide⟩ .nil))) .nil)
    (.text quoted (.container (.name name) (.plain
      (.element (.fragment (.plain .nil)) (.plain .nil)))))

theorem tokenize_elements_nested :
    Dialect.tsx.hasElements = true ∧
    String.ofList nestedElement.chars =
      "<a d-x=\x7b<a d-x=\"\n<\"/>\x7d> \"\x7d>\x7bn\x7d<></></a>" ∧
    ((tokenize .tsx ("x = " ++ String.ofList nestedElement.chars ++ "; y")).map
      Token.lexeme).filter speaks =
      [⟨.identifier, "x"⟩, ⟨.jsxIdentifier, "a"⟩, ⟨.jsxIdentifier, "d-x"⟩, ⟨.jsxIdentifier, "a"⟩,
        ⟨.jsxIdentifier, "d-x"⟩, ⟨.string, "\"\n<\""⟩, ⟨.jsxText, " \"\x7d>"⟩, ⟨.identifier, "n"⟩,
        ⟨.jsxIdentifier, "a"⟩, ⟨.identifier, "y"⟩] :=
  ⟨rfl, rfl, (tokenize_elements rfl nestedElement).2.1⟩

end Retouch.Syntax.Markup
