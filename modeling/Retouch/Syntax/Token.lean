import Retouch.Text.Classes

/-! Tokens and their places. A place counts bytes from 0, lines from 1 and
columns from 0; a column is one character, whatever its width, and only a line
feed ends a line. All three are measures of the text before the place, so the
places of a token list follow from the token texts alone. -/

namespace Retouch.Syntax

/-- The kinds of tokens (`TokenKind`). -/
inductive Kind where
  | whitespace
  | comment
  | identifier
  | keyword
  | number
  | string
  | template
  | regex
  | punctuator
  | jsxIdentifier
  | jsxText
  deriving DecidableEq, Repr

/-- Blanks and comments, which no syntax looks at (`is_trivia`). -/
def Kind.isTrivia : Kind → Bool
  | whitespace | comment => true
  | _ => false

/-- A place in a text (`Loc`). -/
structure Place where
  offset : Nat
  line : Nat
  column : Nat
  deriving DecidableEq, Repr

namespace Place

def origin : Place := ⟨0, 1, 0⟩

/-- The place just past one more character (`bump`). -/
def step (p : Place) (c : Char) : Place :=
  if c = '\n' then ⟨p.offset + c.utf8Size, p.line + 1, 0⟩
  else ⟨p.offset + c.utf8Size, p.line, p.column + 1⟩

/-- The place just past a stretch of text. -/
def past (p : Place) (cs : List Char) : Place := cs.foldl step p

@[simp] theorem past_nil (p : Place) : p.past [] = p := rfl

@[simp] theorem past_cons (p : Place) (c : Char) (cs : List Char) :
    p.past (c :: cs) = (p.step c).past cs := rfl

@[simp] theorem past_append (p : Place) (xs ys : List Char) :
    p.past (xs ++ ys) = (p.past xs).past ys := by
  simp [past, List.foldl_append]

end Place

/-- A stretch of source text with its kind. -/
structure Lexeme where
  kind : Kind
  text : String
  deriving DecidableEq, Repr

/-- A lexeme with the places of its two ends. -/
structure Token where
  kind : Kind
  text : String
  start : Place
  stop : Place
  deriving DecidableEq, Repr

def Token.isTrivia (t : Token) : Bool := t.kind.isTrivia

/-- Give every lexeme its places, the first one starting at `p`. -/
def placed (p : Place) : List Lexeme → List Token
  | [] => []
  | l :: ls =>
    let q := p.past l.text.toList
    ⟨l.kind, l.text, p, q⟩ :: placed q ls

@[simp] theorem placed_length (p : Place) (ls : List Lexeme) :
    (placed p ls).length = ls.length := by
  induction ls generalizing p with
  | nil => rfl
  | cons l ls ih => simp [placed, ih]

theorem placed_texts (p : Place) (ls : List Lexeme) :
    (placed p ls).map Token.text = ls.map Lexeme.text := by
  induction ls generalizing p with
  | nil => rfl
  | cons l ls ih => simp [placed, ih]

end Retouch.Syntax
