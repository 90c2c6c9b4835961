import Retouch.Syntax.Words
import Retouch.Syntax.Token
import Retouch.Syntax.Dialect

/-! Words that are keywords in some places and names in others. Such a word is a
keyword when it does not name a member and what follows can only continue a
declaration or a clause. The test reads the text of the lexeme before and the
kind of the one after; making a name a keyword changes neither answer, so the
order in which the words are visited does not matter. -/

namespace Retouch.Syntax

def Lexeme.isTrivia (l : Lexeme) : Bool := l.kind.isTrivia

/-- The first lexeme of a list that is not trivia. -/
def firstSignificant (ls : List Lexeme) : Option Lexeme := ls.find? (!·.isTrivia)

def Dialect.isContextual (d : Dialect) (word : String) : Bool :=
  word ∈ contextual || (d.isTyped && word ∈ typedContextual)

/-- Whether a lexeme can only continue a declaration or a clause. -/
def continuesClause (l : Lexeme) : Bool :=
  match l.kind with
  | .identifier | .keyword | .string => true
  | .punctuator => l.text ∈ ["\x7b", "*", "["]
  | _ => false

/-- Whether a contextual word between these two lexemes is a keyword
(`is_keyword_position`). -/
def keywordPosition (before after : Option Lexeme) : Bool :=
  !before.any (fun l => l.text ∈ [".", "?."]) && after.any continuesClause

/-- The kind of `l` between the significant lexemes `before` and `after`. -/
def resolvedKind (d : Dialect) (before : Option Lexeme) (l : Lexeme) (after : Option Lexeme) :
    Kind :=
  if l.kind = .identifier && d.isContextual l.text && keywordPosition before after then .keyword
  else l.kind

/-- Decide every contextual word, from left to right (`classify_contextual`). -/
def resolve (d : Dialect) (before : Option Lexeme) : List Lexeme → List Lexeme
  | [] => []
  | l :: ls =>
    let l' : Lexeme := ⟨resolvedKind d before l (firstSignificant ls), l.text⟩
    l' :: resolve d (if l.isTrivia then before else some l') ls

theorem resolve_texts (d : Dialect) (before : Option Lexeme) (ls : List Lexeme) :
    (resolve d before ls).map Lexeme.text = ls.map Lexeme.text := by
  induction ls generalizing before with
  | nil => rfl
  | cons l ls ih => simp [resolve, ih]

end Retouch.Syntax
