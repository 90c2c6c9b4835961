import Retouch.Syntax.Lex
import Retouch.Syntax.Contextual

/-! The tokens of a source text in a dialect (`tokenize`). -/

namespace Retouch.Syntax

def lexemes (d : Dialect) (source : String) : List Lexeme :=
  resolve d none (lex d.hasElements none [] source.toList)

def tokenize (d : Dialect) (source : String) : List Token :=
  placed .origin (lexemes d source)

/-- The tokens that syntax looks at. -/
def significant (ts : List Token) : List Token := ts.filter (!·.isTrivia)

theorem tokenize_texts (d : Dialect) (source : String) :
    (tokenize d source).flatMap (fun t => t.text.toList) = source.toList := by
  have h := lex_texts d.hasElements none [] source.toList
  have e : ∀ {α : Type} (f : α → String) (xs : List α),
      xs.flatMap (fun x => (f x).toList) = (xs.map f).flatMap String.toList := by
    intro α f xs
    simp [List.flatMap_map]
  rw [e] at h ⊢
  rw [tokenize, placed_texts, lexemes, resolve_texts, h]

end Retouch.Syntax
