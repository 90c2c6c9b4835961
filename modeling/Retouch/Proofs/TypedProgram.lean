import Retouch.Proofs.ErasedLayout
import Retouch.Proofs.TypeSyntax

/-! Typed programs as marked tokens. A piece is kept or hidden, and the grammar
marks as hidden what belongs to types: annotations, casts, type parameters, and
whole declarations of types. The kept pieces are the same program without its
types. Layout is free, but for index suffixes, which stand on the line of the type
before them. -/

namespace Retouch.Erase
open Retouch.Syntax

def keep (t : Token) : Piece := ⟨t, false⟩

def hide (ts : List Token) : List Piece := ts.map fun t => ⟨t, true⟩

abbrev tokensOf (ps : List Piece) : List Token := ps.map Piece.token

@[simp] theorem token_keep (t : Token) : (keep t).token = t := rfl

@[simp] theorem tokensOf_hide (ts : List Token) : tokensOf (hide ts) = ts := by
  simp [tokensOf, hide, Function.comp_def]

@[simp] theorem length_hide (ts : List Token) : (hide ts).length = ts.length := by simp [hide]

/-! ### Expressions -/

inductive ExpressionPart where
  | single
  /-- What stands between the brackets of a call. -/
  | arguments
  deriving DecidableEq, Repr

open Token in
inductive IsExpression : ExpressionPart → List Piece → Prop
  | name {t} : IsPlain t → IsExpression .single [keep t]
  | literal {t} : IsLiteral t → IsExpression .single [keep t]
  | call {f o as z} : IsPlain f → IsPunct o "(" → IsExpression .arguments as → IsPunct z ")" →
      IsExpression .single (keep f :: keep o :: (as ++ [keep z]))
  | cast {o es a ts z} : IsPunct o "(" → IsExpression .single es → IsWord a "as" →
      IsType .whole 0 ts → IsPunct z ")" →
      IsExpression .single (keep o :: (es ++ (hide (a :: ts) ++ [keep z])))
  | none : IsExpression .arguments []
  | last {es} : IsExpression .single es → IsExpression .arguments es
  | more {es d as} : IsExpression .single es → IsPunct d "," → IsExpression .arguments as →
      IsExpression .arguments (es ++ keep d :: as)

/-! ### Parameters -/

open Token in
inductive IsParameter : List Piece → Prop
  | annotated {x d ts} : IsPlain x → IsPunct d ":" → IsType .whole 0 ts →
      IsParameter (keep x :: hide (d :: ts))
  | optional {x q d ts} : IsPlain x → IsPunct q "?" → IsPunct d ":" → IsType .whole 0 ts →
      IsParameter (keep x :: hide (q :: d :: ts))
  | defaulted {x d ts e es} : IsPlain x → IsPunct d ":" → IsType .whole 0 ts → IsPunct e "=" →
      IsExpression .single es → IsParameter (keep x :: (hide (d :: ts) ++ keep e :: es))

inductive IsParameters : List Piece → Prop
  | none : IsParameters []
  | last {ps} : IsParameter ps → IsParameters ps
  | more {ps d qs} : IsParameter ps → d.IsPunct "," → IsParameters qs →
      IsParameters (ps ++ keep d :: qs)

/-- The type parameters of a function, if it has any. -/
inductive IsGenerics : List Token → Prop
  | none : IsGenerics []
  | declared {o gs} : o.IsPunct "<" → IsType (.entries true) 1 gs → IsGenerics (o :: gs)

/-! ### Statements -/

/-- The members of an interface. -/
inductive IsMembers : List Token → Prop
  | none : IsMembers []
  | member {m d ts s ms} : m.IsPlain → d.IsPunct ":" → IsType .whole 0 ts → s.IsPunct ";" →
      IsMembers ms → IsMembers (m :: d :: (ts ++ s :: ms))

inductive StatementPart where
  | single
  | body
  deriving DecidableEq, Repr

open Token in
inductive IsStatement : StatementPart → List Piece → Prop
  | declared {k x d ts s} : (IsKeyword k "const" ∨ IsKeyword k "let") → IsPlain x →
      IsPunct d ":" → IsType .whole 0 ts → IsPunct s ";" →
      IsStatement .single (keep k :: keep x :: (hide (d :: ts) ++ [keep s]))
  | initialised {k x d ts e es s} : (IsKeyword k "const" ∨ IsKeyword k "let") → IsPlain x →
      IsPunct d ":" → IsType .whole 0 ts → IsPunct e "=" → IsExpression .single es →
      IsPunct s ";" →
      IsStatement .single (keep k :: keep x :: (hide (d :: ts) ++ keep e :: (es ++ [keep s])))
  | synonym {k x e ts s} : IsWord k "type" → IsPlain x → IsPunct e "=" → IsType .whole 0 ts →
      IsPunct s ";" → IsStatement .single (hide (k :: x :: e :: (ts ++ [s])))
  | interface {k x o ms z} : IsKeyword k "interface" → IsPlain x → IsPunct o "\x7b" →
      IsMembers ms → IsPunct z "\x7d" → IsStatement .single (hide (k :: x :: o :: (ms ++ [z])))
  | function {k f gs o ps z d ts b ss r es s e} : IsKeyword k "function" → IsPlain f →
      IsGenerics gs → IsPunct o "(" → IsParameters ps → IsPunct z ")" → IsPunct d ":" →
      IsType .whole 0 ts → IsPunct b "\x7b" → IsStatement .body ss → IsKeyword r "return" →
      IsExpression .single es → IsPunct s ";" → IsPunct e "\x7d" →
      IsStatement .single (keep k :: keep f :: (hide gs ++ keep o :: (ps ++ keep z ::
        (hide (d :: ts) ++ keep b :: (ss ++ keep r :: (es ++ [keep s, keep e]))))))
  | none : IsStatement .body []
  | more {xs ys} : IsStatement .single xs → IsStatement .body ys → IsStatement .body (xs ++ ys)

/-! ### Brackets and last tokens -/

theorem IsExpression.balanced {part : ExpressionPart} {ps : List Piece}
    (h : IsExpression part ps) : Balanced (tokensOf ps) := by
  induction h with
  | name h => exact h.inert.balanced
  | literal h => exact h.inert.balanced
  | call hf ho _ hz ih =>
    have hg := Balanced.bracketed (ho.opens .round) (hz.closes .round) ih
    simpa using hf.inert.balanced.cons hg
  | @cast o es a ts z ho _ ha ht hz ih =>
    have hi : Balanced (tokensOf es ++ a :: ts) :=
      ih.append (.cons ha.inert.balanced ht.scanned.balanced)
    simpa using Balanced.bracketed (ho.opens .round) (hz.closes .round) hi
  | none => exact .nil
  | last _ ih => exact ih
  | more _ hd _ ihe iha => simpa using ihe.append (.cons hd.balanced iha)

theorem IsParameter.balanced {ps : List Piece} (h : IsParameter ps) : Balanced (tokensOf ps) := by
  cases h with
  | annotated hx hd ht =>
    simpa using Balanced.cons hx.inert.balanced (.cons hd.balanced ht.scanned.balanced)
  | optional hx hq hd ht =>
    simpa using Balanced.cons hx.inert.balanced
      (.cons hq.balanced (.cons hd.balanced ht.scanned.balanced))
  | defaulted hx hd ht he hes =>
    have hr := ht.scanned.balanced.append (.cons he.balanced hes.balanced)
    simpa using Balanced.cons hx.inert.balanced (.cons hd.balanced hr)

theorem IsParameters.balanced {ps : List Piece} (h : IsParameters ps) :
    Balanced (tokensOf ps) := by
  induction h with
  | none => exact .nil
  | last h => exact h.balanced
  | more h hd _ ih => simpa using h.balanced.append (.cons hd.balanced ih)

theorem IsGenerics.balanced {gs : List Token} (h : IsGenerics gs) : Balanced gs := by
  cases h with
  | none => exact .nil
  | declared ho hg => exact .cons ho.balanced hg.scanned.balanced

theorem IsMembers.balanced {ms : List Token} (h : IsMembers ms) : Balanced ms := by
  induction h with
  | none => exact .nil
  | member hm hd ht hs _ ih =>
    exact .cons hm.inert.balanced (.cons hd.balanced
      (ht.scanned.balanced.append (.cons hs.balanced ih)))

theorem IsStatement.balanced {part : StatementPart} {ps : List Piece} (h : IsStatement part ps) :
    Balanced (tokensOf ps) := by
  induction h with
  | declared hk hx hd ht hs =>
    have hk' := hk.elim (·.inert.balanced) (·.inert.balanced)
    have hr := ht.scanned.balanced.append hs.balanced
    simpa using Balanced.cons hk' (.cons hx.inert.balanced (.cons hd.balanced hr))
  | initialised hk hx hd ht he hes hs =>
    have hk' := hk.elim (·.inert.balanced) (·.inert.balanced)
    have hr := ht.scanned.balanced.append (.cons he.balanced (hes.balanced.append hs.balanced))
    simpa using Balanced.cons hk' (.cons hx.inert.balanced (.cons hd.balanced hr))
  | synonym hk hx he ht hs =>
    have hr := ht.scanned.balanced.append hs.balanced
    simpa using Balanced.cons hk.inert.balanced (.cons hx.inert.balanced (.cons he.balanced hr))
  | interface hk hx ho hm hz =>
    have hg := Balanced.bracketed (ho.opens .curly) (hz.closes .curly) hm.balanced
    simpa using Balanced.cons hk.inert.balanced (.cons hx.inert.balanced hg)
  | @function k f gs o ps z d ts b ss r es s e hk hf hg ho hp hz hd ht hb _ hr he hs he' ih =>
    have hbody := Balanced.bracketed (hb.opens .curly) (he'.closes .curly)
      (ih.append (.cons hr.inert.balanced (he.balanced.append hs.balanced)))
    have hlist := Balanced.bracketed (ho.opens .round) (hz.closes .round) hp.balanced
    have hrest := hlist.append (.cons hd.balanced (ht.scanned.balanced.append hbody))
    simpa using Balanced.cons hk.inert.balanced (.cons hf.inert.balanced
      (hg.balanced.append hrest))
  | none => exact .nil
  | more _ _ ihx ihy => simpa using ihx.append ihy

/-- Tokens that an expression can end with. -/
def EndsExpression (t : Token) : Prop := t.kind = .identifier ∨ t.IsLiteral ∨ t.IsPunct ")"

theorem IsExpression.getLast? {ps : List Piece} (h : IsExpression .single ps) :
    ∃ t, (tokensOf ps).getLast? = some t ∧ EndsExpression t := by
  cases h with
  | name h => exact ⟨_, rfl, Or.inl h.1⟩
  | literal h => exact ⟨_, rfl, Or.inr (Or.inl h)⟩
  | @call _ _ _ z _ _ _ hz => exact ⟨z, by simp [List.getLast?_cons], Or.inr (Or.inr hz)⟩
  | @cast _ _ _ _ z _ _ _ _ hz => exact ⟨z, by simp [List.getLast?_cons], Or.inr (Or.inr hz)⟩

theorem IsStatement.getLast? {ps : List Piece} (h : IsStatement .single ps) :
    ∃ t, (tokensOf ps).getLast? = some t ∧ (t.IsPunct ";" ∨ t.IsPunct "\x7d") := by
  cases h with
  | @declared _ _ _ _ s _ _ _ _ hs | @initialised _ _ _ _ _ _ s _ _ _ _ _ _ hs
  | @synonym _ _ _ _ s _ _ _ _ hs => exact ⟨s, by simp [List.getLast?_cons], Or.inl hs⟩
  | @interface _ _ _ _ z _ _ _ _ hz => exact ⟨z, by simp [List.getLast?_cons], Or.inr hz⟩
  | @function _ _ _ _ _ _ _ _ _ _ _ _ _ e _ _ _ _ _ _ _ _ _ _ _ _ _ he =>
    exact ⟨e, by simp [List.getLast?_cons, List.getLast?_append], Or.inr he⟩

end Retouch.Erase
