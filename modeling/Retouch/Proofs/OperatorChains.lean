import Retouch.Proofs.IdleTokens

/-! Chains of operators behind an expression: non-null assertions and casts. Each is
told by the token before it, erased or not. An assertion ends no expression, so what
stands behind one is kept, and so is what stands behind a reserved word that is no
value. A chain is erased as a whole exactly when no operator of it stands there. -/

namespace Retouch.Syntax.Token

/-- Whether an expression can end with this token. -/
def endsExpression (t : Token) : Bool :=
  match t.kind with
  | .identifier | .number | .string | .regex => true
  | .template => Code.closesTemplate t.text
  | .keyword => t.text ∈ valueWords
  | .punctuator => t.text ∈ [")", "]", "\x7d"]
  | _ => false

def IsDot (t : Token) : Prop := t.IsPunct "." ∨ t.IsPunct "?."

end Retouch.Syntax.Token

namespace Retouch.Code
open Syntax

theorem From.endsExpression_eq {c : Code} {p : Nat} {t : Token} {rest : List Token}
    (hf : c.From p (t :: rest)) :
    c.endsExpression p = t.endsExpression := by
  rw [Code.endsExpression, Token.endsExpression, hf.kind?, hf.text]
  cases t.kind <;> rfl

end Retouch.Code

namespace Retouch.Erase
open Syntax Code Token Plain

/-! ### Operands and operators -/

/-- An expression without types, with properties of any name, calls and indices
behind it. -/
inductive IsOperand : List Token → Prop
  | expression {ts} : Plain.IsExpression .single ts → IsOperand ts
  | property {ts d n} : IsOperand ts → IsDot d → IsProperty n → IsOperand (ts ++ [d, n])
  | call {fs o ts z} : IsOperand fs → IsPunct o "(" → Plain.IsExpression (.items false) ts →
      IsPunct z ")" → IsOperand (fs ++ o :: (ts ++ [z]))
  | index {es o ts z} : IsOperand es → IsPunct o "[" → Plain.IsExpression .single ts →
      IsPunct z "]" → IsOperand (es ++ o :: (ts ++ [z]))

inductive Operator where
  | assertion (mark : Token)
  /-- A cast to the type with this last name and what stands before it. -/
  | cast (word : Token) (qualifier : List Token) (name : Token)

def Operator.tokens : Operator → List Token
  | assertion mark => [mark]
  | cast word qualifier name => word :: (qualifier ++ [name])

def Operator.last : Operator → Token
  | assertion mark => mark
  | cast _ _ name => name

/-- Operators that can stand behind the token `before`, one after the other. -/
inductive IsOperators : Token → List Operator → Prop
  | nil {before} : IsOperators before []
  | assertion {before t ops} : IsPunct t "!" → before.stop.offset = t.start.offset →
      IsOperators t ops → IsOperators before (.assertion t :: ops)
  | cast {before w s ts t ops} : IsKeyword w s → s ∈ ["as", "satisfies"] →
      IsType .name 0 (ts ++ [t]) → IsOperators t ops → IsOperators before (.cast w ts t :: ops)

/-- The tokens that the operators stand behind. -/
def preceding (before : Token) : List Operator → List Token
  | [] => []
  | o :: ops => before :: preceding o.last ops

/-- Operators that are erased when the token before them says so. -/
def operatorPieces (erased : Token → Bool) (before : Token) : List Operator → List Piece
  | [] => []
  | o :: ops => mark (erased before) o.tokens ++ operatorPieces erased o.last ops

/-- A variable whose value is an operand with operators behind it; `last` is the last
token of the operand. -/
structure ValueBinding where
  keyword : Token
  name : Token
  equals : Token
  operand : List Token
  last : Token
  operators : List Operator
  semicolon : Token
  isDeclarator : keyword.IsDeclarator
  isPlain : name.IsPlain
  isEquals : equals.IsPunct "="
  isOperand : IsOperand (operand ++ [last])
  isOperators : IsOperators last operators
  isSemicolon : semicolon.IsPunct ";"

def ValueBinding.pieces (b : ValueBinding) (erased : Token → Bool) : List Piece :=
  keep b.keyword :: keep b.name :: keep b.equals :: (mark false (b.operand ++ [b.last]) ++
    (operatorPieces erased b.last b.operators ++ [keep b.semicolon]))

theorem tokensOf_operatorPieces (erased : Token → Bool) (before : Token) (ops : List Operator) :
    tokensOf (operatorPieces erased before ops) = ops.flatMap Operator.tokens := by
  induction ops generalizing before with
  | nil => rfl
  | cons o ops ih =>
    have ho := tokensOf_mark (erased before) o.tokens
    have hops := ih o.last
    simp_all [tokensOf, operatorPieces]

theorem operatorPieces_eq_iff (erased : Token → Bool) (before : Token) (ops : List Operator) :
    operatorPieces (fun _ => true) before ops = operatorPieces erased before ops ↔
      ∀ t ∈ preceding before ops, erased t = true := by
  induction ops generalizing before with
  | nil => simp [operatorPieces, preceding]
  | cons o ops ih =>
    have hmark : mark true o.tokens = mark (erased before) o.tokens ↔ erased before = true := by
      cases erased before <;> cases o <;> simp [mark, Operator.tokens]
    rw [preceding, List.forall_mem_cons, ← ih, ← hmark, operatorPieces, operatorPieces]
    exact ⟨fun h => List.append_inj h (by simp), fun h => by rw [h.1, h.2]⟩

theorem ValueBinding.tokensOf_pieces (b : ValueBinding) (erased : Token → Bool) :
    tokensOf (b.pieces erased) = b.keyword :: b.name :: b.equals :: ((b.operand ++ [b.last]) ++
      (b.operators.flatMap Operator.tokens ++ [b.semicolon])) := by
  have hoperand := tokensOf_mark false (b.operand ++ [b.last])
  have hops := tokensOf_operatorPieces erased b.last b.operators
  simp only [tokensOf, ValueBinding.pieces, List.map_cons, List.map_append, List.map_nil]
    at hoperand hops ⊢
  rw [hoperand, hops]
  rfl

theorem ValueBinding.pieces_eq_iff (b : ValueBinding) (erased : Token → Bool) :
    b.pieces (fun _ => true) = b.pieces erased ↔
      ∀ t ∈ preceding b.last b.operators, erased t = true := by
  rw [← operatorPieces_eq_iff, ValueBinding.pieces, ValueBinding.pieces]
  simp

/-! ### What follows an operand -/

/-- A token that an operator begins with, or the semicolon. -/
def Continues (t : Token) : Prop :=
  t.IsPunct ";" ∨ t.IsPunct "!" ∨ ∃ s ∈ ["as", "satisfies"], t.IsKeyword s

theorem Continues.text {t : Token} (h : Continues t) :
    t.text ∉ ":" :: "[" :: (headWords ++ followJoints) := by
  have hcasts : ∀ s ∈ ["as", "satisfies"], s ∉ ":" :: "[" :: (headWords ++ followJoints) := by
    decide
  rcases h with h | h | ⟨s, hs, h⟩
  · rw [h.2]; decide
  · rw [h.2]; decide
  · rw [h.2]
    exact hcasts s hs

theorem IsOperators.head {before s : Token} {ops : List Operator} (rest : List Token)
    (h : IsOperators before ops) (hs : s.IsPunct ";") :
    ∃ u us, ops.flatMap Operator.tokens ++ s :: rest = u :: us ∧ Continues u := by
  cases h with
  | nil => exact ⟨s, rest, rfl, .inl hs⟩
  | assertion ht _ _ => exact ⟨_, _, rfl, .inr (.inl ht)⟩
  | cast hw hs' _ _ => exact ⟨_, _, rfl, .inr (.inr ⟨_, hs', hw⟩)⟩

variable {c : Code} {p : Nat} {ts rest : List Token}

theorem IsOperators.onward {before s : Token} {ops : List Operator} (h : IsOperators before ops)
    (hs : s.IsPunct ";") (hf : c.From p (ops.flatMap Operator.tokens ++ s :: rest)) :
    c.Onward p := by
  obtain ⟨u, us, hhead, hu⟩ := h.head rest hs
  have hfu : c.From p (u :: us) := hhead ▸ hf
  have htext : c.text p ∉ ":" :: "[" :: (headWords ++ followJoints) := hfu.text ▸ hu.text
  simp only [List.mem_cons, List.mem_append, not_or] at htext
  refine ⟨follow_of_text htext.2.2.2, ?_, htext.2.2.1, ⟨htext.1, fun hbang => ?_⟩,
    fun _ hi => absurd hi htext.2.1⟩
  · rcases hu with hu | hu | ⟨w, -, hu⟩ <;> simp [hfu.kind?, hu.1]
  · -- behind an assertion the chain goes on or the statement ends
    have hnext : ∀ {v : Token} {vs}, c.From (p + 1) (v :: vs) → Continues v →
        c.text (p + 1) ≠ ":" := by
      intro v vs hv hc he
      exact hc.text (by rw [← hv.text, he]; decide)
    cases h with
    | nil =>
      rw [hf.text, hs.2] at hbang
      exact absurd hbang (by decide)
    | assertion _ _ hops =>
      obtain ⟨v, vs, hv, hcv⟩ := hops.head rest hs
      have hrest : c.From (p + 1) (List.flatMap Operator.tokens _ ++ s :: rest) := hf.tail
      exact hnext (hv ▸ hrest) hcv
    | cast hw hs' _ _ =>
      rw [hf.text, hw.2] at hbang
      exact absurd (hbang ▸ hs') (by decide)

/-! ### The pass -/

theorem balanced_dot {d : Token} (h : IsDot d) : Balanced [d] := by
  rcases h with h | h
  · exact balanced_mark h (by decide)
  · exact balanced_mark h (by decide)

theorem IsOperand.balanced (h : IsOperand ts) : Balanced ts := by
  induction h with
  | expression h => exact h.balanced
  | property _ hd hn ih =>
    refine ih.append ((balanced_dot hd).append (balanced_solid ?_))
    rcases hn with hn | hn <;> simp [Kind.IsLoose, hn]
  | call _ ho hts hz ih => exact ih.append (balanced_round ho hts.balanced hz)
  | index _ ho hts hz ih => exact ih.append (balanced_square ho hts.balanced hz)

theorem IsOperand.quietOn (h : IsOperand ts) (hf : c.From p (ts ++ rest))
    (hbang : c.BangFree p ts) (hq : c.Onward (p + ts.length)) : c.QuietOn p (p + ts.length) := by
  induction h generalizing rest with
  | expression h => exact (h.harmless hf hbang hq.follow).quiet
  | @property ts d n _ hd hn ih =>
    rw [List.append_assoc] at hf
    rw [end_append, end_cons, end_single] at hq ⊢
    have hdot := hf.append
    have hmark : c.Onward (p + ts.length) ∧ c.Quiet (p + ts.length) := by
      rcases hd with hd | hd
      · have hword : n.kind = .identifier ∨ n.kind = .keyword := hn.imp_right And.left
        have hcalm := hdot.calm_dot hd hword hq.follow.calm
        exact ⟨hdot.onward_punct hd (by decide) (hcalm.follow (by rw [hdot.text, hd.2]; decide)),
          hdot.quiet_punct hd (by decide)⟩
      · exact ⟨hdot.onward_punct hd (by decide) (hdot.follow_punct hd (by decide)),
          hdot.quiet_punct hd (by decide)⟩
    have hword : c.Quiet (p + ts.length + 1) := hdot.tail.quiet_word hn hq fun _ => by
      rw [Nat.add_sub_cancel]
      rcases hd with hd | hd
      · exact hdot.endsExpression_punct hd (by decide)
      · exact hdot.endsExpression_punct hd (by decide)
    exact (ih hf hbang.left hmark.1).trans (hmark.2.on.trans hword.on)
  | @call fs o ts z _ ho hts hz ih =>
    simp only [List.append_assoc, List.cons_append] at hf
    rw [end_append, end_cons, end_append, end_single] at hq ⊢
    have hopen := hf.append
    have hround : c.Onward (p + fs.length) :=
      hopen.onward_punct ho (by decide) (hopen.follow_punct ho (by decide))
    exact (ih hf hbang.left hround).trans (hopen.passed_group (b := .round) ho hts.balanced hz
      (hts.harmless hopen.tail) hq.follow).quiet
  | @index es o ts z _ ho hts hz ih =>
    simp only [List.append_assoc, List.cons_append] at hf
    rw [end_append, end_cons, end_append, end_single] at hq ⊢
    have hopen := hf.append
    have htext : c.text (p + es.length) = "[" := by rw [hopen.text, ho.2]
    have hpartner := hopen.partner_closer (ho.opens .square) hts.balanced (hz.closes .square)
    have hsquare : c.Onward (p + es.length) := by
      refine ⟨(hopen.calm_index ho hts.balanced hz hq.follow.calm).follow (by rw [htext]; decide),
        by simp [hopen.kind?, ho.1], by rw [htext]; decide, ?_, fun close _ hclose => ?_⟩
      · rw [Unannotated, htext]
        exact ⟨by decide, fun he => absurd he (by decide)⟩
      · obtain rfl := Option.some.inj (hpartner.symm.trans hclose)
        exact hq.unannotated
    exact (ih hf hbang.left hsquare).trans (hopen.passed_group (b := .square) ho hts.balanced hz
      (hts.harmless hopen.tail) hq.follow).quiet

/-- An assertion goes where an expression ends before it. -/
theorem From.crosses_assertion {before t : Token} (hf : c.From p (before :: t :: rest))
    (ht : t.IsPunct "!") (hadjacent : before.stop.offset = t.start.offset) :
    c.Crosses (p + 1) (mark before.endsExpression [t]) fun _ => false := by
  cases hb : before.endsExpression with
  | false =>
    exact hf.tail.crosses_keep rfl (hf.tail.quiet_bang ht (hf.endsExpression_eq.trans hb))
  | true =>
    have hnear : c.adjacent (p + 1) = true := by
      simp [adjacent, hf.getElem?, hf.tail.getElem?, hadjacent]
    have hspans : ∀ e, c.punctSpans e (p + 1) = [.single (p + 1)] := by
      intro e
      rw [punctSpans, hf.tail.text, ht.2]
      simp [hf.endsExpression_eq, hb, hnear]
    have halone : c.From (p + 1) (t :: ([] ++ rest)) := hf.tail
    refine halone.crosses_jump [.single (p + 1)] rfl (fun e => ?_) fun k => ?_
    · rw [← hspans e]
      exact hf.tail.visits_punct ht e
    · exact covers_upTo (Nat.lt_succ_self _) k

/-- So does a cast, with its type. -/
theorem From.crosses_operator {before w : Token} {s : String} (hf : c.From p (before :: w ::
    (ts ++ rest))) (hw : w.IsKeyword s) (hs : s ∈ ["as", "satisfies"]) (ht : IsType .name 0 ts)
    (hstop : c.text (p + 1 + 1 + ts.length) ∉ typeJoints) (hclear : c.Clear (p + 1)) :
    c.Crosses (p + 1) (mark before.endsExpression (w :: ts)) fun _ => false := by
  cases hb : before.endsExpression with
  | false =>
    have hcast : c.isCast (p + 1) = false := by simp [isCast, hf.endsExpression_eq, hb]
    exact .cons (hf.tail.crosses_keep rfl (hf.tail.quiet_as hw.word hs hcast))
      (hf.tail.tail.crosses_idle ht.idle_name fun _ _ _ => rfl)
  | true =>
    have htype := IsType.ofPrimary (.named ht)
    exact hf.tail.crosses_cast hw.word hs (hf.tail.tail.typeEnd htype hstop) htype.length_pos hclear
      (Nat.succ_pos p) (hf.endsExpression_eq.trans hb) rfl

theorem IsOperators.crosses {before z : Token} {ops : List Operator} (h : IsOperators before ops)
    (hz : z.IsPunct ";") (hf : c.From p (before :: (ops.flatMap Operator.tokens ++ z :: rest)))
    (hclear : c.Clear (p + 1)) :
    c.Crosses (p + 1) (operatorPieces Token.endsExpression before ops) fun _ => false := by
  induction h generalizing p with
  | nil => exact .nil
  | @assertion before t ops ht hadjacent _ ih =>
    have hnext := hclear.cons hf.tail (balanced_mark ht (by decide))
    exact .append (From.crosses_assertion hf ht hadjacent) (ih hf.tail hnext)
  | @cast before w s ts t ops hw hs ht hops ih =>
    replace hf : c.From p (before :: w :: ((ts ++ [t]) ++
        (ops.flatMap Operator.tokens ++ z :: rest))) := by
      simpa [Operator.tokens] using hf
    have hafter := hf.tail.tail.append
    obtain ⟨u, us, hhead, hu⟩ := hops.head rest hz
    have hstop : c.text (p + 1 + 1 + (ts ++ [t]).length) ∉ typeJoints := by
      rw [hhead] at hafter
      rw [hafter.text]
      exact fun hm => hu.text (by simp [followJoints, hm])
    refine .append (From.crosses_operator hf hw hs ht hstop hclear) ?_
    have hlast : c.From (p + 1 + 1 + ts.length)
        (t :: (ops.flatMap Operator.tokens ++ z :: rest)) := by
      have h := hf.tail.tail
      rw [List.append_assoc] at h
      exact h.append
    have hbalanced : Balanced (w :: (ts ++ [t])) :=
      hw.word.inert.balanced.append (IsType.ofPrimary (.named ht)).scanned.balanced
    have hclear' := hclear.append hf.tail hbalanced
    have hlen : p + 1 + (w :: (ts ++ [t])).length = p + 1 + 1 + ts.length + 1 := by simp; omega
    rw [hlen] at hclear'
    have hrest := ih hlast hclear'
    rwa [length_mark, show (Operator.cast w ts t).tokens = w :: (ts ++ [t]) from rfl, hlen]

theorem ValueBinding.crosses (b : ValueBinding) (hc : c.Spelt) (hclear : c.Clear p)
    (hf : c.From p (tokensOf (b.pieces Token.endsExpression) ++ rest)) :
    c.Crosses p (b.pieces Token.endsExpression) fun _ => false := by
  replace hf : c.From p (b.keyword :: b.name :: b.equals :: ((b.operand ++ [b.last]) ++
      (b.operators.flatMap Operator.tokens ++ b.semicolon :: rest))) := by
    rw [b.tokensOf_pieces] at hf
    simpa using hf
  have hname := hf.tail
  have hequals := hf.tail.tail
  have hkeyword : c.Quiet p := by
    have hbrace := hname.text_ne (m := "\x7b") hc b.isPlain.solid
    have hsquare := hname.text_ne (m := "[") hc b.isPlain.solid
    have hlast : c.bindingLast (p + 1) = some (p + 1) := by
      simp [bindingLast, hbrace, hsquare, hname.kind?, b.isPlain.1]
    refine hf.quiet_declarator b.isDeclarator (declaratorSpans_eq_nil hlast ?_)
    rw [hequals.text, b.isEquals.2]
    decide
  have hoperand := hequals.tail
  have hoperators := hoperand.append
  have hquiet := b.isOperand.quietOn hoperand
    (bangFree_after (hequals.endsExpression_punct b.isEquals (by decide)))
    (b.isOperators.onward b.isSemicolon hoperators)
  have hclear' : c.Clear (p + 1 + 1 + 1 + (b.operand ++ [b.last]).length) := by
    refine Clear.append ?_ hoperand b.isOperand.balanced
    have hdeclarator : Balanced [b.keyword] := by
      obtain ⟨s, -, hk⟩ := b.isDeclarator
      exact hk.inert.balanced
    exact ((hclear.cons hf hdeclarator).cons hname b.isPlain.inert.balanced).cons hequals
      (balanced_mark b.isEquals (by decide))
  have hchain : c.Crosses (p + 1 + 1 + 1 + (b.operand ++ [b.last]).length)
      (operatorPieces Token.endsExpression b.last b.operators) fun _ => false := by
    have hlast : c.From (p + 1 + 1 + 1 + b.operand.length) (b.last ::
        (b.operators.flatMap Operator.tokens ++ b.semicolon :: rest)) := by
      rw [List.append_assoc] at hoperand
      exact hoperand.append
    rw [List.length_append] at hclear' ⊢
    exact b.isOperators.crosses b.isSemicolon hlast hclear'
  have hend := hoperators.append
  have hlen := length_of_tokensOf
    (tokensOf_operatorPieces Token.endsExpression b.last b.operators)
  have htail : c.Crosses (p + 1 + 1 + 1 + (b.operand ++ [b.last]).length)
      (operatorPieces Token.endsExpression b.last b.operators ++ [keep b.semicolon])
      fun _ => false := by
    refine .append hchain ?_
    rw [hlen]
    exact hend.crosses_keep rfl (b.isSemicolon.idle.quiet hend)
  have hvalue := hequals.crosses_quietOn (b.isEquals.idle.quiet hequals) hquiet
  have hinitial := hvalue.append (by rwa [end_cons, length_mark])
  exact .cons (hf.crosses_keep rfl hkeyword)
    (.cons (hname.crosses_keep rfl (hname.quiet_plain b.isPlain)) hinitial)

theorem ValueBinding.erasedAs (b : ValueBinding) {source : String} {erased : Token → Bool}
    (hs : significant (tokenize .ts source) = tokensOf (b.pieces erased)) :
    ErasedAs source (b.pieces Token.endsExpression) := by
  rw [b.tokensOf_pieces, ← b.tokensOf_pieces Token.endsExpression] at hs
  exact erasedAs_of_crosses hs fun hf =>
    b.crosses (spelt_tokenize source) (fun o _ ho => absurd ho (Nat.not_lt_zero o)) hf

/-- Of the operators behind a value those are erased that stand behind a token which ends
an expression. So all of them are erased exactly when they all stand behind such tokens. -/
theorem erasedAs_operators (b : ValueBinding) {source : String}
    (hs : significant (tokenize .ts source) = tokensOf (b.pieces fun _ => true)) :
    ErasedAs source (b.pieces Token.endsExpression) ∧
      (ErasedAs source (b.pieces fun _ => true) ↔
        ∀ t ∈ preceding b.last b.operators, t.endsExpression = true) := by
  have h := b.erasedAs hs
  refine ⟨h, fun h' => (b.pieces_eq_iff _).mp (h'.unique h), fun hends => ?_⟩
  rwa [(b.pieces_eq_iff _).mpr hends]

def deletedTwice : String := "const y = m.delete(x) as N.T satisfies U;"

/-- The binding that `deletedTwice` is. -/
def deletedBinding : ValueBinding where
  keyword := onFirstLine .keyword "const" 0
  name := onFirstLine .identifier "y" 6
  equals := onFirstLine .punctuator "=" 8
  operand := [onFirstLine .identifier "m" 10, onFirstLine .punctuator "." 11,
    onFirstLine .keyword "delete" 12, onFirstLine .punctuator "(" 18,
    onFirstLine .identifier "x" 19]
  last := onFirstLine .punctuator ")" 20
  operators := [
    .cast (onFirstLine .keyword "as" 22) [onFirstLine .identifier "N" 25,
      onFirstLine .punctuator "." 26] (onFirstLine .identifier "T" 27),
    .cast (onFirstLine .keyword "satisfies" 29) [] (onFirstLine .identifier "U" 39)]
  semicolon := onFirstLine .punctuator ";" 40
  isDeclarator := ⟨"const", by decide, rfl, rfl⟩
  isPlain := by decide
  isEquals := ⟨rfl, rfl⟩
  isOperand := @IsOperand.call [_, _, _] _ [_] _ (@IsOperand.property [_] _ _
      (.expression (.atom (.inl (by decide)))) (.inl ⟨rfl, rfl⟩) (.inr ⟨rfl, by decide⟩)) ⟨rfl, rfl⟩
      (.last (.value (.atom (.inl (by decide))))) ⟨rfl, rfl⟩
  isOperators := .cast ⟨rfl, rfl⟩ (s := "as") (by decide) (.dotted (.inl (by decide)) ⟨rfl, rfl⟩
    (.name (.inl (by decide)))) (.cast ⟨rfl, rfl⟩ (s := "satisfies") (by decide)
    (.name (.inl (by decide))) .nil)
  isSemicolon := ⟨rfl, rfl⟩

theorem erasedAs_operators_deleted :
    significant (tokenize .ts deletedTwice) = tokensOf (deletedBinding.pieces fun _ => true) ∧
      ErasedAs deletedTwice (deletedBinding.pieces fun _ => true) := by
  have hs : significant (tokenize .ts deletedTwice) =
      tokensOf (deletedBinding.pieces fun _ => true) := by decide +kernel
  exact ⟨hs, (erasedAs_operators _ hs).2.mpr (by decide +kernel)⟩

def assertedTwice : String := "const y = x!!;"

def assertedBinding : ValueBinding where
  keyword := onFirstLine .keyword "const" 0
  name := onFirstLine .identifier "y" 6
  equals := onFirstLine .punctuator "=" 8
  operand := []
  last := onFirstLine .identifier "x" 10
  operators := [.assertion (onFirstLine .punctuator "!" 11),
    .assertion (onFirstLine .punctuator "!" 12)]
  semicolon := onFirstLine .punctuator ";" 13
  isDeclarator := ⟨"const", by decide, rfl, rfl⟩
  isPlain := by decide
  isEquals := ⟨rfl, rfl⟩
  isOperand := .expression (.atom (.inl (by decide)))
  isOperators := .assertion ⟨rfl, rfl⟩ rfl (.assertion ⟨rfl, rfl⟩ rfl .nil)
  isSemicolon := ⟨rfl, rfl⟩

/-- The second assertion stays. -/
theorem not_erasedAs_assertedTwice :
    significant (tokenize .ts assertedTwice) = tokensOf (assertedBinding.pieces fun _ => true) ∧
      eraseTypes .ts assertedTwice = some "const y = x !;" ∧
      ¬ ErasedAs assertedTwice (assertedBinding.pieces fun _ => true) := by
  have hs : significant (tokenize .ts assertedTwice) =
      tokensOf (assertedBinding.pieces fun _ => true) := by decide +kernel
  have hleft := assertedBinding.erasedAs hs
  refine ⟨hs, hleft.eraseTypes_eq.trans (by decide +kernel), fun h => ?_⟩
  have hends := (assertedBinding.pieces_eq_iff _).mp (h.unique hleft)
  exact absurd hends (by decide +kernel)

end Retouch.Erase
