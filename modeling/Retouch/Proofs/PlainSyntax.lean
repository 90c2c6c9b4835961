import Retouch.Proofs.Lockstep
import Retouch.Proofs.TypeSyntax

/-! The grammar of programs without types, as relations on token lists: modules,
declarations with patterns, functions with default values, and statements over
expressions. Operators have no precedence here, since only the order of the tokens
matters. -/

namespace Retouch.Syntax
open Retouch.Text

/-! ### Texts that are not marks -/

/-- Characters that begin a lexeme which is neither a blank nor a mark. -/
def beginsSolid (c : Char) : Bool :=
  beginsSpelled c || c ∈ ['/', '`', '\x7d']

/-- The kinds of blanks, marks and free text. -/
def Kind.IsLoose (k : Kind) : Prop := k = .whitespace ∨ k = .punctuator ∨ k = .jsxText

instance (k : Kind) : Decidable k.IsLoose := inferInstanceAs (Decidable (_ ∨ _))

/-- What is neither mark, blank nor free text begins like none of them. -/
theorem tokenize_begins_solid {d : Dialect} {source : String} {t : Token}
    (h : t ∈ tokenize d source) (hk : ¬ t.kind.IsLoose) :
    t.text.toList.head?.any beginsSolid = true := by
  obtain ⟨c, hc, hbegins⟩ := (Option.any_eq_true _ _).mp (tokenize_begins h)
  refine (Option.any_eq_true _ _).mpr ⟨c, hc, ?_⟩
  cases hkind : t.kind <;>
    simp_all [Kind.IsLoose, Kind.canBegin, beginsSolid, beginsSpelled, or_assoc]

/-- Marks by which the pass tells parameters and bodies. -/
def codeMarks : List String := "=>" :: listMarks

theorem codeMarks_solid : ∀ m ∈ codeMarks, m.toList.head?.any beginsSolid = false := by
  decide

theorem tokenize_solid {d : Dialect} {source : String} {t : Token} (h : t ∈ tokenize d source)
    (hk : ¬ t.kind.IsLoose) : t.text ∉ codeMarks := by
  intro hm
  have hmark := codeMarks_solid _ hm
  rw [tokenize_begins_solid h hk] at hmark
  cases hmark

/-! ### Tokens by their role -/

namespace Token

/-- A chunk at which a template literal ends. -/
def ClosesTemplate (t : Token) : Prop :=
  t.kind = .template ∧ Code.closesTemplate t.text = true

/-- A chunk after which a substitution begins. -/
def OpensHole (t : Token) : Prop :=
  t.kind = .template ∧ ['$', '\x7b'].isSuffixOf t.text.toList = true

/-- A name or a literal of one token. -/
def IsAtom (t : Token) : Prop :=
  t.IsPlain ∨ (∃ s ∈ ["this", "null", "true", "false"], t.IsKeyword s) ∨
    t.kind = .number ∨ t.kind = .string ∨ t.kind = .regex ∨ t.ClosesTemplate

/-- The name of a property. -/
def IsKey (t : Token) : Prop := t.IsPlain ∨ t.kind = .string ∨ t.kind = .number

/-- Operators between two operands, assignments included. -/
def binaryOperators : List String :=
  ["+", "-", "*", "/", "%", "**", "==", "!=", "===", "!==", ">", "<=", ">=", "&&", "||", "??",
    "&", "|", "^", "<<", ">>", ">>>", "=", "+=", "-=", "*=", "/=", "%=", "**=", "<<=", ">>=",
    ">>>=", "&=", "|=", "^=", "&&=", "||=", "??="]

def IsBinary (t : Token) : Prop :=
  (∃ s ∈ binaryOperators, t.IsPunct s) ∨ t.IsKeyword "in" ∨ t.IsKeyword "instanceof"

/-- A word that declares variables. -/
def IsDeclarator (t : Token) : Prop := ∃ s ∈ ["const", "let", "var"], t.IsKeyword s

variable {t : Token}

theorem IsPlain.solid (h : t.IsPlain) : ¬ t.kind.IsLoose := by
  rw [h.1]
  decide

theorem IsWord.solid {s : String} (h : t.IsWord s) : ¬ t.kind.IsLoose := by
  rcases h.1 with hk | hk <;> rw [hk] <;> decide

theorem ClosesTemplate.solid (h : t.ClosesTemplate) : ¬ t.kind.IsLoose := by
  rw [h.1]
  decide

theorem OpensHole.solid (h : t.OpensHole) : ¬ t.kind.IsLoose := by
  rw [h.1]
  decide

theorem IsAtom.solid (h : t.IsAtom) : ¬ t.kind.IsLoose := by
  rcases h with h | ⟨s, -, h⟩ | h | h | h | h
  · exact h.solid
  · exact h.word.solid
  · rw [h]; decide
  · rw [h]; decide
  · rw [h]; decide
  · exact h.solid

theorem IsKey.solid (h : t.IsKey) : ¬ t.kind.IsLoose := by
  rcases h with h | h | h
  · exact h.solid
  · rw [h]; decide
  · rw [h]; decide

end Token

end Retouch.Syntax

namespace Retouch.Plain
open Syntax Token

/-! ### Expressions -/

/-- The parts that expressions and patterns are made of. An item is keyed between
braces. -/
inductive Part where
  | single
  | item (keyed : Bool)
  | items (keyed : Bool)
  /-- A template literal past its first chunk. -/
  | chunks
  deriving DecidableEq, Repr

inductive IsExpression : Part → List Token → Prop
  | atom {t} : IsAtom t → IsExpression .single [t]
  | template {t ts} : OpensHole t → IsExpression .chunks ts → IsExpression .single (t :: ts)
  | lastChunk {ts z} : IsExpression .single ts → ClosesTemplate z → IsExpression .chunks (ts ++ [z])
  | chunk {ts m us} : IsExpression .single ts → OpensHole m → IsExpression .chunks us →
      IsExpression .chunks (ts ++ m :: us)
  | group {o ts z} : IsPunct o "(" → IsExpression .single ts → IsPunct z ")" →
      IsExpression .single (o :: (ts ++ [z]))
  | array {o ts z} : IsPunct o "[" → IsExpression (.items false) ts → IsPunct z "]" →
      IsExpression .single (o :: (ts ++ [z]))
  | object {o ts z} : IsPunct o "\x7b" → IsExpression (.items true) ts → IsPunct z "\x7d" →
      IsExpression .single (o :: (ts ++ [z]))
  | call {fs o ts z} : IsExpression .single fs → IsPunct o "(" → IsExpression (.items false) ts →
      IsPunct z ")" → IsExpression .single (fs ++ o :: (ts ++ [z]))
  | member {ts d n} : IsExpression .single ts → IsPunct d "." → IsPlain n →
      IsExpression .single (ts ++ [d, n])
  | chain {ts d n} : IsExpression .single ts → IsPunct d "?." → IsPlain n →
      IsExpression .single (ts ++ [d, n])
  | index {es o ts z} : IsExpression .single es → IsPunct o "[" → IsExpression .single ts →
      IsPunct z "]" → IsExpression .single (es ++ o :: (ts ++ [z]))
  | binary {xs o ys} : IsExpression .single xs → IsBinary o → IsExpression .single ys →
      IsExpression .single (xs ++ o :: ys)
  | conditional {xs q ys d zs} : IsExpression .single xs → IsPunct q "?" →
      IsExpression .single ys → IsPunct d ":" → IsExpression .single zs →
      IsExpression .single (xs ++ q :: (ys ++ d :: zs))
  | not {b ts} : IsPunct b "!" → IsExpression .single ts → IsExpression .single (b :: ts)
  | value {ts} : IsExpression .single ts → IsExpression (.item false) ts
  | property {k d ts} : IsKey k → IsPunct d ":" → IsExpression .single ts →
      IsExpression (.item true) (k :: d :: ts)
  | shorthand {t} : IsPlain t → IsExpression (.item true) [t]
  | none {b} : IsExpression (.items b) []
  | last {b ts} : IsExpression (.item b) ts → IsExpression (.items b) ts
  | more {b ts d us} : IsExpression (.item b) ts → IsPunct d "," → IsExpression (.items b) us →
      IsExpression (.items b) (ts ++ d :: us)
  /-- A place of an array that is left out. -/
  | hole {d ts} : IsPunct d "," → IsExpression (.items false) ts →
      IsExpression (.items false) (d :: ts)

/-! ### Patterns

The items of an unkeyed pattern with their default values are also the parameters
of a function and the bindings of a declaration. -/

inductive IsPattern : Part → List Token → Prop
  | name {t} : IsPlain t → IsPattern .single [t]
  | array {o ts z} : IsPunct o "[" → IsPattern (.items false) ts → IsPunct z "]" →
      IsPattern .single (o :: (ts ++ [z]))
  | object {o ts z} : IsPunct o "\x7b" → IsPattern (.items true) ts → IsPunct z "\x7d" →
      IsPattern .single (o :: (ts ++ [z]))
  | element {ts} : IsPattern .single ts → IsPattern (.item false) ts
  | property {k d ts} : IsKey k → IsPunct d ":" → IsPattern .single ts →
      IsPattern (.item true) (k :: d :: ts)
  | shorthand {t} : IsPlain t → IsPattern (.item true) [t]
  | initialised {b ts e es} : IsPattern (.item b) ts → IsPunct e "=" → IsExpression .single es →
      IsPattern (.item b) (ts ++ e :: es)
  | none {b} : IsPattern (.items b) []
  | last {b ts} : IsPattern (.item b) ts → IsPattern (.items b) ts
  | more {b ts d us} : IsPattern (.item b) ts → IsPunct d "," → IsPattern (.items b) us →
      IsPattern (.items b) (ts ++ d :: us)

/-! ### Imports and exports -/

/-- A name in a module. -/
def IsExportName (t : Token) : Prop := t.IsPlain ∨ t.IsKeyword "default"

inductive IsSpecifier : List Token → Prop
  | same {a} : IsExportName a → IsSpecifier [a]
  | renamed {a w b} : IsExportName a → IsWord w "as" → IsExportName b → IsSpecifier [a, w, b]

inductive IsSpecifiers : List Token → Prop
  | none : IsSpecifiers []
  | last {ts} : IsSpecifier ts → IsSpecifiers ts
  | more {ts d us} : IsSpecifier ts → IsPunct d "," → IsSpecifiers us → IsSpecifiers (ts ++ d :: us)

/-- A star, or a star with a name. -/
inductive IsNamespace : List Token → Prop
  | whole {m} : IsPunct m "*" → IsNamespace [m]
  | named {m w n} : IsPunct m "*" → IsWord w "as" → IsExportName n → IsNamespace [m, w, n]

/-- What is imported, or exported from another module. -/
inductive IsClause : List Token → Prop
  | named {o ts z} : IsPunct o "\x7b" → IsSpecifiers ts → IsPunct z "\x7d" →
      IsClause (o :: (ts ++ [z]))
  | star {ts} : IsNamespace ts → IsClause ts

/-- Statements that end with a semicolon, without it. -/
inductive IsSimple : List Token → Prop
  | expression {t ts} : IsExpression .single (t :: ts) → ¬ IsPunct t "!" → IsSimple (t :: ts)
  | declaration {k ts} : IsDeclarator k → IsPattern (.items false) ts → ts ≠ [] → IsSimple (k :: ts)
  | giveBack {r} : IsKeyword r "return" → IsSimple [r]
  | giveBackValue {r ts} : IsKeyword r "return" → IsExpression .single ts → IsSimple (r :: ts)
  | importEffects {i m} : IsKeyword i "import" → m.kind = .string → IsSimple [i, m]
  | importDefault {i d f m} : IsKeyword i "import" → IsPlain d → IsWord f "from" →
      m.kind = .string → IsSimple [i, d, f, m]
  | importClause {i ts f m} : IsKeyword i "import" → IsClause ts → IsWord f "from" →
      m.kind = .string → IsSimple (i :: (ts ++ [f, m]))
  | importBoth {i d s ts f m} : IsKeyword i "import" → IsPlain d → IsPunct s "," → IsClause ts →
      IsWord f "from" → m.kind = .string → IsSimple (i :: d :: s :: (ts ++ [f, m]))
  | exportClause {e ts} : IsKeyword e "export" → IsClause ts → IsSimple (e :: ts)
  | exportFrom {e ts f m} : IsKeyword e "export" → IsClause ts → IsWord f "from" →
      m.kind = .string → IsSimple (e :: (ts ++ [f, m]))
  | exportDefault {e d ts} : IsKeyword e "export" → IsKeyword d "default" →
      IsExpression .single ts → IsSimple (e :: d :: ts)

/-! ### Statements -/

/-- What a loop assigns to. -/
inductive IsTarget : List Token → Prop
  | declared {k ts} : IsDeclarator k → IsPattern .single ts → IsTarget (k :: ts)
  | place {ts} : IsExpression .single ts → IsTarget ts

inductive StatementPart where
  | one
  | many
  deriving DecidableEq, Repr

inductive IsStatement : StatementPart → List Token → Prop
  | simple {ts s} : IsSimple ts → IsPunct s ";" → IsStatement .one (ts ++ [s])
  | block {o ts z} : IsPunct o "\x7b" → IsStatement .many ts → IsPunct z "\x7d" →
      IsStatement .one (o :: (ts ++ [z]))
  | function {f n o ps z b ts e} : IsKeyword f "function" → IsPlain n → IsPunct o "(" →
      IsPattern (.items false) ps → IsPunct z ")" → IsPunct b "\x7b" → IsStatement .many ts →
      IsPunct e "\x7d" → IsStatement .one (f :: n :: o :: (ps ++ z :: b :: (ts ++ [e])))
  /-- An exported declaration. -/
  | exported {e k ts} : IsKeyword e "export" → IsDeclarator k ∨ IsKeyword k "function" →
      IsStatement .one (k :: ts) → IsStatement .one (e :: k :: ts)
  | exportedDefault {e d k ts} : IsKeyword e "export" → IsKeyword d "default" →
      IsKeyword k "function" → IsStatement .one (k :: ts) → IsStatement .one (e :: d :: k :: ts)
  | ifThen {i o es z ts} : IsKeyword i "if" → IsPunct o "(" → IsExpression .single es →
      IsPunct z ")" → IsStatement .one ts → IsStatement .one (i :: o :: (es ++ z :: ts))
  | ifElse {i o es z ts e us} : IsKeyword i "if" → IsPunct o "(" → IsExpression .single es →
      IsPunct z ")" → IsStatement .one ts → IsKeyword e "else" → IsStatement .one us →
      IsStatement .one (i :: o :: (es ++ z :: (ts ++ e :: us)))
  | loop {w o es z ts} : IsKeyword w "while" → IsPunct o "(" → IsExpression .single es →
      IsPunct z ")" → IsStatement .one ts → IsStatement .one (w :: o :: (es ++ z :: ts))
  | forOf {f o xs w t es z ts} : IsKeyword f "for" → IsPunct o "(" → IsTarget xs →
      IsWord w "of" → IsExpression .single (t :: es) → ¬ IsPunct t "!" → IsPunct z ")" →
      IsStatement .one ts → IsStatement .one (f :: o :: (xs ++ w :: t :: (es ++ z :: ts)))
  | labelled {l d ts} : IsPlain l → IsPunct d ":" → IsStatement .one ts →
      IsStatement .one (l :: d :: ts)
  | none : IsStatement .many []
  | more {ts us} : IsStatement .one ts → IsStatement .many us → IsStatement .many (ts ++ us)
  /-- The last statement may be ended by what closes the block. -/
  | last {ts} : IsSimple ts → IsStatement .many ts

/-! ### Brackets match -/

section
variable {t o z : Token} {s : String} {ts : List Token}

theorem balanced_solid (h : ¬ t.kind.IsLoose) : Balanced [t] := by
  have hk : t.kind ≠ .punctuator := fun hk => h (.inr (.inl hk))
  exact .single (opener?_of_kind hk) (closer?_of_kind hk)

theorem balanced_mark (h : t.IsPunct s)
    (hs : s ∉ ["(", "[", "\x7b", ")", "]", "\x7d"]) : Balanced [t] := by
  simp only [List.mem_cons, List.not_mem_nil, or_false, not_or] at hs
  refine .single ?_ ?_
  · simp [opener?, h.1, h.2, hs]
  · simp [closer?, h.1, h.2, hs]

theorem balanced_binary (h : t.IsBinary) : Balanced [t] := by
  rcases h with ⟨s, hs, h⟩ | h | h
  · have hmarks : ∀ s ∈ binaryOperators, s ∉ ["(", "[", "\x7b", ")", "]", "\x7d"] := by decide
    exact balanced_mark h (hmarks s hs)
  · exact balanced_solid h.word.solid
  · exact balanced_solid h.word.solid

theorem balanced_round (ho : o.IsPunct "(") (h : Balanced ts) (hz : z.IsPunct ")") :
    Balanced (o :: (ts ++ [z])) := .bracketed (ho.opens .round) (hz.closes .round) h

theorem balanced_square (ho : o.IsPunct "[") (h : Balanced ts) (hz : z.IsPunct "]") :
    Balanced (o :: (ts ++ [z])) := .bracketed (ho.opens .square) (hz.closes .square) h

theorem balanced_curly (ho : o.IsPunct "\x7b") (h : Balanced ts) (hz : z.IsPunct "\x7d") :
    Balanced (o :: (ts ++ [z])) := .bracketed (ho.opens .curly) (hz.closes .curly) h

end

theorem IsExpression.balanced {part : Part} {ts : List Token} (h : IsExpression part ts) :
    Balanced ts := by
  induction h with
  | atom ht => exact balanced_solid ht.solid
  | template ht _ ih => exact .cons (balanced_solid ht.solid) ih
  | lastChunk _ hz ih => exact ih.append (balanced_solid hz.solid)
  | chunk _ hm _ ih ihu => exact ih.append (.cons (balanced_solid hm.solid) ihu)
  | group ho _ hz ih => exact balanced_round ho ih hz
  | array ho _ hz ih => exact balanced_square ho ih hz
  | object ho _ hz ih => exact balanced_curly ho ih hz
  | call _ ho _ hz ihf ih => exact ihf.append (balanced_round ho ih hz)
  | member _ hd hn ih | chain _ hd hn ih =>
    exact ih.append (.cons (balanced_mark hd (by decide)) (balanced_solid hn.solid))
  | index _ ho _ hz ihe ih => exact ihe.append (balanced_square ho ih hz)
  | binary _ ho _ ihx ihy => exact ihx.append (.cons (balanced_binary ho) ihy)
  | conditional _ hq _ hd _ ihx ihy ihz =>
    exact ihx.append (.cons (balanced_mark hq (by decide))
      (ihy.append (.cons (balanced_mark hd (by decide)) ihz)))
  | not hb _ ih => exact .cons (balanced_mark hb (by decide)) ih
  | value _ ih => exact ih
  | property hk hd _ ih =>
    exact .cons (balanced_solid hk.solid) (.cons (balanced_mark hd (by decide)) ih)
  | shorthand ht => exact balanced_solid ht.solid
  | none => exact .nil
  | last _ ih => exact ih
  | more _ hd _ ih ihu => exact ih.append (.cons (balanced_mark hd (by decide)) ihu)
  | hole hd _ ih => exact .cons (balanced_mark hd (by decide)) ih

theorem IsPattern.balanced {part : Part} {ts : List Token} (h : IsPattern part ts) :
    Balanced ts := by
  induction h with
  | name ht => exact balanced_solid ht.solid
  | array ho _ hz ih => exact balanced_square ho ih hz
  | object ho _ hz ih => exact balanced_curly ho ih hz
  | element _ ih => exact ih
  | property hk hd _ ih =>
    exact .cons (balanced_solid hk.solid) (.cons (balanced_mark hd (by decide)) ih)
  | shorthand ht => exact balanced_solid ht.solid
  | initialised _ he hes ih => exact ih.append (.cons (balanced_mark he (by decide)) hes.balanced)
  | none => exact .nil
  | last _ ih => exact ih
  | more _ hd _ ih ihu => exact ih.append (.cons (balanced_mark hd (by decide)) ihu)

/-! ### First tokens -/

/-- Tokens that an operand or a statement can begin with. -/
def Begins (t : Token) : Prop :=
  ¬ t.kind.IsLoose ∨ ∃ s ∈ ["(", "[", "\x7b", "!"], t.IsPunct s

theorem IsExpression.begins {ts : List Token} (h : IsExpression .single ts) :
    ∃ t us, ts = t :: us ∧ Begins t := by
  generalize hp : Part.single = part at h
  induction h with
  | atom ht => exact ⟨_, [], rfl, .inl ht.solid⟩
  | template ht _ _ => exact ⟨_, _, rfl, .inl ht.solid⟩
  | group ho _ _ _ | array ho _ _ _ | object ho _ _ _ => exact ⟨_, _, rfl, .inr ⟨_, by simp, ho⟩⟩
  | not hb _ _ => exact ⟨_, _, rfl, .inr ⟨_, by simp, hb⟩⟩
  | call _ _ _ _ ih _ | member _ _ _ ih | chain _ _ _ ih | index _ _ _ _ ih _ | binary _ _ _ ih _
  | conditional _ _ _ _ _ ih _ _ =>
    obtain ⟨t, us, rfl, ht⟩ := ih rfl
    exact ⟨t, _, rfl, ht⟩
  | lastChunk | chunk | value | property | shorthand | none | last | more | hole => cases hp

end Retouch.Plain
