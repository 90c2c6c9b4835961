import Retouch.Proofs.Brackets
import Retouch.Erase.TypeExtent

/-! The grammar of types, as a relation on token lists. A type may stand inside
type arguments, and the brackets that close those may be fused with its own last
one (`A<B<C>>` ends with one token). So every derivation carries a number: how
many angle brackets its tokens close beyond those they open. A type on its own
closes none.

Three facts hold of every derivation, whatever stands around it. Its brackets
match, it ends with a token that ends a type, and a scan of angle brackets that
enters it comes out at the depth that the number says. -/

namespace Retouch
open Syntax

/-! ### Tokens by their role -/

namespace Syntax.Token

def IsPunct (t : Token) (s : String) : Prop := t.kind = .punctuator ∧ t.text = s

def IsKeyword (t : Token) (s : String) : Prop := t.kind = .keyword ∧ t.text = s

/-- A contextual word may be a keyword or a name. -/
def IsWord (t : Token) (s : String) : Prop :=
  (t.kind = .identifier ∨ t.kind = .keyword) ∧ t.text = s

/-- An ordinary name, which is a name wherever it stands. -/
def IsPlain (t : Token) : Prop :=
  t.kind = .identifier ∧ t.text ∉ reserved ∧ t.text ∉ contextual ∧ t.text ∉ typedContextual

/-- A part of the name of a type. -/
def IsTypeName (t : Token) : Prop :=
  t.IsPlain ∨ ∃ s ∈ ["void", "null", "true", "false", "this"], t.IsKeyword s

def IsLiteral (t : Token) : Prop := t.kind = .number ∨ t.kind = .string

def IsBar (t : Token) : Prop := t.IsPunct "|" ∨ t.IsPunct "&"

instance (t : Token) : Decidable t.IsPlain := inferInstanceAs (Decidable (_ ∧ _))

instance (t : Token) (s : String) : Decidable (t.IsPunct s) := inferInstanceAs (Decidable (_ ∧ _))

instance (t : Token) (s : String) : Decidable (t.IsWord s) := inferInstanceAs (Decidable (_ ∧ _))

/-- Several closing angle brackets can be one token. -/
def IsClosing (t : Token) (n : Nat) : Prop :=
  ∃ s, (s, n) ∈ [(">", 1), (">>", 2), (">>>", 3)] ∧ t.IsPunct s

def IsOperator (t : Token) : Prop :=
  ∃ s ∈ ["keyof", "typeof", "readonly", "unique", "infer", "asserts"], t.IsWord s

end Syntax.Token

def Bracket.opening : Bracket → String
  | round => "("
  | square => "["
  | curly => "\x7b"

def Bracket.closing : Bracket → String
  | round => ")"
  | square => "]"
  | curly => "\x7d"

theorem Syntax.Token.IsPunct.opens {t : Token} (b : Bracket) (h : t.IsPunct b.opening) :
    opener? t = some b := by
  cases b <;> simp [opener?, h.1, h.2, Bracket.opening]

theorem Syntax.Token.IsPunct.closes {t : Token} (b : Bracket) (h : t.IsPunct b.closing) :
    closer? t = some b := by
  cases b <;> simp [closer?, h.1, h.2, Bracket.closing]

/-! ### The grammar -/

/-- The parts that types are made of. A type is `trailing` when it runs on to the
end of the type around it, so that no suffix or bar can follow. -/
inductive TypePart where
  | name
  | primary
  | suffixed
  | operand
  | function
  | callable
  | trailing
  | chain (trailing : Bool)
  | union (trailing : Bool)
  | whole
  /-- One of a list of type arguments, or of declared type parameters. -/
  | entry (declared : Bool)
  /-- Such a list with the bracket that closes it. -/
  | entries (declared : Bool)
  /-- A template literal past its first chunk. -/
  | chunks
  deriving DecidableEq, Repr

open Token in
/-- `IsType part n ts`: the tokens `ts` are such a part of a type, and close `n`
angle brackets more than they open. -/
inductive IsType : TypePart → Nat → List Token → Prop
  | name {t} : IsTypeName t → IsType .name 0 [t]
  | dotted {t d ts} : IsTypeName t → IsPunct d "." → IsType .name 0 ts →
      IsType .name 0 (t :: d :: ts)
  | named {ts} : IsType .name 0 ts → IsType .primary 0 ts
  | generic {n ts lt as} : IsType .name 0 ts → IsPunct lt "<" →
      IsType (.entries false) (n + 1) as → IsType .primary n (ts ++ lt :: as)
  | literal {t} : IsLiteral t → IsType .primary 0 [t]
  | negative {m t} : IsPunct m "-" → t.kind = .number → IsType .primary 0 [m, t]
  | template {t} : t.kind = .template → Code.closesTemplate t.text = true → IsType .primary 0 [t]
  | substituted {t ts} : t.kind = .template → Code.closesTemplate t.text = false →
      IsType .chunks 0 ts → IsType .primary 0 (t :: ts)
  /-- A parenthesised type, an object type or a tuple. -/
  | group {o z b xs} : opener? o = some b → closer? z = some b → Balanced xs →
      IsType .primary 0 (o :: (xs ++ [z]))
  | lastChunk {ts z} : IsType .whole 0 ts → (∀ t ∈ ts, t.kind ≠ .template) → z.kind = .template →
      ['`'].isSuffixOf z.text.toList = true → IsType .chunks 0 (ts ++ [z])
  | chunk {ts z us} : IsType .whole 0 ts → (∀ t ∈ ts, t.kind ≠ .template) → z.kind = .template →
      ['`'].isSuffixOf z.text.toList = false → IsType .chunks 0 us →
      IsType .chunks 0 (ts ++ z :: us)
  | primary {n ts} : IsType .primary n ts → IsType .suffixed n ts
  /-- An index suffix starts on the line where the type before it ends. -/
  | index {ts t o xs z} : IsType .suffixed 0 (ts ++ [t]) → t.stop.line = o.start.line →
      IsPunct o "[" → Balanced xs → IsPunct z "]" →
      IsType .suffixed 0 (ts ++ t :: o :: (xs ++ [z]))
  | suffixed {n ts} : IsType .suffixed n ts → IsType .operand n ts
  | operator {n t ts} : IsOperator t → IsType .operand n ts → IsType .operand n (t :: ts)
  | function {n o xs z a ts} : IsPunct o "(" → Balanced xs → IsPunct z ")" → IsPunct a "=>" →
      IsType .whole n ts → IsType .function n (o :: (xs ++ z :: a :: ts))
  | callable {n ts} : IsType .function n ts → IsType .callable n ts
  | polymorphic {n lt as ts} : IsPunct lt "<" → IsType (.entries true) 1 as →
      IsType .function n ts → IsType .callable n (lt :: (as ++ ts))
  | trailing {n ts} : IsType .callable n ts → IsType .trailing n ts
  | constructor {n w ts} : IsKeyword w "new" → IsType .callable n ts → IsType .trailing n (w :: ts)
  | predicate {n ts w us} : IsType .name 0 ts → IsWord w "is" → IsType .whole n us →
      IsType .trailing n (ts ++ w :: us)
  | operatorOn {n t ts} : IsOperator t → IsType .trailing n ts → IsType .trailing n (t :: ts)
  | member {n ts} : IsType .operand n ts → IsType (.chain false) n ts
  | lastMember {n ts} : IsType .trailing n ts → IsType (.chain true) n ts
  | bar {n b ts o us} : IsType .operand 0 ts → IsBar o → IsType (.chain b) n us →
      IsType (.chain b) n (ts ++ o :: us)
  | union {n b ts} : IsType (.chain b) n ts → IsType (.union b) n ts
  | leading {n b o ts} : IsBar o → IsType (.chain b) n ts → IsType (.union b) n (o :: ts)
  | whole {n b ts} : IsType (.union b) n ts → IsType .whole n ts
  /-- The type tested against is no conditional type itself, unless in brackets. -/
  | conditional {n b xs e ys q us d vs} : IsType (.union false) 0 xs → IsKeyword e "extends" →
      IsType (.union b) 0 ys → IsPunct q "?" → IsType .whole 0 us → IsPunct d ":" →
      IsType .whole n vs → IsType .whole n (xs ++ e :: (ys ++ q :: (us ++ d :: vs)))
  | argument {n ts} : IsType .whole n ts → IsType (.entry false) n ts
  | parameter {t} : IsPlain t → IsType (.entry true) 0 [t]
  | bounded {n t e ts} : IsPlain t → IsKeyword e "extends" → IsType .whole n ts →
      IsType (.entry true) n (t :: e :: ts)
  | close {n b ts z} : IsType (.entry b) 0 ts → IsClosing z n → IsType (.entries b) n (ts ++ [z])
  /-- The last entry brings the closing bracket with it. -/
  | fused {n b ts} : IsType (.entry b) (n + 1) ts → IsType (.entries b) (n + 1) ts
  | more {n b ts d us} : IsType (.entry b) 0 ts → IsPunct d "," → IsType (.entries b) n us →
      IsType (.entries b) n (ts ++ d :: us)

/-! ### Scans that cross a type -/

namespace Syntax.Token

/-- Tokens that scans pass over one by one: no brackets, and no angle brackets. -/
def IsInert (t : Token) : Prop :=
  t.kind ∈ [.identifier, .keyword, .number, .string, .template] ∨
    ∃ s ∈ [",", ".", "|", "&", "?", ":", "=>", "-"], t.IsPunct s

variable {t : Token} {s : String}

theorem IsWord.inert (h : t.IsWord s) : t.IsInert := by
  rcases h.1 with hk | hk <;> exact Or.inl (by simp [hk])

theorem IsKeyword.word (h : t.IsKeyword s) : t.IsWord s := ⟨Or.inr h.1, h.2⟩

theorem IsKeyword.inert (h : t.IsKeyword s) : t.IsInert := h.word.inert

theorem IsPlain.inert (h : t.IsPlain) : t.IsInert := Or.inl (by simp [h.1])

theorem IsTypeName.inert (h : t.IsTypeName) : t.IsInert := by
  rcases h with h | ⟨s, -, h⟩
  · exact h.inert
  · exact h.inert

theorem IsOperator.inert (h : t.IsOperator) : t.IsInert := by
  obtain ⟨s, -, h⟩ := h
  exact h.inert

theorem IsLiteral.inert (h : t.IsLiteral) : t.IsInert := by
  rcases h with h | h <;> exact Or.inl (by simp [h])

theorem IsBar.inert (h : t.IsBar) : t.IsInert := by
  rcases h with h | h
  · exact Or.inr ⟨_, by simp, h⟩
  · exact Or.inr ⟨_, by simp, h⟩

theorem IsPunct.inert (h : t.IsPunct s)
    (hs : s ∈ [",", ".", "|", "&", "?", ":", "=>", "-"] := by simp) : t.IsInert :=
  Or.inr ⟨s, hs, h⟩

/-- Tokens that can end a type: none of those that can stand before the braces of
an import or an export. -/
def EndsType (t : Token) : Prop :=
  ¬ t.IsPunct "," ∧ ∀ s ∈ ["import", "export", "type"], ¬ t.IsWord s

theorem endsType_of_punct (h : t.IsPunct s) (hs : s ≠ ",") : t.EndsType := by
  refine ⟨fun hp => hs (h.2.symm.trans hp.2), fun w _ hw => ?_⟩
  rcases hw.1 with hk | hk <;> rw [h.1] at hk <;> cases hk

theorem endsType_of_kind (h : t.kind ∉ [.identifier, .keyword, .punctuator]) : t.EndsType := by
  refine ⟨fun hp => h (by simp [hp.1]), fun w _ hw => ?_⟩
  rcases hw.1 with hk | hk <;> exact h (by simp [hk])

theorem endsType_of_word (h : t.IsWord s) (hs : s ∉ ["import", "export", "type"]) :
    t.EndsType := by
  refine ⟨fun hp => ?_, fun w hm hw => hs (h.2.symm.trans hw.2 ▸ hm)⟩
  rcases h.1 with hk | hk <;> rw [hp.1] at hk <;> cases hk

/-- A plain name is none of the words of the language. -/
theorem IsPlain.notMem {words : List String} (h : t.IsPlain)
    (hw : ∀ w ∈ words, w ∈ reserved ++ contextual ++ typedContextual) : t.text ∉ words := by
  intro hm
  obtain ⟨-, hr, hc, ht⟩ := h
  rcases List.mem_append.mp (hw _ hm) with hm | hm
  · rcases List.mem_append.mp hm with hm | hm
    · exact hr hm
    · exact hc hm
  · exact ht hm

theorem IsPlain.endsType (h : t.IsPlain) : t.EndsType :=
  endsType_of_word ⟨Or.inl h.1, rfl⟩ (h.notMem (by decide))

theorem IsTypeName.endsType (h : t.IsTypeName) : t.EndsType := by
  rcases h with h | ⟨s, hs, h⟩
  · exact h.endsType
  · have hvalues : ∀ s ∈ ["void", "null", "true", "false", "this"],
        s ∉ ["import", "export", "type"] := by decide
    exact endsType_of_word h.word (hvalues s hs)

theorem IsLiteral.endsType (h : t.IsLiteral) : t.EndsType := by
  rcases h with h | h <;> exact endsType_of_kind (by simp [h])

theorem IsClosing.endsType {n : Nat} (h : t.IsClosing n) : t.EndsType := by
  obtain ⟨s, hs, h⟩ := h
  refine endsType_of_punct h fun he => ?_
  simp [he] at hs

theorem endsType_of_closer? {b : Bracket} (h : closer? t = some b) : t.EndsType := by
  refine ⟨fun hp => by simp [closer?, hp.2] at h, fun w _ hw => ?_⟩
  rcases hw.1 with hk | hk <;> simp [closer?, hk] at h

theorem IsPunct.balanced (h : t.IsPunct s)
    (hs : s ∉ ["(", "[", "\x7b", ")", "]", "\x7d"] := by simp) : Balanced [t] := by
  obtain ⟨hk, rfl⟩ := h
  refine .single ?_ ?_
  · rw [opener?, if_pos hk]
    split <;> simp_all
  · rw [closer?, if_pos hk]
    split <;> simp_all

theorem IsInert.balanced (h : t.IsInert) : Balanced [t] := by
  rcases h with h | ⟨s, hs, hp⟩
  · have hk : t.kind ≠ .punctuator := by
      intro he
      simp [he] at h
    exact .single (opener?_of_kind hk) (closer?_of_kind hk)
  · have hmarks : ∀ s ∈ [",", ".", "|", "&", "?", ":", "=>", "-"],
        s ∉ ["(", "[", "\x7b", ")", "]", "\x7d"] := by decide
    exact hp.balanced (hmarks s hs)

end Syntax.Token

namespace Code

/-- Where a scan of angle brackets goes on after an item: it is over at depth 0. -/
def anglesOn (c : Code) (q : Nat) (d : Int) : Option Nat :=
  if d = 0 then some q else c.anglesFrom q d

theorem anglesFrom_item {c : Code} {p last : Nat} {d e : Int}
    (h : c.angleItem p d = some (last, e)) (he : 0 ≤ e) :
    c.anglesFrom p d = c.anglesOn (last + 1) e := by
  rw [anglesFrom, anglesOn]
  split
  · simp_all
  · rename_i l e' h'
    rw [h, Option.some.injEq, Prod.mk.injEq] at h'
    obtain ⟨rfl, rfl⟩ := h'
    rw [if_neg (by omega : ¬ e < 0)]

theorem anglesOn_of_pos {c : Code} {q : Nat} {d : Int} (h : 0 < d) :
    c.anglesOn q d = c.anglesFrom q d := if_neg (by omega)

end Code

/-- What scans find in the tokens of a type, in whatever code they stand: their
brackets match, and they close `n` angle brackets beyond their own. -/
structure Scanned (n : Nat) (ts : List Token) : Prop where
  balanced : Balanced ts
  angles : ∀ {c : Code} {p : Nat} {rest : List Token} {d : Int}, c.From p (ts ++ rest) →
    0 < d → n ≤ d → c.anglesFrom p d = c.anglesOn (p + ts.length) (d - n)

namespace Scanned
open Token
variable {n : Nat} {t o z : Token} {xs ys : List Token}

theorem append (hx : Scanned 0 xs) (hy : Scanned n ys) : Scanned n (xs ++ ys) where
  balanced := hx.balanced.append hy.balanced
  angles {c p rest d} h hd hn := by
    rw [List.append_assoc] at h
    rw [hx.angles h hd (by omega), Int.natCast_zero, Int.sub_zero, Code.anglesOn_of_pos hd,
      hy.angles h.append hd hn, List.length_append, Nat.add_assoc]

theorem token (h : t.IsInert) : Scanned 0 [t] where
  balanced := h.balanced
  angles {c p rest d} hf hd _ := by
    have hi : c.angleItem p d = some (p, d) := by
      unfold Code.angleItem
      rw [hf.kind?, hf.text]
      rcases h with h | ⟨s, hs, hk, rfl⟩
      · simp only [List.mem_cons, List.not_mem_nil, or_false] at h
        rcases h with h | h | h | h | h <;> rw [h]
      · simp only [List.mem_cons, List.not_mem_nil, or_false] at hs
        rcases hs with h | h | h | h | h | h | h | h <;> simp [hk, h, Code.angleWeight]
    simpa using Code.anglesFrom_item hi (by omega)

theorem cons (h : t.IsInert) (hx : Scanned n xs) : Scanned n (t :: xs) := (token h).append hx

theorem group {b : Bracket} (ho : opener? o = some b) (hz : closer? z = some b)
    (hx : Balanced xs) : Scanned 0 (o :: (xs ++ [z])) where
  balanced := .bracketed ho hz hx
  angles {c p rest d} hf hd _ := by
    simp only [List.cons_append, List.append_assoc, List.nil_append] at hf
    have hp := hf.partner_closer ho hx hz
    have hi : c.angleItem p d = some (p + 1 + xs.length, d) := by
      unfold Code.angleItem
      rw [hf.kind?, hf.text, hp]
      unfold opener? at ho
      split at ho
      · rename_i hk
        rw [hk]
        split at ho <;> simp_all
      · cases ho
    rw [Code.anglesFrom_item hi (by omega)]
    simp only [List.length_cons, List.length_append, List.length_nil, Int.natCast_zero,
      Int.sub_zero]
    congr 1
    omega

theorem opening (ho : o.IsPunct "<") (hx : Scanned (n + 1) xs) : Scanned n (o :: xs) where
  balanced := .plain (by simp [opener?, ho.2]) (by simp [closer?, ho.2]) hx.balanced
  angles {c p rest d} hf hd hn := by
    have hi : c.angleItem p d = some (p, d + 1) := by
      simp [Code.angleItem, hf.kind?, hf.text, ho.1, ho.2, Code.angleWeight]
    rw [Code.anglesFrom_item hi (by omega), Code.anglesOn_of_pos (by omega),
      hx.angles hf.tail (by omega) (by omega), List.length_cons]
    congr 1 <;> omega

theorem closing (hz : z.IsClosing n) : Scanned n [z] := by
  obtain ⟨s, hs, hk, rfl⟩ := hz
  simp only [List.mem_cons, Prod.mk.injEq, List.not_mem_nil, or_false] at hs
  refine ⟨.single ?_ ?_, ?_⟩
  · rcases hs with ⟨h, -⟩ | ⟨h, -⟩ | ⟨h, -⟩ <;> simp [opener?, h]
  · rcases hs with ⟨h, -⟩ | ⟨h, -⟩ | ⟨h, -⟩ <;> simp [closer?, h]
  · intro c p rest d hf hd hn
    have hi : c.angleItem p d = some (p, d - n) := by
      unfold Code.angleItem
      rw [hf.kind?, hf.text, hk]
      rcases hs with ⟨h, rfl⟩ | ⟨h, rfl⟩ | ⟨h, rfl⟩ <;> simp [h, Code.angleWeight] <;> omega
    exact Code.anglesFrom_item hi (by omega)

end Scanned

/-- A scan of type arguments that starts at their opening bracket. -/
theorem Code.From.angleEnd {c : Code} {p : Nat} {o : Token} {xs rest : List Token}
    (h : c.From p (o :: (xs ++ rest))) (ho : o.IsPunct "<") (hx : Scanned 1 xs) :
    c.angleEnd p = some (p + 1 + xs.length) := by
  have hi : c.angleItem p 0 = some (p, 1) := by
    simp [Code.angleItem, h.kind?, h.text, ho.1, ho.2, Code.angleWeight]
  rw [Code.angleEnd, Code.anglesFrom_item hi (by omega), Code.anglesOn_of_pos (by omega),
    hx.angles h.tail (by omega) (by omega)]
  rfl

namespace IsType
open Token

theorem ofPrimary {n : Nat} {ts : List Token} (h : IsType .primary n ts) : IsType .whole n ts :=
  .whole (.union (.member (.suffixed (.primary h))))

theorem ofName {t : Token} (h : t.IsPlain) : IsType .whole 0 [t] :=
  ofPrimary (.named (.name (Or.inl h)))

variable {part : TypePart} {n : Nat} {ts : List Token}

theorem inert_template {t : Token} (h : t.kind = .template) : t.IsInert := Or.inl (by simp [h])

theorem scanned (h : IsType part n ts) : Scanned n ts := by
  induction h with
  | name ht | parameter ht | literal ht => exact .token ht.inert
  | template hk _ => exact .token (inert_template hk)
  | dotted ht hd _ ih => exact .cons ht.inert (.cons hd.inert ih)
  | generic _ hl _ ihn iha => exact ihn.append (.opening hl iha)
  | negative hm hk => exact .cons hm.inert (.token (Or.inl (by simp [hk])))
  | substituted hk _ _ ih => exact .cons (inert_template hk) ih
  | group ho hz hx => exact .group ho hz hx
  | lastChunk _ _ hk _ ih => exact ih.append (.token (inert_template hk))
  | chunk _ _ hk _ _ ih ihu => exact ih.append (.cons (inert_template hk) ihu)
  | index _ _ ho hx hz ih =>
    have hg := Scanned.group (ho.opens .square) (hz.closes .square) hx
    simpa using ih.append hg
  | operator ht _ ih | operatorOn ht _ ih | leading ht _ ih => exact .cons ht.inert ih
  | function ho hx hz ha _ ih =>
    have hg := Scanned.group (ho.opens .round) (hz.closes .round) hx
    simpa using hg.append (.cons ha.inert ih)
  | polymorphic hl _ _ iha ih => exact (Scanned.opening hl iha).append ih
  | constructor hw _ ih => exact .cons hw.inert ih
  | predicate _ hw _ ihn ih | bar _ hw _ ihn ih => exact ihn.append (.cons hw.inert ih)
  | more _ hd _ ihn ih => exact ihn.append (.cons hd.inert ih)
  | conditional _ he _ hq _ hd _ ihx ihy ihu ihv =>
    have hbranches := ihu.append (.cons hd.inert ihv)
    exact ihx.append (.cons he.inert (ihy.append (.cons hq.inert hbranches)))
  | bounded ht he _ ih => exact .cons ht.inert (.cons he.inert ih)
  | close _ hz ih => exact ih.append (.closing hz)
  | _ => assumption

/-- A type has a last token, and it can end a type. -/
theorem getLast? (h : IsType part n ts) : ∃ t, ts.getLast? = some t ∧ t.EndsType := by
  induction h with
  | name ht => exact ⟨_, rfl, ht.endsType⟩
  | parameter ht => exact ⟨_, rfl, ht.endsType⟩
  | literal ht => exact ⟨_, rfl, ht.endsType⟩
  | negative _ hk | template hk _ => exact ⟨_, rfl, endsType_of_kind (by simp [hk])⟩
  | @group _ z _ _ _ hz _ => exact ⟨z, by simp [List.getLast?_cons], endsType_of_closer? hz⟩
  | @index _ _ _ _ z _ _ _ _ hz _ =>
    exact ⟨z, by simp [List.getLast?_cons], endsType_of_closer? (hz.closes .square)⟩
  | @lastChunk _ z _ _ hk _ _ => exact ⟨z, by simp, endsType_of_kind (by simp [hk])⟩
  | @close _ _ _ z _ hz _ => exact ⟨z, by simp, hz.endsType⟩
  | dotted _ _ _ ih | generic _ _ _ _ ih | substituted _ _ _ ih | chunk _ _ _ _ _ _ ih
  | operator _ _ ih | function _ _ _ _ _ ih | polymorphic _ _ _ _ ih | constructor _ _ ih
  | predicate _ _ _ _ ih | operatorOn _ _ ih | bar _ _ _ _ ih | leading _ _ ih
  | conditional _ _ _ _ _ _ _ _ _ _ ih | bounded _ _ _ ih | more _ _ _ _ ih =>
    obtain ⟨t, ht, he⟩ := ih
    exact ⟨t, by simp [List.getLast?_append, List.getLast?_cons, ht], he⟩
  | _ => assumption

theorem length_pos (h : IsType part n ts) : 0 < ts.length := by
  obtain ⟨t, ht, -⟩ := h.getLast?
  exact List.length_pos_of_mem (List.mem_of_getLast? ht)

end IsType

end Retouch
