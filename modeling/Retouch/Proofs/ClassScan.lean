import Mathlib.Data.List.Chain
import Retouch.Proofs.IdleTokens

/-! Classes. The visit of the keyword reads the whole class and announces what goes of
the header and of the members; the pass then crosses the same tokens. A member is
described by both at once: where the scan of the body goes on behind it, and which
pieces it leaves to the pass. Members that stand one after the other compose. -/

namespace Retouch.Erase
open Syntax Code Token

/-! ### Headers -/

/-- What a class extends, if anything, and the type arguments of that. -/
inductive IsSuperclass : List Token → List Token → Prop
  | none : IsSuperclass [] []
  | named {e ts} : IsKeyword e "extends" → IsType .name 0 ts → IsSuperclass (e :: ts) []
  | generic {e ts o as} : IsKeyword e "extends" → IsType .name 0 ts → IsPunct o "<" →
      IsType (.entries false) 1 as → IsSuperclass (e :: ts) (o :: as)

/-- Types behind commas, without braces. -/
inductive IsInterfaces : List Token → Prop
  | last {ts} : IsType .whole 0 ts → (∀ t ∈ ts, ¬ IsPunct t "\x7b") → IsInterfaces ts
  | more {ts d us} : IsType .whole 0 ts → (∀ t ∈ ts, ¬ IsPunct t "\x7b") → IsPunct d "," →
      IsInterfaces us → IsInterfaces (ts ++ d :: us)

inductive IsImplements : List Token → Prop
  | none : IsImplements []
  | declared {i ts} : IsKeyword i "implements" → IsInterfaces ts → IsImplements (i :: ts)

/-- A class without its members. -/
structure ClassFrame where
  keyword : Token
  name : Token
  generics : List Token
  superclass : List Token
  arguments : List Token
  interfaces : List Token
  opening : Token
  closing : Token
  isClass : keyword.IsKeyword "class"
  isPlain : name.IsPlain
  isGenerics : IsGenerics generics
  isSuperclass : IsSuperclass superclass arguments
  isImplements : IsImplements interfaces
  isOpening : opening.IsPunct "\x7b"
  isClosing : closing.IsPunct "\x7d"

def ClassFrame.clauses (f : ClassFrame) : List Piece :=
  keep f.name :: (hide f.generics ++ (mark false f.superclass ++
    (hide f.arguments ++ hide f.interfaces)))

/-- The class with these members. -/
def ClassFrame.around (f : ClassFrame) (body : List Piece) : List Piece :=
  keep f.keyword :: (f.clauses ++ keep f.opening :: (body ++ [keep f.closing]))

theorem ClassFrame.tokensOf_clauses (f : ClassFrame) : tokensOf f.clauses =
    f.name :: (f.generics ++ (f.superclass ++ (f.arguments ++ f.interfaces))) := by
  have hgenerics := tokensOf_hide f.generics
  have hsuperclass := tokensOf_mark false f.superclass
  have harguments := tokensOf_hide f.arguments
  have hinterfaces := tokensOf_hide f.interfaces
  simp only [tokensOf, ClassFrame.clauses, List.map_cons, List.map_append] at *
  rw [hgenerics, hsuperclass, harguments, hinterfaces]
  rfl

theorem ClassFrame.tokensOf_around (f : ClassFrame) (body : List Piece) :
    tokensOf (f.around body) =
      f.keyword :: (tokensOf f.clauses ++ f.opening :: (tokensOf body ++ [f.closing])) := by
  simp [tokensOf, ClassFrame.around]

theorem ClassFrame.around_inj (f : ClassFrame) {xs ys : List Piece}
    (h : f.around xs = f.around ys) : xs = ys := by
  simpa [ClassFrame.around] using h

/-! ### Lines -/

/-- Tokens on one line. -/
def OneLine (ts : List Token) : Prop := ts.IsChain fun a b => a.stop.line = b.start.line

instance (ts : List Token) : Decidable (OneLine ts) := inferInstanceAs (Decidable (ts.IsChain _))

/-- No line begins with a token from `p` up to `q`. -/
def Level (c : Code) (p q : Nat) : Prop := ∀ k, p ≤ k → k < q → c.freshLine k = false

variable {c : Code} {p q close i n : Nat} {t u o z : Token} {ts us rest : List Token}

theorem Level.mono {p' q' : Nat} (h : Level c p q) (hp : p ≤ p') (hq : q' ≤ q) : Level c p' q' :=
  fun k hk hk' => h k (by omega) (by omega)

theorem OneLine.level (h : OneLine ts) (hf : c.From p (ts ++ rest)) :
    Level c (p + 1) (p + ts.length) := by
  induction ts generalizing p with
  | nil => exact fun k hk hk' => absurd hk' (by simp; omega)
  | cons t ts ih =>
    intro k hk hk'
    rw [List.length_cons] at hk'
    cases ts with
    | nil => exact absurd hk' (by simp; omega)
    | cons u ts =>
      obtain ⟨hline, hrest⟩ := List.isChain_cons_cons.mp h
      by_cases he : k = p + 1
      · subst he
        simp [freshLine, hf.getElem?, hf.tail.getElem?, hline]
      · exact ih hrest hf.tail k (by omega) (by omega)

/-! ### The scan of a class body, token by token -/

/-- Marks that the scan stops at. -/
def memberMarks : List String := ["(", "[", "\x7b", ";"]

theorem From.notMem_memberMarks (hf : c.From p (t :: rest)) (hc : c.Spelt)
    (ht : ¬ t.kind.IsLoose) : c.text p ∉ memberMarks := by
  simp [memberMarks, hf.text_ne hc ht (m := "("), hf.text_ne hc ht (m := "["),
    hf.text_ne hc ht (m := "\x7b"), hf.text_ne hc ht (m := ";")]

theorem memberSpans_skip (hi : i < close) (hl : c.freshLine i = false)
    (ht : c.text i ∉ memberMarks) :
    c.memberSpans close i false = c.memberSpans close (i + 1) false := by
  rw [memberSpans.eq_def, dif_pos hi]
  simp only [hl, Bool.false_or, Bool.false_and, Bool.false_eq_true, if_false]
  split <;> simp_all [memberMarks]

theorem memberSpans_group {stop : Nat} (hi : i < close) (hl : c.freshLine i = false)
    (ht : c.text i ∈ ["(", "["]) (hp : c.partner i = some stop) :
    c.memberSpans close i false = c.memberSpans close (stop + 1) false := by
  rw [memberSpans.eq_def, dif_pos hi]
  simp only [List.mem_cons, List.not_mem_nil, or_false] at ht
  rcases ht with ht | ht <;> simp [hl, ht, afterGroup, hp]

theorem memberSpans_brace {stop : Nat} (hi : i < close) (hl : c.freshLine i = false)
    (ht : c.text i = "\x7b") (hp : c.partner i = some stop) :
    c.memberSpans close i false = c.memberSpans close (stop + 1) true := by
  rw [memberSpans.eq_def, dif_pos hi]
  simp [hl, ht, afterGroup, hp]

theorem memberSpans_semicolon (hi : i < close) (hl : c.freshLine i = false)
    (ht : c.text i = ";") :
    c.memberSpans close i false = c.memberSpans close (i + 1) true := by
  rw [memberSpans.eq_def, dif_pos hi]
  simp [hl, ht]

theorem memberSpans_member {spans : Erasure} (hi : i < close) (hm : c.member i = (spans, n))
    (hn : i < n) :
    c.memberSpans close i true = (c.memberSpans close n false).map (spans ++ ·) := by
  rw [memberSpans.eq_def, dif_pos hi]
  simp [hm, hn]

/-- Where no member can begin, it does not matter that one may. -/
theorem memberSpans_idle (hi : i < close) (hm : c.member i = ([], i)) :
    c.memberSpans close i true = c.memberSpans close i false := by
  conv_lhs => rw [memberSpans.eq_def, dif_pos hi]
  simp [hm]

theorem memberSpans_close (start : Bool) : c.memberSpans close close start = some [] := by
  rw [memberSpans.eq_def, dif_neg (Nat.lt_irrefl close)]

theorem member_idle (hf : c.From i (t :: rest))
    (hk : t.kind ∉ [.identifier, .keyword, .string, .number]) (ht : t.text ∉ ["[", "#", "*"]) :
    c.member i = ([], i) := by
  simp only [List.mem_cons, List.not_mem_nil, or_false, not_or] at hk ht
  have hname : c.isName i = false := by simp [hf.isName, hk]
  have hlead : c.memberLead i = ([], i) := by
    rw [memberLead]
    simp [hname, hf.punct, ht.2.2]
  have herror : c.memberName i = .error i := by
    unfold memberName
    split
    · rename_i he
      exact absurd (hf.text.symm.trans he) ht.1
    · rename_i he
      exact absurd (hf.text.symm.trans he) ht.2.1
    · simp [hname, hf.kind?, hk]
  simp [member, hlead, herror]

/-! ### Members -/

/-- The scan of a body reads these pieces as members and announces `spans` of them, and
the pass does the rest. -/
structure MemberAt (c : Code) (q : Nat) (ps : List Piece) (spans : Erasure) : Prop where
  scans : ∀ {close : Nat}, q + ps.length ≤ close → c.memberSpans close q true =
    (c.memberSpans close (q + ps.length) true).map (spans ++ ·)
  announced : Announced c q ps spans

theorem MemberAt.nil : MemberAt c q [] [] where
  scans _ := by simp
  announced := .none .nil

theorem MemberAt.append {xs ys : List Piece} {spans spans' : Erasure} (hx : MemberAt c q xs spans)
    (hy : MemberAt c (q + xs.length) ys spans') : MemberAt c q (xs ++ ys) (spans ++ spans') where
  scans {close} hclose := by
    rw [List.length_append, ← Nat.add_assoc] at hclose ⊢
    rw [hx.scans (by omega), hy.scans hclose, Option.map_map]
    simp [Function.comp_def]
  announced := hx.announced.append hy.announced

theorem balanced_flatMap {α : Type} {f : α → List Token} (h : ∀ a, Balanced (f a))
    (xs : List α) : Balanced (xs.flatMap f) := by
  induction xs with
  | nil => exact .nil
  | cons x xs ih => exact (h x).append ih

/-! ### Clauses, one by one -/

/-- The span of a stretch, which may be empty. -/
def stretch (first stop : Nat) : Erasure := if first < stop then [.upTo first stop] else []

theorem announced_stretch (hf : c.From p (ts ++ rest)) :
    Announced c p (hide ts) (stretch p (p + ts.length)) := by
  unfold stretch
  split
  · exact announced_hidden hf (by omega) rfl
  · obtain rfl : ts = [] := List.eq_nil_of_length_eq_zero (by omega)
    exact .none .nil

theorem IsGenerics.classParameters (h : IsGenerics ts) (hf : c.From p (ts ++ u :: rest))
    (hu : u.text ≠ "<") :
    c.classParameters p = some (stretch p (p + ts.length), p + ts.length) := by
  cases h with
  | none =>
    have hmark : c.punct p "<" = false := by simp [hf.punct, hu]
    simp [Code.classParameters, hmark, stretch]
  | @declared o gs ho hg =>
    have hmark : c.punct p "<" = true := by simp [hf.punct, ho.1, ho.2]
    have hend : c.angleEnd p = some (p + (o :: gs).length) := by
      rw [Code.From.angleEnd hf ho hg.scanned, List.length_cons]
      congr 1
      omega
    simp [Code.classParameters, hmark, hend, stretch]

/-- Where the header of a class goes on behind the superclass. -/
def EndsHeritage (t : Token) : Prop := t.IsKeyword "implements" ∨ t.IsPunct "\x7b"

theorem EndsHeritage.text {t : Token} (h : EndsHeritage t) : t.text ∉ ["<", "extends"] := by
  rcases h with h | h <;> rw [h.2] <;> decide

theorem EndsHeritage.heritage (h : EndsHeritage t) (hf : c.From p (t :: rest)) :
    c.heritage p = ([], p) := by
  have hstop : (c.punct p "\x7b" || c.word p "implements") = true := by
    rcases h with h | h <;> simp [hf.punct, hf.word, h.1, h.2]
  rw [Code.heritage, dif_pos hf.lt_size, if_pos hstop]

theorem heritage_skip (hp : p < c.size) (ht : c.text p ∉ ["\x7b", "implements", "<", "(", "["]) :
    c.heritage p = c.heritage (p + 1) := by
  simp only [List.mem_cons, List.not_mem_nil, or_false, not_or] at ht
  obtain ⟨hbrace, himplements, hangle, hround, hsquare⟩ := ht
  have hnone : (if c.punct p "<" then c.angleEnd p else none) = none := by
    simp [punct_eq_false hangle]
  rw [Code.heritage, dif_pos hp]
  simp only [punct_eq_false hbrace, word_eq_false himplements, Bool.or_self, Bool.false_eq_true,
    if_false]
  split
  · rename_i hsome
    rw [hnone] at hsome
    cases hsome
  · simp [hround, hsquare]

theorem heritage_angle {stop : Nat} (hf : c.From p (o :: rest)) (ho : o.IsPunct "<")
    (hend : c.angleEnd p = some stop) :
    c.heritage p = (.upTo p stop :: (c.heritage stop).1, (c.heritage stop).2) := by
  have hbrace : c.punct p "\x7b" = false := by simp [hf.punct, ho.2]
  have hclause : c.word p "implements" = false := by simp [hf.word, ho.1]
  have hsome : (if c.punct p "<" then c.angleEnd p else none) = some stop := by
    simp [hf.punct, ho.1, ho.2, hend]
  rw [Code.heritage, dif_pos hf.lt_size]
  simp only [hbrace, hclause, Bool.or_self, Bool.false_eq_true, if_false]
  split
  · rename_i hstop
    rw [hsome] at hstop
    obtain rfl := Option.some.inj hstop
    rfl
  · rename_i hnone
    rw [hsome] at hnone
    cases hnone

theorem heritage_name (h : IsType .name 0 ts) (hc : c.Spelt) (hf : c.From p (ts ++ rest)) :
    c.heritage p = c.heritage (p + ts.length) := by
  have hskip : ∀ {i : Nat} {t : Token} {rest : List Token}, t ∈ ts → c.From i (t :: rest) →
      c.text i ∉ ["\x7b", "implements", "<", "(", "["] := by
    intro i t rest ht hf
    rcases h.name_tokens t ht with ht | ht
    · have hword : c.text i ≠ "implements" := by
        rw [hf.text]
        rcases ht with ht | ⟨s, hs, ht⟩
        · exact fun he => (ht.notMem (by decide) : t.text ∉ ["implements"]) (by simp [he])
        · exact fun he => absurd (he ▸ ht.2 ▸ hs) (by decide)
      simp [hword, hf.text_ne hc ht.solid (m := "\x7b"), hf.text_ne hc ht.solid (m := "<"),
        hf.text_ne hc ht.solid (m := "("), hf.text_ne hc ht.solid (m := "[")]
    · rw [hf.text, ht.2]
      decide
  clear h
  induction ts generalizing p with
  | nil => rfl
  | cons t ts ih =>
    rw [heritage_skip hf.lt_size (hskip (by simp) hf), ih hf.tail fun ht => hskip (by simp [ht]),
      List.length_cons]
    congr 1
    omega

theorem IsSuperclass.heritage (h : IsSuperclass ts us) (hc : c.Spelt)
    (hf : c.From p (ts ++ (us ++ u :: rest))) (hu : EndsHeritage u) :
    (if c.word p "extends" then c.heritage (p + 1) else ([], p)) =
      (stretch (p + ts.length) (p + ts.length + us.length), p + ts.length + us.length) := by
  cases h with
  | none =>
    have hword : c.word p "extends" = false := by
      have := hu.text
      simp_all [hf.word]
    simp [hword, stretch]
  | @named e ts he ht =>
    have hword : c.word p "extends" = true := by simp [hf.word, he.1, he.2]
    have hstop := hu.heritage hf.append
    rw [if_pos hword, heritage_name ht hc hf.tail]
    simp only [List.length_cons, List.length_nil, Nat.add_zero] at hstop ⊢
    rw [show p + 1 + ts.length = p + (ts.length + 1) by omega, hstop]
    simp [stretch]
  | @generic e ts o as he ht ho ha =>
    have hword : c.word p "extends" = true := by simp [hf.word, he.1, he.2]
    have hangle := hf.tail.append
    have hstop := hu.heritage hangle.tail.append
    have hend := Code.From.angleEnd hangle ho ha.scanned
    rw [if_pos hword, heritage_name ht hc hf.tail, heritage_angle hangle ho hend, hstop]
    simp only [List.length_cons, stretch]
    rw [if_pos (by omega), show p + (ts.length + 1) = p + 1 + ts.length by omega,
      show p + 1 + ts.length + (as.length + 1) = p + 1 + ts.length + 1 + as.length by omega]

theorem findPunct_eq {s : String} (hf : c.From p (ts ++ t :: rest)) (hts : ∀ t ∈ ts, ¬ t.IsPunct s)
    (ht : t.IsPunct s) : c.findPunct p s = some (p + ts.length) := by
  induction ts generalizing p with
  | nil =>
    rw [findPunct, dif_pos hf.lt_size, if_pos (by simp [hf.punct, ht.1, ht.2])]
    rfl
  | cons u ts ih =>
    have hu : c.punct p s = false := by
      have := hts u (by simp)
      simpa [hf.punct, IsPunct] using this
    rw [findPunct, dif_pos hf.lt_size, hu, if_neg (by decide),
      ih hf.tail fun v hv => hts v (by simp [hv]), List.length_cons]
    congr 1
    omega

theorem IsInterfaces.braceless (h : IsInterfaces ts) : ∀ t ∈ ts, ¬ t.IsPunct "\x7b" := by
  induction h with
  | last _ hts => exact hts
  | more _ hts hd _ ih =>
    intro t ht
    simp only [List.mem_append, List.mem_cons] at ht
    rcases ht with ht | rfl | ht
    · exact hts t ht
    · exact fun he => absurd (hd.2.symm.trans he.2) (by decide)
    · exact ih t ht

theorem IsImplements.clause (h : IsImplements ts) (hf : c.From p (ts ++ o :: rest))
    (ho : o.IsPunct "\x7b") :
    c.implementsClause p = some (stretch p (p + ts.length), p + ts.length) := by
  cases h with
  | none =>
    have hword : c.word p "implements" = false := by simp [hf.word, ho.1]
    simp [implementsClause, hword, stretch]
  | @declared i ts hi hts =>
    have hword : c.word p "implements" = true := by simp [hf.word, hi.1, hi.2]
    have hfree : ∀ t ∈ i :: ts, ¬ t.IsPunct "\x7b" := by
      intro t ht
      rcases List.mem_cons.mp ht with rfl | ht
      · exact fun he => absurd (hi.1.symm.trans he.1) (by decide)
      · exact hts.braceless t ht
    simp [implementsClause, hword, findPunct_eq hf hfree ho, stretch]

/-! ### Brackets and last tokens of a header -/

theorem IsInterfaces.balanced (h : IsInterfaces ts) : Balanced ts := by
  induction h with
  | last ht _ => exact ht.scanned.balanced
  | more ht _ hd _ ih => exact ht.scanned.balanced.append (.cons hd.balanced ih)

theorem IsImplements.balanced (h : IsImplements ts) : Balanced ts := by
  cases h with
  | none => exact .nil
  | declared hi hts => exact .cons hi.inert.balanced hts.balanced

theorem IsSuperclass.balanced (h : IsSuperclass ts us) : Balanced ts ∧ Balanced us := by
  cases h with
  | none => exact ⟨.nil, .nil⟩
  | named he ht => exact ⟨.cons he.inert.balanced ht.scanned.balanced, .nil⟩
  | generic he ht ho ha =>
    exact ⟨.cons he.inert.balanced ht.scanned.balanced, .cons ho.balanced ha.scanned.balanced⟩

/-- The last token of a list, if it has one, can end a type. -/
def Typelike (ts : List Token) : Prop := ∀ t ∈ ts.getLast?, t.EndsType

theorem Typelike.append (hx : Typelike ts) (hy : Typelike us) : Typelike (ts ++ us) := by
  intro t ht
  rw [List.getLast?_append, Option.mem_def] at ht
  cases hu : us.getLast? with
  | none => exact hx t (by simpa [hu] using ht)
  | some u => exact hy t (by simpa [hu] using ht)

theorem Typelike.of_exists (h : ∃ t, ts.getLast? = some t ∧ t.EndsType) : Typelike ts := by
  obtain ⟨t, hlast, hend⟩ := h
  intro u hu
  obtain rfl := Option.some.inj (hlast.symm.trans hu)
  exact hend

theorem typelike_nil : Typelike [] := fun _ ht => by cases ht

theorem Typelike.cons (h : Typelike ts) (hts : ts ≠ []) : Typelike (t :: ts) := by
  obtain ⟨u, ts, rfl⟩ := List.exists_cons_of_ne_nil hts
  rwa [Typelike, List.getLast?_cons_cons]

theorem IsInterfaces.typelike (h : IsInterfaces ts) : ts ≠ [] ∧ Typelike ts := by
  induction h with
  | last ht _ => exact ⟨List.ne_nil_of_length_pos ht.length_pos, .of_exists ht.getLast?⟩
  | more ht _ _ _ ih =>
    exact ⟨by simp, (Typelike.of_exists ht.getLast?).append (ih.2.cons ih.1)⟩

theorem IsSuperclass.typelike (h : IsSuperclass ts us) : Typelike ts ∧ Typelike us := by
  have hcons {part n} {t : Token} {vs : List Token} (hv : IsType part n vs) :
      Typelike (t :: vs) :=
    (Typelike.of_exists hv.getLast?).cons (List.ne_nil_of_length_pos hv.length_pos)
  cases h with
  | none => exact ⟨typelike_nil, typelike_nil⟩
  | named _ ht => exact ⟨hcons ht, typelike_nil⟩
  | generic _ ht _ ha => exact ⟨hcons ht, hcons ha⟩

theorem IsGenerics.typelike (h : IsGenerics ts) : Typelike ts := by
  cases h with
  | none => exact typelike_nil
  | declared _ hg =>
    exact (Typelike.of_exists hg.getLast?).cons (List.ne_nil_of_length_pos hg.length_pos)

theorem IsImplements.typelike (h : IsImplements ts) : Typelike ts := by
  cases h with
  | none => exact typelike_nil
  | declared _ hts => exact hts.typelike.2.cons hts.typelike.1

/-! ### Classes -/

theorem IsImplements.head (h : IsImplements ts) (rest : List Token) (ho : o.IsPunct "\x7b") :
    ∃ u us, ts ++ o :: rest = u :: us ∧ EndsHeritage u := by
  cases h with
  | none => exact ⟨o, rest, rfl, .inr ho⟩
  | declared hi _ => exact ⟨_, _, rfl, .inl hi⟩

theorem IsSuperclass.head (h : IsSuperclass ts us) (rest : List Token) (hu : EndsHeritage u) :
    ∃ v vs, ts ++ (us ++ u :: rest) = v :: vs ∧ v.text ≠ "<" := by
  cases h with
  | none => exact ⟨u, rest, rfl, fun he => hu.text (by simp [he])⟩
  | named he _ => exact ⟨_, _, rfl, by rw [he.2]; decide⟩
  | generic he _ _ _ => exact ⟨_, _, rfl, by rw [he.2]; decide⟩

theorem IsSuperclass.crosses (h : IsSuperclass ts us) (hf : c.From p (ts ++ rest)) :
    c.Crosses p (mark false ts) fun _ => false := by
  refine hf.crosses_idle ?_ fun _ _ _ => rfl
  cases h with
  | none => simp
  | named he ht => simpa using ⟨he.idle, ht.idle_name⟩
  | generic he ht _ _ => simpa using ⟨he.idle, ht.idle_name⟩

namespace ClassFrame
variable (f : ClassFrame)

theorem length_clauses : f.clauses.length = 1 + f.generics.length + f.superclass.length +
    f.arguments.length + f.interfaces.length := by
  simp [ClassFrame.clauses]
  omega

/-- The header announces its clauses, and leaves the body to the scan of the members. -/
theorem announced_clauses (hc : c.Spelt)
    (hf : c.From p (f.keyword :: (tokensOf f.clauses ++ f.opening :: rest))) :
    ∃ spans, Announced c (p + 1) f.clauses spans ∧
      c.classSpans p = (c.classBody (p + 1 + f.clauses.length)).map (spans ++ ·) := by
  replace hf : c.From p (f.keyword :: f.name :: (f.generics ++ (f.superclass ++ (f.arguments ++
      (f.interfaces ++ f.opening :: rest))))) := by
    rw [f.tokensOf_clauses] at hf
    simpa using hf
  have hname := hf.tail
  have hgenerics := hname.tail
  have hsuperclass := hgenerics.append
  have harguments := hsuperclass.append
  have hinterfaces := harguments.append
  have hclause := f.isImplements.clause hinterfaces f.isOpening
  obtain ⟨u, us, hhead, hu⟩ := f.isImplements.head rest f.isOpening
  rw [hhead] at hsuperclass hgenerics
  have hheritage := f.isSuperclass.heritage hc hsuperclass hu
  obtain ⟨v, vs, hhead', hv⟩ := f.isSuperclass.head us hu
  have hcrosses := f.isSuperclass.crosses hsuperclass
  rw [hhead'] at hgenerics
  have hparameters := f.isGenerics.classParameters hgenerics hv
  have hnamed : c.kind? (p + 1) = some .identifier := by rw [hname.kind?, f.isPlain.1]
  have hhidden := (announced_stretch harguments).append
    (by rw [length_hide]; exact announced_stretch hinterfaces)
  have hkept := (Announced.none hcrosses).append (by rw [length_mark]; exact hhidden)
  have hclauses := (announced_stretch hgenerics).append (by rw [length_hide]; exact hkept)
  have hall := Announced.keep_cons hname (hname.quiet_plain f.isPlain) hclauses
  refine ⟨_, hall, ?_⟩
  have hlen : p + 1 + f.clauses.length = p + 1 + 1 + f.generics.length + f.superclass.length +
      f.arguments.length + f.interfaces.length := by
    rw [f.length_clauses]
    omega
  simp [classSpans, hnamed, hparameters, hheritage, hclause, hlen]

/-- A class is crossed when its members are. -/
theorem crosses {body : List Piece} {spans : Erasure} (hc : c.Spelt)
    (hf : c.From p (tokensOf (f.around body) ++ rest)) (hbalanced : Balanced (tokensOf body))
    (hbody : MemberAt c (p + 1 + f.clauses.length + 1) body spans) :
    c.Crosses p (f.around body) fun _ => false := by
  replace hf : c.From p (f.keyword :: (tokensOf f.clauses ++ f.opening ::
      (tokensOf body ++ f.closing :: rest))) := by
    rw [f.tokensOf_around] at hf
    simpa using hf
  obtain ⟨clauses, hclauses, hspans⟩ := f.announced_clauses hc hf
  have hopen := hf.tail.append
  have hclose := hopen.tail.append
  rw [List.length_map] at hopen hclose
  rw [List.length_map] at hclose
  have hpartner := hopen.partner_closer (f.isOpening.opens .curly) hbalanced
    (f.isClosing.closes .curly)
  rw [List.length_map] at hpartner
  have hmembers : c.classBody (p + 1 + f.clauses.length) = some spans := by
    have hbrace : c.punct (p + 1 + f.clauses.length) "\x7b" = true := by
      simp [hopen.punct, f.isOpening.1, f.isOpening.2]
    simp [classBody, hpartner, hbrace, hbody.scans (Nat.le_refl _), memberSpans_close]
  have hvisit : ∀ e, c.Visits e p (clauses ++ spans) (p + 1) := by
    intro e
    have htext : c.text p = "class" := by rw [hf.text, f.isClass.2]
    have hword : c.wordSpans p = some (clauses ++ spans) := by
      simp [wordSpans, htext, hf.kind?, f.isClass.1, hspans, hmembers]
    rw [Visits, map_visit (fun _ => by rw [htext]; decide), visitWord, hf.isName, f.isClass.1,
      htext, hword]
    rfl
  have hinner := Announced.keep_cons hopen (f.isOpening.idle.quiet hopen)
    (hbody.announced.append (.none (hclose.crosses_keep rfl (f.isClosing.idle.quiet hclose))))
  have hall := hclauses.append hinner
  rw [List.append_nil] at hall
  exact Announced.crosses_front hf hvisit hall

/-- The members of a class do not stand among specifiers. -/
theorem clear_body (hclear : c.Clear p)
    (hf : c.From p (f.keyword :: (tokensOf f.clauses ++ f.opening :: rest))) :
    c.Clear (p + 1 + f.clauses.length + 1) := by
  have hbalanced : Balanced (tokensOf f.clauses) := by
    have hsuperclass := f.isSuperclass.balanced
    rw [f.tokensOf_clauses]
    exact .cons f.isPlain.inert.balanced (f.isGenerics.balanced.append (hsuperclass.1.append
      (hsuperclass.2.append f.isImplements.balanced)))
  have hlast : Typelike (tokensOf f.clauses) := by
    have hsuperclass := f.isSuperclass.typelike
    rw [f.tokensOf_clauses]
    have hname : Typelike [f.name] := by
      rintro t ⟨⟩
      exact f.isPlain.endsType
    exact hname.append (f.isGenerics.typelike.append
      (hsuperclass.1.append (hsuperclass.2.append f.isImplements.typelike)))
  have hclauses := (hclear.cons hf f.isClass.inert.balanced).append hf.tail hbalanced
  rw [List.length_map] at hclauses
  refine hclauses.succ ?_
  have hpos : 0 < f.clauses.length := by
    rw [f.length_clauses]
    omega
  have hne : tokensOf f.clauses ≠ [] := by
    rw [f.tokensOf_clauses]
    simp
  have hget := List.getLast?_eq_some_getLast hne
  have hopens := (hf.tail.getLast? hget).opensClause_eq_false (hlast _ hget)
  rw [List.length_map] at hopens
  rwa [show p + 1 + f.clauses.length - 1 + 1 = p + 1 + f.clauses.length by omega] at hopens

/-- A class loses what its members lose wherever they stand. The first of them stands
behind no expression. -/
theorem erasedAs {body : List Piece} {source : String}
    (hs : significant (tokenize .ts source) = tokensOf (f.around body))
    (hbalanced : Balanced (tokensOf body))
    (hbody : ∀ {c : Code} {q : Nat}, c.Lexed → c.Spelt → c.From q (tokensOf body ++ [f.closing]) →
      c.Clear q → 0 < q → c.endsExpression (q - 1) = false → ∃ spans, MemberAt c q body spans) :
    ErasedAs source (f.around body) := by
  refine erasedAs_of_crosses hs fun hf => ?_
  have hlex := lexed_tokenize source
  have hc := spelt_tokenize source
  generalize Code.ofTokens (significant (tokenize .ts source)) = c at hf hlex hc ⊢
  have hf' : c.From 0 (f.keyword :: (tokensOf f.clauses ++ f.opening ::
      (tokensOf body ++ [f.closing]))) := by
    rwa [f.tokensOf_around, List.append_nil] at hf
  have hopen := hf'.tail.append
  rw [List.length_map] at hopen
  have hclear := f.clear_body (fun o _ ho => absurd ho (Nat.not_lt_zero o)) hf'
  obtain ⟨spans, hmembers⟩ := hbody hlex hc hopen.tail hclear (Nat.succ_pos _)
    (hopen.endsExpression_punct f.isOpening (by decide))
  exact f.crosses hc hf hbalanced hmembers

end ClassFrame

end Retouch.Erase
