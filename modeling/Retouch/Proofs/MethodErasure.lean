import Retouch.Proofs.ClassScan

/-! Methods of one line. Their annotations are found from the opening bracket of the
parameters: the token before it has to be a name, or one of a few words. So a method
whose name is another reserved word, a literal or computed keeps all its types. And a
method with the name of a cast operator, behind another method, is taken for a cast of
what stands before it. -/

namespace Retouch.Syntax.Token

/-- Whether brackets behind this token open the parameters of a declaration. -/
def declares (t : Token) : Bool :=
  t.kind = .identifier ||
    (t.kind = .keyword && t.text ∈ ["function", "catch", "get", "set"])

end Retouch.Syntax.Token

namespace Retouch.Erase
open Syntax Code Token Plain

/-! ### Methods -/

inductive IsMethodName : List Token → Prop
  | word {t} : IsProperty t → IsMethodName [t]
  | literal {t} : IsLiteral t → IsMethodName [t]
  | computed {o ts z} : IsPunct o "[" → Plain.IsExpression .single ts → IsPunct z "]" →
      IsMethodName (o :: (ts ++ [z]))

inductive IsNamedParameter : List Piece → Prop
  | annotated {x d ts} : IsPlain x → IsPunct d ":" → IsNamed ts →
      IsNamedParameter (keep x :: hide (d :: ts))
  | optional {x q d ts} : IsPlain x → IsPunct q "?" → IsPunct d ":" → IsNamed ts →
      IsNamedParameter (keep x :: hide (q :: d :: ts))

/-- Parameters whose types are names. -/
inductive IsNamedParameters : List Piece → Prop
  | none : IsNamedParameters []
  | last {ps} : IsNamedParameter ps → IsNamedParameters ps
  | more {ps d qs} : IsNamedParameter ps → IsPunct d "," → IsNamedParameters qs →
      IsNamedParameters (ps ++ keep d :: qs)

/-- A method on one line, with an empty body. The types of its parameters are marked as
hidden. -/
structure Method where
  name : List Token
  opening : Token
  parameters : List Piece
  closing : Token
  colon : Token
  result : List Token
  brace : Token
  unbrace : Token
  isName : IsMethodName name
  isOpening : opening.IsPunct "("
  isParameters : IsNamedParameters parameters
  isClosing : closing.IsPunct ")"
  isColon : colon.IsPunct ":"
  isResult : IsNamed result
  isBrace : brace.IsPunct "\x7b"
  isUnbrace : unbrace.IsPunct "\x7d"
  isOneLine : OneLine (name ++ opening :: (tokensOf parameters ++ closing :: colon ::
    (result ++ [brace, unbrace])))

namespace Method

def tokens (m : Method) : List Token :=
  m.name ++ m.opening :: (tokensOf m.parameters ++ m.closing :: m.colon ::
    (m.result ++ [m.brace, m.unbrace]))

/-- The method without its types. -/
def typed (m : Method) : List Piece :=
  mark false m.name ++ keep m.opening :: (m.parameters ++ keep m.closing ::
    (hide (m.colon :: m.result) ++ [keep m.brace, keep m.unbrace]))

/-- The method as a cast: the brackets are the type. -/
def taken (m : Method) : List Piece :=
  hide (m.name ++ m.opening :: (tokensOf m.parameters ++ [m.closing])) ++
    mark false (m.colon :: (m.result ++ [m.brace, m.unbrace]))

/-- Whether the name makes the brackets behind it parameters. -/
def declares (m : Method) : Bool := m.name.getLast?.any Token.declares

/-- Whether the name is that of a cast operator. -/
def casts (m : Method) : Bool :=
  m.name.head?.any fun t => t.kind = .identifier && t.text ∈ ["as", "satisfies"]

/-- What is left of the method, which may be the first of its class. -/
def left (first : Bool) (m : Method) : List Piece :=
  if !first && m.casts then m.taken
  else if m.declares then m.typed
  else mark false m.tokens

end Method

/-- What is left of the methods of a class. -/
def methodsLeft : List Method → List Piece
  | [] => []
  | m :: ms => m.left true ++ ms.flatMap (Method.left false)

/-! ### Marks -/

theorem IsMethodName.ne_nil {ts : List Token} (h : IsMethodName ts) : ts ≠ [] := by
  cases h <;> simp

namespace Method
variable (m : Method)

theorem tokensOf_typed : tokensOf m.typed = m.tokens := by
  have hname := tokensOf_mark false m.name
  have hresult := tokensOf_hide (m.colon :: m.result)
  simp only [tokensOf, typed, tokens, List.map_cons, List.map_append, List.map_nil] at *
  rw [hname, hresult]
  rfl

theorem tokensOf_left (first : Bool) : tokensOf (m.left first) = m.tokens := by
  unfold left
  split
  · have hfront := tokensOf_hide (m.name ++ m.opening :: (tokensOf m.parameters ++ [m.closing]))
    have hback := tokensOf_mark false (m.colon :: (m.result ++ [m.brace, m.unbrace]))
    simp only [tokensOf, taken, List.map_append] at hfront hback ⊢
    rw [hfront, hback]
    simp [tokens]
  · split
    · exact m.tokensOf_typed
    · exact tokensOf_mark false m.tokens

theorem length_left (first : Bool) : (m.left first).length = m.tokens.length :=
  length_of_tokensOf (m.tokensOf_left first)

theorem length_typed : m.typed.length = m.tokens.length := length_of_tokensOf m.tokensOf_typed

/-- The types of a method go, and nothing else, when its name declares it and is not
taken for an operator. -/
theorem left_eq_typed_iff (first : Bool) :
    m.left first = m.typed ↔ m.declares = true ∧ (first = true ∨ m.casts = false) := by
  have htaken : m.taken ≠ m.typed := by
    obtain ⟨t, ts, hname⟩ := List.exists_cons_of_ne_nil m.isName.ne_nil
    intro he
    have hhead := congrArg (fun ps : List Piece => ps.head?.map Piece.hidden) he
    simp [taken, typed, hname, hide, mark] at hhead
  have hkept : mark false m.tokens ≠ m.typed := by
    intro he
    have hcolon : (⟨m.colon, true⟩ : Piece) ∈ m.typed := by simp [typed, hide]
    rw [← he, mark, List.mem_map] at hcolon
    obtain ⟨t, -, ht⟩ := hcolon
    exact absurd (congrArg Piece.hidden ht) (by simp)
  unfold left
  cases first <;> cases hcasts : m.casts <;> cases hdeclares : m.declares <;>
    simp [htaken, hkept]

end Method

theorem tokensOf_methodsLeft (ms : List Method) :
    tokensOf (methodsLeft ms) = ms.flatMap Method.tokens := by
  cases ms with
  | nil => rfl
  | cons m ms =>
    have hm := m.tokensOf_left true
    have hms := tokensOf_flatMap (fun m => m.tokensOf_left false) ms
    simp only [tokensOf, methodsLeft, List.map_append] at hm hms ⊢
    rw [hm, hms, List.flatMap_cons]

theorem methodsLeft_eq_iff (ms : List Method) :
    methodsLeft ms = ms.flatMap Method.typed ↔
      (∀ m ∈ ms, m.declares = true) ∧ ∀ m ∈ ms.tail, m.casts = false := by
  cases ms with
  | nil => simp [methodsLeft]
  | cons m ms =>
    have hlen (first : Bool) (m : Method) : (m.left first).length = m.typed.length := by
      rw [m.length_left, m.length_typed]
    have happend : methodsLeft (m :: ms) = (m :: ms).flatMap Method.typed ↔
        m.left true = m.typed ∧ ms.flatMap (Method.left false) = ms.flatMap Method.typed :=
      ⟨fun h => List.append_inj h (hlen true m), fun ⟨hm, hms⟩ => by
        rw [methodsLeft, hm, hms, List.flatMap_cons]⟩
    rw [happend, flatMap_eq_iff (hlen false), m.left_eq_typed_iff]
    simp only [Method.left_eq_typed_iff, List.forall_mem_cons, List.tail_cons]
    constructor
    · rintro ⟨⟨hm, -⟩, hms⟩
      exact ⟨⟨hm, fun m' h' => (hms m' h').1⟩, fun m' h' => (hms m' h').2.resolve_left (by simp)⟩
    · rintro ⟨⟨hm, hms⟩, hcasts⟩
      exact ⟨⟨hm, .inl trivial⟩, fun m' h' => ⟨hms m' h', .inr (hcasts m' h')⟩⟩

/-! ### The scan of the members -/

variable {c : Code} {p q close : Nat} {t o : Token} {ts rest : List Token}

theorem IsNamedParameters.isParameters {ps : List Piece} (h : IsNamedParameters ps) :
    IsParameters ps := by
  have hone {ps : List Piece} (h : IsNamedParameter ps) : IsParameter ps := by
    cases h with
    | annotated hx hd ht => exact .annotated hx hd ht.isType
    | optional hx hq hd ht => exact .optional hx hq hd ht.isType
  induction h with
  | none => exact .none
  | last h => exact .last (hone h)
  | more h hd _ ih => exact .more (hone h) hd ih

theorem IsNamedParameters.idle {ps : List Piece} (h : IsNamedParameters ps) :
    ∀ t ∈ tokensOf ps, Idle t := by
  have hone {ps : List Piece} (h : IsNamedParameter ps) : ∀ t ∈ tokensOf ps, Idle t := by
    cases h with
    | annotated hx hd ht => simpa using ⟨hx.idle, hd.idle, ht.idle⟩
    | optional hx hq hd ht => simpa using ⟨hx.idle, hq.idle, hd.idle, ht.idle⟩
  induction h with
  | none => simp
  | last h => exact hone h
  | @more ps d qs h hd _ ih =>
    have hps := hone h
    simp only [tokensOf, List.map_append, List.map_cons, List.mem_append, List.mem_cons] at hps ih ⊢
    rintro t (ht | rfl | ht)
    · exact hps t ht
    · exact hd.idle
    · exact ih t ht

theorem memberSpans_named (h : IsNamed ts) (hc : c.Spelt) (hf : c.From p (ts ++ rest))
    (hl : Level c p (p + ts.length)) (hclose : p + ts.length ≤ close) :
    c.memberSpans close p false = c.memberSpans close (p + ts.length) false := by
  induction h generalizing rest with
  | @name ts h =>
    have hskip : ∀ {i : Nat} {t : Token} {rest : List Token}, t ∈ ts → c.From i (t :: rest) →
        c.text i ∉ memberMarks := by
      intro i t rest ht hf
      rcases h.name_tokens t ht with ht | ht
      · exact From.notMem_memberMarks hf hc ht.solid
      · rw [hf.text, ht.2]
        decide
    clear h
    induction ts generalizing p with
    | nil => rfl
    | cons t ts ih =>
      rw [List.length_cons] at hl hclose ⊢
      rw [memberSpans_skip (by omega) (hl p (by omega) (by omega)) (hskip (by simp) hf),
        ih hf.tail (hl.mono (by omega) (by omega)) (by omega) fun ht => hskip (by simp [ht])]
      congr 1
      omega
  | @array ts t o z _ _ ho hz ih =>
    have hlen : p + (ts ++ [t, o, z]).length = p + (ts ++ [t]).length + 1 + 1 := by simp; omega
    replace hf : c.From p ((ts ++ [t]) ++ o :: ([] ++ z :: rest)) := by simpa using hf
    rw [hlen] at hl hclose ⊢
    have hopen := hf.append
    have hpartner := hopen.partner_closer (ho.opens .square) .nil (hz.closes .square)
    rw [ih hf (hl.mono (by omega) (by omega)) (by omega),
      memberSpans_group (by omega) (hl _ (by omega) (by omega)) (by rw [hopen.text, ho.2]; decide)
        hpartner]
    rfl

theorem memberName_token (hc : c.Spelt) (hf : c.From q (t :: rest))
    (ht : t.IsProperty ∨ t.IsLiteral) : ¬ t.kind.IsLoose ∧ c.memberName q = .ok (q + 1) := by
  have hsolid : ¬ t.kind.IsLoose := by
    rcases ht with (ht | ht) | ht | ht <;> simp [Kind.IsLoose, ht]
  refine ⟨hsolid, ?_⟩
  unfold memberName
  split
  · rename_i he
    exact absurd he (hf.text_ne hc hsolid)
  · rename_i he
    exact absurd he (hf.text_ne hc hsolid)
  · rcases ht with (ht | ht) | ht | ht <;> simp [hf.isName, hf.kind?, ht]

/-- A name of one token before the parameters. -/
theorem member_name (hc : c.Spelt) (hf : c.From q (t :: o :: rest)) (ho : o.IsPunct "(")
    (ht : t.IsProperty ∨ t.IsLiteral) : c.member q = ([], q + 1) := by
  obtain ⟨hsolid, hname⟩ := memberName_token hc hf ht
  have hlone : c.nameFollows q = false := by
    simp [nameFollows, hf.tail.isName, hf.tail.kind?, hf.tail.text, ho.1, ho.2]
  have hstar : c.punct q "*" = false := punct_eq_false (hf.text_ne hc hsolid)
  have hlead : c.memberLead q = ([], q) := by
    rw [memberLead]
    simp [hlone, hstar]
  have htail : c.memberTail (q + 1) = ([], q + 1) := by
    simp [memberTail, hf.tail.punct, ho.2]
  simp [member, hlead, hname, htail]

theorem IsMethodName.member (h : IsMethodName ts) (hc : c.Spelt)
    (hf : c.From q (ts ++ o :: rest)) (ho : o.IsPunct "(") :
    c.member q = ([], q + ts.length) := by
  cases h with
  | word ht => exact member_name hc hf ho (.inl ht)
  | literal ht => exact member_name hc hf ho (.inr ht)
  | @computed s ts z hs hts hz =>
    replace hf : c.From q (s :: (ts ++ z :: o :: rest)) := by simpa using hf
    have hlen : q + (s :: (ts ++ [z])).length = q + 1 + ts.length + 1 := by simp; omega
    have hround := hf.tail.append.tail
    have hpartner := hf.partner_closer (hs.opens .square) hts.balanced (hz.closes .square)
    have hlead : c.memberLead q = ([], q) := by
      rw [memberLead]
      simp [hf.isName, hf.punct, hs.1, hs.2]
    have hname : c.memberName q = .ok (q + 1 + ts.length + 1) := by
      simp [memberName, hf.text, hs.2, hpartner]
    have htail : c.memberTail (q + 1 + ts.length + 1) = ([], q + 1 + ts.length + 1) := by
      simp [memberTail, hround.punct, ho.2]
    rw [hlen]
    simp [Code.member, hlead, hname, htail]

namespace Method
variable (m : Method)

/-- The scan reads a method as one member, and announces nothing of it. -/
theorem memberSpans (hc : c.Spelt) (hf : c.From q (m.tokens ++ rest))
    (hclose : q + m.tokens.length ≤ close) :
    c.memberSpans close q true = c.memberSpans close (q + m.tokens.length) true := by
  have hl : Level c (q + 1) (q + m.tokens.length) := OneLine.level m.isOneLine hf
  have hpos : 0 < m.name.length := List.length_pos_of_ne_nil m.isName.ne_nil
  have hlen : m.tokens.length =
      m.name.length + 1 + m.parameters.length + 2 + m.result.length + 2 := by
    simp [tokens]
    omega
  replace hf : c.From q (m.name ++ m.opening :: (tokensOf m.parameters ++ m.closing :: m.colon ::
      (m.result ++ m.brace :: ([] ++ m.unbrace :: rest)))) := by simpa [tokens] using hf
  have hopen := hf.append
  have hcolon := hopen.tail.append.tail
  have hbrace := hcolon.tail.append
  have hround := hopen.partner_closer (m.isOpening.opens .round)
    m.isParameters.isParameters.balanced (m.isClosing.closes .round)
  have hcurly := hbrace.partner_closer (m.isBrace.opens .curly) .nil (m.isUnbrace.closes .curly)
  rw [List.length_map] at hcolon hbrace hround hcurly
  rw [memberSpans_member (by omega) (m.isName.member hc hf m.isOpening) (by omega),
    memberSpans_group (by omega) (hl _ (by omega) (by omega)) (by simp [hopen.text, m.isOpening.2])
      hround,
    memberSpans_skip (by omega) (hl _ (by omega) (by omega))
      (by rw [hcolon.text, m.isColon.2]; decide),
    memberSpans_named m.isResult hc hcolon.tail (hl.mono (by omega) (by omega)) (by omega),
    memberSpans_brace (by omega) (hl _ (by omega) (by omega)) (by rw [hbrace.text, m.isBrace.2])
      hcurly, List.length_nil, hlen]
  simp only [List.nil_append, Option.map_id_fun', id_eq]
  congr 1
  omega

end Method

/-! ### The pass -/

theorem declaresFunction_eq {e : Erasure} (hf : c.From q (ts ++ rest))
    (hlast : ts.getLast? = some t) (hkept : e.covers (q + ts.length - 1) = false) :
    c.declaresFunction e (q + ts.length) = t.declares := by
  have hbefore := hf.getLast? hlast
  have hpos : 0 < ts.length := by
    cases ts with
    | nil => cases hlast
    | cons => simp
  have hkept' : lastKept e (q + ts.length) = some (q + ts.length - 1) :=
    lastKept_eq (by omega) hkept fun i hi hi' => absurd hi' (by omega)
  rw [declaresFunction, hkept', Token.declares]
  simp only [hbefore.kind?, hbefore.text]
  cases t.kind <;> simp

/-- The name of a method is kept, when it is not taken for an operator. -/
theorem IsMethodName.quiet (h : IsMethodName ts) (hf : c.From q (ts ++ o :: rest))
    (ho : o.IsPunct "(") (hcast : ∀ t ∈ ts.head?, t.kind = .identifier →
      t.text ∈ ["as", "satisfies"] → c.endsExpression (q - 1) = false) :
    c.Quiet q ∧ c.QuietOn (q + 1) (q + ts.length) := by
  cases h with
  | @word t ht =>
    have honward : c.Onward (q + 1) :=
      hf.tail.onward_punct ho (by decide) (hf.tail.follow_punct ho (by decide))
    refine ⟨hf.quiet_word ht honward fun hm => ?_, quietOn_refl⟩
    rcases ht with ht | ht
    · exact hcast t rfl ht hm
    · exact absurd ht.2 ((by decide : ∀ s ∈ ["as", "satisfies"], s ∉ reserved) _ hm)
  | literal ht => exact ⟨hf.quiet_literal ht, quietOn_refl⟩
  | @computed s ts z hs hts hz =>
    replace hf : c.From q (s :: (ts ++ z :: o :: rest)) := by simpa using hf
    have hlen : q + (s :: (ts ++ [z])).length = q + 1 + ts.length + 1 := by simp; omega
    have hclose := hf.tail.append
    have hvalue := hts.harmless hf.tail (bangFree_after (hf.endsExpression_punct hs (by decide)))
      (hclose.follow_punct hz (by decide))
    rw [hlen]
    exact ⟨hs.idle.quiet hf, hvalue.quiet.trans (hz.idle.quiet hclose).on⟩

theorem IsMethodName.balanced (h : IsMethodName ts) : Balanced ts := by
  cases h with
  | word ht =>
    refine balanced_solid ?_
    rcases ht with ht | ht <;> simp [Kind.IsLoose, ht]
  | literal ht => exact ht.inert.balanced
  | computed ho hts hz => exact balanced_square ho hts.balanced hz

/-- Brackets behind a token that declares nothing, with a type and a body behind them. -/
theorem visits_undeclared {z d b : Token} {us : List Token} {e : Erasure}
    (hf : c.From p (o :: (us ++ z :: d :: (ts ++ b :: rest)))) (ho : o.IsPunct "(")
    (hus : Balanced us) (hz : z.IsPunct ")") (hd : d.IsPunct ":") (ht : IsType .whole 0 ts)
    (hb : b.IsPunct "\x7b") (hfun : c.declaresFunction e p = false) :
    c.Visits e p [] (p + 1) := by
  have hcolon := hf.tail.append.tail
  have hbrace := hcolon.tail.append
  have hpartner := hf.partner_closer (ho.opens .round) hus (hz.closes .round)
  have htype : c.typeEnd (p + 1 + us.length + 2) = p + 1 + us.length + 2 + ts.length :=
    hcolon.tail.typeEnd ht (by rw [hbrace.text, hb.2]; decide)
  have harrow : c.punct (p + 1 + us.length + 2 + ts.length) "=>" = false :=
    punct_eq_false (by rw [hbrace.text, hb.2]; decide)
  have hspans : c.punctSpans e p = [] := by
    simp [punctSpans, hf.text, ho.2, signatureSpans, hpartner, hcolon.text, hd.2, htype, harrow,
      hfun]
  have hvisit := hf.visits_punct ho e
  rwa [hspans] at hvisit

/-- Brackets before a colon, read as a type. -/
theorem typeEnd_group {z d : Token} {us : List Token} (hf : c.From p (o :: (us ++ z :: d :: rest)))
    (ho : o.IsPunct "(") (hus : Balanced us) (hz : z.IsPunct ")") (hd : d.IsPunct ":") :
    c.typeEnd p = p + 1 + us.length + 1 := by
  have hcolon := hf.tail.append.tail
  have htext : c.text (p + 1 + us.length + 1) = ":" := by rw [hcolon.text, hd.2]
  have hprimary := hf.primaryFrom_group (ho.opens .round) (hz.closes .round) hus
    (by rw [htext]; decide)
  have hmembers : (c.unionMembers p).1 = p + 1 + us.length + 1 := by
    rw [unionMembers_eq hprimary (by omega), memberEnd_stop (by rw [htext]; decide)]
  have hbar : c.isBar p = false := by simp [Code.isBar, hf.punct, ho.2]
  exact typeFrom_union (by rw [unionFrom_members hbar, hmembers])
    (word_eq_false (by rw [htext]; decide))

namespace Method
variable (m : Method)

theorem balanced : Balanced m.tokens := by
  have hround := balanced_round m.isOpening m.isParameters.isParameters.balanced m.isClosing
  have hcurly := balanced_curly m.isBrace .nil m.isUnbrace
  have hresult := Balanced.cons m.isColon.balanced
    (m.isResult.isType.scanned.balanced.append hcurly)
  simpa [tokens] using m.isName.balanced.append (hround.append hresult)

/-- The tokens behind the parameters stay when nothing is announced. -/
theorem idle_tail : ∀ t ∈ m.colon :: (m.result ++ [m.brace, m.unbrace]), Idle t := by
  have hresult := m.isResult.idle
  simp only [List.mem_cons, List.mem_append, List.not_mem_nil, or_false]
  rintro t (rfl | ht | rfl | rfl)
  · exact m.isColon.idle
  · exact hresult t ht
  · exact m.isBrace.idle
  · exact m.isUnbrace.idle

theorem crosses_typed (hlex : c.Lexed) (hf : c.From q (m.tokens ++ rest)) (hclear : c.Clear q)
    (hname : c.Crosses q (mark false m.name) fun _ => false) (hdeclares : m.declares = true) :
    c.Crosses q m.typed fun _ => false := by
  replace hf : c.From q (m.name ++ m.opening :: (tokensOf m.parameters ++ m.closing :: m.colon ::
      (m.result ++ m.brace :: (tokensOf [keep m.unbrace] ++ rest)))) := by
    simpa [tokens] using hf
  have hopen := hf.append
  have hend := hopen.tail.append.tail.tail.append.tail
  rw [List.length_map] at hend
  have hann := announced_signature hlex (hclear.append hf m.isName.balanced) hopen m.isOpening
    m.isParameters.isParameters m.isClosing m.isBrace
    (hend.crosses_keep rfl (m.isUnbrace.idle.quiet hend))
  obtain ⟨t, hlast, ht⟩ := (Option.any_eq_true _ _).mp hdeclares
  have hpos : 0 < m.name.length := List.length_pos_of_ne_nil m.isName.ne_nil
  have hlen : q + (mark false m.name).length = q + m.name.length := by rw [length_mark]
  refine Announced.crosses_visit hname (by rwa [hlen]) (fun e he => ?_) (by rwa [hlen])
  rw [hlen] at he ⊢
  have hfun : c.declaresFunction e (q + m.name.length) = true := by
    rw [declaresFunction_eq hf hlast, ht]
    rw [he _ (by omega) (by omega), hides_mark_false]
  have hvisit := hopen.visits_signature m.isOpening m.isParameters.isParameters.balanced
    m.isClosing m.isColon m.isResult.isType m.isBrace hfun
  rwa [List.length_map] at hvisit

/-- A name that declares nothing makes the parameters a call. -/
theorem crosses_kept (hf : c.From q (m.tokens ++ rest))
    (hname : c.Quiet q ∧ c.QuietOn (q + 1) (q + m.name.length)) (hdeclares : m.declares = false) :
    c.Crosses q (mark false m.tokens) fun _ => false := by
  obtain ⟨t, us, hcons⟩ := List.exists_cons_of_ne_nil m.isName.ne_nil
  have hlen : q + m.name.length = q + 1 + us.length := by rw [hcons, end_cons]
  have hf' : c.From q (m.name ++ m.opening :: (tokensOf m.parameters ++ m.closing ::
      m.colon :: (m.result ++ m.brace :: m.unbrace :: rest))) := by simpa [tokens] using hf
  have hparen := hf'.append
  have hround : c.QuietOn (q + m.name.length) (q + m.name.length + 1) := by
    have hfun : c.declaresFunction [] (q + m.name.length) = false := by
      have hlast := List.getLast?_eq_some_getLast m.isName.ne_nil
      rw [declaresFunction_eq hf' hlast rfl]
      simpa [declares, hlast] using hdeclares
    intro k hk hk'
    obtain rfl : k = q + m.name.length := by omega
    exact visits_undeclared hparen m.isOpening m.isParameters.isParameters.balanced m.isClosing
      m.isColon m.isResult.isType m.isBrace hfun
  have hidle : ∀ t ∈ tokensOf m.parameters ++ m.closing :: m.colon :: (m.result ++
      [m.brace, m.unbrace]), Idle t := by
    intro t ht
    rcases List.mem_append.mp ht with ht | ht
    · exact m.isParameters.idle t ht
    · rcases List.mem_cons.mp ht with rfl | ht
      · exact m.isClosing.idle
      · exact m.idle_tail t ht
  have hrest : c.From (q + m.name.length + 1) ((tokensOf m.parameters ++ m.closing :: m.colon ::
      (m.result ++ [m.brace, m.unbrace])) ++ rest) := by simpa using hparen.tail
  have htail := From.quietOn_idle hrest hidle
  have htokens : m.tokens = t :: (us ++ m.opening :: (tokensOf m.parameters ++ m.closing ::
      m.colon :: (m.result ++ [m.brace, m.unbrace]))) := by simp [tokens, hcons]
  rw [htokens] at hf ⊢
  refine hf.crosses_quietOn hname.1 ?_
  have hquiet : c.QuietOn (q + 1) (q + 1 + us.length) := hlen ▸ hname.2
  rw [hlen] at hround htail
  refine hquiet.append (hround.trans ?_)
  rwa [end_cons]

/-- A method that is taken for a cast loses its name and its parameters. -/
theorem crosses_taken (hf : c.From q (m.tokens ++ rest)) (hclear : c.Clear q) (h0 : 0 < q)
    (hend : c.endsExpression (q - 1) = true) (hcasts : m.casts = true) :
    c.Crosses q m.taken fun _ => false := by
  obtain ⟨t, us, hcons⟩ := List.exists_cons_of_ne_nil m.isName.ne_nil
  obtain ⟨hk, ht⟩ : t.kind = .identifier ∧ t.text ∈ ["as", "satisfies"] := by
    simpa [casts, hcons] using hcasts
  -- a name that begins with a word is that word
  obtain rfl : us = [] := by
    have hname := m.isName
    rw [hcons] at hname
    generalize hts : t :: us = ts at hname
    cases hname with
    | word => exact (List.cons.inj hts).2
    | literal => exact (List.cons.inj hts).2
    | computed ho =>
      rw [← (List.cons.inj hts).1, IsPunct, hk] at ho
      exact absurd ho.1 (by decide)
  have hpieces : m.taken = hide (t :: (m.opening :: (tokensOf m.parameters ++ [m.closing]))) ++
      mark false (m.colon :: (m.result ++ [m.brace, m.unbrace])) := by simp [taken, hcons]
  replace hf : c.From q (t :: ((m.opening :: (tokensOf m.parameters ++ [m.closing])) ++
      ((m.colon :: (m.result ++ [m.brace, m.unbrace])) ++ rest))) := by
    simpa [tokens, hcons] using hf
  have hparen : c.From (q + 1) (m.opening :: (tokensOf m.parameters ++ m.closing :: m.colon ::
      (m.result ++ m.brace :: m.unbrace :: rest))) := by simpa using hf.tail
  have htype := typeEnd_group hparen m.isOpening m.isParameters.isParameters.balanced m.isClosing
    m.isColon
  rw [hpieces]
  refine .append (hf.crosses_cast ⟨.inl hk, rfl⟩ ht ?_ (by simp) hclear h0 hend rfl) ?_
  · rw [htype]
    simp
    omega
  · have htail := hf.tail.append
    rw [length_hide, end_cons]
    exact htail.crosses_idle m.idle_tail fun _ _ _ => rfl

/-- What the pass leaves of a method. It is the first of its class when no expression
ends before it. -/
theorem crosses (first : Bool) (hlex : c.Lexed) (hf : c.From q (m.tokens ++ rest))
    (hclear : c.Clear q) (h0 : 0 < q) (hfirst : c.endsExpression (q - 1) = !first) :
    c.Crosses q (m.left first) fun _ => false := by
  unfold left
  split
  · rename_i hcasts
    rw [Bool.and_eq_true] at hcasts
    exact m.crosses_taken hf hclear h0 (hfirst.trans hcasts.1) hcasts.2
  · rename_i hcasts
    have hf' : c.From q (m.name ++ m.opening :: (tokensOf m.parameters ++ m.closing :: m.colon ::
        (m.result ++ m.brace :: m.unbrace :: rest))) := by simpa [tokens] using hf
    have hname := m.isName.quiet hf' m.isOpening fun t ht hk hm => by
      have htrue : m.casts = true := by
        rw [Option.mem_def] at ht
        simpa [casts, ht, hk] using hm
      cases first <;> simp_all
    split
    · rename_i hdeclares
      refine m.crosses_typed hlex hf hclear ?_ hdeclares
      obtain ⟨t, us, hcons⟩ := List.exists_cons_of_ne_nil m.isName.ne_nil
      rw [hcons] at hf' hname ⊢
      rw [end_cons] at hname
      exact hf'.crosses_quietOn hname.1 hname.2
    · rename_i hdeclares
      exact m.crosses_kept hf hname (by simpa using hdeclares)

theorem memberAt (first : Bool) (hlex : c.Lexed) (hc : c.Spelt) (hf : c.From q (m.tokens ++ rest))
    (hclear : c.Clear q) (h0 : 0 < q) (hfirst : c.endsExpression (q - 1) = !first) :
    MemberAt c q (m.left first) [] where
  scans {close} hclose := by
    rw [m.length_left] at hclose ⊢
    rw [m.memberSpans hc hf hclose]
    simp
  announced := .none (m.crosses first hlex hf hclear h0 hfirst)

/-- Behind a method the next one is not the first. -/
theorem endsExpression_after (hf : c.From q (m.tokens ++ rest)) :
    c.endsExpression (q + m.tokens.length - 1) = true := by
  have hlast : m.tokens.getLast? = some m.unbrace := by
    simp [tokens, List.getLast?_append, List.getLast?_cons]
  have hend := hf.getLast? hlast
  simp [endsExpression, hend.kind?, hend.text, m.isUnbrace.1, m.isUnbrace.2]

end Method

theorem memberAt_later (ms : List Method) (hlex : c.Lexed) (hc : c.Spelt)
    (hf : c.From q (ms.flatMap Method.tokens ++ rest)) (hclear : c.Clear q) (h0 : 0 < q)
    (hend : c.endsExpression (q - 1) = true) :
    MemberAt c q (ms.flatMap (Method.left false)) [] := by
  induction ms generalizing q with
  | nil => exact .nil
  | cons m ms ih =>
    rw [List.flatMap_cons, List.append_assoc] at hf
    refine (m.memberAt false hlex hc hf hclear h0 hend).append ?_
    rw [m.length_left]
    exact ih hf.append (hclear.append hf m.balanced) (by omega) (m.endsExpression_after hf)

theorem memberAt_methods (ms : List Method) (hlex : c.Lexed) (hc : c.Spelt)
    (hf : c.From q (ms.flatMap Method.tokens ++ rest)) (hclear : c.Clear q) (h0 : 0 < q)
    (hend : c.endsExpression (q - 1) = false) : MemberAt c q (methodsLeft ms) [] := by
  cases ms with
  | nil => exact .nil
  | cons m ms =>
    rw [List.flatMap_cons, List.append_assoc] at hf
    have hms : MemberAt c (q + (m.left true).length) (ms.flatMap (Method.left false)) [] := by
      rw [m.length_left]
      exact memberAt_later ms hlex hc hf.append (hclear.append hf m.balanced) (by omega)
        (m.endsExpression_after hf)
    exact (m.memberAt true hlex hc hf hclear h0 hend).append hms

/-! ### Classes of methods -/

theorem ClassFrame.erasedAs_methodsLeft (f : ClassFrame) (ms : List Method) {source : String}
    (hs : significant (tokenize .ts source) = tokensOf (f.around (ms.flatMap Method.typed))) :
    ErasedAs source (f.around (methodsLeft ms)) := by
  have hleft := tokensOf_methodsLeft ms
  rw [f.tokensOf_around, tokensOf_flatMap Method.tokensOf_typed, ← hleft, ← f.tokensOf_around] at hs
  refine f.erasedAs hs (by rw [hleft]; exact balanced_flatMap Method.balanced ms)
    fun hlex hc hf hclear h0 hend => ?_
  rw [hleft] at hf
  exact ⟨[], memberAt_methods ms hlex hc hf hclear h0 hend⟩

/-- The methods of a class lose their types as far as their names let them. So a class
loses exactly the types of its methods when every name declares its method, and none
but the first is the name of a cast operator. -/
theorem erasedAs_methods (f : ClassFrame) (ms : List Method) {source : String}
    (hs : significant (tokenize .ts source) = tokensOf (f.around (ms.flatMap Method.typed))) :
    ErasedAs source (f.around (methodsLeft ms)) ∧
      (ErasedAs source (f.around (ms.flatMap Method.typed)) ↔
        (∀ m ∈ ms, m.declares = true) ∧ ∀ m ∈ ms.tail, m.casts = false) := by
  have h := f.erasedAs_methodsLeft ms hs
  rw [← methodsLeft_eq_iff]
  exact ⟨h, fun h' => f.around_inj (h.unique h'), fun he => he ▸ h⟩

/-- A class on one line with nothing but a name in its header, whose closing brace stands
at `column`. -/
def bareFrame (column : Nat) : ClassFrame where
  keyword := onFirstLine .keyword "class" 0
  name := onFirstLine .identifier "C" 6
  generics := []
  superclass := []
  arguments := []
  interfaces := []
  opening := onFirstLine .punctuator "\x7b" 8
  closing := onFirstLine .punctuator "\x7d" column
  isClass := ⟨rfl, rfl⟩
  isPlain := by decide
  isGenerics := .none
  isSuperclass := .none
  isImplements := .none
  isOpening := ⟨rfl, rfl⟩
  isClosing := ⟨rfl, rfl⟩

def operatorMethods : String :=
  "class C \x7b as(x: T, y?: N.T[]): U \x7b \x7d catch(): V \x7b \x7d \x7d"

/-- The first method of `operatorMethods`. -/
def operatorMethod : Method where
  name := [onFirstLine .identifier "as" 10]
  opening := onFirstLine .punctuator "(" 12
  parameters := keep (onFirstLine .identifier "x" 13) ::
    hide [onFirstLine .punctuator ":" 14, onFirstLine .identifier "T" 16] ++
    keep (onFirstLine .punctuator "," 17) :: keep (onFirstLine .identifier "y" 19) ::
    hide [onFirstLine .punctuator "?" 20, onFirstLine .punctuator ":" 21,
      onFirstLine .identifier "N" 23, onFirstLine .punctuator "." 24,
      onFirstLine .identifier "T" 25, onFirstLine .punctuator "[" 26,
      onFirstLine .punctuator "]" 27]
  closing := onFirstLine .punctuator ")" 28
  colon := onFirstLine .punctuator ":" 29
  result := [onFirstLine .identifier "U" 31]
  brace := onFirstLine .punctuator "\x7b" 33
  unbrace := onFirstLine .punctuator "\x7d" 35
  isName := .word (.inl rfl)
  isOpening := ⟨rfl, rfl⟩
  isParameters := .more (.annotated (by decide) ⟨rfl, rfl⟩ (.name (.name (.inl (by decide)))))
    ⟨rfl, rfl⟩ (.last (.optional (by decide) ⟨rfl, rfl⟩ ⟨rfl, rfl⟩ (@IsNamed.array [_, _] _ _ _
      (.name (.dotted (.inl (by decide)) ⟨rfl, rfl⟩ (.name (.inl (by decide))))) rfl ⟨rfl, rfl⟩
      ⟨rfl, rfl⟩)))
  isClosing := ⟨rfl, rfl⟩
  isColon := ⟨rfl, rfl⟩
  isResult := .name (.name (.inl (by decide)))
  isBrace := ⟨rfl, rfl⟩
  isUnbrace := ⟨rfl, rfl⟩
  isOneLine := by decide +kernel

def catchMethod : Method where
  name := [onFirstLine .keyword "catch" 37]
  opening := onFirstLine .punctuator "(" 42
  parameters := []
  closing := onFirstLine .punctuator ")" 43
  colon := onFirstLine .punctuator ":" 44
  result := [onFirstLine .identifier "V" 46]
  brace := onFirstLine .punctuator "\x7b" 48
  unbrace := onFirstLine .punctuator "\x7d" 50
  isName := .word (.inr ⟨rfl, by decide⟩)
  isOpening := ⟨rfl, rfl⟩
  isParameters := .none
  isClosing := ⟨rfl, rfl⟩
  isColon := ⟨rfl, rfl⟩
  isResult := .name (.name (.inl (by decide)))
  isBrace := ⟨rfl, rfl⟩
  isUnbrace := ⟨rfl, rfl⟩
  isOneLine := by decide +kernel

theorem erasedAs_methods_operator :
    significant (tokenize .ts operatorMethods) = tokensOf ((bareFrame 52).around
        ([operatorMethod, catchMethod].flatMap Method.typed)) ∧
      ErasedAs operatorMethods ((bareFrame 52).around
        ([operatorMethod, catchMethod].flatMap Method.typed)) := by
  have hs : significant (tokenize .ts operatorMethods) = tokensOf ((bareFrame 52).around
      ([operatorMethod, catchMethod].flatMap Method.typed)) := by decide +kernel
  exact ⟨hs, (erasedAs_methods _ _ hs).2.mpr (by decide +kernel)⟩

def deleteMethods : String := "class C \x7b delete(x: T): U \x7b \x7d \x7d"

def deleteMethod : Method where
  name := [onFirstLine .keyword "delete" 10]
  opening := onFirstLine .punctuator "(" 16
  parameters := keep (onFirstLine .identifier "x" 17) ::
    hide [onFirstLine .punctuator ":" 18, onFirstLine .identifier "T" 20]
  closing := onFirstLine .punctuator ")" 21
  colon := onFirstLine .punctuator ":" 22
  result := [onFirstLine .identifier "U" 24]
  brace := onFirstLine .punctuator "\x7b" 26
  unbrace := onFirstLine .punctuator "\x7d" 28
  isName := .word (.inr ⟨rfl, by decide⟩)
  isOpening := ⟨rfl, rfl⟩
  isParameters := .last (.annotated (by decide) ⟨rfl, rfl⟩ (.name (.name (.inl (by decide)))))
  isClosing := ⟨rfl, rfl⟩
  isColon := ⟨rfl, rfl⟩
  isResult := .name (.name (.inl (by decide)))
  isBrace := ⟨rfl, rfl⟩
  isUnbrace := ⟨rfl, rfl⟩
  isOneLine := by decide +kernel

/-- A method with the name of a reserved word keeps its types. -/
theorem not_erasedAs_deleteMethods :
    significant (tokenize .ts deleteMethods) =
        tokensOf ((bareFrame 30).around ([deleteMethod].flatMap Method.typed)) ∧
      eraseTypes .ts deleteMethods = some deleteMethods ∧
      ¬ ErasedAs deleteMethods ((bareFrame 30).around ([deleteMethod].flatMap Method.typed)) := by
  have hs : significant (tokenize .ts deleteMethods) =
      tokensOf ((bareFrame 30).around ([deleteMethod].flatMap Method.typed)) := by decide +kernel
  have hleft := (bareFrame 30).erasedAs_methodsLeft [deleteMethod] hs
  refine ⟨hs, hleft.eraseTypes_eq.trans (by decide +kernel), fun h => ?_⟩
  have hsame := (bareFrame 30).around_inj (hleft.unique h)
  exact absurd ((methodsLeft_eq_iff _).mp hsame) (by decide +kernel)

end Retouch.Erase
