import Retouch.Proofs.ClassParameters
import Retouch.Proofs.MethodErasure

/-! Classes of fields and constructors. Each clause of the header, each marker, each
annotation and each modifier of a field goes as it should, in any number and order, and
so do the parameters of constructors, but for modifiers behind `static`. -/

namespace Retouch.Erase
open Syntax Code Token Plain

/-! ### Initial values -/

/-- Names, literals and calls, with properties. -/
inductive IsValue : Part → List Token → Prop
  | atom {t} : IsAtom t → IsValue .single [t]
  | template {t ts} : OpensHole t → IsValue .chunks ts → IsValue .single (t :: ts)
  | lastChunk {ts z} : IsValue .single ts → ClosesTemplate z → IsValue .chunks (ts ++ [z])
  | chunk {ts m us} : IsValue .single ts → OpensHole m → IsValue .chunks us →
      IsValue .chunks (ts ++ m :: us)
  | array {o ts z} : IsPunct o "[" → Plain.IsExpression (.items false) ts → IsPunct z "]" →
      IsValue .single (o :: (ts ++ [z]))
  | object {o ts z} : IsPunct o "\x7b" → Plain.IsExpression (.items true) ts →
      IsPunct z "\x7d" → IsValue .single (o :: (ts ++ [z]))
  | call {fs o ts z} : IsValue .single fs → IsPunct o "(" → Plain.IsExpression (.items false) ts →
      IsPunct z ")" → IsValue .single (fs ++ o :: (ts ++ [z]))
  | member {ts d n} : IsValue .single ts → IsPunct d "." → IsPlain n →
      IsValue .single (ts ++ [d, n])

theorem IsValue.isExpression {part : Part} {ts : List Token} (h : IsValue part ts) :
    Plain.IsExpression part ts := by
  induction h with
  | atom ht => exact .atom ht
  | template ht _ ih => exact .template ht ih
  | lastChunk _ hz ih => exact .lastChunk ih hz
  | chunk _ hm _ ih ihu => exact .chunk ih hm ihu
  | array ho hts hz => exact .array ho hts hz
  | object ho hts hz => exact .object ho hts hz
  | call _ ho hts hz ih => exact .call ih ho hts hz
  | member _ hd hn ih => exact .member ih hd hn

inductive IsInitialiser : List Token → Prop
  | none : IsInitialiser []
  | value {a ts} : IsPunct a "=" → IsValue .single ts → IsInitialiser (a :: ts)

/-! ### Members -/

/-- A question mark or an exclamation mark, if any. -/
def IsMarker (ts : List Token) : Prop :=
  ts = [] ∨ ∃ q s, ts = [q] ∧ q.IsPunct s ∧ s ∈ ["?", "!"]

/-- A field with an annotation, on one line. -/
structure Field where
  lead : List Token
  name : Token
  marker : List Token
  colon : Token
  type : List Token
  initial : List Token
  semicolon : Token
  isLead : ∀ m ∈ lead, IsModifier m
  isPlain : name.IsPlain
  isMarker : IsMarker marker
  isColon : colon.IsPunct ":"
  isType : IsType .whole 0 type
  isInitialiser : IsInitialiser initial
  isSemicolon : semicolon.IsPunct ";"
  isOneLine : OneLine (lead ++ name :: (marker ++ colon :: (type ++ (initial ++ [semicolon]))))

def Field.tokens (x : Field) : List Token :=
  x.lead ++ x.name :: (x.marker ++ x.colon :: (x.type ++ (x.initial ++ [x.semicolon])))

def Field.pieces (x : Field) : List Piece :=
  typedLead x.lead ++ keep x.name :: (hide (x.marker ++ x.colon :: x.type) ++
    mark false (x.initial ++ [x.semicolon]))

/-- A member with parameters and an empty body, such as the constructor, on one line. -/
structure Constructor where
  name : Token
  opening : Token
  parameters : Parameters
  closing : Token
  brace : Token
  unbrace : Token
  isPlain : name.IsPlain
  isOpening : opening.IsPunct "("
  isClosing : closing.IsPunct ")"
  isBrace : brace.IsPunct "\x7b"
  isUnbrace : unbrace.IsPunct "\x7d"
  isOneLine : OneLine (name :: opening :: (parameters.tokens ++ [closing, brace, unbrace]))

def Constructor.tokens (x : Constructor) : List Token :=
  x.name :: x.opening :: (x.parameters.tokens ++ [x.closing, x.brace, x.unbrace])

def Constructor.pieces (lead : List Token → List Piece) (x : Constructor) : List Piece :=
  keep x.name :: keep x.opening :: (x.parameters.pieces lead ++
    [keep x.closing, keep x.brace, keep x.unbrace])

inductive Member where
  | field (x : Field)
  | constructor (x : Constructor)

namespace Member

def tokens : Member → List Token
  | field x => x.tokens
  | constructor x => x.tokens

/-- A member without its types, whose parameters keep of their modifiers what `lead`
says. -/
def pieces (lead : List Token → List Piece) : Member → List Piece
  | field x => x.pieces
  | constructor x => x.pieces lead

/-- No modifier of a parameter stands behind `static`, but `static`. -/
def Ordered : Member → Prop
  | field _ => True
  | constructor x => ∀ y ∈ x.parameters.toList, ∀ m ∈ y.lead.dropWhile (!isStatic ·),
      isStatic m = true

instance (x : Member) : Decidable x.Ordered :=
  match x with
  | field _ => inferInstanceAs (Decidable True)
  | constructor _ => inferInstanceAs (Decidable (∀ _ ∈ _, _))

end Member

/-! ### Marks -/

theorem Field.tokensOf_pieces (x : Field) : tokensOf x.pieces = x.tokens := by
  have hlead := tokensOf_typedLead x.lead
  have htype := tokensOf_hide (x.marker ++ x.colon :: x.type)
  have hrest := tokensOf_mark false (x.initial ++ [x.semicolon])
  simp only [tokensOf, Field.pieces, Field.tokens, List.map_append, List.map_cons]
    at hlead htype hrest ⊢
  rw [hlead, htype, hrest]
  simp

section
variable {lead : List Token → List Piece} (hlead : ∀ ms, tokensOf (lead ms) = ms)
include hlead

theorem Constructor.tokensOf_pieces (x : Constructor) :
    tokensOf (x.pieces lead) = x.tokens := by
  have hparameters := x.parameters.tokensOf_pieces hlead
  simp only [tokensOf, Constructor.pieces, Constructor.tokens, List.map_append, List.map_cons,
    List.map_nil] at hparameters ⊢
  rw [hparameters]
  rfl

theorem Member.tokensOf_pieces (x : Member) : tokensOf (x.pieces lead) = x.tokens := by
  cases x with
  | field x => exact x.tokensOf_pieces
  | constructor x => exact x.tokensOf_pieces hlead

end

theorem Member.pieces_eq_iff (x : Member) :
    x.pieces leftLead = x.pieces typedLead ↔ x.Ordered := by
  cases x with
  | field x => simp [Member.pieces, Member.Ordered]
  | constructor x =>
    rw [Member.Ordered, ← Parameters.pieces_eq_iff]
    simp [Member.pieces, Constructor.pieces]

theorem members_eq_iff (ms : List Member) :
    ms.flatMap (Member.pieces leftLead) = ms.flatMap (Member.pieces typedLead) ↔
      ∀ m ∈ ms, m.Ordered := by
  have hlen (x : Member) : (x.pieces leftLead).length = (x.pieces typedLead).length := by
    rw [length_of_tokensOf (x.tokensOf_pieces tokensOf_leftLead),
      length_of_tokensOf (x.tokensOf_pieces tokensOf_typedLead)]
  rw [flatMap_eq_iff hlen]
  simp only [Member.pieces_eq_iff]

/-! ### Fields in the scan -/

variable {c : Code} {p q close : Nat} {part : Part} {m n : Token} {ms ts rest : List Token}

theorem IsValue.memberSpans (h : IsValue part ts) (hc : c.Spelt) (hf : c.From p (ts ++ rest))
    (hl : Level c p (p + ts.length)) (hidle : c.member (p + ts.length) = ([], p + ts.length))
    (hclose : p + ts.length < close) :
    c.memberSpans close p false = c.memberSpans close (p + ts.length) false := by
  have hchunk {i : Nat} {t : Token} {rest : List Token} (hf : c.From i (t :: rest))
      (hk : t.kind = .template) : c.member i = ([], i) ∧ c.text i ∉ memberMarks := by
    have hsolid : ¬ t.kind.IsLoose := by rw [hk]; decide
    refine ⟨member_idle hf (by rw [hk]; decide) ?_, From.notMem_memberMarks hf hc hsolid⟩
    rw [← hf.text]
    simp [hf.text_ne hc hsolid (m := "["), hf.text_ne hc hsolid (m := "#"),
      hf.text_ne hc hsolid (m := "*")]
  induction h generalizing p rest with
  | atom ht =>
    exact memberSpans_skip (by omega) (hl p (by omega) (by simp))
      (From.notMem_memberMarks hf hc ht.solid)
  | @template t ts ht _ ih =>
    rw [end_cons] at hl hidle hclose ⊢
    rw [memberSpans_skip (by omega) (hl p (by omega) (by omega))
      (From.notMem_memberMarks hf hc ht.solid)]
    exact ih hf.tail (hl.mono (by omega) (by omega)) hidle hclose
  | @lastChunk ts z _ hz ih =>
    rw [List.append_assoc] at hf
    rw [end_append, end_single] at hl hclose ⊢
    have hlast := hchunk hf.append hz.1
    rw [ih hf (hl.mono (by omega) (by omega)) hlast.1 (by omega)]
    exact memberSpans_skip (by omega) (hl _ (by omega) (by omega)) hlast.2
  | @chunk ts m us _ hm _ ih ihu =>
    rw [List.append_assoc] at hf
    rw [end_append, end_cons] at hl hidle hclose ⊢
    have hnext := hchunk hf.append hm.1
    rw [ih hf (hl.mono (by omega) (by omega)) hnext.1 (by omega),
      memberSpans_skip (by omega) (hl _ (by omega) (by omega)) hnext.2]
    exact ihu hf.append.tail (hl.mono (by omega) (by omega)) hidle hclose
  | @array o ts z ho hts hz =>
    replace hf : c.From p (o :: (ts ++ z :: rest)) := by simpa using hf
    have hpartner := hf.partner_closer (ho.opens .square) hts.balanced (hz.closes .square)
    rw [end_cons, end_append, end_single] at hl hclose ⊢
    exact memberSpans_group (by omega) (hl p (by omega) (by omega)) (by simp [hf.text, ho.2])
      hpartner
  | @object o ts z ho hts hz =>
    replace hf : c.From p (o :: (ts ++ z :: rest)) := by simpa using hf
    have hpartner := hf.partner_closer (ho.opens .curly) hts.balanced (hz.closes .curly)
    rw [end_cons, end_append, end_single] at hl hidle hclose ⊢
    -- the scan takes the brace for a body, and finds no member behind it
    rw [memberSpans_brace (by omega) (hl p (by omega) (by omega)) (by rw [hf.text, ho.2]) hpartner,
      memberSpans_idle hclose hidle]
  | @call fs o ts z _ ho hts hz ih =>
    replace hf : c.From p (fs ++ o :: (ts ++ z :: rest)) := by simpa using hf
    have hopen := hf.append
    have hpartner := hopen.partner_closer (ho.opens .round) hts.balanced (hz.closes .round)
    rw [end_append, end_cons, end_append, end_single] at hl hclose ⊢
    rw [ih hf (hl.mono (by omega) (by omega))
      (member_idle hopen (by rw [ho.1]; decide) (by rw [ho.2]; decide)) (by omega)]
    exact memberSpans_group (by omega) (hl _ (by omega) (by omega)) (by simp [hopen.text, ho.2])
      hpartner
  | @member ts d n _ hd hn ih =>
    rw [List.append_assoc] at hf
    have hdot := hf.append
    rw [end_append, end_cons, end_single] at hl hclose ⊢
    rw [ih hf (hl.mono (by omega) (by omega))
      (member_idle hdot (by rw [hd.1]; decide) (by rw [hd.2]; decide)) (by omega),
      memberSpans_skip (by omega) (hl _ (by omega) (by omega)) (by rw [hdot.text, hd.2]; decide)]
    exact memberSpans_skip (by omega) (hl _ (by omega) (by omega))
      (From.notMem_memberMarks hdot.tail hc hn.solid)

/-- What the scan announces of the modifiers of a field at `p`. -/
def leadSpans (p : Nat) : List Token → Erasure
  | [] => []
  | m :: ms => if isStatic m then leadSpans (p + 1) ms else .single p :: leadSpans (p + 1) ms

theorem memberLead_eq (hf : c.From p (ms ++ n :: rest)) (hms : ∀ m ∈ ms, IsModifier m)
    (hn : n.IsPlain) (hlone : c.nameFollows (p + ms.length) = false)
    (hstar : c.punct (p + ms.length) "*" = false) :
    c.memberLead p = (leadSpans p ms, p + ms.length) := by
  induction ms generalizing p with
  | nil =>
    rw [List.length_nil, Nat.add_zero] at hlone hstar
    rw [memberLead]
    simp [hlone, hstar, leadSpans]
  | cons m ms ih =>
    have hms' : ∀ m ∈ ms, IsModifier m := fun u hu => hms u (by simp [hu])
    rw [end_cons] at hlone hstar ⊢
    have hrest := ih hf.tail hms' hlone hstar
    obtain ⟨u, us, hhead, hu⟩ := leads_head rest hms' hn
    rw [List.cons_append, hhead] at hf
    have hm := hms m (by simp)
    have hfollows : c.nameFollows p = true := by simp [nameFollows, hu.isName hf.tail]
    have hsize := hf.lt_size
    cases hs : isStatic m with
    | true =>
      have htext : c.text p = "static" := by simpa [hf.text, isStatic] using hs
      have hkept : "static" ∉ modifiers ∧ "static" ∈ memberWords := by decide
      rw [memberLead]
      simp [hsize, hm.isName hf, hfollows, htext, hkept, hrest, leadSpans, hs]
    | false =>
      have htext : c.text p ∈ modifiers := hf.text ▸ hm.mem_modifiers hs
      rw [memberLead]
      simp [hsize, hm.isName hf, hfollows, htext, hrest, leadSpans, hs]

theorem announced_lead (hf : c.From p (ms ++ n :: rest)) (hms : ∀ m ∈ ms, IsModifier m)
    (hn : n.IsPlain) : Announced c p (typedLead ms) (leadSpans p ms) := by
  induction ms generalizing p with
  | nil => exact .none .nil
  | cons m ms ih =>
    have hms' : ∀ m ∈ ms, IsModifier m := fun u hu => hms u (by simp [hu])
    have hrest := ih hf.tail hms'
    obtain ⟨u, us, hhead, hu⟩ := leads_head rest hms' hn
    rw [List.cons_append, hhead] at hf
    cases hs : isStatic m with
    | true =>
      have hquiet := (hms m (by simp)).quiet hf hu.text_ne_class
      have hm := Announced.keep_cons hf hquiet hrest
      simpa [typedLead, leadSpans, hs, keep] using hm
    | false =>
      have hhidden : Announced c p (hide [m]) [.single p] := announced_hidden hf (by simp) rfl
      have hm := hhidden.append hrest
      simpa [typedLead, leadSpans, hs, hide] using hm

theorem IsInitialiser.memberSpans {s : Token} (h : IsInitialiser ts) (hc : c.Spelt)
    (hf : c.From p (ts ++ s :: rest)) (hs : s.IsPunct ";") (hl : Level c p (p + ts.length + 1))
    (hclose : p + ts.length < close) :
    c.memberSpans close p false = c.memberSpans close (p + ts.length + 1) true := by
  have hend := hf.append
  have hsemicolon := memberSpans_semicolon hclose (hl _ (by omega) (by omega))
    (by rw [hend.text, hs.2])
  rw [← hsemicolon]
  cases h with
  | none => rfl
  | @value a ts ha hts =>
    rw [end_cons] at hl hclose hend ⊢
    rw [memberSpans_skip (by omega) (hl p (by omega) (by omega)) (by rw [hf.text, ha.2]; decide)]
    exact hts.memberSpans hc hf.tail (hl.mono (by omega) (by omega))
      (member_idle hend (by rw [hs.1]; decide) (by rw [hs.2]; decide)) hclose

theorem IsInitialiser.crosses {s : Token} (h : IsInitialiser ts) (hf : c.From p (ts ++ s :: rest))
    (hs : s.IsPunct ";") : c.Crosses p (mark false (ts ++ [s])) fun _ => false := by
  have hend := hf.append
  rw [mark_append]
  refine .append ?_ (by
    rw [length_mark]
    exact hend.crosses_keep rfl (hs.idle.quiet hend))
  cases h with
  | none => exact .nil
  | @value a ts ha hts =>
    rw [end_cons] at hend
    exact hf.crosses_quietOn (ha.idle.quiet hf) (hts.isExpression.harmless hf.tail
      (bangFree_after (hf.endsExpression_punct ha (by decide)))
      (hend.follow_punct hs (by decide))).quiet

theorem IsInitialiser.head {s : Token} (h : IsInitialiser ts) (rest : List Token)
    (hs : s.IsPunct ";") : ∃ u us, ts ++ s :: rest = u :: us ∧ u.text ∉ typeJoints := by
  cases h with
  | none => exact ⟨s, rest, rfl, by rw [hs.2]; decide⟩
  | value ha _ => exact ⟨_, _, rfl, by rw [ha.2]; decide⟩

theorem memberTail_eq {marker : List Token} {colon : Token}
    (hf : c.From p (marker ++ colon :: (ts ++ rest))) (hmarker : IsMarker marker)
    (hcolon : colon.IsPunct ":")
    (htype : c.typeEnd (p + marker.length + 1) = p + marker.length + 1 + ts.length) :
    c.memberTail p = (stretch p (p + marker.length) ++
      [.upTo (p + marker.length) (p + marker.length + 1 + ts.length)],
      p + marker.length + 1 + ts.length) := by
  have hmark := hf.append
  have hpunct : c.punct (p + marker.length) ":" = true := by
    simp [hmark.punct, hcolon.1, hcolon.2]
  rcases hmarker with rfl | ⟨q, s, rfl, hq, hs⟩
  · have hnone : c.punct p "?" = false ∧ c.punct p "!" = false := by
      simp [hf.punct, hcolon.2]
    simp only [List.length_nil, Nat.add_zero] at hpunct htype ⊢
    simp [memberTail, hnone, hpunct, htype, stretch]
  · have hsome : (c.punct p "?" || c.punct p "!") = true := by
      simp only [List.mem_cons, List.not_mem_nil, or_false] at hs
      rcases hs with rfl | rfl <;> simp [hf.punct, hq.1, hq.2]
    have hnext : c.text (p + 1) = ":" := by rw [hf.tail.text, hcolon.2]
    simp only [List.length_singleton] at hpunct htype ⊢
    simp [memberTail, hsome, hnext, hpunct, htype, stretch]
    rfl

theorem nameFollows_eq_false {marker : List Token} {colon : Token}
    (hf : c.From p (n :: (marker ++ colon :: rest))) (hmarker : IsMarker marker)
    (hcolon : colon.IsPunct ":") : c.nameFollows p = false := by
  rcases hmarker with rfl | ⟨q, s, rfl, hq, hs⟩
  · simp [nameFollows, hf.tail.isName, hf.tail.kind?, hf.tail.text, hcolon.1, hcolon.2]
  · have htext : s ∉ ["[", "#", "*"] :=
      (by decide : ∀ s ∈ ["?", "!"], s ∉ ["[", "#", "*"]) s hs
    simp only [List.mem_cons, List.not_mem_nil, or_false, not_or] at htext
    simp [nameFollows, hf.tail.isName, hf.tail.kind?, hf.tail.text, hq.1, hq.2, htext]

/-! ### Members, in the scan and in the pass -/

namespace Field
variable (x : Field)

/-- What the scan announces of a field at `q`. -/
def spans (q : Nat) : Erasure :=
  leadSpans q x.lead ++
    (stretch (q + x.lead.length + 1) (q + x.lead.length + 1 + x.marker.length) ++
      [.upTo (q + x.lead.length + 1 + x.marker.length)
        (q + x.lead.length + 1 + x.marker.length + 1 + x.type.length)])

theorem length_tokens : x.tokens.length =
    x.lead.length + 1 + x.marker.length + 1 + x.type.length + x.initial.length + 1 := by
  simp [tokens]
  omega

theorem from_tokens (hf : c.From q (x.tokens ++ rest)) : c.From q (x.lead ++ x.name ::
    (x.marker ++ x.colon :: (x.type ++ (x.initial ++ x.semicolon :: rest)))) := by
  simpa [tokens] using hf

/-- The scan reads a field up to its initial value. -/
theorem member (hc : c.Spelt) (hf : c.From q (x.tokens ++ rest)) : c.member q =
    (x.spans q, q + x.lead.length + 1 + x.marker.length + 1 + x.type.length) := by
  replace hf := x.from_tokens hf
  have hname := hf.append
  have hcolon := hname.tail.append
  obtain ⟨hsolid, hnamed⟩ := memberName_token hc hname (.inl (.inl x.isPlain.1))
  have htype := hcolon.tail.typeEnd x.isType (by
    have hvalue := hcolon.tail.append
    obtain ⟨u, us, hhead, hu⟩ := x.isInitialiser.head rest x.isSemicolon
    rw [hhead] at hvalue
    rwa [hvalue.text])
  have hlead := memberLead_eq hf x.isLead x.isPlain
    (nameFollows_eq_false hname x.isMarker x.isColon) (punct_eq_false (hname.text_ne hc hsolid))
  have htail := memberTail_eq hname.tail x.isMarker x.isColon htype
  simp only [Code.member, hlead, hnamed, htail, spans]

theorem announced (hf : c.From q (x.tokens ++ rest)) : Announced c q x.pieces (x.spans q) := by
  replace hf := x.from_tokens hf
  have hname := hf.append
  have hvalue := hname.tail.append.tail.append
  have hannotated := (announced_typing hname.tail).append (.none (by
    rw [length_hide, end_append, end_cons]
    exact x.isInitialiser.crosses hvalue x.isSemicolon))
  have hkept := Announced.keep_cons hname (hname.quiet_plain x.isPlain) hannotated
  have hlength : (typedLead x.lead).length = x.lead.length := by simp [typedLead]
  have hall := (announced_lead hf x.isLead x.isPlain).append (by rw [hlength]; exact hkept)
  simpa [pieces, spans] using hall

theorem memberAt (hc : c.Spelt) (hf : c.From q (x.tokens ++ rest)) :
    MemberAt c q x.pieces (x.spans q) where
  scans {close} hclose := by
    have hl : Level c (q + 1) (q + x.tokens.length) := OneLine.level x.isOneLine hf
    have hlen := x.length_tokens
    rw [length_of_tokensOf x.tokensOf_pieces] at hclose ⊢
    have hvalue := (x.from_tokens hf).append.tail.append.tail.append
    rw [memberSpans_member (by omega) (x.member hc hf) (by omega),
      x.isInitialiser.memberSpans hc hvalue x.isSemicolon (hl.mono (by omega) (by omega))
        (by omega)]
    congr 2
    omega
  announced := x.announced hf

theorem balanced : Balanced x.tokens := by
  have hmarker : Balanced x.marker := by
    rcases x.isMarker with h | ⟨q, s, h, hq, hs⟩ <;> rw [h]
    · exact .nil
    · exact balanced_mark hq
        ((by decide : ∀ s ∈ ["?", "!"], s ∉ ["(", "[", "\x7b", ")", "]", "\x7d"]) s hs)
  have hvalue : Balanced (x.initial ++ [x.semicolon]) := by
    refine .append ?_ (balanced_mark x.isSemicolon (by decide))
    generalize x.initial = ts, x.isInitialiser = h
    cases h with
    | none => exact .nil
    | value ha hts => exact .cons (balanced_mark ha (by decide)) hts.isExpression.balanced
  exact (balanced_lead x.isLead).append (.cons x.isPlain.inert.balanced (hmarker.append
    (.cons x.isColon.balanced (x.isType.scanned.balanced.append hvalue))))

end Field

/-- Brackets behind a name and before a body hold parameters. -/
theorem visits_parameters {o z b : Token} {e : Erasure}
    (hf : c.From p (o :: (ts ++ z :: b :: rest))) (ho : o.IsPunct "(") (hts : Balanced ts)
    (hz : z.IsPunct ")") (hb : b.IsPunct "\x7b") (hfun : c.declaresFunction e p = true) :
    c.Visits e p (c.parameterSpans (p + 1 + ts.length) (p + 1) .front) (p + 1) := by
  have hbrace := hf.tail.append.tail
  have hpartner := hf.partner_closer (ho.opens .round) hts (hz.closes .round)
  have hspans : c.punctSpans e p = c.parameterSpans (p + 1 + ts.length) (p + 1) .front := by
    simp [punctSpans, hf.text, ho.2, signatureSpans, hpartner, hbrace.text, hb.2, hfun]
  have hvisit := hf.visits_punct ho e
  rwa [hspans] at hvisit

namespace Constructor
variable (x : Constructor)

theorem from_tokens (hf : c.From q (x.tokens ++ rest)) : c.From q (x.name :: x.opening ::
    (x.parameters.tokens ++ x.closing :: x.brace :: ([] ++ x.unbrace :: rest))) := by
  simpa [tokens] using hf

theorem crosses (hlex : c.Lexed) (hf : c.From q (x.tokens ++ rest)) :
    c.Crosses q (x.pieces leftLead) fun _ => false := by
  replace hf := x.from_tokens hf
  have hopen := hf.tail
  have hclose := hopen.tail.append
  have hlen := length_of_tokensOf (x.parameters.tokensOf_pieces tokensOf_leftLead)
  have hparameters := x.parameters.announced hlex hopen.tail rfl
    (by rw [hclose.text, x.isClosing.2])
  have hbody : c.Crosses (q + 1 + 1 + x.parameters.tokens.length)
      [keep x.closing, keep x.brace, keep x.unbrace] fun _ => false :=
    .cons (hclose.crosses_keep rfl (x.isClosing.idle.quiet hclose))
      (.cons (hclose.tail.crosses_keep rfl (x.isBrace.idle.quiet hclose.tail))
        (hclose.tail.tail.crosses_keep rfl (x.isUnbrace.idle.quiet hclose.tail.tail)))
  have hann := hparameters.append (.none (by rw [hlen]; exact hbody))
  rw [List.append_nil] at hann
  have hname : c.Crosses q [keep x.name] fun _ => false :=
    hf.crosses_keep rfl (hf.quiet_plain x.isPlain)
  have hcrosses := Announced.crosses_visit hname hopen (fun e he => by
    have hkept : e.covers q = false := (he q (Nat.le_refl q) (by simp)).trans (by simp)
    have hfun : c.declaresFunction e (q + 1) = x.name.declares :=
      @declaresFunction_eq c q x.name [x.name] _ e hf rfl hkept
    rw [Token.declares, x.isPlain.1] at hfun
    exact visits_parameters hopen x.isOpening x.parameters.balanced x.isClosing x.isBrace hfun) hann
  exact hcrosses

theorem memberAt (hlex : c.Lexed) (hc : c.Spelt) (hf : c.From q (x.tokens ++ rest)) :
    MemberAt c q (x.pieces leftLead) [] where
  scans {close} hclose := by
    have hl : Level c (q + 1) (q + x.tokens.length) := OneLine.level x.isOneLine hf
    have hpieces := length_of_tokensOf (x.tokensOf_pieces tokensOf_leftLead)
    have hlen : x.tokens.length = x.parameters.tokens.length + 5 := by simp [tokens]
    replace hf := x.from_tokens hf
    have hopen := hf.tail
    have hbrace := hopen.tail.append.tail
    have hround := hopen.partner_closer (x.isOpening.opens .round) x.parameters.balanced
      (x.isClosing.closes .round)
    have hcurly := hbrace.partner_closer (x.isBrace.opens .curly) .nil (x.isUnbrace.closes .curly)
    rw [hpieces] at hclose ⊢
    rw [memberSpans_member (by omega) (member_name hc hf x.isOpening (.inl (.inl x.isPlain.1)))
        (by omega),
      memberSpans_group (by omega) (hl _ (by omega) (by omega))
        (by simp [hopen.text, x.isOpening.2]) hround,
      memberSpans_brace (by omega) (hl _ (by omega) (by omega)) (by rw [hbrace.text, x.isBrace.2])
        hcurly, List.length_nil, hlen]
    congr 2
    omega
  announced := .none (x.crosses hlex hf)

theorem balanced : Balanced x.tokens := by
  have hround := balanced_round x.isOpening x.parameters.balanced x.isClosing
  have hcurly := balanced_curly x.isBrace .nil x.isUnbrace
  simpa [tokens] using Balanced.cons x.isPlain.inert.balanced (hround.append hcurly)

end Constructor

theorem Member.memberAt (x : Member) (hlex : c.Lexed) (hc : c.Spelt)
    (hf : c.From q (x.tokens ++ rest)) : ∃ spans, MemberAt c q (x.pieces leftLead) spans := by
  cases x with
  | field x => exact ⟨_, x.memberAt hc hf⟩
  | constructor x => exact ⟨_, x.memberAt hlex hc hf⟩

theorem memberAt_members (ms : List Member) (hlex : c.Lexed) (hc : c.Spelt)
    (hf : c.From q (ms.flatMap Member.tokens ++ rest)) :
    ∃ spans, MemberAt c q (ms.flatMap (Member.pieces leftLead)) spans := by
  induction ms generalizing q with
  | nil => exact ⟨[], .nil⟩
  | cons m ms ih =>
    rw [List.flatMap_cons, List.append_assoc] at hf
    have hlen := length_of_tokensOf (m.tokensOf_pieces tokensOf_leftLead)
    obtain ⟨spans, hm⟩ := m.memberAt hlex hc hf
    obtain ⟨spans', hms⟩ := ih hf.append
    exact ⟨_, hm.append (by rwa [hlen])⟩

theorem Member.balanced (x : Member) : Balanced x.tokens := by
  cases x with
  | field x => exact x.balanced
  | constructor x => exact x.balanced

/-! ### Whole classes -/

theorem ClassFrame.erasedAs_members (f : ClassFrame) (ms : List Member) {source : String}
    (hs : significant (tokenize .ts source) =
      tokensOf (f.around (ms.flatMap (Member.pieces typedLead)))) :
    ErasedAs source (f.around (ms.flatMap (Member.pieces leftLead))) := by
  have hleft := tokensOf_flatMap (Member.tokensOf_pieces tokensOf_leftLead) ms
  rw [f.tokensOf_around, tokensOf_flatMap (Member.tokensOf_pieces tokensOf_typedLead), ← hleft,
    ← f.tokensOf_around] at hs
  refine f.erasedAs hs (by rw [hleft]; exact balanced_flatMap Member.balanced ms)
    fun hlex hc hf _ _ _ => ?_
  rw [hleft] at hf
  exact memberAt_members ms hlex hc hf

/-- A class of fields and constructors keeps its tokens without the types, but for the
modifiers of a parameter behind `static`. So it loses exactly its types when there are
none of those. -/
theorem erasedAs_class (f : ClassFrame) (ms : List Member) {source : String}
    (hs : significant (tokenize .ts source) =
      tokensOf (f.around (ms.flatMap (Member.pieces typedLead)))) :
    ErasedAs source (f.around (ms.flatMap (Member.pieces leftLead))) ∧
      (ErasedAs source (f.around (ms.flatMap (Member.pieces typedLead))) ↔
        ∀ m ∈ ms, m.Ordered) := by
  have h := f.erasedAs_members ms hs
  rw [← members_eq_iff]
  exact ⟨h, fun h' => f.around_inj (h.unique h'), fun he => he ▸ h⟩

def sharedClass : String :=
  "class C<X extends T> extends B<T> implements I, J \x7b static readonly x?: T[] = f(1); " ++
    "constructor(private p: N.T, q?: T) \x7b \x7d \x7d"

/-- The header of `sharedClass`. -/
def sharedFrame : ClassFrame :=
  { bareFrame 123 with
    generics := [onFirstLine .punctuator "<" 7, onFirstLine .identifier "X" 8,
      onFirstLine .keyword "extends" 10, onFirstLine .identifier "T" 18,
      onFirstLine .punctuator ">" 19]
    superclass := [onFirstLine .keyword "extends" 21, onFirstLine .identifier "B" 29]
    arguments := [onFirstLine .punctuator "<" 30, onFirstLine .identifier "T" 31,
      onFirstLine .punctuator ">" 32]
    interfaces := [onFirstLine .keyword "implements" 34, onFirstLine .identifier "I" 45,
      onFirstLine .punctuator "," 46, onFirstLine .identifier "J" 48]
    opening := onFirstLine .punctuator "\x7b" 50
    isGenerics := .declared ⟨rfl, rfl⟩ (.close
      (.bounded (by decide) ⟨rfl, rfl⟩ (IsNamed.isType (.name (.name (.inl (by decide))))))
      ⟨">", by decide, by decide⟩)
    isSuperclass := .generic ⟨rfl, rfl⟩ (.name (.inl (by decide))) ⟨rfl, rfl⟩
      (.close (.argument (IsNamed.isType (.name (.name (.inl (by decide))))))
        ⟨">", by decide, by decide⟩)
    isImplements := .declared ⟨rfl, rfl⟩ (.more (IsNamed.isType (.name (.name (.inl (by decide)))))
      (by decide) ⟨rfl, rfl⟩
      (.last (IsNamed.isType (.name (.name (.inl (by decide))))) (by decide)))
    isOpening := ⟨rfl, rfl⟩ }

def sharedField : Field where
  lead := [onFirstLine .keyword "static" 52, onFirstLine .keyword "readonly" 59]
  name := onFirstLine .identifier "x" 68
  marker := [onFirstLine .punctuator "?" 69]
  colon := onFirstLine .punctuator ":" 70
  type := [onFirstLine .identifier "T" 72, onFirstLine .punctuator "[" 73,
    onFirstLine .punctuator "]" 74]
  initial := [onFirstLine .punctuator "=" 76, onFirstLine .identifier "f" 78,
    onFirstLine .punctuator "(" 79, onFirstLine .number "1" 80, onFirstLine .punctuator ")" 81]
  semicolon := onFirstLine .punctuator ";" 82
  isLead := by decide
  isPlain := by decide
  isMarker := .inr ⟨_, "?", rfl, ⟨rfl, rfl⟩, by decide⟩
  isColon := ⟨rfl, rfl⟩
  isType := IsNamed.isType (@IsNamed.array [] _ _ _ (.name (.name (.inl (by decide)))) rfl
    ⟨rfl, rfl⟩ ⟨rfl, rfl⟩)
  isInitialiser := .value ⟨rfl, rfl⟩ (@IsValue.call [_] _ [_] _ (.atom (.inl (by decide)))
    ⟨rfl, rfl⟩ (.last (.value (.atom (.inr (.inr (.inl rfl)))))) ⟨rfl, rfl⟩)
  isSemicolon := ⟨rfl, rfl⟩
  isOneLine := by decide +kernel

def sharedParameters : Parameters :=
  .more
    { lead := [onFirstLine .keyword "private" 96]
      name := onFirstLine .identifier "p" 104
      marker := []
      colon := onFirstLine .punctuator ":" 105
      type := [onFirstLine .identifier "N" 107, onFirstLine .punctuator "." 108,
        onFirstLine .identifier "T" 109]
      isLead := by decide
      isPlain := by decide
      isMarker := .inl rfl
      isColon := ⟨rfl, rfl⟩
      isType := IsNamed.isType (.name (.dotted (.inl (by decide)) ⟨rfl, rfl⟩
        (.name (.inl (by decide))))) }
    (onFirstLine .punctuator "," 110) ⟨rfl, rfl⟩
    (.last
      { lead := []
        name := onFirstLine .identifier "q" 112
        marker := [onFirstLine .punctuator "?" 113]
        colon := onFirstLine .punctuator ":" 114
        type := [onFirstLine .identifier "T" 116]
        isLead := by decide
        isPlain := by decide
        isMarker := .inr ⟨_, rfl, rfl, rfl⟩
        isColon := ⟨rfl, rfl⟩
        isType := IsNamed.isType (.name (.name (.inl (by decide)))) })

def sharedConstructor : Constructor where
  name := onFirstLine .identifier "constructor" 84
  opening := onFirstLine .punctuator "(" 95
  parameters := sharedParameters
  closing := onFirstLine .punctuator ")" 117
  brace := onFirstLine .punctuator "\x7b" 119
  unbrace := onFirstLine .punctuator "\x7d" 121
  isPlain := by decide
  isOpening := ⟨rfl, rfl⟩
  isClosing := ⟨rfl, rfl⟩
  isBrace := ⟨rfl, rfl⟩
  isUnbrace := ⟨rfl, rfl⟩
  isOneLine := by decide +kernel

theorem erasedAs_class_shared :
    significant (tokenize .ts sharedClass) = tokensOf (sharedFrame.around
        ([.field sharedField, .constructor sharedConstructor].flatMap
          (Member.pieces typedLead))) ∧
      ErasedAs sharedClass (sharedFrame.around
        ([.field sharedField, .constructor sharedConstructor].flatMap
          (Member.pieces typedLead))) := by
  have hs : significant (tokenize .ts sharedClass) = tokensOf (sharedFrame.around
      ([.field sharedField, .constructor sharedConstructor].flatMap
        (Member.pieces typedLead))) := by decide +kernel
  exact ⟨hs, (erasedAs_class _ _ hs).2.mpr (by decide +kernel)⟩

def staticParameterClass : String := "class C \x7b constructor(static public p: T) \x7b \x7d \x7d"

def staticParameterConstructor : Constructor where
  name := onFirstLine .identifier "constructor" 10
  opening := onFirstLine .punctuator "(" 21
  parameters := .last
    { lead := [onFirstLine .keyword "static" 22, onFirstLine .keyword "public" 29]
      name := onFirstLine .identifier "p" 36
      marker := []
      colon := onFirstLine .punctuator ":" 37
      type := [onFirstLine .identifier "T" 39]
      isLead := by decide
      isPlain := by decide
      isMarker := .inl rfl
      isColon := ⟨rfl, rfl⟩
      isType := IsNamed.isType (.name (.name (.inl (by decide)))) }
  closing := onFirstLine .punctuator ")" 40
  brace := onFirstLine .punctuator "\x7b" 42
  unbrace := onFirstLine .punctuator "\x7d" 44
  isPlain := by decide
  isOpening := ⟨rfl, rfl⟩
  isClosing := ⟨rfl, rfl⟩
  isBrace := ⟨rfl, rfl⟩
  isUnbrace := ⟨rfl, rfl⟩
  isOneLine := by decide +kernel

/-- Behind `static` a modifier of a parameter stays. -/
theorem not_erasedAs_staticParameterClass :
    significant (tokenize .ts staticParameterClass) = tokensOf ((bareFrame 46).around
        ([.constructor staticParameterConstructor].flatMap (Member.pieces typedLead))) ∧
      eraseTypes .ts staticParameterClass =
        some "class C \x7b constructor(static public p   ) \x7b \x7d \x7d" ∧
      ¬ ErasedAs staticParameterClass ((bareFrame 46).around
        ([.constructor staticParameterConstructor].flatMap (Member.pieces typedLead))) := by
  have hs : significant (tokenize .ts staticParameterClass) = tokensOf ((bareFrame 46).around
      ([.constructor staticParameterConstructor].flatMap (Member.pieces typedLead))) := by
    decide +kernel
  have hleft := (bareFrame 46).erasedAs_members [.constructor staticParameterConstructor] hs
  refine ⟨hs, hleft.eraseTypes_eq.trans (by decide +kernel), fun h => ?_⟩
  have hsame := (bareFrame 46).around_inj (hleft.unique h)
  exact absurd ((members_eq_iff _).mp hsame) (by decide +kernel)

end Retouch.Erase
