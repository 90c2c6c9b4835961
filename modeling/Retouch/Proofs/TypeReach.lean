import Retouch.Proofs.TypeSyntax

/-! The end of a type is where its grammar says. One lemma per production says
where the scanners go on; put together along a derivation, they stop right behind
the last token, unless the token there could continue the type. -/

namespace Retouch.Code
open Syntax

variable {c : Code} {p q r s e m : Nat}

/-! ### One production at a time -/

theorem typeFrom_conditional (h : (c.unionFrom p).1 = q) (hq : p < q)
    (hw : c.word q "extends" = true) (hr : (c.unionFrom (q + 1)).1 = r)
    (hp : c.punct r "?" = true) (hs : (c.typeFrom (r + 1)).1 = s) (hc : c.punct s ":" = true) :
    (c.typeFrom p).1 = (c.typeFrom (s + 1)).1 := by
  subst h hr hs
  rw [typeFrom]
  simp [hw, hp, hc, hq]

theorem unionFrom_bar (hb : c.isBar p = true) (h : (c.unionMembers (p + 1)).1 = r)
    (hr : p + 1 < r) : (c.unionFrom p).1 = r := by
  subst h
  rw [unionFrom]
  simp only [hb, dite_true]
  rw [if_neg (by omega)]

theorem unionMembers_bar (h : (c.primaryFrom p).1 = m) (hm : p < m)
    (hb : c.isBar (c.suffixesEnd m) = true) :
    (c.unionMembers p).1 = (c.unionMembers (c.suffixesEnd m + 1)).1 := by
  subst h
  rw [unionMembers]
  simp [hb, Nat.ne_of_gt hm]

theorem namedFrom_operator (h : c.isName p = true) (ht : c.text p ∈ typeOperators)
    (hm : (c.primaryFrom (p + 1)).1 = m) (hp : p + 1 < m) :
    (c.namedFrom p).1 = c.suffixesEnd m := by
  subst hm
  rw [namedFrom]
  simp [h, ht, hp]

theorem namedFrom_new (h : c.isName p = true) (ht : c.text p = "new") :
    (c.namedFrom p).1 = (c.primaryFrom (p + 1)).1 := by
  rw [namedFrom]
  simp [h, ht, typeOperators]

theorem nameFrom_predicate (h : c.argumentsEnd (c.dottedEnd (p + 1)) = q)
    (hw : c.word q "is" = true) : (c.nameFrom p).1 = (c.typeFrom (q + 1)).1 := by
  subst h
  rw [nameFrom]
  simp [hw]

theorem suffixesEnd_stop (h : c.text q ≠ "[") : c.suffixesEnd q = q := by
  rw [suffixesEnd]
  split <;> simp [punct_eq_false h]

theorem dottedEnd_stop (h : c.text q ≠ ".") : c.dottedEnd q = q := by
  rw [dottedEnd]
  simp [punct_eq_false h]

theorem argumentsEnd_stop (h : c.text q ≠ "<") : c.argumentsEnd q = q := by
  simp [argumentsEnd, punct_eq_false h]

/-- No primary type begins with a bar. -/
theorem unionMembers_of_isBar (h : c.isBar p = true) : (c.unionMembers p).1 = p := by
  have hp : (c.primaryFrom p).1 = p := by
    simp only [isBar, punct, Bool.or_eq_true, Bool.and_eq_true, decide_eq_true_eq] at h
    rw [primaryFrom]
    rcases h with ⟨hk, ht⟩ | ⟨hk, ht⟩ <;> simp [hk, ht]
  rw [unionMembers]
  simp [hp]

theorem primaryFrom_round {close : Nat} (hk : c.kind? p = some .punctuator) (ht : c.text p = "(")
    (hp : c.partner p = some close) :
    (c.primaryFrom p).1 =
      if c.punct (close + 1) "=>" then (c.typeFrom (close + 2)).1 else close + 1 := by
  rw [primaryFrom]
  simp only [hk, ht]
  split
  · rename_i close' h'
    obtain rfl : close' = close := Option.some.inj (h'.symm.trans hp)
    split <;> rfl
  · simp_all

theorem primaryFrom_bracket {close : Nat} (hk : c.kind? p = some .punctuator)
    (ht : c.text p ∈ ["\x7b", "["]) (hp : c.partner p = some close) :
    (c.primaryFrom p).1 = close + 1 := by
  rw [primaryFrom]
  simp only [List.mem_cons, List.not_mem_nil, or_false] at ht
  rcases ht with ht | ht
  all_goals
    simp only [hk, ht]
    split
    · rename_i close' h'
      exact congrArg (· + 1) (Option.some.inj (h'.symm.trans hp))
    · simp_all

theorem primaryFrom_angle (hk : c.kind? p = some .punctuator) (ht : c.text p = "<")
    (ha : c.angleEnd p = some q) : (c.primaryFrom p).1 = (c.primaryFrom q).1 := by
  rw [primaryFrom]
  simp only [hk, ht]
  split
  · rename_i q' h'
    obtain rfl : q' = q := Option.some.inj (h'.symm.trans ha)
    rfl
  · simp_all

theorem primaryFrom_template (hk : c.kind? p = some .template)
    (ht : closesTemplate (c.text p) = false) (he : c.templateEnd? (p + 1) = some e) :
    (c.primaryFrom p).1 = e := by
  rw [primaryFrom]
  simp only [hk, ht]
  split
  · simp_all
  · split <;> simp_all

/-! ### Along the tokens -/

section
variable {t d o z : Token} {xs rest : List Token}

theorem From.primaryFrom_group {b : Bracket} (h : c.From p (o :: (xs ++ z :: rest)))
    (ho : opener? o = some b) (hz : closer? z = some b) (hx : Balanced xs)
    (ha : c.text (p + 1 + xs.length + 1) ≠ "=>") :
    (c.primaryFrom p).1 = p + 1 + xs.length + 1 := by
  have hp := h.partner_closer ho hx hz
  have hk := kind_of_opener? ho
  by_cases ht : o.text = "("
  · rw [primaryFrom_round (by rw [h.kind?, hk]) (by rw [h.text, ht]) hp, punct_eq_false ha]
    rfl
  · refine primaryFrom_bracket (by rw [h.kind?, hk]) ?_ hp
    rw [h.text]
    unfold opener? at ho
    rw [if_pos hk] at ho
    split at ho <;> simp_all

theorem From.primaryFrom_name (h : c.From p (t :: rest)) (ht : t.IsTypeName) :
    c.isName p = true ∧ c.primaryFrom p = c.nameFrom p := by
  have hn : c.isName p = true ∧ c.text p ∉ "new" :: typeOperators := by
    rw [h.isName, h.text]
    rcases ht with ht | ⟨s, hs, hk, rfl⟩
    · exact ⟨by simp [ht.1], ht.notMem (by decide)⟩
    · have hvalues : ∀ s ∈ ["void", "null", "true", "false", "this"],
          s ∉ "new" :: typeOperators := by decide
      exact ⟨by simp [hk], hvalues t.text hs⟩
  simp only [List.mem_cons, not_or] at hn
  exact ⟨hn.1, (primaryFrom_named hn.1).trans (namedFrom_name hn.1 hn.2.2 hn.2.1)⟩

theorem From.primaryFrom_operator (h : c.From p (t :: rest)) (ht : t.IsOperator)
    (hm : (c.primaryFrom (p + 1)).1 = m) (hp : p + 1 < m) :
    (c.primaryFrom p).1 = c.suffixesEnd m := by
  obtain ⟨s, hs, hk, rfl⟩ := ht
  have hn : c.isName p = true := by rcases hk with hk | hk <;> simp [h.isName, hk]
  rw [primaryFrom_named hn, namedFrom_operator hn (by rw [h.text]; exact hs) hm hp]

theorem From.dottedEnd_cons (h : c.From p (d :: rest)) (hd : d.IsPunct ".")
    (hn : c.isName (p + 1) = true) : c.dottedEnd p = c.dottedEnd (p + 2) := by
  rw [dottedEnd]
  simp [h.punct, hd.1, hd.2, hn]

theorem From.argumentsEnd_angle (h : c.From p (o :: (xs ++ rest))) (ho : o.IsPunct "<")
    (hx : Scanned 1 xs) : c.argumentsEnd p = p + 1 + xs.length := by
  simp [argumentsEnd, h.punct, ho.1, ho.2, h.angleEnd ho hx]

theorem From.suffixesEnd_index (h : c.From p (t :: o :: (xs ++ z :: rest)))
    (hl : t.stop.line = o.start.line) (ho : o.IsPunct "[") (hx : Balanced xs)
    (hz : z.IsPunct "]") : c.suffixesEnd (p + 1) = c.suffixesEnd (p + 1 + 1 + xs.length + 1) := by
  have hp := h.tail.partner_closer (ho.opens .square) hx (hz.closes .square)
  have hs : c.sameLine (p + 1) = true := by
    simp [sameLine, h.getElem?, h.tail.getElem?, hl]
  have hb : c.punct (p + 1) "[" = true := by simp [h.tail.punct, ho.1, ho.2]
  rw [suffixesEnd]
  split
  · rename_i close' h'
    obtain rfl := Option.some.inj (h'.symm.trans hp)
    simp [hs, hb]
  · simp_all

theorem From.templateEnd?_skip (h : c.From p (xs ++ rest)) (hx : ∀ t ∈ xs, t.kind ≠ .template) :
    c.templateEnd? p = c.templateEnd? (p + xs.length) := by
  induction xs generalizing p with
  | nil => rfl
  | cons t xs ih =>
    have hk : ¬ c.kind? p = some .template := by
      rw [h.kind?]
      intro he
      exact hx t (by simp) (Option.some.inj he)
    rw [templateEnd?]
    simp only [h.lt_size, hk, dite_true, decide_false, Bool.false_and, Bool.false_eq_true, if_false]
    rw [ih h.tail fun u hu => hx u (by simp [hu]), List.length_cons]
    congr 1
    omega

theorem From.templateEnd?_chunk (h : c.From p (z :: rest)) (hz : z.kind = .template) :
    c.templateEnd? p =
      if ['`'].isSuffixOf z.text.toList then some (p + 1) else c.templateEnd? (p + 1) := by
  rw [templateEnd?]
  simp [h.lt_size, h.kind?, h.text, hz]

theorem From.isBar (h : c.From p (t :: rest)) (ht : t.IsBar) : c.isBar p = true := by
  rcases ht with ht | ht <;> simp [Code.isBar, h.punct, ht.1, ht.2]

end

/-! ### Along a derivation -/

/-- Texts that continue a type without suffixes. -/
def nameJoints : List String := [".", "<", "is", "=>"]

/-- Texts that continue a member of a union. -/
def memberJoints : List String := "[" :: nameJoints

/-- Texts that continue a union. -/
def unionJoints : List String := "|" :: "&" :: memberJoints

/-- Texts that continue a type. -/
def typeJoints : List String := "extends" :: unionJoints

theorem notMem_unionJoints {b : Bool} {s : String}
    (h : s ∉ (if b then typeJoints else unionJoints)) : s ∉ unionJoints := by
  cases b
  · exact h
  · exact fun hj => h (List.mem_cons_of_mem _ hj)

theorem isBar_stop (h : c.text q ∉ unionJoints) : c.isBar q = false := by
  have hbar : c.text q ≠ "|" := fun he => h (by rw [he]; decide)
  have hand : c.text q ≠ "&" := fun he => h (by rw [he]; decide)
  simp [isBar, punct_eq_false hbar, punct_eq_false hand]

/-- The scanners reach from `p` to `e` over a part of a type, unless the token at
`e` continues it. -/
def Reaches (c : Code) (p e : Nat) : TypePart → Prop
  | .name => c.text e ≠ "." →
      c.isName p = true ∧ c.primaryFrom p = c.nameFrom p ∧ c.dottedEnd (p + 1) = e
  | .primary => c.text e ∉ nameJoints → (c.primaryFrom p).1 = e
  | .suffixed => c.text e ∉ nameJoints →
      ∃ m, (c.primaryFrom p).1 = m ∧ p < m ∧ c.suffixesEnd m = c.suffixesEnd e
  | .operand => c.text e ∉ memberJoints →
      ∃ m, (c.primaryFrom p).1 = m ∧ p < m ∧ c.suffixesEnd m = e
  | .function | .callable | .trailing => c.text e ∉ typeJoints → (c.primaryFrom p).1 = e
  | .chain trailing => c.text e ∉ (if trailing then typeJoints else unionJoints) →
      (c.unionMembers p).1 = e
  | .union trailing => c.text e ∉ (if trailing then typeJoints else unionJoints) →
      (c.unionFrom p).1 = e
  | .whole => c.text e ∉ typeJoints → (c.typeFrom p).1 = e
  | .chunks => c.templateEnd? p = some e
  | .entry _ | .entries _ => True

end Retouch.Code

namespace Retouch
open Syntax Code

theorem IsType.reaches {part : TypePart} {n : Nat} {ts : List Token} (h : IsType part n ts)
    (hn : n = 0) {c : Code} {p : Nat} {rest : List Token} (hf : c.From p (ts ++ rest)) :
    c.Reaches p (p + ts.length) part := by
  induction h generalizing p rest with
  | name ht =>
    intro ha
    exact ⟨(hf.primaryFrom_name ht).1, (hf.primaryFrom_name ht).2, dottedEnd_stop ha⟩
  | @dotted t d ts ht hd _ ih =>
    intro ha
    rw [end_cons, end_cons] at ha ⊢
    obtain ⟨hn', -, he⟩ := ih rfl hf.tail.tail ha
    exact ⟨(hf.primaryFrom_name ht).1, (hf.primaryFrom_name ht).2,
      (hf.tail.dottedEnd_cons hd hn').trans he⟩
  | named _ ih =>
    intro ha
    simp only [nameJoints, List.mem_cons, List.not_mem_nil, or_false, not_or] at ha
    obtain ⟨-, hp, he⟩ := ih rfl hf ha.1
    rw [hp]
    refine nameFrom_plain ?_ (word_eq_false ha.2.2.1)
    rw [he, argumentsEnd_stop ha.2.1]
  | @generic n ts lt as _ hl ha ihn _ =>
    subst hn
    intro hj
    simp only [List.append_assoc, List.cons_append] at hf
    have hlt : c.text (p + ts.length) ≠ "." := by rw [hf.append.text, hl.2]; decide
    obtain ⟨-, hp, he⟩ := ihn rfl hf hlt
    rw [end_append, end_cons] at hj ⊢
    simp only [nameJoints, List.mem_cons, List.not_mem_nil, or_false, not_or] at hj
    rw [hp]
    refine nameFrom_plain ?_ (word_eq_false hj.2.2.1)
    rw [he, hf.append.argumentsEnd_angle hl ha.scanned]
  | literal ht =>
    intro _
    rw [primaryFrom]
    rcases ht with hk | hk <;> simp [hf.kind?, hk]
  | negative hm hk =>
    intro _
    have hk' : c.kind? (p + 1) = some .number := by rw [hf.tail.kind?, hk]
    rw [primaryFrom]
    simp [hf.kind?, hf.text, hm.1, hm.2, hk']
  | template hk hz =>
    intro _
    rw [primaryFrom]
    simp [hf.kind?, hf.text, hk, hz]
  | @substituted t ts hk hz _ ih =>
    intro _
    rw [end_cons]
    refine primaryFrom_template ?_ ?_ (ih rfl hf.tail)
    · rw [hf.kind?, hk]
    · rw [hf.text, hz]
  | @group o z b xs ho hz hx =>
    intro ha
    simp only [List.cons_append, List.append_assoc, List.nil_append] at hf
    rw [end_cons, end_append, end_single] at ha ⊢
    exact hf.primaryFrom_group ho hz hx fun he => ha (by rw [he]; decide)
  | @lastChunk ts z _ hts hk hz _ =>
    simp only [List.append_assoc, List.cons_append, List.nil_append] at hf
    rw [Reaches, hf.templateEnd?_skip hts, hf.append.templateEnd?_chunk hk, if_pos hz,
      List.length_append]
    rfl
  | @chunk ts z us _ hts hk hz _ _ ih =>
    simp only [List.append_assoc, List.cons_append] at hf
    rw [end_append, end_cons, Reaches, hf.templateEnd?_skip hts, hf.append.templateEnd?_chunk hk,
      hz]
    exact ih rfl hf.append.tail
  | primary h ih =>
    intro ha
    exact ⟨_, ih hn hf ha, by have := h.length_pos; omega, rfl⟩
  | @index ts t o xs z _ hl ho hx hz ih =>
    intro _
    simp only [List.append_assoc, List.cons_append, List.nil_append] at hf
    have hf' : c.From p ((ts ++ [t]) ++ o :: (xs ++ z :: rest)) := by simpa using hf
    have hi := ih rfl hf'
    rw [end_append, end_single] at hi
    obtain ⟨m, hm, hp, he⟩ := hi (by rw [hf.append.tail.text, ho.2]; decide)
    refine ⟨m, hm, hp, ?_⟩
    rw [he, hf.append.suffixesEnd_index hl ho hx hz, end_append, end_cons, end_cons, end_append,
      end_single]
  | suffixed _ ih =>
    intro ha
    obtain ⟨m, hm, hp, he⟩ := ih hn hf fun hj => ha (List.mem_cons_of_mem _ hj)
    exact ⟨m, hm, hp, by rw [he, suffixesEnd_stop fun h => ha (by rw [h]; decide)]⟩
  | @operator n t ts ht _ ih =>
    intro ha
    rw [end_cons] at ha ⊢
    obtain ⟨m, hm, hp, he⟩ := ih hn hf.tail ha
    refine ⟨_, hf.primaryFrom_operator ht hm hp, by omega, ?_⟩
    rw [he, suffixesEnd_stop fun h => ha (by rw [h]; decide)]
  | @function n o xs z a ts ho hx hz ha _ ih =>
    intro hj
    simp only [List.cons_append, List.append_assoc] at hf
    rw [end_cons, end_append, end_cons, end_cons] at hj ⊢
    have hp := hf.partner_closer (ho.opens .round) hx (hz.closes .round)
    have hr := hf.tail.append.tail
    rw [primaryFrom_round (by rw [hf.kind?, ho.1]) (by rw [hf.text, ho.2]) hp, hr.punct,
      if_pos (by simp [ha.1, ha.2])]
    exact ih hn hr.tail hj
  | callable _ ih => exact ih hn hf
  | trailing _ ih => exact ih hn hf
  | @polymorphic n lt as ts hl has _ _ ih =>
    intro hj
    simp only [List.cons_append, List.append_assoc] at hf
    rw [end_cons, end_append] at hj ⊢
    rw [primaryFrom_angle (by rw [hf.kind?, hl.1]) (by rw [hf.text, hl.2])
      (hf.angleEnd hl has.scanned)]
    exact ih hn hf.tail.append hj
  | @constructor n w ts hw _ ih =>
    intro hj
    rw [end_cons] at hj ⊢
    have hname : c.isName p = true := by simp [hf.isName, hw.1]
    rw [primaryFrom_named hname, namedFrom_new hname (by rw [hf.text, hw.2])]
    exact ih hn hf.tail hj
  | @predicate n ts w us _ hw _ ihn ih =>
    intro hj
    simp only [List.append_assoc, List.cons_append] at hf
    rw [end_append, end_cons] at hj ⊢
    have ht : c.text (p + ts.length) = "is" := by rw [hf.append.text, hw.2]
    obtain ⟨-, hp, he⟩ := ihn rfl hf (by rw [ht]; decide)
    rw [hp, nameFrom_predicate (q := p + ts.length)]
    · exact ih hn hf.append.tail hj
    · rw [he, argumentsEnd_stop (by rw [ht]; decide)]
    · rcases hw.1 with hk | hk <;> simp [hf.append.word, hk, hw.2]
  | @operatorOn n t ts ht h ih =>
    intro hj
    rw [end_cons] at hj ⊢
    have := h.length_pos
    rw [hf.primaryFrom_operator ht (ih hn hf.tail hj) (by omega),
      suffixesEnd_stop fun he => hj (by rw [he]; decide)]
  | member _ ih =>
    intro ha
    replace ha := notMem_unionJoints ha
    obtain ⟨m, hm, hp, he⟩ := ih hn hf fun hj => ha (by simp [unionJoints, hj])
    rw [unionMembers_last hm hp (he ▸ isBar_stop ha), he]
  | lastMember h ih =>
    intro ha
    have hm := ih hn hf ha
    have := h.length_pos
    have he := suffixesEnd_stop (fun h => ha (by rw [h]; decide) : c.text _ ≠ "[")
    rw [unionMembers_last hm (by omega) (he.symm ▸ isBar_stop (notMem_unionJoints ha)), he]
  | @bar n b ts o us _ ho _ iht ih =>
    intro ha
    simp only [List.append_assoc, List.cons_append] at hf
    rw [end_append, end_cons] at ha ⊢
    obtain ⟨m, hm, hp, he⟩ := iht rfl hf (by
      rw [hf.append.text]
      rcases ho with ho | ho <;> rw [ho.2] <;> decide)
    rw [unionMembers_bar hm hp (he ▸ hf.append.isBar ho), he]
    exact ih hn hf.append.tail ha
  | @union n b ts h ih =>
    intro ha
    have hm := ih hn hf ha
    have := h.length_pos
    have hb : c.isBar p = false := by
      refine Bool.eq_false_iff.mpr fun hb => ?_
      rw [unionMembers_of_isBar hb] at hm
      omega
    rw [unionFrom_members hb, hm]
  | @leading n b o ts ho h ih =>
    intro ha
    rw [end_cons] at ha ⊢
    have := h.length_pos
    exact unionFrom_bar (hf.isBar ho) (ih hn hf.tail ha) (by omega)
  | @whole n b ts _ ih =>
    intro ha
    refine typeFrom_union (ih hn hf fun hj => ha ?_)
      (word_eq_false fun he => ha (by rw [he]; decide))
    cases b
    · exact List.mem_cons_of_mem _ hj
    · exact hj
  | @conditional n b xs e ys q us d vs hx he _ hq _ hd _ ihx ihy ihu ihv =>
    intro ha
    simp only [List.append_assoc, List.cons_append] at hf
    have hfy := hf.append.tail
    have hfu := hfy.append.tail
    have hfv := hfu.append.tail
    rw [end_append, end_cons, end_append, end_cons, end_append, end_cons] at ha ⊢
    have := hx.length_pos
    have hxe := ihx rfl hf (by rw [hf.append.text, he.2]; decide)
    have hyq := ihy rfl hfy (by rw [hfy.append.text, hq.2]; cases b <;> decide)
    have hud := ihu rfl hfu (by rw [hfu.append.text, hd.2]; decide)
    rw [typeFrom_conditional hxe (by omega) (by simp [hf.append.word, he.1, he.2]) hyq
      (by simp [hfy.append.punct, hq.1, hq.2]) hud (by simp [hfu.append.punct, hd.1, hd.2])]
    exact ihv hn hfv ha
  | argument => trivial
  | parameter => trivial
  | bounded => trivial
  | close => trivial
  | fused => trivial
  | more => trivial

/-- The end of a type that stands alone. -/
theorem Code.From.typeEnd {c : Code} {p : Nat} {ts rest : List Token} (hf : c.From p (ts ++ rest))
    (h : IsType .whole 0 ts) (ha : c.text (p + ts.length) ∉ typeJoints) :
    c.typeEnd p = p + ts.length := h.reaches rfl hf ha

end Retouch
