import Retouch.Proofs.ErasurePass
import Retouch.Proofs.PlainSyntax

/-! What the pass sees in an expression without types. Colons after brackets make it
read a type where the second branch of a conditional stands. Such a reading goes
on over names, literals, groups and bars, and leaps over template literals to the
first chunk that closes one, which may be a chunk of an inner one. Wherever it
stops, no arrow and no brace is there, and so nothing is taken for a signature. -/

namespace Retouch.Code
open Syntax Plain

variable {c : Code} {p q r m e i : Nat} {t o z d n : Token} {ts rest : List Token} {s : String}

/-! ### Where a reading stops -/

/-- No arrow, no body and no bound of a type begins here. -/
structure Tame (c : Code) (r : Nat) : Prop where
  arrow : c.punct r "=>" = false
  brace : c.punct r "\x7b" = false
  bound : c.word r "extends" = false

theorem tame_of_text (h : c.text r ∉ ["=>", "\x7b", "extends"]) : c.Tame r := by
  simp only [List.mem_cons, List.not_mem_nil, or_false, not_or] at h
  exact ⟨punct_eq_false h.1, punct_eq_false h.2.1, word_eq_false h.2.2⟩

/-- Past the suffixes of a member of a union and the members after it. -/
def memberEnd (c : Code) (m : Nat) : Nat :=
  if c.isBar (c.suffixesEnd m) then (c.unionMembers (c.suffixesEnd m + 1)).1 else c.suffixesEnd m

theorem unionMembers_eq (h : (c.primaryFrom p).1 = m) (hm : p < m) :
    (c.unionMembers p).1 = c.memberEnd m := by
  unfold memberEnd
  split
  · rename_i hb
    exact unionMembers_bar h hm hb
  · rename_i hb
    exact unionMembers_last h hm (by simpa using hb)

theorem unionMembers_none (h : (c.primaryFrom p).1 = p) : (c.unionMembers p).1 = p := by
  rw [unionMembers]
  simp [h]

theorem tame_typeEnd (hb : c.isBar p = false) (h : c.Tame (c.unionMembers p).1) :
    c.Tame (c.typeEnd p) := by
  have hend : c.typeEnd p = (c.unionMembers p).1 :=
    typeFrom_union (by rw [unionFrom_members hb]) h.bound
  rwa [hend]

/-- A reading that comes to `q` behind an operand ends well, whatever the operand. -/
structure Calm (c : Code) (q : Nat) : Prop where
  member : c.Tame (c.memberEnd q)
  name : c.Tame (c.memberEnd (c.argumentsEnd (c.dottedEnd q)))
  predicate : c.word (c.argumentsEnd (c.dottedEnd q)) "is" = false

/-- Where no name goes on, a name is an operand like others. -/
theorem calm_of_member (hj : c.text q ∉ nameJoints) (h : c.Tame (c.memberEnd q)) : c.Calm q := by
  simp only [nameJoints, List.mem_cons, List.not_mem_nil, or_false, not_or] at hj
  have hname : c.argumentsEnd (c.dottedEnd q) = q := by
    rw [dottedEnd_stop hj.1, argumentsEnd_stop hj.2.1]
  exact ⟨h, by rwa [hname], by rw [hname, word_eq_false hj.2.2.1]⟩

theorem memberEnd_stop (h : c.text q ∉ ["[", "|", "&"]) : c.memberEnd q = q := by
  simp only [List.mem_cons, List.not_mem_nil, or_false, not_or] at h
  have hbar : c.isBar q = false := by
    simp [isBar, punct_eq_false h.2.1, punct_eq_false h.2.2]
  rw [memberEnd, suffixesEnd_stop h.1, hbar]
  rfl

theorem calm_of_text (h : c.text q ∉ "\x7b" :: typeJoints) : c.Calm q := by
  have hsub : ∀ ws ∈ [nameJoints, ["[", "|", "&"], ["=>", "\x7b", "extends"]], ∀ w ∈ ws,
      w ∈ "\x7b" :: typeJoints := by decide
  refine calm_of_member (fun hm => h (hsub _ (by simp) _ hm)) ?_
  rw [memberEnd_stop fun hm => h (hsub _ (by simp) _ hm)]
  exact tame_of_text fun hm => h (hsub _ (by simp) _ hm)

theorem From.calm_bar (hf : c.From q (o :: rest)) (ho : o.IsBar)
    (h : c.Tame (c.unionMembers (q + 1)).1) : c.Calm q := by
  have htext : c.text q ∉ memberJoints := by
    rw [hf.text]
    rcases ho with ho | ho <;> rw [ho.2] <;> decide
  have hsuffix : c.suffixesEnd q = q := suffixesEnd_stop fun he => htext (by rw [he]; decide)
  refine calm_of_member (fun hm => htext (List.mem_cons_of_mem _ hm)) ?_
  rw [memberEnd, hsuffix, hf.isBar ho]
  exact h

theorem From.calm_dot (hf : c.From q (d :: n :: rest)) (hd : d.IsPunct ".")
    (hn : n.kind = .identifier ∨ n.kind = .keyword) (h : c.Calm (q + 2)) : c.Calm q := by
  have htext : c.text q = "." := by rw [hf.text, hd.2]
  have hdotted : c.dottedEnd q = c.dottedEnd (q + 2) :=
    hf.dottedEnd_cons hd (by simpa [hf.tail.isName] using hn)
  refine ⟨?_, by rw [hdotted]; exact h.name, by rw [hdotted]; exact h.predicate⟩
  rw [memberEnd_stop (by rw [htext]; decide)]
  exact tame_of_text (by rw [htext]; decide)

/-- Index suffixes count only on the line of what they index. -/
theorem suffixesEnd_bracket {close : Nat} (h : c.partner q = some close) :
    c.suffixesEnd q = c.suffixesEnd (close + 1) ∨ c.suffixesEnd q = q := by
  rw [suffixesEnd]
  split
  · rename_i close' h'
    obtain rfl : close' = close := Option.some.inj (h'.symm.trans h)
    split
    · exact .inl rfl
    · exact .inr rfl
  · exact .inr rfl

theorem From.calm_index (hf : c.From q (o :: (ts ++ z :: rest))) (ho : o.IsPunct "[")
    (ht : Balanced ts) (hz : z.IsPunct "]") (h : c.Calm (q + 1 + ts.length + 1)) : c.Calm q := by
  have htext : c.text q = "[" := by rw [hf.text, ho.2]
  refine calm_of_member (by rw [htext]; decide) ?_
  rcases suffixesEnd_bracket (hf.partner_closer (ho.opens .square) ht (hz.closes .square)) with
    hs | hs
  · have hm := h.member
    unfold memberEnd at hm ⊢
    rwa [hs]
  · have hbar : c.isBar q = false := by simp [Code.isBar, hf.punct, ho.2]
    rw [memberEnd, hs, hbar]
    exact tame_of_text (by simp [htext])

/-! ### Template literals -/

/-- A leap from here to the next chunk that closes a template ends well. -/
def Ends (c : Code) (i : Nat) : Prop := ∃ e, c.templateEnd? i = some e ∧ c.Tame (c.memberEnd e)

theorem From.ends_skip (hf : c.From p (t :: rest)) (ht : t.kind ≠ .template)
    (h : c.Ends (p + 1)) : c.Ends p := by
  obtain ⟨e, he, htame⟩ := h
  have hf' : c.From p ([t] ++ rest) := hf
  have hskip : c.templateEnd? p = c.templateEnd? (p + 1) :=
    hf'.templateEnd?_skip (by simpa using ht)
  exact ⟨e, hskip.trans he, htame⟩

theorem ends_with_hole {cs : List Char} (h : ['$', '\x7b'].isSuffixOf cs = true) :
    ['`'].isSuffixOf cs = false := by
  obtain ⟨xs, rfl⟩ := List.isSuffixOf_iff_suffix.mp h
  refine Bool.eq_false_iff.mpr fun hs => ?_
  obtain ⟨ys, hy⟩ := List.isSuffixOf_iff_suffix.mp hs
  have hlast := congrArg List.getLast? hy
  simp at hlast

theorem closesTemplate_hole (h : t.OpensHole) : closesTemplate t.text = false := by
  rw [closesTemplate, ends_with_hole h.2, Bool.and_false]

theorem From.ends_hole (hf : c.From p (t :: rest)) (ht : t.OpensHole) (h : c.Ends (p + 1)) :
    c.Ends p := by
  obtain ⟨e, he, htame⟩ := h
  refine ⟨e, ?_, htame⟩
  rw [hf.templateEnd?_chunk ht.1, ends_with_hole ht.2]
  exact he

theorem From.ends_close (hf : c.From p (t :: rest)) (ht : t.ClosesTemplate)
    (h : c.Tame (c.memberEnd (p + 1))) : c.Ends p := by
  have hs : ['`'].isSuffixOf t.text.toList = true := (Bool.and_eq_true_iff.mp ht.2).2
  exact ⟨p + 1, by rw [hf.templateEnd?_chunk ht.1, if_pos hs], h⟩

/-! ### What follows an expression -/

/-- The token at `q` can follow an expression without making a signature of it. -/
structure Follow (c : Code) (q : Nat) : Prop where
  calm : c.Calm q
  stop : c.text q ∉ ["=>", "\x7b"]
  colon : c.text q = ":" → c.Tame (c.typeEnd (q + 1))

/-- Texts that need a closer look. -/
def followJoints : List String := ":" :: "\x7b" :: typeJoints

theorem follow_of_text (h : c.text q ∉ followJoints) : c.Follow q where
  calm := calm_of_text fun hm => h (List.mem_cons_of_mem _ hm)
  stop hm := h ((by decide : ∀ w ∈ ["=>", "\x7b"], w ∈ followJoints) _ hm)
  colon hc := absurd (by rw [hc]; decide) h

theorem Calm.follow (h : c.Calm q) (ht : c.text q ∉ [":", "=>", "\x7b"]) : c.Follow q where
  calm := h
  stop hm := ht (List.mem_cons_of_mem _ hm)
  colon hc := absurd (by rw [hc]; decide) ht

theorem From.follow_punct (hf : c.From q (t :: rest)) (ht : t.IsPunct s)
    (hs : s ∉ followJoints) : c.Follow q := follow_of_text (by rwa [hf.text, ht.2])

/-- Brackets that such a token follows are a call or a group. -/
theorem From.quiet_round (hf : c.From p (o :: (ts ++ z :: rest))) (ho : o.IsPunct "(")
    (ht : Balanced ts) (hz : z.IsPunct ")") (hq : c.Follow (p + 1 + ts.length + 1)) :
    c.Quiet p := by
  intro e
  have hspans : c.punctSpans e p = [] := by
    have hpartner := hf.partner_closer (ho.opens .round) ht (hz.closes .round)
    have hstop := hq.stop
    unfold punctSpans
    rw [hf.text, ho.2]
    simp only [signatureSpans, hpartner]
    split
    · simp_all
    · rename_i hcolon
      have htame := hq.colon hcolon
      rw [htame.arrow, htame.brace]
      rfl
    · simp_all
    · rfl
  rw [← hspans]
  exact hf.visits_punct ho e

/-! ### Expressions token by token -/

/-- As long as nothing is erased, visits of the tokens from `p` up to `q` erase
nothing. -/
def QuietOn (c : Code) (p q : Nat) : Prop := ∀ k, p ≤ k → k < q → c.Visits [] k [] (k + 1)

theorem quietOn_refl : c.QuietOn p p := fun k hp hq => absurd hq (by omega)

theorem QuietOn.trans (h : c.QuietOn p q) (h' : c.QuietOn q r) : c.QuietOn p r := by
  intro k hp hr
  by_cases hk : k < q
  · exact h k hp hk
  · exact h' k (by omega) hr

theorem Quiet.on (h : c.Quiet p) : c.QuietOn p (p + 1) := by
  intro k hp hq
  obtain rfl : k = p := by omega
  exact h []

theorem QuietOn.cons (h : c.Quiet p) (hts : c.QuietOn (p + 1) (p + 1 + ts.length)) :
    c.QuietOn p (p + (t :: ts).length) := by
  rw [List.length_cons, Nat.add_comm ts.length, ← Nat.add_assoc]
  exact h.on.trans hts

theorem QuietOn.append {us : List Token} (hts : c.QuietOn p (p + ts.length))
    (hus : c.QuietOn (p + ts.length) (p + ts.length + us.length)) :
    c.QuietOn p (p + (ts ++ us).length) := by
  rw [List.length_append, ← Nat.add_assoc]
  exact hts.trans hus

theorem From.quiet_solid (hf : c.From p (t :: rest)) (hn : t.kind ≠ .identifier)
    (hw : t.kind ≠ .keyword) (hp : t.kind ≠ .punctuator) : c.Quiet p := by
  intro e
  have hname : c.isName p = false := by simp [hf.isName, hn, hw]
  have hmark : ¬ c.kind? p = some .punctuator := by simp [hf.kind?, hp]
  rw [Visits, map_visit (fun h => by simp [hname] at h), visitWord, hname, if_neg hmark]
  rfl

theorem From.quiet_atom (hf : c.From p (t :: rest)) (ht : t.IsAtom) : c.Quiet p := by
  rcases ht with ht | ⟨s, hs, ht⟩ | ht | ht | ht | ht
  · exact hf.quiet_plain ht
  · exact hf.quiet_keyword ht ((by decide : ∀ s ∈ ["this", "null", "true", "false"],
      s ∉ activeWords) s hs)
  · exact hf.quiet_solid (by simp [ht]) (by simp [ht]) (by simp [ht])
  · exact hf.quiet_solid (by simp [ht]) (by simp [ht]) (by simp [ht])
  · exact hf.quiet_solid (by simp [ht]) (by simp [ht]) (by simp [ht])
  · exact hf.quiet_solid (by simp [ht.1]) (by simp [ht.1]) (by simp [ht.1])

theorem From.quiet_hole (hf : c.From p (t :: rest)) (ht : t.OpensHole) : c.Quiet p :=
  hf.quiet_solid (by simp [ht.1]) (by simp [ht.1]) (by simp [ht.1])

theorem From.quiet_key (hf : c.From p (t :: rest)) (ht : t.IsKey) : c.Quiet p := by
  rcases ht with ht | ht | ht
  · exact hf.quiet_plain ht
  · exact hf.quiet_solid (by simp [ht]) (by simp [ht]) (by simp [ht])
  · exact hf.quiet_solid (by simp [ht]) (by simp [ht]) (by simp [ht])

theorem From.quiet_binary (hf : c.From p (t :: rest)) (ht : t.IsBinary) : c.Quiet p := by
  rcases ht with ⟨s, hs, ht⟩ | ht | ht
  · exact hf.quiet_punct ht ((by decide : ∀ s ∈ Token.binaryOperators, s ∉ ["!", "(", "<"]) s hs)
  · exact hf.quiet_keyword ht (by decide)
  · exact hf.quiet_keyword ht (by decide)

/-! A mark after which an operand may begin with an exclamation mark. -/

theorem From.endsExpression_punct (hf : c.From p (t :: rest)) (ht : t.IsPunct s)
    (hs : s ∉ [")", "]", "\x7d"]) : c.endsExpression p = false := by
  simpa [Code.endsExpression, hf.kind?, hf.text, ht.1, ht.2] using hs

theorem From.endsExpression_keyword (hf : c.From p (t :: rest)) (ht : t.IsKeyword s)
    (hs : s ∉ valueWords) : c.endsExpression p = false := by
  simpa [Code.endsExpression, hf.kind?, hf.text, ht.1, ht.2] using hs

theorem From.endsExpression_hole (hf : c.From p (t :: rest)) (ht : t.OpensHole) :
    c.endsExpression p = false := by
  simp [Code.endsExpression, hf.kind?, hf.text, ht.1, closesTemplate_hole ht]

theorem From.endsExpression_binary (hf : c.From p (t :: rest)) (ht : t.IsBinary) :
    c.endsExpression p = false := by
  rcases ht with ⟨s, hs, ht⟩ | ht | ht
  · exact hf.endsExpression_punct ht
      ((by decide : ∀ s ∈ Token.binaryOperators, s ∉ [")", "]", "\x7d"]) s hs)
  · exact hf.endsExpression_keyword ht (by decide)
  · exact hf.endsExpression_keyword ht (by decide)

/-- If these tokens begin with an exclamation mark, no expression ends before it. -/
def BangFree (c : Code) (p : Nat) (ts : List Token) : Prop :=
  ∀ t ∈ ts.head?, t.IsPunct "!" → c.endsExpression (p - 1) = false

theorem BangFree.left {us : List Token} (h : c.BangFree p (ts ++ us)) : c.BangFree p ts := by
  cases ts with
  | nil => exact fun t ht => by cases ht
  | cons t ts => exact h

theorem bangFree_of_not (h : ¬ t.IsPunct "!") : c.BangFree p (t :: ts) := by
  rintro u ⟨⟩ hu
  exact absurd hu h

theorem bangFree_after (h : c.endsExpression p = false) : c.BangFree (p + 1) ts :=
  fun _ _ _ => h

theorem From.quiet_bang (hf : c.From p (t :: rest)) (ht : t.IsPunct "!")
    (h : c.endsExpression (p - 1) = false) : c.Quiet p := by
  intro e
  have hspans : c.punctSpans e p = [] := by
    unfold punctSpans
    rw [hf.text, ht.2]
    simp [h]
  rw [← hspans]
  exact hf.visits_punct ht e

/-! ### Stretches -/

/-- The pass goes from `p` to `q` without effect, and so does a leap to the end of a
template. -/
structure Passed (c : Code) (p q : Nat) : Prop where
  quiet : c.QuietOn p q
  ends : c.Ends q → c.Ends p

theorem passed_refl : c.Passed p p := ⟨quietOn_refl, id⟩

theorem Passed.trans (h : c.Passed p q) (h' : c.Passed q r) : c.Passed p r :=
  ⟨h.quiet.trans h'.quiet, fun hr => h.ends (h'.ends hr)⟩

theorem From.passed (hf : c.From p (t :: rest)) (hk : t.kind ≠ .template) (h : c.Quiet p) :
    c.Passed p (p + 1) := ⟨h.on, hf.ends_skip hk⟩

theorem From.passed_punct (hf : c.From p (t :: rest)) (ht : t.IsPunct s)
    (hs : s ∉ ["!", "(", "<"]) : c.Passed p (p + 1) :=
  hf.passed (by simp [ht.1]) (hf.quiet_punct ht hs)

theorem From.passed_plain (hf : c.From p (t :: rest)) (ht : t.IsPlain) : c.Passed p (p + 1) :=
  hf.passed (by simp [ht.1]) (hf.quiet_plain ht)

theorem From.passed_key (hf : c.From p (t :: rest)) (ht : t.IsKey) : c.Passed p (p + 1) := by
  refine hf.passed ?_ (hf.quiet_key ht)
  rcases ht with ht | ht | ht
  · simp [ht.1]
  · simp [ht]
  · simp [ht]

theorem From.passed_binary (hf : c.From p (t :: rest)) (ht : t.IsBinary) :
    c.Passed p (p + 1) := by
  refine hf.passed ?_ (hf.quiet_binary ht)
  rcases ht with ⟨s, -, ht⟩ | ht | ht <;> simp [ht.1]

/-- Moreover a reading of types that begins with the expression at `p`, or with the
chunks there, ends well. -/
structure Harmless (c : Code) (part : Part) (p q : Nat) : Prop extends Passed c p q where
  tame : part = .single → c.Tame (c.unionMembers p).1
  chunks : part = .chunks → c.Ends p

theorem Harmless.followed (h : c.Harmless .single p q) (h' : c.Passed q r) :
    c.Harmless .single p r := ⟨h.toPassed.trans h', h.tame, nofun⟩

/-! ### Operands -/

theorem From.tame_solid (hf : c.From p (t :: rest)) (hn : t.kind ≠ .identifier)
    (hw : t.kind ≠ .keyword) (hp : t.kind ≠ .punctuator) : c.Tame p := by
  constructor
  · simp [hf.punct, hp]
  · simp [hf.punct, hp]
  · simp [hf.word, hn, hw]

theorem From.tame_name (hf : c.From p (t :: rest)) (ht : t.IsTypeName) (hq : c.Calm (p + 1)) :
    c.Tame (c.unionMembers p).1 := by
  have hprimary : (c.primaryFrom p).1 = c.argumentsEnd (c.dottedEnd (p + 1)) := by
    rw [(hf.primaryFrom_name ht).2]
    exact nameFrom_plain rfl hq.predicate
  have hlt : p < c.argumentsEnd (c.dottedEnd (p + 1)) :=
    Nat.le_trans (le_dottedEnd c (p + 1)) (le_argumentsEnd c _)
  rw [unionMembers_eq hprimary hlt]
  exact hq.name

theorem From.tame_atom (hf : c.From p (t :: rest)) (ht : t.IsAtom) (hq : c.Calm (p + 1)) :
    c.Tame (c.unionMembers p).1 := by
  have hone (h : (c.primaryFrom p).1 = p + 1) : c.Tame (c.unionMembers p).1 := by
    rw [unionMembers_eq h (Nat.lt_succ_self p)]
    exact hq.member
  rcases ht with ht | ⟨s, hs, ht⟩ | ht | ht | ht | ht
  · exact hf.tame_name (.inl ht) hq
  · refine hf.tame_name (.inr ⟨s, ?_, ht⟩) hq
    exact (by decide : ∀ s ∈ ["this", "null", "true", "false"],
      s ∈ ["void", "null", "true", "false", "this"]) s hs
  · exact hone (by rw [primaryFrom]; simp [hf.kind?, ht])
  · exact hone (by rw [primaryFrom]; simp [hf.kind?, ht])
  · -- a regular expression begins no type
    rw [unionMembers_none (by rw [primaryFrom]; simp [hf.kind?, ht])]
    exact hf.tame_solid (by simp [ht]) (by simp [ht]) (by simp [ht])
  · exact hone (by rw [primaryFrom]; simp [hf.kind?, hf.text, ht.1, ht.2])

theorem From.ends_atom (hf : c.From p (t :: rest)) (ht : t.IsAtom) (hq : c.Calm (p + 1))
    (h : c.Ends (p + 1)) : c.Ends p := by
  by_cases hk : t.kind = .template
  · rcases ht with ht | ⟨s, -, ht⟩ | ht | ht | ht | ht
    case inr.inr.inr.inr.inr => exact hf.ends_close ht hq.member
    case inl => exact absurd (ht.1.symm.trans hk) (by decide)
    case inr.inl => exact absurd (ht.1.symm.trans hk) (by decide)
    all_goals exact absurd (ht.symm.trans hk) (by decide)
  · exact hf.ends_skip hk h

theorem From.follow_chunk (hf : c.From p (t :: rest)) (ht : t.ClosesTemplate ∨ t.OpensHole) :
    c.Follow p := by
  refine follow_of_text ?_
  rw [hf.text]
  intro hm
  rcases ht with ht | ht
  · have hno : ∀ w ∈ followJoints, closesTemplate w = false := by decide
    exact absurd ht.2 (by rw [hno _ hm]; decide)
  · have hno : ∀ w ∈ followJoints, ['$', '\x7b'].isSuffixOf w.toList = false := by decide
    exact absurd ht.2 (by rw [hno _ hm]; decide)

section
variable {b : Bracket} {part : Part}

/-- A stretch in brackets, when what stands between them is harmless. -/
theorem From.passed_group (hf : c.From p (o :: (ts ++ z :: rest))) (ho : o.IsPunct b.opening)
    (hbal : Balanced ts) (hz : z.IsPunct b.closing)
    (hin : c.BangFree (p + 1) ts → c.Follow (p + 1 + ts.length) →
      c.Harmless part (p + 1) (p + 1 + ts.length))
    (hq : c.Follow (p + 1 + ts.length + 1)) : c.Passed p (p + 1 + ts.length + 1) := by
  have hclose := hf.tail.append
  have hts : c.Harmless part (p + 1) (p + 1 + ts.length) := by
    refine hin (bangFree_after (hf.endsExpression_punct ho ?_)) (hclose.follow_punct hz ?_)
    · cases b <;> decide
    · cases b <;> decide
  have hopen : c.Quiet p := by
    cases b with
    | round => exact hf.quiet_round ho hbal hz hq
    | square => exact hf.quiet_punct ho (by decide)
    | curly => exact hf.quiet_punct ho (by decide)
  have hend : c.Passed (p + 1 + ts.length) (p + 1 + ts.length + 1) :=
    hclose.passed_punct hz (by cases b <;> decide)
  exact (hf.passed (by simp [ho.1]) hopen).trans (hts.toPassed.trans hend)

/-- Such a stretch as an operand. -/
theorem From.harmless_bracketed (hf : c.From p (o :: (ts ++ [z]) ++ rest))
    (ho : o.IsPunct b.opening) (hbal : Balanced ts) (hz : z.IsPunct b.closing)
    (hin : ∀ rest, c.From (p + 1) (ts ++ rest) → c.BangFree (p + 1) ts →
      c.Follow (p + 1 + ts.length) → c.Harmless part (p + 1) (p + 1 + ts.length))
    (hq : c.Follow (p + (o :: (ts ++ [z])).length)) :
    c.Harmless .single p (p + (o :: (ts ++ [z])).length) := by
  rw [List.cons_append, List.append_assoc] at hf
  rw [end_cons, end_append, end_single] at hq ⊢
  have hprimary := hf.primaryFrom_group (ho.opens b) (hz.closes b) hbal
    fun he => hq.stop (by simp [he])
  refine ⟨hf.passed_group ho hbal hz (hin _ hf.tail) hq, fun _ => ?_, nofun⟩
  rw [unionMembers_eq hprimary (by omega)]
  exact hq.calm.member

end

theorem From.follow_binary (hf : c.From p (o :: rest)) (ho : o.IsBinary)
    (h : c.Tame (c.unionMembers (p + 1)).1) : c.Follow p := by
  have hplain (hs : o.text ∉ followJoints) : c.Follow p := follow_of_text (by rwa [hf.text])
  rcases ho with ⟨s, hs, ho⟩ | ho | ho
  · have hbars : ∀ s ∈ Token.binaryOperators, s ∈ ["|", "&"] ∨ s ∉ followJoints := by decide
    rcases hbars s hs with hbar | hno
    · have hbar' : o.IsBar := by
        simp only [List.mem_cons, List.not_mem_nil, or_false] at hbar
        rcases hbar with rfl | rfl
        · exact .inl ho
        · exact .inr ho
      have hcolon : ∀ w ∈ ["|", "&"], w ∉ [":", "=>", "\x7b"] := by decide
      exact (hf.calm_bar hbar' h).follow (by rw [hf.text, ho.2]; exact hcolon _ hbar)
    · exact hplain (by rwa [ho.2])
  · exact hplain (by rw [ho.2]; decide)
  · exact hplain (by rw [ho.2]; decide)

/-- The colon of a conditional, when the type that its second branch looks like
ends well. -/
theorem From.follow_colon (hf : c.From p (d :: t :: rest)) (hd : d.IsPunct ":") (ht : Begins t)
    (h : c.Tame (c.unionMembers (p + 1)).1) : c.Follow p := by
  have htext : c.text p = ":" := by rw [hf.text, hd.2]
  refine ⟨calm_of_text (by rw [htext]; decide), by rw [htext]; decide, fun _ => tame_typeEnd ?_ h⟩
  have hbar : ∀ w, t.IsPunct w → w ∉ ["|", "&"] := by
    intro w hw hm
    rcases ht with ht | ⟨s, hs, ht⟩
    · exact ht (.inr (.inl hw.1))
    · rw [← hw.2, ht.2] at hm
      exact (by decide : ∀ s ∈ ["(", "[", "\x7b", "!"], s ∉ ["|", "&"]) s hs hm
  rw [Code.isBar, hf.tail.punct, hf.tail.punct]
  simp only [Bool.or_eq_false_iff, Bool.and_eq_false_imp, decide_eq_true_eq,
    decide_eq_false_iff_not]
  exact ⟨fun hk he => hbar "|" ⟨hk, he⟩ (by simp), fun hk he => hbar "&" ⟨hk, he⟩ (by simp)⟩

end Retouch.Code

namespace Retouch.Plain
open Syntax Code

variable {c : Code} {p : Nat} {part : Part} {ts rest : List Token}

/-- The pass goes through an expression without effect, and so does a reading of
types that begins with it. -/
theorem IsExpression.harmless (h : IsExpression part ts) (hf : c.From p (ts ++ rest))
    (hbang : c.BangFree p ts) (hq : c.Follow (p + ts.length)) :
    c.Harmless part p (p + ts.length) := by
  induction h generalizing p rest with
  | atom ht =>
    have hpassed : c.Passed p (p + 1) := ⟨(hf.quiet_atom ht).on, hf.ends_atom ht hq.calm⟩
    exact ⟨hpassed, fun _ => hf.tame_atom ht hq.calm, nofun⟩
  | @template t ts ht _ ih =>
    rw [end_cons] at hq ⊢
    have hts := ih hf.tail (bangFree_after (hf.endsExpression_hole ht)) hq
    have hpassed : c.Passed p (p + 1 + ts.length) :=
      ⟨(hf.quiet_hole ht).on.trans hts.quiet, fun _ => hf.ends_hole ht (hts.chunks rfl)⟩
    obtain ⟨e, he, htame⟩ := hts.chunks rfl
    have hprimary : (c.primaryFrom p).1 = e :=
      primaryFrom_template (by rw [hf.kind?, ht.1]) (by rw [hf.text, closesTemplate_hole ht]) he
    have hlt := (templateEnd?_bounds he).1
    refine ⟨hpassed, fun _ => ?_, nofun⟩
    rw [unionMembers_eq hprimary (by omega)]
    exact htame
  | @lastChunk ts z _ hz ih =>
    rw [List.append_assoc] at hf
    rw [end_append, end_single] at hq ⊢
    have hts := ih hf hbang.left (hf.append.follow_chunk (.inl hz))
    have hends : c.Ends p := hts.ends (hf.append.ends_close hz hq.calm.member)
    have hquiet := hf.append.quiet_atom (.inr (.inr (.inr (.inr (.inr hz)))))
    exact ⟨⟨hts.quiet.trans hquiet.on, fun _ => hends⟩, nofun, fun _ => hends⟩
  | @chunk ts m us _ hm _ ih ihu =>
    rw [List.append_assoc] at hf
    rw [end_append, end_cons] at hq ⊢
    have hts := ih hf hbang.left (hf.append.follow_chunk (.inr hm))
    have hus := ihu hf.append.tail (bangFree_after (hf.append.endsExpression_hole hm)) hq
    have hends : c.Ends p := hts.ends (hf.append.ends_hole hm (hus.chunks rfl))
    have hquiet := hts.quiet.trans ((hf.append.quiet_hole hm).on.trans hus.quiet)
    exact ⟨⟨hquiet, fun _ => hends⟩, nofun, fun _ => hends⟩
  | group ho hts hz ih =>
    exact hf.harmless_bracketed (b := .round) ho hts.balanced hz (fun _ => ih) hq
  | array ho hts hz ih =>
    exact hf.harmless_bracketed (b := .square) ho hts.balanced hz (fun _ => ih) hq
  | object ho hts hz ih =>
    exact hf.harmless_bracketed (b := .curly) ho hts.balanced hz (fun _ => ih) hq
  | @call fs o ts z _ ho hts hz ihf ih =>
    simp only [List.append_assoc, List.cons_append] at hf
    rw [end_append, end_cons, end_append, end_single] at hq ⊢
    have hopen := hf.append
    exact (ihf hf hbang.left (hopen.follow_punct ho (by decide))).followed
      (hopen.passed_group (b := .round) ho hts.balanced hz (ih hopen.tail) hq)
  | @member ts d n _ hd hn ih =>
    rw [List.append_assoc] at hf
    rw [end_append, end_cons, end_single] at hq ⊢
    have hdot := hf.append
    have hfollow : c.Follow (p + ts.length) :=
      (hdot.calm_dot hd (.inl hn.1) hq.calm).follow (by rw [hdot.text, hd.2]; decide)
    exact (ih hf hbang.left hfollow).followed
      ((hdot.passed_punct hd (by decide)).trans (hdot.tail.passed_plain hn))
  | @chain ts d n _ hd hn ih =>
    rw [List.append_assoc] at hf
    rw [end_append, end_cons, end_single] at hq ⊢
    have hdot := hf.append
    exact (ih hf hbang.left (hdot.follow_punct hd (by decide))).followed
      ((hdot.passed_punct hd (by decide)).trans (hdot.tail.passed_plain hn))
  | @index es o ts z _ ho hts hz ihe ih =>
    simp only [List.append_assoc, List.cons_append] at hf
    rw [end_append, end_cons, end_append, end_single] at hq ⊢
    have hopen := hf.append
    have hfollow : c.Follow (p + es.length) :=
      (hopen.calm_index ho hts.balanced hz hq.calm).follow (by rw [hopen.text, ho.2]; decide)
    exact (ihe hf hbang.left hfollow).followed
      (hopen.passed_group (b := .square) ho hts.balanced hz (ih hopen.tail) hq)
  | @binary xs o ys _ ho _ ihx ihy =>
    rw [List.append_assoc] at hf
    rw [end_append, end_cons] at hq ⊢
    have hop := hf.append
    have hys := ihy hop.tail (bangFree_after (hop.endsExpression_binary ho)) hq
    have hxs := ihx hf hbang.left (hop.follow_binary ho (hys.tame rfl))
    exact hxs.followed ((hop.passed_binary ho).trans hys.toPassed)
  | @conditional xs q ys d zs _ hmark _ hd hzs ihx ihy ihz =>
    simp only [List.append_assoc, List.cons_append] at hf
    rw [end_append, end_cons, end_append, end_cons] at hq ⊢
    have hquestion := hf.append
    have hcolon := hquestion.tail.append
    -- the last branch first: its reading tells what follows the branch before
    have hz := ihz hcolon.tail (bangFree_after (hcolon.endsExpression_punct hd (by decide))) hq
    obtain ⟨t, us, rfl, ht⟩ := hzs.begins
    have hy := ihy hquestion.tail
      (bangFree_after (hquestion.endsExpression_punct hmark (by decide)))
      (hcolon.follow_colon hd ht (hz.tame rfl))
    exact (ihx hf hbang.left (hquestion.follow_punct hmark (by decide))).followed
      ((hquestion.passed_punct hmark (by decide)).trans
        (hy.toPassed.trans ((hcolon.passed_punct hd (by decide)).trans hz.toPassed)))
  | @not b ts hb _ ih =>
    rw [end_cons] at hq ⊢
    have hts := ih hf.tail (bangFree_after (hf.endsExpression_punct hb (by decide))) hq
    have hmark := hf.passed (by simp [hb.1]) (hf.quiet_bang hb (hbang b (by simp) hb))
    refine ⟨hmark.trans hts.toPassed, fun _ => ?_, nofun⟩
    -- no type begins with an exclamation mark
    rw [unionMembers_none (by rw [primaryFrom]; simp [hf.kind?, hf.text, hb.1, hb.2])]
    exact tame_of_text (by rw [hf.text, hb.2]; decide)
  | value _ ih | last _ ih => exact ⟨(ih hf hbang hq).toPassed, nofun, nofun⟩
  | @property k d ts hk hd _ ih =>
    rw [end_cons, end_cons] at hq ⊢
    have hts := ih hf.tail.tail (bangFree_after (hf.tail.endsExpression_punct hd (by decide))) hq
    exact ⟨(hf.passed_key hk).trans ((hf.tail.passed_punct hd (by decide)).trans hts.toPassed),
      nofun, nofun⟩
  | shorthand ht => exact ⟨hf.passed_plain ht, nofun, nofun⟩
  | none => exact ⟨passed_refl, nofun, nofun⟩
  | @more b ts d us _ hd _ ih ihu =>
    rw [List.append_assoc] at hf
    rw [end_append, end_cons] at hq ⊢
    have hcomma := hf.append
    have hts := ih hf hbang.left (hcomma.follow_punct hd (by decide))
    have hus := ihu hcomma.tail (bangFree_after (hcomma.endsExpression_punct hd (by decide))) hq
    exact ⟨hts.toPassed.trans ((hcomma.passed_punct hd (by decide)).trans hus.toPassed),
      nofun, nofun⟩
  | @hole d ts hd _ ih =>
    rw [end_cons] at hq ⊢
    have hts := ih hf.tail (bangFree_after (hf.endsExpression_punct hd (by decide))) hq
    exact ⟨(hf.passed_punct hd (by decide)).trans hts.toPassed, nofun, nofun⟩

end Retouch.Plain
