import Retouch.Proofs.Lockstep

/-! What the characters of a lexeme look like, said without a scanner. A run goes on as
far as its class does; a comment, a string or a chunk of a template ends at the first mark
that may end it; an operator is the longest that stands there. Beside each shape stands
what the scanner of that shape cuts off: the shape, whatever follows. -/

namespace Retouch.Syntax
open Retouch.Text

/-! ### Runs -/

/-- A character of one class, and behind it as many of another as there are. -/
structure Munch (first more : Char → Bool) (text rest : List Char) : Prop where
  head : text.head?.any first = true
  tail : ∀ c ∈ text.tail, more c = true
  stop : rest.head?.any more = false

theorem munch_run {first more : Char → Bool} {c : Char} (h : first c = true) (r : List Char) :
    Munch first more (c :: r.take (run more r)) (r.drop (run more r)) :=
  ⟨h, (run_cut more r).1, (run_cut more r).2⟩

/-! ### Comments -/

/-- A comment to the end of the line, which stays outside, or to the first closing mark,
which belongs to it. Without that mark it takes all of the text. -/
inductive IsComment (text rest : List Char) : Prop
  | line {body : List Char} : text = '/' :: '/' :: body → '\n' ∉ body →
      rest = [] ∨ rest.head? = some '\n' → IsComment text rest
  | block {body : List Char} : text = '/' :: '*' :: body → ['*', '/'] <:+ body →
      ¬ ['*', '/'] <:+: body.dropLast → IsComment text rest
  | unclosed {body : List Char} : text = '/' :: '*' :: body → ¬ ['*', '/'] <:+: body →
      rest = [] → IsComment text rest

theorem isComment_line (r : List Char) :
    IsComment ('/' :: ('/' :: r).take (run (· != '\n') ('/' :: r)))
      (('/' :: r).drop (run (· != '\n') ('/' :: r))) := by
  have hrun : run (· != '\n') ('/' :: r) = run (· != '\n') r + 1 := by simp [run]
  obtain ⟨hbody, hstop⟩ := run_cut (· != '\n') r
  rw [hrun, List.take_succ_cons, List.drop_succ_cons]
  refine .line rfl (fun hm => by simpa using hbody _ hm) ?_
  cases hrest : r.drop (run (· != '\n') r) with
  | nil => exact .inl rfl
  | cons c rest =>
    rw [hrest] at hstop
    exact .inr (by simpa using hstop)

/-- No closing mark begins at a character that the scanner has passed. -/
theorem not_mark_front {c : Char} {r u : List Char}
    (hc : ∀ r', c = '*' → r = '/' :: r' → False) (hu : u <+: r) : ¬ ['*', '/'] <+: c :: u := by
  rintro h
  obtain ⟨rfl, htail⟩ := List.cons_prefix_cons.mp h
  obtain ⟨r', hr⟩ := htail.trans hu
  exact hc r' rfl (by simpa using hr.symm)

theorem blockComment_cut (x : List Char) :
    (['*', '/'] <:+ x.take (blockComment x) ∧
      ¬ ['*', '/'] <:+: (x.take (blockComment x)).dropLast) ∨
    (¬ ['*', '/'] <:+: x.take (blockComment x) ∧ x.drop (blockComment x) = []) := by
  fun_induction blockComment x with
  | case1 => exact .inr ⟨by simp, rfl⟩
  | case2 r =>
    refine .inl ⟨List.suffix_rfl, fun h => ?_⟩
    simpa using h.length_le
  | case3 c r hc ih =>
    rw [Nat.add_comm, List.take_succ_cons, List.drop_succ_cons]
    have hpassed : ∀ u, u <+: r → ['*', '/'] <:+: c :: u → ['*', '/'] <:+: u := by
      intro u hu h
      exact (List.infix_cons_iff.mp h).resolve_left (not_mark_front hc hu)
    have htake := List.take_prefix (blockComment r) r
    rcases ih with ⟨hclosed, hfirst⟩ | ⟨hopen, hend⟩
    · refine .inl ⟨hclosed.trans (List.suffix_cons _ _), fun h => hfirst ?_⟩
      have hne : r.take (blockComment r) ≠ [] := by
        rintro he
        simp [he] at hclosed
      rw [List.dropLast_cons_of_ne_nil hne] at h
      exact hpassed _ ((List.dropLast_prefix _).trans htake) h
    · exact .inr ⟨fun h => hopen (hpassed _ htake h), hend⟩

theorem isComment_block (r : List Char) :
    IsComment ('/' :: ('*' :: r).take (1 + blockComment r))
      (('*' :: r).drop (1 + blockComment r)) := by
  rw [Nat.add_comm, List.take_succ_cons, List.drop_succ_cons]
  rcases blockComment_cut r with ⟨hclosed, hfirst⟩ | ⟨hopen, hend⟩
  · exact .block rfl hclosed hfirst
  · exact .unclosed rfl hopen hend

/-! ### Strings -/

/-- Characters among which none of a class stands unescaped. A backslash takes the
character behind it along. -/
inductive Unbroken (stop : Char → Bool) : List Char → Prop
  | nil : Unbroken stop []
  | plain {c : Char} {r : List Char} : c ≠ '\\' → stop c = false → Unbroken stop r →
      Unbroken stop (c :: r)
  | escaped {c : Char} {r : List Char} : Unbroken stop r → Unbroken stop ('\\' :: c :: r)

/-- What ends a string where it stands unescaped. -/
def endsString (quote c : Char) : Bool := c == quote || c == '\n'

/-- How a string goes on behind its opening quote: to the first quote that is not escaped,
or to the first line feed that is not, which stays outside, or to the end of the text,
where a last backslash has nothing to take along. -/
inductive StringBody (quote : Char) (body rest : List Char) : Prop
  | closed {inner : List Char} : body = inner ++ [quote] → Unbroken (endsString quote) inner →
      StringBody quote body rest
  | line : Unbroken (endsString quote) body → rest.head? = some '\n' → StringBody quote body rest
  | unclosed : Unbroken (endsString quote) body → rest = [] → StringBody quote body rest
  | cut {inner : List Char} : body = inner ++ ['\\'] → Unbroken (endsString quote) inner →
      rest = [] → StringBody quote body rest

namespace StringBody
variable {quote c : Char} {body rest : List Char}

theorem plain (hc : c ≠ '\\') (hstop : endsString quote c = false)
    (h : StringBody quote body rest) : StringBody quote (c :: body) rest := by
  cases h with
  | closed hbody hinner => exact .closed (congrArg (c :: ·) hbody) (.plain hc hstop hinner)
  | line hbody hrest => exact .line (.plain hc hstop hbody) hrest
  | unclosed hbody hrest => exact .unclosed (.plain hc hstop hbody) hrest
  | cut hbody hinner hrest => exact .cut (congrArg (c :: ·) hbody) (.plain hc hstop hinner) hrest

theorem escaped (h : StringBody quote body rest) : StringBody quote ('\\' :: c :: body) rest := by
  cases h with
  | closed hbody hinner => exact .closed (congrArg ('\\' :: c :: ·) hbody) (.escaped hinner)
  | line hbody hrest => exact .line (.escaped hbody) hrest
  | unclosed hbody hrest => exact .unclosed (.escaped hbody) hrest
  | cut hbody hinner hrest => exact .cut (congrArg ('\\' :: c :: ·) hbody) (.escaped hinner) hrest

end StringBody

theorem stringBody_quoted (quote : Char) (x : List Char) :
    StringBody quote (x.take (quoted quote x)) (x.drop (quoted quote x)) := by
  fun_induction quoted quote x with
  | case1 => exact .unclosed .nil rfl
  | case2 => exact .cut (List.nil_append _).symm .nil rfl
  | case3 e r ih =>
    rw [Nat.add_comm, List.take_succ_cons, List.take_succ_cons, List.drop_succ_cons,
      List.drop_succ_cons]
    exact ih.escaped
  | case4 r => exact .line .nil rfl
  | case5 r => exact .closed (List.nil_append _).symm .nil
  | case6 c r hlast hnext hn hq ih =>
    rw [Nat.add_comm, List.take_succ_cons, List.drop_succ_cons]
    exact ih.plain (ne_backslash hlast hnext) (by simp [endsString, hn, hq])

/-- A string in code. -/
def IsString (text rest : List Char) : Prop :=
  ∃ quote body, (quote = '"' ∨ quote = '\'') ∧ text = quote :: body ∧ StringBody quote body rest

/-- A string in a tag: to the next quote of its kind, whatever stands between. -/
def IsAttribute (text rest : List Char) : Prop :=
  ∃ quote body, (quote = '"' ∨ quote = '\'') ∧ quote ∉ body ∧
    (text = quote :: body ++ [quote] ∨ text = quote :: body ∧ rest = [])

theorem isAttribute_run {quote : Char} (hquote : quote = '"' ∨ quote = '\'') (r : List Char) :
    IsAttribute (quote :: r.take (run (· != quote) r + 1)) (r.drop (run (· != quote) r + 1)) := by
  obtain ⟨hbody, hstop⟩ := run_cut (· != quote) r
  refine ⟨quote, r.take (run (· != quote) r), hquote, fun hm => by simpa using hbody _ hm, ?_⟩
  cases hrest : r.drop (run (· != quote) r) with
  | nil =>
    have hlen := List.drop_eq_nil_iff.mp hrest
    exact .inr ⟨by rw [List.take_of_length_le (by omega), List.take_of_length_le hlen],
      List.drop_eq_nil_of_le (by omega)⟩
  | cons c rest =>
    rw [hrest] at hstop
    obtain rfl : c = quote := by simpa using hstop
    left
    rw [List.take_add_one, ← List.head?_drop, hrest]
    rfl

/-! ### Templates -/

/-- A chunk of a template, from a backtick or the brace that closes a substitution to a
backtick or the mark that opens the next one. Only at the end of the text it may lack
that end. -/
def IsChunk (text rest : List Char) : Prop :=
  ∃ first body, (first = '`' ∨ first = '\x7d') ∧ text = first :: body ∧
    (rest = [] ∨ ['`'] <:+ body ∨ ['$', '\x7b'] <:+ body)

theorem templateChunk_cut (x : List Char) :
    x.drop (templateChunk x).1 = [] ∨ ['`'] <:+ x.take (templateChunk x).1 ∨
      ['$', '\x7b'] <:+ x.take (templateChunk x).1 := by
  fun_induction templateChunk x with
  | case1 => exact .inl rfl
  | case2 => exact .inl rfl
  | case3 e r n opens hr ih =>
    rw [hr] at ih
    rw [Nat.add_comm, List.take_succ_cons, List.take_succ_cons, List.drop_succ_cons,
      List.drop_succ_cons]
    have hback : r.take n <:+ '\\' :: e :: r.take n := List.suffix_append ['\\', e] _
    exact ih.imp_right (Or.imp (·.trans hback) (·.trans hback))
  | case4 r => exact .inr (.inl List.suffix_rfl)
  | case5 r => exact .inr (.inr List.suffix_rfl)
  | case6 c r hlast hnext hend hopen n opens hr ih =>
    rw [hr] at ih
    rw [Nat.add_comm, List.take_succ_cons, List.drop_succ_cons]
    have hback : r.take n <:+ c :: r.take n := List.suffix_cons c _
    exact ih.imp_right (Or.imp (·.trans hback) (·.trans hback))

theorem isChunk_templateChunk {first : Char} (h : first = '`' ∨ first = '\x7d') (r : List Char) :
    IsChunk (first :: r.take (templateChunk r).1) (r.drop (templateChunk r).1) :=
  ⟨first, _, h, rfl, templateChunk_cut r⟩

/-! ### Operators -/

/-- An operator stands at the front of a text. An optional chain before a digit does not
count: there a number begins with the point. -/
def Stands (op : String) (cs : List Char) : Prop :=
  op.toList <+: cs ∧ ¬ (op = "?." ∧ (cs.drop 2).head?.any isDigit = true)

/-- The operator at the front of a text that is longer than all others there. -/
structure IsLongest (op : String) (cs : List Char) : Prop where
  listed : op ∈ operators
  stands : Stands op cs
  longest : ∀ op' ∈ operators, Stands op' cs → op' = op ∨ op'.length < op.length

theorem stands_iff {op : String} {cs : List Char} :
    Stands op cs ↔ (op.toList.isPrefixOf cs && !(chainBeforeDigit cs && op == "?.")) = true := by
  simp only [Stands, Bool.and_eq_true, Bool.not_eq_true', List.isPrefixOf_iff_prefix]
  refine and_congr_right fun hfront => ?_
  simp only [chainBeforeDigit, Bool.and_eq_false_iff, beq_eq_false_iff_ne, ne_eq, not_and,
    Bool.not_eq_true]
  constructor
  · intro h
    by_cases hop : op = "?."
    · exact .inl (.inr (h hop))
    · exact .inr hop
  · rintro ((h | h) | h) hop
    · rw [hop] at hfront
      exact absurd (List.isPrefixOf_iff_prefix.mpr hfront) (by simp [h])
    · exact h
    · exact absurd hop h

/-- Longer operators stand first in the list. -/
theorem operators_descending : operators.Pairwise fun a b => b.length ≤ a.length := by decide

theorem operatorAt_longest {op : String} {cs : List Char} (h : operatorAt cs = some op) :
    IsLongest op cs := by
  rw [operatorAt_eq, List.find?_eq_some_iff_append] at h
  obtain ⟨hop, front, back, hlist, hfront⟩ := h
  have hmem : op ∈ operators := by
    rw [hlist]
    simp
  refine ⟨hmem, stands_iff.mpr hop, ?_⟩
  intro op' hop' hstands
  rw [hlist, List.mem_append, List.mem_cons] at hop'
  rcases hop' with hbefore | rfl | hafter
  · have hnot := hfront op' hbefore
    rw [stands_iff.mp hstands] at hnot
    cases hnot
  · exact .inl rfl
  · have hle : op'.length ≤ op.length := by
      have hdesc := operators_descending
      rw [hlist, List.pairwise_append, List.pairwise_cons] at hdesc
      exact hdesc.2.1.1 op' hafter
    -- two operators of one length that stand in one place are one
    rcases Nat.lt_or_eq_of_le hle with hlt | heq
    · exact .inr hlt
    · left
      have hlen : op'.toList.length = op.toList.length := by
        rw [String.length_toList, String.length_toList, heq]
      have hpre := List.prefix_of_prefix_length_le hstands.1 (stands_iff.mpr hop).1
        (Nat.le_of_eq hlen)
      exact String.toList_inj.mp (hpre.eq_of_length hlen)

theorem operatorAt_none_iff {cs : List Char} :
    operatorAt cs = none ↔ ∀ op ∈ operators, ¬ Stands op cs := by
  rw [operatorAt_eq, List.find?_eq_none]
  simp only [stands_iff]

end Retouch.Syntax
