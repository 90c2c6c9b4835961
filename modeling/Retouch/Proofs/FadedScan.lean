import Retouch.Proofs.Fading

/-! Reading a text again in which some lexemes are blanked out. What a lexeme is
depends on more than its characters in three places: a slash on what stands before
it, an angle bracket on that and on the dialect, and a closing brace on what is open.
`readsAlike` says that these come out as before. Then the significant lexemes of the
new text are those that were kept, and they stand where they stood. -/

namespace Retouch.Erase
open Syntax Text

/-! ### One lexeme -/

/-- What is open after a lexeme of code; `none` when it closes what is not open. -/
def nest (stack : List Context) (l : Lexeme) : Option (List Context) :=
  match l.kind with
  | .template =>
    let outer := if l.text.toList.head? = some '\x7d' then
        if stack.head? = some .substitution then some stack.tail else none
      else some stack
    outer.map fun outer =>
      if (templateChunk l.text.toList.tail).2 then .substitution :: outer else outer
  | .punctuator =>
    if l.text = "\x7b" then some (.brace :: stack)
    else if l.text = "\x7d" then
      if stack.head? = some .brace then some stack.tail else none
    else some stack
  | _ => some stack

theorem nest_word (stack : List Context) (word text : String) :
    nest stack ⟨wordKind word, text⟩ = some stack := by
  unfold wordKind
  split <;> rfl

/-- A point that begins a number is blanked out or keeps its digit. -/
def KeepsPoint (x y : List Char) : Prop :=
  ∀ d t, x = '.' :: d :: t → isDigit d = true → y.head? = some ' ' ∨ ∃ t', y = '.' :: d :: t'

theorem KeepsPoint.chainBeforeDigit {x y : List Char} {c : Char} (h : KeepsPoint x y)
    (hy : ['?', '.'].isPrefixOf (c :: y) = true) (hx : chainBeforeDigit (c :: x) = true) :
    Syntax.chainBeforeDigit (c :: y) = true := by
  obtain ⟨hmark, hdigit⟩ := Bool.and_eq_true_iff.mp hx
  obtain ⟨t, ht⟩ := List.isPrefixOf_iff_prefix.mp hmark
  obtain ⟨rfl, rfl⟩ := List.cons.inj ht
  cases t with
  | nil => cases hdigit
  | cons d t =>
    have hd : isDigit d = true := by simpa using hdigit
    rcases h d t rfl hd with hspace | ⟨t', rfl⟩
    · obtain ⟨u, rfl⟩ := List.head?_eq_some_iff.mp hspace
      cases hy
    · simp [Syntax.chainBeforeDigit, List.isPrefixOf, hd]

theorem nest_template (stack : List Context) (c : Char) (t : List Char) :
    nest stack ⟨.template, String.ofList (c :: t)⟩ =
      (if c = '\x7d' then if stack.head? = some .substitution then some stack.tail else none
        else some stack).map fun outer =>
        if (templateChunk t).2 then .substitution :: outer else outer := by
  simp [nest]

theorem numberLiteral_pos {c : Char} {r : List Char} (hc : c = '.')
    (hr : r.head?.any isDigit = true) : 0 < numberLiteral c r := by
  subst hc
  cases r with
  | nil => cases hr
  | cons d r =>
    have hd : isDigitOrGap d = true := by
      rw [List.head?_cons, Option.any_some] at hr
      simp [isDigitOrGap, hr]
    have hrun : 0 < run isDigitOrGap (d :: r) := by simp [run, hd]
    rw [numberLiteral_eq, if_neg (by simp), decimalNumber]
    omega

theorem head?_take_append {r : List Char} {n : Nat} (h : 0 < n) (hr : r ≠ []) (y : List Char) :
    (r.take n ++ y).head? = r.head? := by
  obtain ⟨m, rfl⟩ := Nat.exists_eq_add_one.mpr h
  cases r with
  | nil => contradiction
  | cons d r => rfl

theorem templateChunk_own (r : List Char) :
    templateChunk (r.take (templateChunk r).1) = templateChunk r := by
  by_cases hnil : r.drop (templateChunk r).1 = []
  · rw [List.take_of_length_le (List.drop_eq_nil_iff.mp hnil)]
  · simpa using (templateChunk_take [] hnil).1

theorem elementBegins_mark {before : Option Lexeme} {r : List Char}
    (h : r.head? = some '<' ∨ r.head? = some '=') : elementBegins before r = false := by
  unfold elementBegins
  rcases h with h | h <;> obtain ⟨t, rfl⟩ := List.head?_eq_some_iff.mp h <;>
    exact Bool.and_false _

section
variable {elements : Bool} {before before' : Option Lexeme} {stack stack' opened : List Context}
  {c : Char} {r y : List Char} {s : Step}

theorem Faded.behind (c : Char) {n : Nat} (h : Faded (r.drop n) y) :
    Faded (c :: r) (c :: (r.take n ++ y)) := by
  have hk := h.keeps (c :: r.take n)
  rwa [List.cons_append, List.take_append_drop] at hk

theorem punctuatorStep_single (h : operatorAt (c :: r) = none) :
    punctuatorStep stack c r = ⟨.punctuator, 0,
      if c = '\x7b' then .brace :: stack
      else if c = '\x7d' ∧ stack.head? = some .brace then stack.tail else stack⟩ := by
  unfold punctuatorStep bracesAfter
  rw [h]
  dsimp only
  split
  · rfl
  · rfl
  · rename_i h₁ h₂
    rw [if_neg h₁]
    split
    · rename_i hc
      obtain ⟨outer, rfl⟩ := List.head?_eq_some_iff.mp hc.2
      exact (h₂ outer hc.1 rfl).elim
    · rfl

theorem punctuatorStep_operator {op : String} (h : operatorAt (c :: r) = some op) :
    punctuatorStep stack c r = ⟨.punctuator, op.toList.length - 1, stack⟩ := by
  rw [String.length_toList]
  unfold punctuatorStep
  split
  · rename_i op' ho
    obtain rfl := Option.some.inj (ho.symm.trans h)
    rfl
  · rename_i ho
    cases ho.symm.trans h

theorem operatorAt_text {op : String} (h : operatorAt (c :: r) = some op) :
    op.toList = c :: r.take (op.toList.length - 1) := by
  obtain ⟨hop, hp, -⟩ := operatorAt_mem h
  obtain ⟨n, hn⟩ := Nat.exists_eq_add_of_le' (operators_long op hop)
  have htake := List.prefix_iff_eq_take.mp (List.isPrefixOf_iff_prefix.mp hp)
  rw [hn] at htake ⊢
  exact htake

theorem nest_operator {op : String} (h : 2 ≤ op.toList.length) :
    nest stack ⟨.punctuator, op⟩ = some stack := by
  have hopen : op ≠ "\x7b" := by
    rintro rfl
    exact absurd h (by decide)
  have hclose : op ≠ "\x7d" := by
    rintro rfl
    exact absurd h (by decide)
  exact (if_neg hopen).trans (if_neg hclose)

theorem nest_single :
    nest stack ⟨.punctuator, String.ofList [c]⟩ =
      if c = '\x7b' then some (.brace :: stack)
      else if c = '\x7d' then if stack.head? = some .brace then some stack.tail else none
      else some stack := by
  have hiff : ∀ d, String.ofList [c] = String.ofList [d] ↔ c = d := by
    intro d
    rw [String.ofList_inj, List.cons.injEq, and_iff_left rfl]
  exact (ite_congr (propext (hiff '\x7b')) (fun _ => rfl)
    fun _ => ite_congr (propext (hiff '\x7d')) (fun _ => rfl) fun _ => rfl)

theorem punctuatorStep_faded (hs : punctuatorStep stack c r = s) (hy : Faded (r.drop s.more) y)
    (hpoint : KeepsPoint (r.drop s.more) y) (hnest : nest stack' (s.lexeme c r) = some opened) :
    punctuatorStep stack' c (r.take s.more ++ y) = ⟨.punctuator, s.more, opened⟩ := by
  cases ho : operatorAt (c :: r) with
  | some op =>
    obtain rfl := hs.symm.trans (punctuatorStep_operator ho)
    have htext := operatorAt_text ho
    have ho' := (hy.behind c).operatorAt_some ho
      (List.isPrefixOf_iff_prefix.mpr ⟨y, congrArg (· ++ y) htext⟩)
    rw [Step.lexeme, ← htext, String.ofList_toList,
      nest_operator (operators_long op (operatorAt_mem ho).1)] at hnest
    rw [punctuatorStep_operator ho', Option.some.inj hnest]
  | none =>
    have hsingle := hs.symm.trans (punctuatorStep_single ho)
    have hkind : s.kind = .punctuator := by rw [hsingle]
    have hmore : s.more = 0 := by rw [hsingle]
    rw [hmore, List.drop_zero] at hy hpoint
    rw [Step.lexeme, hkind, hmore, List.take_zero, nest_single] at hnest
    have ho' : operatorAt (c :: y) = none :=
      (hy.keeps [c]).operatorAt_none hpoint.chainBeforeDigit ho
    rw [hmore, List.take_zero, List.nil_append, punctuatorStep_single ho']
    congr 1
    split at hnest
    · rename_i hc
      rw [if_pos hc, Option.some.inj hnest]
    rename_i hc
    rw [if_neg hc]
    split at hnest
    · rename_i hc'
      split at hnest
      · rename_i hb
        rw [if_pos ⟨hc', hb⟩, Option.some.inj hnest]
      · cases hnest
    · rename_i hc'
      rw [if_neg fun h => hc' h.1, Option.some.inj hnest]

/-- No operator begins with a closing brace. -/
theorem operatorAt_closing (r : List Char) : operatorAt ('\x7d' :: r) = none := by
  have hfront : ∀ op ∈ operators, op.toList.head? ≠ some '\x7d' := by decide
  cases ho : operatorAt ('\x7d' :: r) with
  | none => rfl
  | some op => exact absurd (by rw [operatorAt_text ho]; rfl) (hfront op (operatorAt_mem ho).1)

/-- A closing brace that is a lexeme of its own closes a brace. -/
theorem head_of_nest_brace (hs : punctuatorStep stack '\x7d' r = s)
    (hnest : nest stack' (s.lexeme '\x7d' r) = some opened) : stack'.head? = some .brace := by
  subst hs
  rw [punctuatorStep_single (operatorAt_closing r), Step.lexeme, List.take_zero, nest_single,
    if_neg (by decide), if_pos rfl] at hnest
  split at hnest
  · assumption
  · cases hnest

/-- A longer operator than the less-than sign opens no element. -/
theorem elementBegins_operator (hs : punctuatorStep stack '<' r = s)
    (htext : (s.lexeme '<' r).text ≠ "<") : elementBegins before (r.take s.more ++ y) = false := by
  subst hs
  cases ho : operatorAt ('<' :: r) with
  | none =>
    rw [punctuatorStep_single ho] at htext
    exact absurd rfl htext
  | some op =>
    have hop := operatorAt_text ho
    have hhead := operators_less op (operatorAt_mem ho).1 (by rw [hop]; rfl)
    rw [hop, List.tail_cons] at hhead
    rw [punctuatorStep_operator ho]
    refine elementBegins_mark (hhead.imp ?_ ?_) <;>
    · intro h
      rw [List.head?_append, h]
      rfl

/-- A brace that is a lexeme of its own goes on with no template. -/
theorem not_chunk_of_nest (hs : punctuatorStep stack c r = s)
    (hnest : nest stack' (s.lexeme c r) = some opened) :
    ¬ (c = '\x7d' && stack'.head? = some .substitution) = true := by
  intro h
  simp only [Bool.and_eq_true, decide_eq_true_eq] at h
  obtain ⟨rfl, hsub⟩ := h
  have hbrace := head_of_nest_brace hs hnest
  rw [hsub] at hbrace
  cases hbrace

/-- A less-than sign that stands where no expression may begin opens no element. -/
theorem not_element_of_operator (hs : punctuatorStep stack c r = s)
    (hangle : elements = true → (s.lexeme c r).text = "<" → expressionMayBegin before = false) :
    ¬ (c = '<' && elements && elementBegins before (r.take s.more ++ y)) = true := by
  intro h
  simp only [Bool.and_eq_true, decide_eq_true_eq] at h
  obtain ⟨⟨rfl, hel⟩, hbegin⟩ := h
  by_cases htext : (s.lexeme '<' r).text = "<"
  · have hno := hangle hel htext
    simp [elementBegins, hno] at hbegin
  · rw [elementBegins_operator hs htext] at hbegin
    cases hbegin

theorem codeStep_line (t : List Char) :
    codeStep elements before stack '/' ('/' :: t) =
      ⟨.comment, run (· != '\n') ('/' :: t), stack⟩ := by
  rw [codeStep, if_neg (by decide), if_pos (by simp)]

theorem codeStep_block (t : List Char) :
    codeStep elements before stack '/' ('*' :: t) = ⟨.comment, 1 + blockComment t, stack⟩ := by
  rw [codeStep, if_neg (by decide), if_neg (by simp), if_pos (by simp), List.tail_cons]

theorem lineStep_faded {t : List Char} (hs : codeStep false before stack '/' ('/' :: t) = s)
    (hy : Faded (('/' :: t).drop s.more) y) :
    codeStep elements before' stack' '/' (('/' :: t).take s.more ++ y) =
      ⟨s.kind, s.more, stack'⟩ := by
  rw [codeStep_line] at hs
  subst hs
  obtain ⟨u, hu⟩ : ∃ u, ('/' :: t).take (run (· != '\n') ('/' :: t)) ++ y = '/' :: u := by
    simp [run]
  rw [hu, codeStep_line, ← hu, lineComment_faded hy]

theorem blockStep_faded {t : List Char} (hs : codeStep false before stack '/' ('*' :: t) = s)
    (hy : Faded (('*' :: t).drop s.more) y) :
    codeStep elements before' stack' '/' (('*' :: t).take s.more ++ y) =
      ⟨s.kind, s.more, stack'⟩ := by
  rw [codeStep_block, Nat.add_comm] at hs
  subst hs
  rw [List.drop_succ_cons] at hy
  rw [List.take_succ_cons, List.cons_append, codeStep_block, blockComment_faded hy, Nat.add_comm]

/-- What a step takes that is neither blank nor a comment. -/
theorem codeStep_faded (hs : codeStep false before stack c r = s) (hkind : ¬ s.kind.isTrivia)
    (hstack : stack.head? ≠ some .container) (hstack' : stack'.head? ≠ some .container)
    (hy : Faded (r.drop s.more) y) (hpoint : KeepsPoint (r.drop s.more) y)
    (hslash : c = '/' → expressionMayBegin before' = expressionMayBegin before)
    (hangle : elements = true → (s.lexeme c r).text = "<" → expressionMayBegin before' = false)
    (hnest : nest stack' (s.lexeme c r) = some opened) :
    codeStep elements before' stack' c (r.take s.more ++ y) = ⟨s.kind, s.more, opened⟩ := by
  have hr : Faded r (r.take s.more ++ y) := (hy.behind c).drop 1
  have hmark : ∀ m : List Char, ' ' ∉ m → ¬ (c = '/' && m.isPrefixOf r) = true →
      ¬ (c = '/' && m.isPrefixOf (r.take s.more ++ y)) = true := by
    intro m hm hno hp
    rw [Bool.and_eq_true] at hno hp
    exact hno ⟨hp.1, hr.isPrefixOf hm hp.2⟩
  unfold codeStep at hs ⊢
  refine ite_eq_of_imp hs (fun _ hs => ?_) fun _ hs => ?_
  · subst hs
    exact absurd rfl hkind
  obtain ⟨-, rfl⟩ | ⟨h₂, hs⟩ := ite_eq_iff.mp hs
  · exact absurd rfl hkind
  rw [if_neg (hmark _ (by decide) h₂)]
  obtain ⟨-, rfl⟩ | ⟨h₃, hs⟩ := ite_eq_iff.mp hs
  · exact absurd rfl hkind
  rw [if_neg (hmark _ (by decide) h₃)]
  refine ite_eq_of_imp hs (fun _ hs => ?_) fun _ hs => ?_
  · subst hs
    dsimp only at hy ⊢
    rw [Step.lexeme, nest_word] at hnest
    rw [run_faded rfl hy, Option.some.inj hnest, List.take_left' (length_take_run isNameChar r)]
  obtain ⟨h₅, rfl⟩ | ⟨h₅, hs⟩ := ite_eq_iff.mp hs
  · have h₅' : (isDigit c || (c = '.' && (r.take (numberLiteral c r) ++ y).head?.any isDigit)) =
        true := by
      simp only [Bool.or_eq_true, Bool.and_eq_true, decide_eq_true_eq] at h₅ ⊢
      refine h₅.imp_right fun h => ⟨h.1, ?_⟩
      rw [head?_take_append (numberLiteral_pos h.1 h.2) (by rintro rfl; simp at h)]
      exact h.2
    rw [if_pos h₅', numberLiteral_faded hy, Option.some.inj hnest]
  have h₅' : ¬ (isDigit c || (c = '.' && (r.take s.more ++ y).head?.any isDigit)) = true := by
    simp only [Bool.or_eq_true, Bool.and_eq_true] at h₅ ⊢
    exact fun h => h₅ (h.imp_right (And.imp_right (hr.beginsLike.any rfl)))
  rw [if_neg h₅']
  refine ite_eq_of_imp hs (fun _ hs => ?_) fun _ hs => ?_
  · subst hs
    rw [quoted_faded hy, Option.some.inj hnest]
  refine ite_eq_of_imp hs (fun h₇ hs => ?_) fun _ hs => ?_
  · subst hs h₇
    dsimp only at hy ⊢
    rw [Step.lexeme, nest_template, templateChunk_own, if_neg (by decide)] at hnest
    rw [templateChunk_faded hy, ← Option.some.inj hnest]
  obtain ⟨h₈, rfl⟩ | ⟨-, hs⟩ := ite_eq_iff.mp hs
  · obtain ⟨hc, -⟩ := Bool.and_eq_true_iff.mp h₈
    dsimp only at hy ⊢
    rw [Step.lexeme, nest_template, templateChunk_own, if_pos (of_decide_eq_true hc)] at hnest
    by_cases hsub : stack'.head? = some .substitution
    · rw [if_pos hsub] at hnest
      rw [if_pos (by simp [hc, hsub]), templateChunk_faded hy, ← Option.some.inj hnest]
    · rw [if_neg hsub] at hnest
      cases hnest
  have h₉ : ∀ {stack : List Context}, stack.head? ≠ some .container →
      ¬ (c = '\x7d' && stack.head? = some .container) = true := by
    simp +contextual
  have hless : ¬ (c = '<' && false && elementBegins before r) = true := by simp
  rw [if_neg (h₉ hstack), if_neg hless] at hs
  obtain ⟨h₁₁, rfl⟩ | ⟨h₁₁, hs⟩ := ite_eq_iff.mp hs
  · obtain rfl : c = '/' := of_decide_eq_true (Bool.and_eq_true_iff.mp h₁₁).1
    rw [if_neg (by simp), if_neg (by simp), if_neg (by simp), if_pos (by rw [hslash rfl, h₁₁]),
      regexLiteral_faded hy, Option.some.inj hnest]
  have h₁₁' : ¬ (c = '/' && expressionMayBegin before') = true := by
    intro h
    obtain ⟨hc, hb⟩ := Bool.and_eq_true_iff.mp h
    rw [hslash (of_decide_eq_true hc)] at h
    exact h₁₁ h
  rw [if_neg (not_chunk_of_nest hs hnest), if_neg (h₉ hstack'),
    if_neg (not_element_of_operator hs hangle), if_neg h₁₁',
    punctuatorStep_faded hs hy hpoint hnest, ← hs, punctuatorStep_kind]

theorem isTrivia_else {p : Prop} [Decidable p] {x y : Step}
    (h : (if p then x else y).kind.isTrivia = true) (hx : x.kind.isTrivia = false) :
    y.kind.isTrivia = true := by
  split at h
  · rw [hx] at h
    cases h
  · exact h

/-- Trivia is a run of blanks or begins with one of the two marks. -/
theorem codeStep_trivia (h : (codeStep elements before stack c r).kind.isTrivia = true) :
    (isBlank c = true ∧
      codeStep elements before stack c r = ⟨.whitespace, run isBlank r, stack⟩) ∨
    (c = '/' ∧ ∃ t, r = '/' :: t ∨ r = '*' :: t) := by
  by_cases h₁ : isBlank c = true
  · exact .inl ⟨h₁, if_pos h₁⟩
  by_cases h₂ : (c = '/' && ['/'].isPrefixOf r) = true
  · obtain ⟨hc, hp⟩ := Bool.and_eq_true_iff.mp h₂
    obtain ⟨t, rfl⟩ := List.isPrefixOf_iff_prefix.mp hp
    exact .inr ⟨of_decide_eq_true hc, t, .inl rfl⟩
  by_cases h₃ : (c = '/' && ['*'].isPrefixOf r) = true
  · obtain ⟨hc, hp⟩ := Bool.and_eq_true_iff.mp h₃
    obtain ⟨t, rfl⟩ := List.isPrefixOf_iff_prefix.mp hp
    exact .inr ⟨of_decide_eq_true hc, t, .inr rfl⟩
  -- everything else is significant
  rw [codeStep, if_neg h₁, if_neg h₂, if_neg h₃] at h
  replace h := isTrivia_else h (by unfold wordKind; dsimp only; split <;> rfl)
  replace h := isTrivia_else h rfl
  replace h := isTrivia_else h rfl
  replace h := isTrivia_else h rfl
  replace h := isTrivia_else h rfl
  replace h := isTrivia_else h rfl
  replace h := isTrivia_else h rfl
  replace h := isTrivia_else h rfl
  rw [punctuatorStep_kind] at h
  cases h

/-! ### What is open -/

/-- Only braces of code and substitutions are open. -/
def CodeOnly (stack : List Context) : Prop := ∀ x ∈ stack, x = .brace ∨ x = .substitution

theorem CodeOnly.nil : CodeOnly [] := List.forall_mem_nil _

theorem CodeOnly.inCode (h : CodeOnly stack) : inCode stack = true := by
  cases stack with
  | nil => rfl
  | cons x outer => rcases h x (by simp) with rfl | rfl <;> rfl

theorem CodeOnly.not_container (h : CodeOnly stack) : stack.head? ≠ some .container := by
  intro hc
  obtain ⟨outer, rfl⟩ := List.head?_eq_some_iff.mp hc
  rcases h .container (by simp) with hx | hx <;> cases hx

theorem CodeOnly.tail (h : CodeOnly stack) : CodeOnly stack.tail :=
  fun x hx => h x (List.mem_of_mem_tail hx)

theorem CodeOnly.brace (h : CodeOnly stack) : CodeOnly (.brace :: stack) :=
  List.forall_mem_cons.mpr ⟨.inl rfl, h⟩

theorem CodeOnly.substitution (h : CodeOnly stack) : CodeOnly (.substitution :: stack) :=
  List.forall_mem_cons.mpr ⟨.inr rfl, h⟩

theorem CodeOnly.chunk (h : CodeOnly stack) (opens : Bool) :
    CodeOnly (if opens then .substitution :: stack else stack) := by
  split
  · exact h.substitution
  · exact h

theorem CodeOnly.nest {l : Lexeme} (h : CodeOnly stack) (hn : nest stack l = some opened) :
    CodeOnly opened := by
  unfold Erase.nest at hn
  split at hn
  · obtain ⟨outer, ho, rfl⟩ := Option.map_eq_some_iff.mp hn
    refine CodeOnly.chunk ?_ _
    split at ho
    · split at ho
      · exact Option.some.inj ho ▸ h.tail
      · cases ho
    · exact Option.some.inj ho ▸ h
  · split at hn
    · exact Option.some.inj hn ▸ h.brace
    split at hn
    · split at hn
      · exact Option.some.inj hn ▸ h.tail
      · cases hn
    · exact Option.some.inj hn ▸ h
  · exact Option.some.inj hn ▸ h

theorem CodeOnly.punctuatorStep (h : CodeOnly stack) :
    CodeOnly (punctuatorStep stack c r).stack := by
  unfold Syntax.punctuatorStep bracesAfter
  split
  · exact h
  · dsimp only
    split
    · exact h.brace
    · exact h.tail
    · exact h

/-- Without elements, code opens nothing else. -/
theorem CodeOnly.codeStep (h : CodeOnly stack) :
    CodeOnly (codeStep false before stack c r).stack := by
  have hite : ∀ {p : Prop} [Decidable p] {x y : Step}, CodeOnly x.stack → CodeOnly y.stack →
      CodeOnly (if p then x else y).stack := by
    intro p _ x y hx hy
    split
    · exact hx
    · exact hy
  unfold Syntax.codeStep
  refine hite h (hite h (hite h (hite h (hite h (hite h (hite (h.chunk _) (hite (h.tail.chunk _)
    (hite h.tail ?_))))))))
  rw [if_neg (by simp)]
  exact hite h h.punctuatorStep

/-- What holds of every lexeme of code holds of a text of nothing but code. -/
theorem CodeOnly.scan_forall {P : Lexeme → Prop} {cs : List Char} (hstack : CodeOnly stack)
    (h : ∀ before stack c r, P ((Syntax.codeStep false before stack c r).lexeme c r)) :
    ∀ l ∈ scan false before stack cs, P l := by
  fun_induction scan false before stack cs with
  | case1 => exact List.forall_mem_nil P
  | case2 before stack c r s l ih =>
    have hs : Syntax.codeStep false before stack c r = s := (nextStep_of_inCode hstack.inCode).symm
    refine List.forall_mem_cons.mpr ⟨?_, ih (hs ▸ hstack.codeStep)⟩
    have hl := h before stack c r
    rwa [hs] at hl

end

/-! ### The whole text -/

/-- The lexeme that a token was scanned as, before words were told by their places. -/
def scanned (t : Token) : Lexeme := ⟨if t.kind = .keyword then wordKind t.text else t.kind, t.text⟩

@[simp] theorem scanned_text (t : Token) : (scanned t).text = t.text := rfl

theorem wordKind_not_trivia (word : String) : (wordKind word).isTrivia = false := by
  unfold wordKind
  split <;> rfl

@[simp] theorem scanned_isTrivia (t : Token) : (scanned t).isTrivia = t.isTrivia := by
  unfold scanned Lexeme.isTrivia Token.isTrivia
  dsimp only
  split
  · rename_i hk
    rw [wordKind_not_trivia, hk]
    rfl
  · rfl

/-- Whether the tokens that are kept come out as before when the others are blanked
out: `before` is the lexeme in front, `before'` the last one kept, and `stack` what
the kept ones leave open. -/
def readsAlike (elements : Bool) (before before' : Option Lexeme) (stack : List Context) :
    List Piece → Bool
  | [] => true
  | ⟨t, true⟩ :: ps => readsAlike elements (some (scanned t)) before' stack ps
  | ⟨t, false⟩ :: ps =>
    (t.text.toList.head? ≠ some '/' || expressionMayBegin before' == expressionMayBegin before) &&
      !(elements && t.text = "<" && expressionMayBegin before') &&
        match nest stack (scanned t) with
        | some opened => readsAlike elements (some (scanned t)) (some (scanned t)) opened ps
        | none => false

/-- The significant lexemes with the index of their first character, where the first
lexeme begins at `n`. -/
def located (n : Nat) : List Lexeme → List (Nat × Lexeme)
  | [] => []
  | l :: ls =>
    if l.isTrivia then located (n + l.text.toList.length) ls
    else (n, l) :: located (n + l.text.toList.length) ls

/-- The significant tokens that are kept, located likewise. -/
def keptAt (n : Nat) : List Piece → List (Nat × Token)
  | [] => []
  | p :: ps =>
    if p.hidden || p.token.isTrivia then keptAt (n + p.token.text.toList.length) ps
    else (n, p.token) :: keptAt (n + p.token.text.toList.length) ps

theorem pieces_faded (ps : List Piece) :
    Faded (ps.flatMap fun p => p.token.text.toList) (ps.flatMap Piece.text) := by
  induction ps with
  | nil => exact .nil
  | cons p ps ih => exact List.rel_append (shown_stands p.hidden _) ih

section
variable {elements : Bool} {before before' : Option Lexeme} {stack stack' : List Context}
  {c : Char} {r y cs : List Char} {n : Nat}

theorem located_trivia {l : Lexeme} (h : l.isTrivia = true) (n : Nat) (ls : List Lexeme) :
    located n (l :: ls) = located (n + l.text.toList.length) ls := if_pos h

theorem located_significant {l : Lexeme} (h : ¬ l.isTrivia = true) (n : Nat) (ls : List Lexeme) :
    located n (l :: ls) = (n, l) :: located (n + l.text.toList.length) ls := if_neg h

theorem scan_code (h : inCode stack = true) :
    scan elements before stack (c :: r) =
      (codeStep elements before stack c r).lexeme c r ::
        scan elements
          (lastSignificant before ((codeStep elements before stack c r).lexeme c r))
          (codeStep elements before stack c r).stack
          (r.drop (codeStep elements before stack c r).more) := by
  rw [scan, nextStep_of_inCode h]
  rfl

/-- Blanks in code are passed over. -/
theorem located_blank (h : inCode stack = true) (hc : isBlank c = true) :
    located n (scan elements before stack (c :: r)) =
      located (n + 1) (scan elements before stack r) := by
  have hstep : ∀ {c r n}, isBlank c = true →
      located n (scan elements before stack (c :: r)) =
        located (n + (run isBlank r + 1))
          (scan elements before stack (r.drop (run isBlank r))) := by
    intro c r n hc
    rw [scan_code h, show codeStep elements before stack c r = _ from if_pos hc,
      located_trivia rfl, Step.lexeme, String.toList_ofList, List.length_cons, length_take_run]
    rfl
  rw [hstep hc]
  cases r with
  | nil => rfl
  | cons d r =>
    cases hd : isBlank d with
    | true =>
      rw [hstep hd, show run isBlank (d :: r) = run isBlank r + 1 by simp [run, hd],
        List.drop_succ_cons, Nat.add_right_comm n 1, Nat.add_assoc n]
    | false => rw [show run isBlank (d :: r) = 0 by simp [run, hd], List.drop_zero]

theorem located_blanks {bs : List Char} (h : inCode stack = true)
    (hb : ∀ b ∈ bs, isBlank b = true) :
    located n (scan elements before stack (bs ++ r)) =
      located (n + bs.length) (scan elements before stack r) := by
  induction bs generalizing n with
  | nil => rfl
  | cons b bs ih =>
    rw [List.cons_append, located_blank h (hb b (by simp)),
      ih fun b' hb' => hb b' (by simp [hb']), List.length_cons, Nat.add_assoc, Nat.add_comm 1]

theorem isBlank_blank (c : Char) : isBlank (blank c) = true := by
  unfold blank
  split
  · rename_i h
    rcases h with rfl | rfl <;> decide
  · decide

theorem Faded.cut {n : Nat} (h : Faded (r.drop n) y) :
    (r.take n ++ y).take n = r.take n ∧ (r.take n ++ y).drop n = y := by
  by_cases hnil : r.drop n = []
  · rw [h.take_append hnil]
    rw [hnil] at h
    exact ⟨rfl, by rw [hnil, h.eq_nil]⟩
  · have hlen := length_take_of_drop hnil
    exact ⟨List.take_left' hlen, List.drop_left' hlen⟩

/-- The lexeme at the front is taken again, and the rest is read on. -/
theorem scan_step {s : Step} (h : inCode stack = true) (hy : Faded (r.drop s.more) y)
    (hs : codeStep elements before stack c (r.take s.more ++ y) = s) :
    scan elements before stack (c :: (r.take s.more ++ y)) =
      s.lexeme c r :: scan elements (lastSignificant before (s.lexeme c r)) s.stack y := by
  have hl : s.lexeme c (r.take s.more ++ y) = s.lexeme c r := by
    rw [Step.lexeme, hy.cut.1, Step.lexeme]
  rw [scan_code h, hs, hl, hy.cut.2]

theorem keepsPoint_pieces {ps : List Piece} (hstack : inCode stack = true)
    (hps : ps.map (fun p => scanned p.token) = scan elements before stack cs) :
    KeepsPoint cs (ps.flatMap Piece.text) := by
  rintro d t rfl hd
  have hstep : codeStep elements before stack '.' (d :: t) =
      ⟨.number, numberLiteral '.' (d :: t), stack⟩ := by
    rw [codeStep, if_neg (by decide), if_neg (by simp), if_neg (by simp), if_neg (by decide),
      if_pos (by simp [hd])]
  rw [scan_code hstack, hstep] at hps
  obtain ⟨n, hn⟩ := Nat.exists_eq_add_one.mpr
    (numberLiteral_pos (c := '.') (r := d :: t) rfl (by simpa using hd))
  cases ps with
  | nil => cases hps
  | cons p ps =>
    have hp := congrArg Lexeme.text (List.cons.inj hps).1
    have htext : p.token.text.toList = '.' :: d :: t.take n := by
      rw [show p.token.text = _ from hp, Step.lexeme, hn, String.toList_ofList]
      rfl
    rw [List.flatMap_cons, Piece.text, htext]
    cases p.hidden with
    | true => exact .inl rfl
    | false => exact .inr ⟨_, rfl⟩

theorem located_hidden {t : List Char} (h : inCode stack = true) :
    located n (scan elements before stack (shown true t ++ y)) =
      located (n + t.length) (scan elements before stack y) := by
  have hb : ∀ b ∈ shown true t, isBlank b = true := by
    intro b hb
    obtain ⟨c, -, rfl⟩ := List.mem_map.mp (show b ∈ t.map blank from hb)
    exact isBlank_blank c
  rw [located_blanks h hb, shown_length]

/-- Trivia is passed over, whether it is blanked out or not. -/
theorem located_passed {s : Step} {hide : Bool} (hs : codeStep false before stack c r = s)
    (ht : s.kind.isTrivia = true) (hstack' : inCode stack' = true)
    (hy : Faded (r.drop s.more) y) :
    located n (scan elements before' stack' (shown hide (c :: r.take s.more) ++ y)) =
      located (n + (c :: r.take s.more).length) (scan elements before' stack' y) := by
  have hcomment : codeStep elements before' stack' c (r.take s.more ++ y) =
      ⟨s.kind, s.more, stack'⟩ →
      located n (scan elements before' stack' (c :: (r.take s.more ++ y))) =
        located (n + (c :: r.take s.more).length) (scan elements before' stack' y) := by
    intro hstep
    have hscan : scan elements before' stack' (c :: (r.take s.more ++ y)) =
        s.lexeme c r :: scan elements (lastSignificant before' (s.lexeme c r)) stack' y :=
      scan_step (s := ⟨s.kind, s.more, stack'⟩) hstack' hy hstep
    have hlast : lastSignificant before' (s.lexeme c r) = before' := if_pos ht
    rw [hscan, hlast, located_trivia (l := s.lexeme c r) ht, Step.lexeme, String.toList_ofList]
  cases hide with
  | true => exact located_hidden hstack'
  | false =>
    rcases codeStep_trivia (hs ▸ ht) with ⟨hc, hw⟩ | ⟨rfl, t, rfl | rfl⟩
    · obtain rfl := hs.symm.trans hw
      refine located_blanks hstack' fun b hb => ?_
      rcases List.mem_cons.mp hb with rfl | hb
      · exact hc
      · exact (run_cut isBlank r).1 b hb
    · exact hcomment (lineStep_faded hs hy)
    · exact hcomment (blockStep_faded hs hy)

/-- A lexeme that is kept is read again where it stood. -/
theorem located_kept {s : Step} (hs : codeStep false before stack c r = s)
    (ht : ¬ s.kind.isTrivia = true) (hstack : CodeOnly stack) (hstack' : CodeOnly stack')
    (hy : Faded (r.drop s.more) y) (hpoint : KeepsPoint (r.drop s.more) y)
    (hslash : c = '/' → expressionMayBegin before' = expressionMayBegin before)
    (hangle : elements = true → (s.lexeme c r).text = "<" → expressionMayBegin before' = false)
    (hnest : nest stack' (s.lexeme c r) = some opened) :
    located n (scan elements before' stack' (shown false (c :: r.take s.more) ++ y)) =
      (n, s.lexeme c r) :: located (n + (c :: r.take s.more).length)
        (scan elements (some (s.lexeme c r)) opened y) := by
  have hstep := codeStep_faded hs ht hstack.not_container hstack'.not_container hy hpoint
    hslash hangle hnest
  have hscan : scan elements before' stack' (c :: (r.take s.more ++ y)) =
      s.lexeme c r :: scan elements (lastSignificant before' (s.lexeme c r)) opened y :=
    scan_step (s := ⟨s.kind, s.more, opened⟩) hstack'.inCode hy hstep
  have hlast : lastSignificant before' (s.lexeme c r) = some (s.lexeme c r) := if_neg ht
  rw [show shown false (c :: r.take s.more) = c :: r.take s.more from rfl, List.cons_append, hscan,
    hlast, located_significant (l := s.lexeme c r) ht, Step.lexeme, String.toList_ofList]

/-- The significant lexemes of a faded text are those that are kept, where they were. -/
theorem scan_faded {ps : List Piece}
    (hps : ps.map (fun p => scanned p.token) = scan false before stack cs)
    (hstack : CodeOnly stack) (hstack' : CodeOnly stack')
    (hread : readsAlike elements before before' stack' (significantPieces ps) = true) :
    located n (scan elements before' stack' (ps.flatMap Piece.text)) =
      (keptAt n ps).map fun q => (q.1, scanned q.2) := by
  -- by the induction of the scan of the text before, along which `stack` varies
  fun_induction scan false before stack cs generalizing before' stack' ps n with
  | case1 =>
    obtain rfl := List.map_eq_nil_iff.mp hps
    rw [List.flatMap_nil, scan]
    rfl
  | case2 before stack c r s =>
    rename_i l ih
    have hs : codeStep false before stack c r = s := (nextStep_of_inCode hstack.inCode).symm
    obtain _ | ⟨⟨t, hide⟩, ps⟩ := ps
    · cases hps
    obtain ⟨hl, hrest⟩ := List.cons.inj hps
    replace hl : scanned t = l := hl
    have hopen : CodeOnly s.stack := hs ▸ hstack.codeStep
    have hy : Faded (r.drop s.more) (ps.flatMap Piece.text) := by
      have hf := pieces_faded ps
      have htexts := congrArg (List.flatMap fun l : Lexeme => l.text.toList) hrest
      rw [scan_texts, List.flatMap_map] at htexts
      rwa [show (ps.flatMap fun p => p.token.text.toList) = _ from htexts] at hf
    have htext : t.text.toList = c :: r.take s.more := by
      rw [← scanned_text, hl, String.toList_ofList]
    have htrivia : t.isTrivia = s.kind.isTrivia := by
      rw [← scanned_isTrivia, hl]
      rfl
    rw [List.flatMap_cons, Piece.text, htext]
    by_cases ht : s.kind.isTrivia = true
    · have hsig : significantPieces (⟨t, hide⟩ :: ps) = significantPieces ps :=
        List.filter_cons_of_neg (by simp [htrivia, ht])
      have hkept : keptAt n (⟨t, hide⟩ :: ps) = keptAt (n + t.text.toList.length) ps :=
        if_pos (by simp [htrivia, ht])
      have hlast : lastSignificant before l = before := if_pos ht
      rw [hsig] at hread
      rw [hlast] at ih hrest
      rw [located_passed hs ht hstack'.inCode hy, hkept, htext, ih hrest hopen hstack' hread]
    · have hsig : significantPieces (⟨t, hide⟩ :: ps) = ⟨t, hide⟩ :: significantPieces ps :=
        List.filter_cons_of_pos (by simp [htrivia, ht])
      have hlast : lastSignificant before l = some l := if_neg ht
      rw [hsig] at hread
      rw [hlast] at ih hrest
      cases hide with
      | true =>
        rw [readsAlike, hl] at hread
        have hkept : keptAt n (⟨t, true⟩ :: ps) = keptAt (n + t.text.toList.length) ps := rfl
        rw [located_hidden hstack'.inCode, hkept, htext, ih hrest hopen hstack' hread]
      | false =>
        simp only [readsAlike, hl, Bool.and_eq_true, Bool.or_eq_true, decide_eq_true_eq,
          beq_iff_eq, Bool.not_eq_true', Bool.and_eq_false_imp] at hread
        obtain ⟨⟨hslash, hangle⟩, hread⟩ := hread
        cases hnest : nest stack' l with
        | none => simp [hnest] at hread
        | some opened =>
          rw [hnest] at hread
          have hpoint := keepsPoint_pieces hopen.inCode hrest
          have hslash' : c = '/' → expressionMayBegin before' = expressionMayBegin before := by
            rintro rfl
            exact hslash.resolve_left (by simp [htext])
          have hangle' : elements = true → (s.lexeme c r).text = "<" →
              expressionMayBegin before' = false := by
            intro hel htext'
            exact hangle ⟨hel, by rw [← scanned_text, hl]; exact htext'⟩
          have hkept : keptAt n (⟨t, false⟩ :: ps) =
              (n, t) :: keptAt (n + t.text.toList.length) ps :=
            if_neg (by simp [htrivia, ht])
          rw [located_kept hs ht hstack hstack' hy hpoint hslash' hangle' hnest,
            show s.lexeme c r = l from rfl, hkept, List.map_cons, hl, htext,
            ih hrest hopen (hstack'.nest hnest) hread]

end

end Retouch.Erase
