import Retouch.Code.Basic

/-! How far a type reaches. `typeEnd c p` is the index just past the type that
begins at `p`, or `p` when none begins there. The recursion follows the grammar
of types; brackets are crossed in one step to their partner, so what stands
inside them is never looked at. -/

namespace Retouch.Code
open Syntax

/-- By how much a punctuator changes the depth of angle brackets; `none` when it
cannot stand in a list of type arguments. -/
def angleWeight : String → Option Int
  | "<" => some 1
  | ">" => some (-1)
  | ">>" => some (-2)
  | ">>>" => some (-3)
  | "," | "." | "|" | "&" | "?" | ":" | "=>" | "=" | "..." | "-" => some 0
  | _ => none

/-- The last index of the item at `i` and the depth after it, for a list of type
arguments with `depth` open angle brackets. -/
def angleItem (c : Code) (i : Nat) (depth : Int) : Option (Nat × Int) :=
  match c.kind? i with
  | some .punctuator =>
    if c.text i ∈ ["(", "[", "\x7b"] then (c.partner i).map (·, depth)
    else (angleWeight (c.text i)).map fun w => (i, depth + w)
  | some .identifier | some .keyword | some .string | some .number | some .template =>
    some (i, depth)
  | _ => none

theorem angleItem_bounds {c : Code} {i last : Nat} {depth d : Int}
    (h : c.angleItem i depth = some (last, d)) : i ≤ last ∧ last < c.size := by
  unfold angleItem at h
  split at h
  · rename_i hk
    have hi := lt_size_of_kind? hk
    split at h
    · obtain ⟨m, hm, he⟩ := Option.map_eq_some_iff.mp h
      simp only [Prod.mk.injEq] at he
      have := partner_bounds hm
      omega
    · obtain ⟨m, hm, he⟩ := Option.map_eq_some_iff.mp h
      simp only [Prod.mk.injEq] at he
      omega
  all_goals first
    | (rename_i hk
       have hi := lt_size_of_kind? hk
       simp only [Option.some.injEq, Prod.mk.injEq] at h
       omega)
    | simp at h

/-- The index just past the bracket that closes a list of type arguments, read on from `i`
at the given depth (the loop of `angle_end`). -/
def anglesFrom (c : Code) (i : Nat) (depth : Int) : Option Nat :=
  match h : c.angleItem i depth with
  | none => none
  | some (last, d) =>
    if d = 0 then some (last + 1)
    else if d < 0 then none
    else c.anglesFrom (last + 1) d
termination_by c.size - i
decreasing_by
  have := angleItem_bounds h
  omega

/-- The index just past the list of type arguments that opens at `k`, when the tokens from
there on can form one (`angle_end`). -/
def angleEnd (c : Code) (k : Nat) : Option Nat := c.anglesFrom k 0

theorem anglesFrom_bounds {c : Code} {i e : Nat} {depth : Int}
    (h : c.anglesFrom i depth = some e) : i < e ∧ e ≤ c.size := by
  fun_induction anglesFrom c i depth with
  | case1 => simp at h
  | case2 i depth last hi =>
    have := angleItem_bounds hi
    simp only [Option.some.injEq] at h
    omega
  | case3 => simp at h
  | case4 i depth last d hi _ _ ih =>
    have := angleItem_bounds hi
    have := ih h
    omega

theorem angleEnd_bounds {c : Code} {k e : Nat} (h : c.angleEnd k = some e) :
    k < e ∧ e ≤ c.size := anglesFrom_bounds h

/-- Past the index suffixes that follow a type on its own line (`skip_postfix`). -/
def suffixesEnd (c : Code) (q : Nat) : Nat :=
  match h : c.partner q with
  | some close => if c.punct q "[" && c.sameLine q then c.suffixesEnd (close + 1) else q
  | none => q
termination_by c.size - q
decreasing_by
  have := partner_bounds h
  omega

theorem le_suffixesEnd (c : Code) (q : Nat) : q ≤ c.suffixesEnd q := by
  fun_induction suffixesEnd c q with
  | case1 q close h _ ih => have := partner_bounds h; omega
  | case2 => omega
  | case3 => omega

/-- Past the members of a dotted name whose first part ends before `q`. -/
def dottedEnd (c : Code) (q : Nat) : Nat :=
  if h : c.punct q "." && c.isName (q + 1) then c.dottedEnd (q + 2) else q
termination_by c.size - q
decreasing_by
  have := lt_size_of_punct (Bool.and_eq_true_iff.mp h).1
  omega

theorem le_dottedEnd (c : Code) (q : Nat) : q ≤ c.dottedEnd q := by
  fun_induction dottedEnd c q with
  | case1 q h ih => omega
  | case2 => omega

/-- The first chunk from `i` on that closes a template literal. -/
def templateEnd? (c : Code) (i : Nat) : Option Nat :=
  if h : i < c.size then
    if c.kind? i = some .template && ['`'].isSuffixOf (c.text i).toList then some (i + 1)
    else c.templateEnd? (i + 1)
  else none
termination_by c.size - i

theorem templateEnd?_bounds {c : Code} {i e : Nat} (h : c.templateEnd? i = some e) :
    i < e ∧ e ≤ c.size := by
  fun_induction templateEnd? c i with
  | case1 i hi _ => simp only [Option.some.injEq] at h; omega
  | case2 i hi _ ih => have := ih h; omega
  | case3 => simp at h

/-- Words that begin a type operator (`TYPE_OPERATORS`). -/
def typeOperators : List String := ["keyof", "typeof", "readonly", "unique", "infer", "asserts"]

def isBar (c : Code) (p : Nat) : Bool := c.punct p "|" || c.punct p "&"

theorem lt_size_of_isBar {c : Code} {p : Nat} (h : c.isBar p = true) : p < c.size := by
  simp only [isBar, Bool.or_eq_true] at h
  rcases h with h | h <;> exact lt_size_of_punct h

/-- Past the type arguments at `q`, if there are any. -/
def argumentsEnd (c : Code) (q : Nat) : Nat :=
  if c.punct q "<" then (c.angleEnd q).getD q else q

theorem le_argumentsEnd (c : Code) (q : Nat) : q ≤ c.argumentsEnd q := by
  unfold argumentsEnd
  split
  · cases h : c.angleEnd q with
    | none => simp
    | some e => have := angleEnd_bounds h; simp; omega
  · exact Nat.le_refl q

mutual

/-- A type, conditional types included (`skip_type`). -/
def typeFrom (c : Code) (p : Nat) : { r : Nat // p ≤ r } :=
  match c.unionFrom p with
  | ⟨q, hq⟩ =>
    if hw : p < q ∧ c.word q "extends" then
      match c.unionFrom (q + 1) with
      | ⟨r, hr⟩ =>
        if hp : c.punct r "?" then
          match c.typeFrom (r + 1) with
          | ⟨s, hs⟩ =>
            if ht : c.punct s ":" then
              match c.typeFrom (s + 1) with
              | ⟨t, ht⟩ => ⟨t, by omega⟩
            else ⟨s, by omega⟩
        else ⟨r, by omega⟩
    else ⟨q, hq⟩
termination_by (c.size - p, 5)
decreasing_by
  · exact Prod.Lex.right _ (by decide)
  · have := lt_size_of_word hw.2
    exact Prod.Lex.left _ _ (by omega)
  · have := lt_size_of_punct hp
    exact Prod.Lex.left _ _ (by omega)
  · have := lt_size_of_punct ht
    exact Prod.Lex.left _ _ (by omega)

/-- A union or intersection, with an optional bar at the front (`skip_union`). -/
def unionFrom (c : Code) (p : Nat) : { r : Nat // p ≤ r } :=
  if h : c.isBar p then
    match c.unionMembers (p + 1) with
    | ⟨r, hr⟩ => if r = p + 1 then ⟨p, Nat.le_refl p⟩ else ⟨r, by omega⟩
  else c.unionMembers p
termination_by (c.size - p, 4)
decreasing_by
  · have := lt_size_of_isBar h
    exact Prod.Lex.left _ _ (by omega)
  · exact Prod.Lex.right _ (by decide)

/-- Primary types with their suffixes, with bars between. -/
def unionMembers (c : Code) (p : Nat) : { r : Nat // p ≤ r } :=
  match c.primaryFrom p with
  | ⟨m, hm⟩ =>
    if m = p then ⟨p, Nat.le_refl p⟩
    else
      have hq := le_suffixesEnd c m
      if h : c.isBar (c.suffixesEnd m) then
        match c.unionMembers (c.suffixesEnd m + 1) with
        | ⟨r, hr⟩ => ⟨r, by omega⟩
      else ⟨c.suffixesEnd m, by omega⟩
termination_by (c.size - p, 3)
decreasing_by
  · exact Prod.Lex.right _ (by decide)
  · have := lt_size_of_isBar h
    exact Prod.Lex.left _ _ (by omega)

/-- A type without suffixes (`skip_primary`). -/
def primaryFrom (c : Code) (p : Nat) : { r : Nat // p ≤ r } :=
  match c.kind? p with
  | some .punctuator =>
    match c.text p with
    | "(" =>
      match hc : c.partner p with
      | some close =>
        have hb := partner_bounds hc
        if c.punct (close + 1) "=>" then
          match c.typeFrom (close + 2) with
          | ⟨r, hr⟩ => ⟨r, by omega⟩
        else ⟨close + 1, by omega⟩
      | none => ⟨p, Nat.le_refl p⟩
    | "\x7b" | "[" =>
      match hc : c.partner p with
      | some close => ⟨close + 1, by have := partner_bounds hc; omega⟩
      | none => ⟨p, Nat.le_refl p⟩
    | "<" =>
      match ha : c.angleEnd p with
      | some q =>
        have hb := angleEnd_bounds ha
        match c.primaryFrom q with
        | ⟨r, hr⟩ => ⟨r, by omega⟩
      | none => ⟨p, Nat.le_refl p⟩
    | "-" => if c.kind? (p + 1) = some .number then ⟨p + 2, by omega⟩ else ⟨p, Nat.le_refl p⟩
    | _ => ⟨p, Nat.le_refl p⟩
  | some .string | some .number => ⟨p + 1, by omega⟩
  | some .template =>
    if closesTemplate (c.text p) then ⟨p + 1, by omega⟩
    else
      match ht : c.templateEnd? (p + 1) with
      | some e => ⟨e, by have := templateEnd?_bounds ht; omega⟩
      | none => ⟨p + 1, by omega⟩
  | some .identifier | some .keyword => c.namedFrom p
  | _ => ⟨p, Nat.le_refl p⟩
termination_by (c.size - p, 2)
decreasing_by
  · exact Prod.Lex.left _ _ (by omega)
  · exact Prod.Lex.left _ _ (by omega)
  · exact Prod.Lex.right _ (by decide)

/-- A type that begins with a word: an operator and its operand, a constructor
type, or a name. -/
def namedFrom (c : Code) (p : Nat) : { r : Nat // p ≤ r } :=
  if h : c.isName p then
    if c.text p ∈ typeOperators then
      match c.primaryFrom (p + 1) with
      | ⟨m, hm⟩ =>
        if p + 1 < m then ⟨c.suffixesEnd m, by have := le_suffixesEnd c m; omega⟩
        else c.nameFrom p
    else if c.text p = "new" then
      match c.primaryFrom (p + 1) with
      | ⟨r, hr⟩ => ⟨r, by omega⟩
    else c.nameFrom p
  else ⟨p, Nat.le_refl p⟩
termination_by (c.size - p, 1)
decreasing_by
  · have := lt_size_of_isName h
    exact Prod.Lex.left _ _ (by omega)
  · exact Prod.Lex.right _ (by decide)
  · have := lt_size_of_isName h
    exact Prod.Lex.left _ _ (by omega)
  · exact Prod.Lex.right _ (by decide)

/-- A dotted name with its type arguments, or a predicate on it. -/
def nameFrom (c : Code) (p : Nat) : { r : Nat // p ≤ r } :=
  have hq : p + 1 ≤ c.argumentsEnd (c.dottedEnd (p + 1)) :=
    Nat.le_trans (le_dottedEnd c (p + 1)) (le_argumentsEnd c _)
  if h : c.word (c.argumentsEnd (c.dottedEnd (p + 1))) "is" then
    match c.typeFrom (c.argumentsEnd (c.dottedEnd (p + 1)) + 1) with
    | ⟨r, hr⟩ => ⟨r, by omega⟩
  else ⟨c.argumentsEnd (c.dottedEnd (p + 1)), by omega⟩
termination_by (c.size - p, 0)
decreasing_by
  have := lt_size_of_word h
  exact Prod.Lex.left _ _ (by omega)

end

section
variable {c : Code} {p q m : Nat}

/-! Where nothing else begins, each of them hands on to the one below it. -/

theorem typeFrom_union (h : (c.unionFrom p).1 = q) (hw : c.word q "extends" = false) :
    (c.typeFrom p).1 = q := by
  subst h
  rw [typeFrom]
  simp [hw]

theorem unionFrom_members (hb : c.isBar p = false) : c.unionFrom p = c.unionMembers p := by
  rw [unionFrom]
  simp [hb]

theorem unionMembers_last (h : (c.primaryFrom p).1 = m) (hm : p < m)
    (hb : c.isBar (c.suffixesEnd m) = false) : (c.unionMembers p).1 = c.suffixesEnd m := by
  subst h
  rw [unionMembers]
  simp [hb, Nat.ne_of_gt hm]

theorem primaryFrom_named (h : c.isName p = true) : c.primaryFrom p = c.namedFrom p := by
  rw [primaryFrom]
  simp only [isName, Bool.or_eq_true, decide_eq_true_eq] at h
  rcases h with h | h <;> simp [h]

theorem namedFrom_name (h : c.isName p = true) (ht : c.text p ∉ typeOperators)
    (hn : c.text p ≠ "new") : c.namedFrom p = c.nameFrom p := by
  rw [namedFrom]
  simp [h, ht, hn]

theorem nameFrom_plain (h : c.argumentsEnd (c.dottedEnd (p + 1)) = q)
    (hw : c.word q "is" = false) : (c.nameFrom p).1 = q := by
  subst h
  rw [nameFrom]
  simp [hw]

end

/-- The index just past the type at `p`; `p` itself when no type begins there. -/
def typeEnd (c : Code) (p : Nat) : Nat := (c.typeFrom p).1

theorem le_typeEnd (c : Code) (p : Nat) : p ≤ c.typeEnd p := (c.typeFrom p).2

end Retouch.Code
