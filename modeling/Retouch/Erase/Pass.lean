import Retouch.Erase.ClassBody

/-! The pass over a program that finds its type syntax. Tokens are visited from
left to right; a visit says what to erase and where to go on, always further
right. Tokens erased ahead of the visit are passed over. -/

namespace Retouch.Code
open Syntax Erase

/-- Whether the brace at `k` opens a list of import or export specifiers. -/
def opensClause (c : Code) (k : Nat) : Bool :=
  0 < k && c.punct k "\x7b" &&
    (c.word (k - 1) "import" || c.word (k - 1) "export" ||
      (c.word (k - 1) "type" && 2 ≤ k && (c.word (k - 2) "import" || c.word (k - 2) "export")) ||
      (c.punct (k - 1) "," && 3 ≤ k && c.word (k - 3) "import"))

/-- Whether token `k` stands in a list of import or export specifiers, where `as` renames
(`mark_clauses`). -/
def inClause (c : Code) (k : Nat) : Bool :=
  (List.range (k + 1)).any fun o => c.opensClause o && (c.partner o).any (k ≤ ·)

/-- The last token of a statement whose body ends before `stop` (`statement_end`): the
semicolon there, if there is one. -/
def statementLast (c : Code) (stop : Nat) : Nat := if c.punct stop ";" then stop else stop - 1

/-- The last token of an ambient declaration, read on from `i`. -/
def ambientLast (c : Code) (i : Nat) : Option Nat :=
  if _hi : i < c.size then
    match c.text i with
    | "(" | "[" =>
      match hp : c.partner i with
      | some close => c.ambientLast (close + 1)
      | none => none
    | "\x7b" => (c.partner i).map fun close => c.statementLast (close + 1)
    | ";" => some i
    | ":" => some (c.statementLast (c.typeEnd (i + 1)))
    | _ => c.ambientLast (i + 1)
  else none
termination_by c.size - i
decreasing_by
  · have := partner_bounds hp
    omega
  · omega

/-- The last token of the type alias whose keyword stands at `d`. -/
def aliasLast (c : Code) (d : Nat) : Option Nat :=
  match if c.punct (d + 2) "<" then c.angleEnd (d + 2) else some (d + 2) with
  | none => none
  | some n => if c.punct n "=" then some (c.statementLast (c.typeEnd (n + 1))) else none

/-- The last token of the type-only declaration whose keyword stands at `d`. -/
def declarationLast (c : Code) (d : Nat) : Option Nat :=
  if c.kind? d = some .keyword then
    match c.text d with
    | "interface" =>
      if c.kind? (d + 1) = some .identifier then
        (c.findPunct (d + 2) "\x7b").bind c.partner
      else none
    | "type" => if c.kind? (d + 1) = some .identifier then c.aliasLast d else none
    | "declare" => c.ambientLast (d + 1)
    | _ => none
  else none

/-- The last token of the type-only statement at `k`, with any leading `export`
(`type_declaration`). -/
def typeStatementLast (c : Code) (k : Nat) : Option Nat :=
  c.declarationLast (if c.word k "export" then k + 1 else k)

theorem le_statementLast (c : Code) {n s : Nat} (h : n < s) : n ≤ c.statementLast s := by
  unfold statementLast
  split <;> omega

theorem ambientLast_ge {c : Code} {i e : Nat} (h : c.ambientLast i = some e) : i ≤ e := by
  fun_induction ambientLast c i with
  | case1 i hi ht close hp ih => have := partner_bounds hp; have := ih h; omega
  | case2 => simp at h
  | case3 i hi ht close hp ih => have := partner_bounds hp; have := ih h; omega
  | case4 => simp at h
  | case5 i hi ht =>
    obtain ⟨close, hp, rfl⟩ := Option.map_eq_some_iff.mp h
    have := partner_bounds hp
    have := le_statementLast c (n := close) (s := close + 1) (by omega)
    omega
  | case6 => simp only [Option.some.injEq] at h; omega
  | case7 i hi ht =>
    simp only [Option.some.injEq] at h
    have := le_typeEnd c (i + 1)
    have := le_statementLast c (n := i) (s := c.typeEnd (i + 1)) (by omega)
    omega
  | case8 i hi _ _ _ _ _ ih => have := ih h; omega
  | case9 => simp at h

theorem declarationLast_gt {c : Code} {d e : Nat} (h : c.declarationLast d = some e) : d < e := by
  unfold declarationLast at h
  split at h
  · split at h
    · split at h
      · obtain ⟨brace, hb, hp⟩ := Option.bind_eq_some_iff.mp h
        have := findPunct_bounds hb
        have := partner_bounds hp
        omega
      · simp at h
    · split at h
      · unfold aliasLast at h
        split at h
        · simp at h
        · rename_i n hn
          have hd : d + 2 ≤ n := by
            split at hn
            · have := angleEnd_bounds hn
              omega
            · simp only [Option.some.injEq] at hn
              omega
          split at h
          · simp only [Option.some.injEq] at h
            have := le_typeEnd c (n + 1)
            have := le_statementLast c (n := n) (s := c.typeEnd (n + 1)) (by omega)
            omega
          · simp at h
      · simp at h
    · have := ambientLast_ge h
      omega
    · simp at h
  · simp at h

theorem typeStatementLast_gt {c : Code} {k e : Nat} (h : c.typeStatementLast k = some e) :
    k < e := by
  have := declarationLast_gt h
  split at this <;> omega

/-- Whether the word at `k` casts the expression before it (`is_cast`). -/
def isCast (c : Code) (k : Nat) : Bool :=
  0 < k && !c.inClause k && c.endsExpression (k - 1) && k + 1 < c.typeEnd (k + 1)

/-- The last token of the first binding of a declaration. -/
def bindingLast (c : Code) (name : Nat) : Option Nat :=
  if c.text name ∈ ["\x7b", "["] then c.partner name
  else if c.kind? name = some .identifier then some name
  else none

/-- The annotation of the declaration whose keyword stands at `k` (`declaration`). -/
def declaratorSpans (c : Code) (k : Nat) : Erasure :=
  match c.bindingLast (k + 1) with
  | none => []
  | some last =>
    let colon := if c.punct (last + 1) "!" && c.punct (last + 2) ":" then last + 2 else last + 1
    if c.punct colon ":" then [.upTo (last + 1) (c.typeEnd (colon + 1))] else []

/-- The type arguments at `k`, when a call or a parameter list follows them
(`type_arguments`). -/
def typeArgumentSpans (c : Code) (k : Nat) : Erasure :=
  if k = 0 || !c.endsExpression (k - 1) || c.kind? (k - 1) = some .identifier then
    match c.angleEnd k with
    | some stop => if c.punct stop "(" then [.upTo k stop] else []
    | none => []
  else []

/-- What to erase at a word, when no statement of types begins there. -/
def wordSpans (c : Code) (k : Nat) : Option Erasure :=
  let keyword := c.kind? k = some .keyword
  match c.text k with
  | "abstract" => some (if c.word (k + 1) "class" then [.single k] else [])
  | "const" | "let" | "var" => some (if keyword then c.declaratorSpans k else [])
  | "class" => if keyword then c.classSpans k else some []
  | _ => some []

/-- What to erase at a punctuator. -/
def punctSpans (c : Code) (erased : Erasure) (k : Nat) : Erasure :=
  match c.text k with
  | "!" => if 0 < k && c.endsExpression (k - 1) && c.adjacent k then [.single k] else []
  | "(" => c.signatureSpans erased k
  | "<" => c.typeArgumentSpans k
  | _ => []

/-- What a visit of token `k` erases, and where the pass goes on (`visit`). -/
structure Visit (k : Nat) where
  spans : Erasure
  next : Nat
  lt_next : k < next

theorem lt_typeEnd_succ (c : Code) (k : Nat) : k < c.typeEnd (k + 1) := le_typeEnd c (k + 1)

def visit (c : Code) (erased : Erasure) (k : Nat) : Option (Visit k) :=
  match he : if c.startsStatement k then c.typeStatementLast k else none with
  | some last =>
    some ⟨[⟨k, last⟩], last + 1, by
      split at he
      · have := typeStatementLast_gt he
        omega
      · simp at he⟩
  | none =>
    if c.isName k then
      if c.text k ∈ ["as", "satisfies"] && c.isCast k then
        some ⟨[.upTo k (c.typeEnd (k + 1))], c.typeEnd (k + 1), lt_typeEnd_succ c k⟩
      else (c.wordSpans k).map fun spans => ⟨spans, k + 1, Nat.lt_succ_self k⟩
    else if c.kind? k = some .punctuator then
      some ⟨c.punctSpans erased k, k + 1, Nat.lt_succ_self k⟩
    else some ⟨[], k + 1, Nat.lt_succ_self k⟩

/-- The erasure from token `k` on, added to what is erased so far (the loop `run`). -/
def erasureFrom (c : Code) (erased : Erasure) (k : Nat) : Option Erasure :=
  if _hk : k < c.size then
    if erased.covers k then c.erasureFrom erased (k + 1)
    else
      match c.visit erased k with
      | none => none
      | some ⟨spans, next, _⟩ => c.erasureFrom (spans ++ erased) next
  else some erased
termination_by c.size - k

/-- The type syntax of a program; `none` when the scan of a class never ends. -/
def erasure (c : Code) : Option Erasure := c.erasureFrom [] 0

/-- Whether significant token `k` goes. -/
def isErased (c : Code) (e : Erasure) (k : Nat) : Bool := k < c.size && e.covers k

end Retouch.Code
