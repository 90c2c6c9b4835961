import Retouch.Lower.Clause
import Retouch.Lower.Edit

/-! Import and export statements as code over `require` and `module.exports`.
Each statement becomes at most one edit. Assignments that need the whole module
to have run are deferred to its end. -/

namespace Retouch.Lower
open Syntax

/-- A re-export whose source is missing because the text ends there. -/
inductive LoweringError where
  | cutShort
  deriving DecidableEq, Repr

/-- What becomes of the tokens from `k` up to `next`. -/
structure Step (k : Nat) where
  edit : Option Edit
  deferred : List String
  /-- Whether the statement took a number for its module. -/
  numbered : Bool
  next : Nat
  lt_next : k < next

/-- The token at `k` stays as it is. -/
def Step.keep (k : Nat) : Step k := ⟨none, [], false, k + 1, Nat.lt_succ_self k⟩

def importDefault : String := "__codemod_importDefault"

def reexport : String := "__codemod_reexport"

/-- The assignment that exports a value under a name. -/
def assignment (exported value : String) : String :=
  "module.exports." ++ exported ++ " = " ++ value ++ ";"

def required (specifier : String) : String := "require(" ++ specifier ++ ")"

def commaSeparated (items : List String) : String := ", ".intercalate items

end Retouch.Lower

namespace Retouch.Code
open Syntax Lower

def startOffset (c : Code) (k : Nat) : Nat := (c.tokens[k]?.map (·.start.offset)).getD 0

def stopOffset (c : Code) (k : Nat) : Nat := (c.tokens[k]?.map (·.stop.offset)).getD 0

/-- Replace the tokens from `first` to `last` (`replace`). -/
def replace (c : Code) (first last : Nat) (text : String) : Edit :=
  ⟨c.startOffset first, c.stopOffset last, text⟩

/-- Drop the keyword at `k` and the blanks after it (`strip_keyword`). -/
def dropKeyword (c : Code) (k : Nat) : Edit := ⟨c.startOffset k, c.startOffset (k + 1), ""⟩

/-- The last token of a statement that ends at `last` (`remove_statement`): a semicolon
directly after it belongs to it. -/
def withSemicolon (c : Code) (last : Nat) : Nat :=
  if c.text (last + 1) = ";" then last + 1 else last

theorem le_withSemicolon (c : Code) (last : Nat) : last ≤ c.withSemicolon last := by
  unfold withSemicolon
  split <;> omega

/-- Declarators for the named bindings of an import (`named_bindings`): those of `default`
one by one, the others as one pattern. -/
def namedDeclarators (module : String) (names : List Specifier) : List String :=
  let defaults := (names.filter (·.imported = "default")).map fun s =>
    s.localName ++ " = " ++ importDefault ++ "(" ++ module ++ ")"
  let properties := (names.filter (·.imported ≠ "default")).map fun s =>
    if s.imported = s.localName then s.localName else s.imported ++ ": " ++ s.localName
  if properties.isEmpty then defaults
  else defaults ++ ["\x7b " ++ commaSeparated properties ++ " \x7d = " ++ module]

/-- Declarators for the import clause from `i` up to the keyword `from`. -/
def clauseDeclarators (c : Code) (module : String) (source i : Nat) : List String :=
  if _h : i < source then
    match c.text i with
    | "," => c.clauseDeclarators module source (i + 1)
    | "*" => (c.text (i + 2) ++ " = " ++ module) :: c.clauseDeclarators module source (i + 3)
    | "\x7b" =>
      match hf : c.find (i + 1) "\x7d" with
      | some close =>
        namedDeclarators module (c.specifiers close (i + 1)) ++
          c.clauseDeclarators module source (close + 1)
      | none => namedDeclarators module (c.specifiers source (i + 1))
    | name =>
      (name ++ " = " ++ importDefault ++ "(" ++ module ++ ")") ::
        c.clauseDeclarators module source (i + 1)
  else []
termination_by source - i
decreasing_by
  · omega
  · omega
  · have := find_bounds hf
    omega
  · omega

/-- The import statement at `k`, where `count` modules have numbers already (`import`). -/
def importStep (c : Code) (count k : Nat) : Step k :=
  if c.kind? (k + 1) = some .string then
    ⟨some (c.replace k (k + 1) (required (c.text (k + 1)))), [], false, k + 2, by omega⟩
  else
    match hf : c.find (k + 1) "from" with
    | none => .keep k
    | some source =>
      if c.kind? (source + 1) ≠ some .string then .keep k
      else if c.text (k + 1) = "type" && c.text (k + 2) ∉ ["from", ","] then
        let last := c.withSemicolon (source + 1)
        ⟨some (c.replace k last ""), [], false, last + 1, by
          have := find_bounds hf
          have := le_withSemicolon c (source + 1)
          omega⟩
      else
        let module := "__import" ++ toString count
        let declarators := (module ++ " = " ++ required (c.text (source + 1))) ::
          c.clauseDeclarators module source (k + 1)
        ⟨some (c.replace k (source + 1) ("const " ++ commaSeparated declarators)), [], true,
          source + 2, by have := find_bounds hf; omega⟩

/-- The name that an exported declaration binds, for a keyword at `k`: past an
asterisk, if there is one. -/
def declaredAt (c : Code) (k : Nat) : Nat := if c.text k = "*" then k + 1 else k

/-- The default export at `k` (`export_default`). A named declaration stays in place and its
export is deferred. -/
def defaultStep (c : Code) (k : Nat) : Step k :=
  let nameAt :=
    match c.text (k + 2) with
    | "function" | "class" => some (c.declaredAt (k + 3))
    | "async" => if c.text (k + 3) = "function" then some (c.declaredAt (k + 4)) else none
    | _ => none
  match nameAt.filter (fun n => c.kind? n = some .identifier) with
  | some n =>
    ⟨some (c.replace k (k + 1) ""), [assignment "default" (c.text n)], false, k + 2, by omega⟩
  | none => ⟨some (c.replace k (k + 1) "module.exports.default ="), [], false, k + 2, by omega⟩

/-- An exported declaration at `k` that binds `names`. -/
def declarationStep (c : Code) (k : Nat) (names : List String) : Step k :=
  ⟨some (c.dropKeyword k), names.map fun n => assignment n n, false, k + 1, Nat.lt_succ_self k⟩

/-- The brace that closes the one at `k`, or `k` itself when none does. -/
def braceEnd (c : Code) (k : Nat) : Nat := (c.find (k + 1) "\x7d").getD k

theorem le_braceEnd (c : Code) (k : Nat) : k ≤ c.braceEnd k := by
  unfold braceEnd
  cases h : c.find (k + 1) "\x7d" with
  | none => simp
  | some close => have := find_bounds h; simp; omega

/-- Remove the statement from `k` to `last` and defer the given lines. -/
def removal (c : Code) (k last : Nat) (deferred : List String) (h : k ≤ last) : Step k :=
  ⟨some (c.replace k (c.withSemicolon last) ""), deferred, false, c.withSemicolon last + 1, by
    have := le_withSemicolon c last
    omega⟩

/-- The exported types at `k`, with their source if there is one. -/
def typeListStep (c : Code) (k : Nat) : Except LoweringError (Step k) :=
  have hb := le_braceEnd c (k + 2)
  if c.text (c.braceEnd (k + 2) + 1) = "from" then
    if c.braceEnd (k + 2) + 2 < c.size then .ok (c.removal k (c.braceEnd (k + 2) + 2) [] (by omega))
    else .error .cutShort
  else .ok (c.removal k (c.braceEnd (k + 2)) [] (by omega))

/-- The exported names at `k`, taken from another module or from this one. -/
def nameListStep (c : Code) (k : Nat) : Except LoweringError (Step k) :=
  have hb := le_braceEnd c (k + 1)
  let close := c.braceEnd (k + 1)
  let names := c.specifiers close (k + 2)
  if c.text (close + 1) = "from" then
    if close + 2 < c.size then
      let pairs := names.map fun s => "[\"" ++ s.imported ++ "\", \"" ++ s.localName ++ "\"]"
      let call := reexport ++ "(module.exports, " ++ required (c.text (close + 2)) ++ ", [" ++
        commaSeparated pairs ++ "])"
      .ok ⟨some (c.replace k (close + 2) call), [], false, close + 3, by omega⟩
    else .error .cutShort
  else
    .ok (c.removal k close (names.map fun s => assignment s.localName s.imported) (by omega))

/-- The re-export of a whole module at `k`. -/
def wholeStep (c : Code) (k : Nat) : Except LoweringError (Step k) :=
  match hf : c.find (k + 1) "from" with
  | none => .ok (.keep k)
  | some source =>
    if source + 1 < c.size then
      let value := required (c.text (source + 1))
      let text :=
        if c.text (k + 2) = "as" then "module.exports." ++ c.text (k + 3) ++ " = " ++ value
        else reexport ++ "(module.exports, " ++ value ++ ", null)"
      .ok ⟨some (c.replace k (source + 1) text), [], false, source + 2, by
        have := find_bounds hf
        omega⟩
    else .error .cutShort

/-- The export statement at `k` (`export`). -/
def exportStep (c : Code) (k : Nat) : Except LoweringError (Step k) :=
  match c.text (k + 1) with
  | "=" => .ok ⟨some (c.replace k (k + 1) "module.exports ="), [], false, k + 2, by omega⟩
  | "default" => .ok (c.defaultStep k)
  | "function" | "class" => .ok (c.declarationStep k [c.text (c.declaredAt (k + 2))])
  | "async" => .ok (c.declarationStep k [c.text (c.declaredAt (k + 3))])
  | "const" | "let" | "var" =>
    .ok (c.declarationStep k
      (if c.kind? (k + 2) = some .identifier then [c.text (k + 2)] else []))
  | "type" => if c.text (k + 2) = "\x7b" then c.typeListStep k else .ok (.keep k)
  | "\x7b" => c.nameListStep k
  | "*" => c.wholeStep k
  | _ => .ok (.keep k)

end Retouch.Code
