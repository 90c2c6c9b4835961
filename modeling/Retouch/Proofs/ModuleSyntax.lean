import Retouch.Lower.Lowered

/-! Programs of import and export statements as trees, and what each statement
becomes. A tree keeps the text between its words, so a program has one tree for
every layout of it. Names are neither reserved nor contextual; bodies and values
are stretches of words whose braces match and that have no import or export
keyword outside of them. -/

namespace Retouch.Lower
open Syntax Text

/-! ### Words -/

/-- A significant token with the text between it and the next one. -/
structure Word where
  kind : Kind
  text : String
  gap : String
  deriving DecidableEq, Repr

def Word.keyword (text gap : String) : Word := ⟨.keyword, text, gap⟩

def Word.mark (text gap : String) : Word := ⟨.punctuator, text, gap⟩

def Word.isMark (w : Word) (text : String) : Bool := w.kind = .punctuator && w.text = text

/-- The text of some words and of the gaps after them. -/
def spelling (ws : List Word) : String := String.join (ws.map fun w => w.text ++ w.gap)

/-- The text before the first significant token, and the words from there on. -/
def wordsOf : List Token → String × List Word
  | [] => ("", [])
  | t :: ts =>
    if t.isTrivia then (t.text ++ (wordsOf ts).1, (wordsOf ts).2)
    else ("", ⟨t.kind, t.text, (wordsOf ts).1⟩ :: (wordsOf ts).2)

def isPlainName (s : String) : Bool :=
  s.toList.head?.any isNameStart && s ∉ reserved && s ∉ contextual

structure Name where
  text : String
  gap : String
  plain : isPlainName text = true

def Name.word (n : Name) : Word := ⟨.identifier, n.text, n.gap⟩

/-- A string literal; every one begins with a quote. -/
structure Literal where
  text : String
  gap : String
  quoted : text.toList.head?.any (fun c => c = '"' || c = '\'') = true

def Literal.word (s : Literal) : Word := ⟨.string, s.text, s.gap⟩

/-- A word such as `from`, a keyword or a name by its place. -/
structure Soft where
  kind : Kind
  gap : String
  soft : kind ∈ [.identifier, .keyword]

def Soft.word (s : Soft) (text : String) : Word := ⟨s.kind, text, s.gap⟩

/-! ### Stretches -/

/-- Whether the braces of some words match and no import or export keyword stands
outside of them, from brace depth `depth` on. -/
def isQuiet : Nat → List Word → Bool
  | depth, [] => depth = 0
  | depth, w :: ws =>
    if w.isMark "\x7b" then isQuiet (depth + 1) ws
    else if w.isMark "\x7d" then 0 < depth && isQuiet (depth - 1) ws
    else (0 < depth || !(w.kind = .keyword && w.text ∈ ["import", "export"])) && isQuiet depth ws

/-- Whether a member name is still to come. -/
def endsOpen (ws : List Word) : Bool := ws.getLast?.any fun w => w.text ∈ [".", "?."]

structure Stretch where
  words : List Word
  quiet : isQuiet 0 words = true
  closed : endsOpen words = false

/-! ### Clauses -/

/-- An entry of a list of names. -/
inductive Entry where
  /-- `a` -/
  | same (a : Name)
  /-- `a as b` -/
  | renamed (a : Name) (as : Soft) (b : Name)
  /-- `default as b` -/
  | default (gap : String) (as : Soft) (b : Name)
  /-- `type T` -/
  | ofType (type : Soft) (t : Name)
  /-- `type T as U` -/
  | ofRenamedType (type : Soft) (t : Name) (as : Soft) (u : Name)

namespace Entry

def words : Entry → List Word
  | same a => [a.word]
  | renamed a as b => [a.word, as.word "as", b.word]
  | default gap as b => [.keyword "default" gap, as.word "as", b.word]
  | ofType type t => [type.word "type", t.word]
  | ofRenamedType type t as u => [type.word "type", t.word, as.word "as", u.word]

/-- The name before and the name after; types have none. -/
def names? : Entry → Option (String × String)
  | same a => some (a.text, a.text)
  | renamed a _ b => some (a.text, b.text)
  | default _ _ b => some ("default", b.text)
  | ofType .. | ofRenamedType .. => none

end Entry

/-- Entries in braces, each with a comma after it but for one that may end the list. -/
structure NameList where
  opened : String
  entries : List (Entry × String)
  last : Option Entry
  closed : String

namespace NameList

/-- What stands between the braces. -/
def inner (l : NameList) : List Word :=
  l.entries.flatMap (fun e => e.1.words ++ [.mark "," e.2]) ++ l.last.elim [] Entry.words

def words (l : NameList) : List Word :=
  .mark "\x7b" l.opened :: (l.inner ++ [.mark "\x7d" l.closed])

def names (l : NameList) : List (String × String) :=
  (l.entries.map (·.1) ++ l.last.toList).filterMap Entry.names?

end NameList

/-- The declarator that binds the default export of a module. -/
def defaultDeclarator (module name : String) : String :=
  name ++ " = __codemod_importDefault(" ++ module ++ ")"

/-- The pattern property for a name and the name it is bound to. -/
def property (n : String × String) : String := if n.1 = n.2 then n.2 else n.1 ++ ": " ++ n.2

/-- Default exports are bound one by one, all else by one pattern. -/
def NameList.declarators (l : NameList) (module : String) : List String :=
  let named := l.names.filter (·.1 ≠ "default")
  (l.names.filter (·.1 = "default")).map (fun n => defaultDeclarator module n.2) ++
    if named.isEmpty then []
    else ["\x7b " ++ ", ".intercalate (named.map property) ++ " \x7d = " ++ module]

/-- What an import binds. -/
inductive Clause where
  /-- `d` -/
  | single (d : Name)
  /-- `* as ns` -/
  | whole (star : String) (as : Soft) (ns : Name)
  | listed (l : NameList)
  /-- `d, {..}` -/
  | singleListed (d : Name) (comma : String) (l : NameList)
  /-- `d, * as ns` -/
  | singleWhole (d : Name) (comma star : String) (as : Soft) (ns : Name)

namespace Clause

def words : Clause → List Word
  | single d => [d.word]
  | whole star as ns => [.mark "*" star, as.word "as", ns.word]
  | listed l => l.words
  | singleListed d comma l => d.word :: .mark "," comma :: l.words
  | singleWhole d comma star as ns =>
    [d.word, .mark "," comma, .mark "*" star, as.word "as", ns.word]

def declarators (module : String) : Clause → List String
  | single d => [defaultDeclarator module d.text]
  | whole _ _ ns => [ns.text ++ " = " ++ module]
  | listed l => l.declarators module
  | singleListed d _ l => defaultDeclarator module d.text :: l.declarators module
  | singleWhole d _ _ _ ns => [defaultDeclarator module d.text, ns.text ++ " = " ++ module]

end Clause

/-- `from "m";` -/
structure Origin where
  link : Soft
  source : Literal
  semicolon : String

namespace Origin

def words (o : Origin) : List Word :=
  [o.link.word "from", o.source.word, .mark ";" o.semicolon]

def required (o : Origin) : String := "require(" ++ o.source.text ++ ")"

/-- What stays behind the source. -/
def rest (o : Origin) : String := o.source.gap ++ ";" ++ o.semicolon

end Origin

/-- The head of a declaration that binds a name. -/
inductive Head where
  /-- `[async] function[*] f` -/
  | ofFunction (async : Option Soft) (gap : String) (star : Option String) (f : Name)
  /-- `class C` -/
  | ofClass (gap : String) (c : Name)

namespace Head

def words : Head → List Word
  | ofFunction async gap star f =>
    async.toList.map (·.word "async") ++
      .keyword "function" gap :: (star.toList.map (.mark "*") ++ [f.word])
  | ofClass gap c => [.keyword "class" gap, c.word]

def name : Head → String
  | ofFunction _ _ _ f => f.text
  | ofClass _ c => c.text

end Head

/-- Whether a name comes next, past an asterisk if there is one. -/
def bindsNext : List Word → Bool
  | w :: ws => if w.text = "*" then ws.head?.any (·.kind = .identifier) else w.kind = .identifier
  | [] => false

/-- Whether some words begin with the head of a declaration. -/
def beginsDeclaration : List Word → Bool
  | w :: ws =>
    if w.text ∈ ["function", "class"] then bindsNext ws
    else w.text = "async" && ws.head?.any (·.text = "function") && bindsNext ws.tail
  | [] => false

/-! ### Statements -/

inductive Statement where
  /-- `import "m";` -/
  | importEffects (gap : String) (source : Literal) (semicolon : String)
  /-- `import .. from "m";` -/
  | importBindings (gap : String) (clause : Clause) (origin : Origin)
  /-- `import type {..} from "m";` -/
  | importTypes (gap : String) (type : Soft) (names : NameList) (origin : Origin)
  /-- `export default e;` -/
  | exportValue (gap default : String) (value : Stretch)
      (isValue : beginsDeclaration value.words = false) (semicolon : String)
  /-- `export default function f ..` and the like. -/
  | exportDefault (gap default : String) (head : Head) (body : Stretch)
  /-- `export function f ..` and the like. -/
  | exportDeclaration (gap : String) (head : Head) (body : Stretch)
  /-- `export const x = e;` and the like. -/
  | exportVariable (gap binder : String) (isBinder : binder ∈ ["const", "let", "var"])
      (binderGap : String) (name : Name) (equals : String) (value : Stretch) (semicolon : String)
  /-- `export {..};` -/
  | exportNames (gap : String) (names : NameList) (semicolon : String)
  /-- `export {..} from "m";` -/
  | exportFrom (gap : String) (names : NameList) (origin : Origin)
  /-- `export * from "m";` -/
  | exportAll (gap star : String) (origin : Origin)
  /-- `export * as ns from "m";` -/
  | exportWhole (gap star : String) (as : Soft) (ns : Name) (origin : Origin)
  /-- `export = e;` -/
  | exportAssign (gap equals : String) (value : Stretch) (semicolon : String)
  /-- `export type {..};` -/
  | exportTypes (gap : String) (type : Soft) (names : NameList) (semicolon : String)
  | other (body : Stretch)

namespace Statement

def words : Statement → List Word
  | importEffects gap source semicolon =>
    [.keyword "import" gap, source.word, .mark ";" semicolon]
  | importBindings gap clause origin => .keyword "import" gap :: (clause.words ++ origin.words)
  | importTypes gap type names origin =>
    .keyword "import" gap :: type.word "type" :: (names.words ++ origin.words)
  | exportValue gap default value _ semicolon =>
    .keyword "export" gap :: .keyword "default" default :: (value.words ++ [.mark ";" semicolon])
  | exportDefault gap default head body =>
    .keyword "export" gap :: .keyword "default" default :: (head.words ++ body.words)
  | exportDeclaration gap head body => .keyword "export" gap :: (head.words ++ body.words)
  | exportVariable gap binder _ binderGap name equals value semicolon =>
    .keyword "export" gap :: .keyword binder binderGap :: name.word :: .mark "=" equals ::
      (value.words ++ [.mark ";" semicolon])
  | exportNames gap names semicolon =>
    .keyword "export" gap :: (names.words ++ [.mark ";" semicolon])
  | exportFrom gap names origin => .keyword "export" gap :: (names.words ++ origin.words)
  | exportAll gap star origin => .keyword "export" gap :: .mark "*" star :: origin.words
  | exportWhole gap star as ns origin =>
    .keyword "export" gap :: .mark "*" star :: as.word "as" :: ns.word :: origin.words
  | exportAssign gap equals value semicolon =>
    .keyword "export" gap :: .mark "=" equals :: (value.words ++ [.mark ";" semicolon])
  | exportTypes gap type names semicolon =>
    .keyword "export" gap :: type.word "type" :: (names.words ++ [.mark ";" semicolon])
  | other body => body.words

/-- What a statement becomes, where `n` modules have numbers already. -/
def lowered (n : Nat) : Statement → String
  | importEffects _ source semicolon =>
    "require(" ++ source.text ++ ")" ++ source.gap ++ ";" ++ semicolon
  | importBindings _ clause origin =>
    let module := "__import" ++ toString n
    "const " ++ ", ".intercalate
      ((module ++ " = " ++ origin.required) :: clause.declarators module) ++ origin.rest
  | importTypes _ _ _ origin => origin.semicolon
  | exportValue _ default value _ semicolon =>
    "module.exports.default =" ++ default ++ spelling value.words ++ ";" ++ semicolon
  | exportDefault _ default head body => default ++ spelling (head.words ++ body.words)
  | exportDeclaration _ head body => spelling (head.words ++ body.words)
  | exportVariable _ binder _ binderGap name equals value semicolon =>
    binder ++ binderGap ++ name.text ++ name.gap ++ "=" ++ equals ++ spelling value.words ++ ";" ++
      semicolon
  | exportNames _ _ semicolon => semicolon
  | exportFrom _ names origin =>
    "__codemod_reexport(module.exports, " ++ origin.required ++ ", [" ++
      ", ".intercalate (names.names.map fun n => "[\"" ++ n.1 ++ "\", \"" ++ n.2 ++ "\"]") ++
      "])" ++ origin.rest
  | exportAll _ _ origin =>
    "__codemod_reexport(module.exports, " ++ origin.required ++ ", null)" ++ origin.rest
  | exportWhole _ _ _ ns origin =>
    "module.exports." ++ ns.text ++ " = " ++ origin.required ++ origin.rest
  | exportAssign _ equals value semicolon =>
    "module.exports =" ++ equals ++ spelling value.words ++ ";" ++ semicolon
  | exportTypes _ _ _ semicolon => semicolon
  | other body => spelling body.words

/-- The lines that are left for the end of the program. -/
def deferred : Statement → List String
  | exportDefault _ _ head _ => ["module.exports.default = " ++ head.name ++ ";"]
  | exportDeclaration _ head _ => ["module.exports." ++ head.name ++ " = " ++ head.name ++ ";"]
  | exportVariable _ _ _ _ name _ _ _ =>
    ["module.exports." ++ name.text ++ " = " ++ name.text ++ ";"]
  | exportNames _ names _ =>
    names.names.map fun n => "module.exports." ++ n.2 ++ " = " ++ n.1 ++ ";"
  | _ => []

/-- Whether a statement gives a number to a module. -/
def isNumbered : Statement → Bool
  | importBindings .. => true
  | _ => false

/-- Whether a statement belongs to the module syntax. -/
def isModule : Statement → Bool
  | other _ => false
  | _ => true

end Statement

/-- The statements of a program one after the other, from the `n`-th module on. -/
def loweredFrom (n : Nat) : List Statement → String
  | [] => ""
  | s :: p => s.lowered n ++ loweredFrom (if s.isNumbered then n + 1 else n) p

/-- Lines put after some code, each with an end of its own. -/
def withLines (code : String) (lines : List String) : String :=
  if lines = [] then code
  else
    (if code.toList.getLast? = some '\n' then code else code ++ "\n") ++
      String.join (lines.map (· ++ "\n"))

end Retouch.Lower
