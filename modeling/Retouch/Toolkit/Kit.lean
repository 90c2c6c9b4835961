import Retouch.Syntax.Dialect
import Retouch.Toolkit.Node

/-! The toolkit that a script is given: a function that opens sources, bound to a dialect,
with builders for what can be put in the places of tokens. -/

namespace Retouch.Toolkit
open Syntax

/-- A toolkit bound to a dialect, which it knows by the name it was asked for. -/
structure Kit where
  parser : String
  dialect : Dialect
  deriving DecidableEq, Repr

namespace Kit

def ofDialect (d : Dialect) : Kit := ⟨d.name, d⟩

/-- The toolkit for a dialect by its name (`makeToolkit`). -/
def ofName (name : String) : Except Fault Kit :=
  match Dialect.ofName? name with
  | some d => .ok ⟨name, d⟩
  | none => .error (.unknownParser name)

/-- The toolkit for whatever was given as a name. -/
def ofValue (name : Value) : Except Fault Kit := do ofName (← properText (← textOf name))

end Kit

/-- The functions that make what can be put in a place (`j.identifier` and its like). -/
inductive Builder where
  | identifier
  | stringLiteral
  | numericLiteral
  | raw
  deriving DecidableEq, Repr

def Builder.build (b : Builder) (arg : Value) : Except Fault Value :=
  match b with
  | identifier => (textOf arg).map Toolkit.identifier
  | stringLiteral => (textOf arg).map Toolkit.stringLiteral
  | numericLiteral => (numberOf arg).map Toolkit.numericLiteral
  | raw => (textOf arg).map rawText

/-! ### Values as they are shown -/

/-- A value with the word for its kind. -/
def shown : Value → List String
  | .undefined => ["undefined"]
  | .null => ["null"]
  | v => [v.typeName, if v.isObject then v.toJson else (v.toWide?.map Wide.shown).getD ""]

def nodeTypes : List String :=
  ["Identifier", "Keyword", "NumericLiteral", "StringLiteral", "TemplateElement", "RegExpLiteral",
   "Punctuator", "JSXIdentifier", "JSXText", "Comment", "Whitespace"]

/-- A function of the toolkit, by its text. -/
def kitFunction (parameter body : String) : Builtin :=
  ⟨"function (" ++ parameter ++ ") \x7b\n      return " ++ body ++ ";\n    \x7d", true⟩

/-- The functions that a toolkit offers besides itself. -/
def kitFunctions : List (String × Builtin) :=
  [("withParser", kitFunction "name" "makeToolkit(String(name))"),
   ("identifier", kitFunction "name" "\x7b type: \"Identifier\", name: String(name) \x7d"),
   ("stringLiteral",
     kitFunction "value" "\x7b type: \"StringLiteral\", value: String(value) \x7d"),
   ("numericLiteral",
     kitFunction "value" "\x7b type: \"NumericLiteral\", value: Number(value) \x7d"),
   ("raw", kitFunction "text" "\x7b type: \"Raw\", raw: String(text) \x7d")]

namespace Kit

/-- What can be copied from a toolkit. -/
def fields (kit : Kit) : List (String × Member) :=
  nodeTypes.map (fun t => (t, .value (.text t))) ++ [("parser", .value (.text kit.parser))] ++
    kitFunctions.map fun f => (f.1, .function f.2)

/-- A toolkit is a function too, with what all functions have: a name, a number of
parameters, where it was defined, and two members that nobody may read. -/
def read? (kit : Kit) (key : String) : Except Fault (Option Member) :=
  match kit.fields.find? (·.1 = key) with
  | some f => .ok (some f.2)
  | none =>
    match key with
    | "name" => .ok (some (.value (.text "j")))
    | "length" => .ok (some (.value (.number (.ofNat 1))))
    | "prototype" => .ok (some (.value (.object [])))
    | "fileName" => .ok (some (.value (.text "eval_script")))
    | "lineNumber" => .ok (some (.value (.number (.ofNat 364))))
    | "columnNumber" => .ok (some (.value (.number (.ofNat 5))))
    | "caller" | "arguments" => .error .guarded
    | _ => .ok (Member.ofFunction? key)

/-- The text of the toolkit itself. -/
def text : String := "\n".intercalate
  ["function j(source) \x7b",
   "      if (typeof source !== \"string\") \x7b",
   "        throw new TypeError(\"j(source) expects a string, got \" + typeof source);",
   "      \x7d",
   "      var doc = new Document(source, parser);",
   "      return new Collection(",
   "        doc,",
   "        doc.records.map(function (_, i) \x7b",
   "          return i;",
   "        \x7d)",
   "      );",
   "    \x7d"]

end Kit

/-- A member as it is shown. -/
def shownMember : Option Member → List String
  | none => ["undefined"]
  | some (.value v) => shown v
  | some (.function f) => ["function", f.text]
  | some .commonBase => ["object", "\x7b\x7d"]
  | some .arrayBase => ["object", "[]"]

end Retouch.Toolkit
