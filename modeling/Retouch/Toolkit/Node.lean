import Retouch.Syntax.Token
import Retouch.Text.Literal
import Retouch.Toolkit.Fault
import Retouch.Toolkit.Member

/-! Nodes: what a script sees of a token, and what it puts in a token's place. A
node is a record with a type, the token text and either a name or a value; a
script may assign any of its fields, and what it inherits from. -/

namespace Retouch.Toolkit
open Syntax

/-- The type of the node for a token of a kind (`node_type`). -/
def nodeType : Kind → String
  | .whitespace => "Whitespace"
  | .comment => "Comment"
  | .identifier => "Identifier"
  | .keyword => "Keyword"
  | .number => "NumericLiteral"
  | .string => "StringLiteral"
  | .template => "TemplateElement"
  | .regex => "RegExpLiteral"
  | .punctuator => "Punctuator"
  | .jsxIdentifier => "JSXIdentifier"
  | .jsxText => "JSXText"

/-- Whether nodes of a type have a name in place of a value (`hasName`). -/
def hasName (type : Value) : Bool :=
  match type with
  | .text s => s ∈ ["Identifier", "Keyword", "JSXIdentifier"]
  | _ => false

/-- The value of a string literal; one without a value stands for its text after
the opening quote. -/
def stringValue (text : String) : Value :=
  match text.toList with
  | [] => .text ""
  | quote :: rest =>
    match Text.literalUnits quote rest with
    | none => .text (String.ofList rest)
    | some units => .ofWide (.ofUnits units)

/-- The value of a numeric literal: gaps do not count, nor does a final `n`. -/
def numberValue (text : String) : Number :=
  let digits := text.toList.filter (· != '_')
  .ofText (String.ofList (if digits.getLast? = some 'n' then digits.dropLast else digits))

/-- What a token stands for (`literalValue`). -/
def tokenValue (kind : Kind) (text : String) : Value :=
  match kind with
  | .string => stringValue text
  | .number => .number (numberValue text)
  | _ => .text text

def placeValue (p : Place) : Value :=
  .object [("line", .number (.ofNat p.line)), ("column", .number (.ofNat p.column))]

/-- What a node inherits from. -/
inductive Base where
  /-- What all objects inherit from. -/
  | common
  | nothing
  | value (v : Value)
  deriving Repr

namespace Base

def read? : Base → String → Option Member
  | common, key => Member.common? .commonBase "Object" key
  | nothing, _ => none
  | value v, key =>
    match v.own? key with
    | some w => some (.value w)
    | none => Member.inherited? v (.value v) key

/-- Whether the key for the base reaches the base. -/
def isExposed : Base → Bool
  | common => true
  | nothing => false
  | value v => (v.own? baseKey).isNone

/-- The base after an assignment to it. Only structured data can be inherited from;
null leaves nothing to inherit. -/
def assign (b : Base) (v : Value) : Base :=
  match v with
  | .null => nothing
  | v => if v.isObject then value v else b

end Base

structure Node where
  fields : List (String × Value)
  base : Base
  deriving Repr

namespace Node

def empty : Node := ⟨[], .common⟩

/-- A member of a node, its own or inherited. -/
def read? (n : Node) (key : String) : Option Member :=
  match Value.lookup? n.fields key with
  | some v => some (.value v)
  | none => n.base.read? key

def get (n : Node) (key : String) : Value := ((n.read? key).bind Member.value?).getD .undefined

/-- The data under a key that a node has. -/
def get? (n : Node) (key : String) : Option Value := (n.read? key).map fun _ => n.get key

/-- Set a field of its own; a new field goes to the end. -/
def putField (n : Node) (key : String) (v : Value) : Node :=
  { n with fields :=
      if n.fields.any (·.1 = key) then n.fields.map fun f => if f.1 = key then (key, v) else f
      else n.fields ++ [(key, v)] }

/-- Assign a member. The key for the base changes the base, unless a field of that
name hides it. -/
def put (n : Node) (key : String) (v : Value) : Node :=
  if key = baseKey && (Value.lookup? n.fields key).isNone && n.base.isExposed then
    { n with base := n.base.assign v }
  else n.putField key v

def ofToken (t : Token) : Node :=
  let type := nodeType t.kind
  { fields :=
      [("type", .text type),
       ("loc", .object [("start", placeValue t.start), ("end", placeValue t.stop)]),
       ("raw", .text t.text),
       if hasName (.text type) then ("name", .text t.text)
       else ("value", tokenValue t.kind t.text)]
    base := .common }

end Node

/-! ### Rendering -/

/-- The text of a record by its type. A record of an unknown type is its value,
or else its raw text. -/
def renderRecord (get : String → Value) : Except Fault Wide :=
  match get "type" with
  | .text "Identifier" | .text "Keyword" | .text "JSXIdentifier" => textOf (get "name")
  | .text "StringLiteral" => (textOf (get "value")).map fun w => .text w.quote
  | .text "NumericLiteral" => textOf (get "value")
  | .text "Raw" => textOf (get "raw")
  | _ =>
    match get "value" with
    | .undefined =>
      match get "raw" with
      | .undefined => .ok (.text "")
      | raw => textOf raw
    | value => textOf value

mutual

/-- The text that a replacement prints as (`render`). -/
def render : Value → Except Fault Wide
  | .undefined | .null => .ok (.text "")
  | .text s => .ok (.text s)
  | .loose us => .ok (.loose us)
  | .array items => (renderAll items).map Wide.join
  | v => renderRecord v.member

def renderAll : List Value → Except Fault (List Wide)
  | [] => .ok []
  | v :: vs => do
    let w ← render v
    let ws ← renderAll vs
    return w :: ws

end

/-! ### Builders -/

def identifier (name : Wide) : Value :=
  .object [("type", .text "Identifier"), ("name", .ofWide name)]

def stringLiteral (w : Wide) : Value :=
  .object [("type", .text "StringLiteral"), ("value", .ofWide w)]

def numericLiteral (n : Number) : Value :=
  .object [("type", .text "NumericLiteral"), ("value", .number n)]

def rawText (w : Wide) : Value := .object [("type", .text "Raw"), ("raw", .ofWide w)]

end Retouch.Toolkit
