import Retouch.Json
import Retouch.Notation.Script

/-! How scripts are written: an object with the parts of a module as fields. An empty text
is an empty script. -/

namespace Retouch.Notation

def text? : Value → Option String
  | .text s => some s
  | _ => none

def items : Value → List Value
  | .array vs => vs
  | _ => []

def pair? : Value → Option (String × String)
  | .array [.text a, .text b] => some (a, b)
  | _ => none

def Special.ofName? : String → Option Special
  | "symbol" => some .symbol
  | "bigint" => some .bigint
  | "function" => some .function
  | "arrow" => some .arrow
  | "class" => some .constructor
  | "promise" => some .promise
  | "date" => some .date
  | "map" => some .map
  | "error" => some .error
  | "regexp" => some .regexp
  | "boxed" => some .boxed
  | _ => none

/-- Expressions that are a word. -/
def wordExpr? : String → Option Expr
  | "source" => some .source
  | "path" => some .path
  | "parser" => some .parser
  | "required_parser" => some .requiredParser
  | "filename" => some .filename
  | "dirname" => some .dirname
  | "line" => some .line
  | "column" => some .column
  | "count" => some .count
  | "reverse" => some .reverse
  | "token_types" => some .tokenTypes
  | _ => none

/-- Values that have no literal. -/
def specialExpr? : String → Option Expr
  | "undefined" => some (.literal .undefined)
  | "nan" => some (.literal (.number .nan))
  | "negzero" => some (.literal (.number .zero))
  | "infinity" => some (.literal (.number (.infinite false)))
  | "lone_surrogate" => some (.literal (.loose [0xD800]))
  | name => (Special.ofName? name).map .special

mutual

def expr? : Value → Option Expr
  | .text word => wordExpr? word
  | .object fields => fieldsExpr? fields fields
  | _ => none

/-- The expression that the first telling field among `fields` makes. -/
def fieldsExpr? (whole : List (String × Value)) : List (String × Value) → Option Expr
  | [] => none
  | ("lit", v) :: _ => some (.literal v)
  | ("var", .text name) :: _ => some (.binding name (text? (Value.lookup whole "get")))
  | ("cat", .array parts) :: _ => (exprs? parts).map .concat
  | ("rename", .array [.text a, .text b]) :: _ => some (.rename a b)
  | ("cursor", .text name) :: _ => some (.cursor name)
  | ("special", .text name) :: _ => specialExpr? name
  | _ :: rest => fieldsExpr? whole rest

def exprs? : List Value → Option (List Expr)
  | [] => some []
  | v :: vs =>
    match expr? v, exprs? vs with
    | some e, some es => some (e :: es)
    | _, _ => none

end

def statement? : Value → Option Statement
  | .array (.text "log" :: .text level :: args) => (exprs? args).map (.log level)
  | .array [.text "report", e] => (expr? e).map .report
  | .array [.text "stats", name] => (expr? name).map (.stats · none)
  | .array [.text "stats", name, quantity] =>
    match expr? name, expr? quantity with
    | some n, some q => some (.stats n (some q))
    | _, _ => none
  | .array [.text "throw", e] => (expr? e).map .throw
  | .array [.text "throw_error", _] => some (.throwError none)
  | .array [.text "throw_error", _, e] => (expr? e).map fun e => .throwError (some e)
  | .array [.text "return", e] => (expr? e).map .return
  | .array [.text "require", .text s] => some (.require s)
  | .array [.text "try_require", .text s] => some (.tryRequire s)
  | .array [.text "set_export", .text name, e] => (expr? e).map (.setExport name)
  | _ => none

def statements? (v : Value) : Option (List Statement) := (items v).mapM statement?

def import? (v : Value) : Option Import :=
  match v.member "from", (items (v.member "named")).mapM pair? with
  | .text specifier, some named =>
    some ⟨specifier, text? (v.member "default"), text? (v.member "ns"), named⟩
  | _, _ => none

def reexport? (v : Value) : Option Reexport :=
  match v.member "from", v.member "names", v.member "as" with
  | .text specifier, .array pairs, _ => (pairs.mapM pair?).map (.names specifier)
  | .text specifier, _, .text name => some (.whole specifier name)
  | .text specifier, _, _ => some (.all specifier)
  | _, _, _ => none

def export? : Value → Option (String × Expr)
  | .array [.text name, e] => (expr? e).map fun e => (name, e)
  | _ => none

def Role.ofName? : String → Option Role
  | "default" => some .default
  | "arrow" => some .arrow
  | "module" => some .module
  | "both" => some .both
  | "bare_with_data_default" => some .dataDefault
  | _ => none

/-- The main part; the outer `none` is a fault, the inner one a module without. -/
def main? (v : Value) : Option (Option Main) :=
  match v with
  | .undefined => some none
  | _ =>
    match v.member "as" with
    | .text "value" => (expr? (v.member "value")).map fun e => some (.value e)
    | .text name =>
      match Role.ofName? name, statements? (v.member "body") with
      | some role, some body => some (some (.function role body (v.member "async").truthy))
      | _, _ => none
    | _ => none

def Script.ofValue? (v : Value) : Option Script :=
  if (v.member "broken").truthy then none
  else
    match (items (v.member "imports")).mapM import?, statements? (v.member "load"),
        (items (v.member "exports")).mapM export?, (items (v.member "reexports")).mapM reexport?,
        main? (v.member "main") with
    | some imports, some load, some exports, some reexports, some main =>
      some ⟨(v.member "esm").truthy, imports, load, exports, reexports, main⟩
    | _, _, _, _, _ => none

/-- The script that a text holds; `none` when there is a fault in it. -/
def Script.ofText? (s : String) : Option Script :=
  if s.toList.all Text.isBlank then some .empty
  else
    match Json.read s with
    | some (.object fields) => Script.ofValue? (.object fields)
    | _ => none

end Retouch.Notation
