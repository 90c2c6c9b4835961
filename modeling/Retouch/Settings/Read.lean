import Retouch.Settings.Basic
import Retouch.Toml.Read

/-! Settings from a configuration text. Its only entry is `codemods`; fields that
are not given keep their defaults, and no others are known. -/

namespace Retouch
open Toml

/-- The word of a choice: a text, or a table whose one entry is empty. -/
def Toml.Tree.word? : Tree → Option String
  | .text s => some s
  | .table _ [(name, .table _ [])] => some name
  | .table _ [(name, .array [])] => some name
  | _ => none

def Toml.Tree.text? : Tree → Option String
  | .text s => some s
  | _ => none

/-- The items of an array, however it was written. -/
def Toml.Tree.items? : Tree → Option (List Tree)
  | .array items => some items
  | .tables items => some items.reverse
  | _ => none

def Discovery.ofName? : String → Option Discovery
  | "all" => some .all
  | "suffix" => some .suffix
  | _ => none

/-- Dialects by the names a setting may use. -/
def Settings.dialectOfName? : String → Option Syntax.Dialect
  | "js" => some .js
  | "jsx" => some .jsx
  | "ts" => some .ts
  | "tsx" => some .tsx
  | "babel" => some .jsx
  | "flow" => some .jsx
  | _ => none

namespace Settings

/-- Set one field. -/
def withField (s : Settings) (name : String) (t : Tree) : Option Settings :=
  match name with
  | "dir" => t.text?.map fun dir => { s with dir := .ofText dir }
  | "discovery" => (t.word?.bind Discovery.ofName?).map fun discovery => { s with discovery }
  | "suffix" => t.text?.map fun suffix => { s with suffix }
  | "extensions" =>
    (t.items?.bind fun items => items.mapM Tree.text?).map fun extensions => { s with extensions }
  | "parser" => (t.word?.bind dialectOfName?).map fun parser => { s with parser }
  | _ => none

def fieldNames : List String := ["dir", "discovery", "suffix", "extensions", "parser"]

def withFields (s : Settings) (fields : List (String × Tree)) : Option Settings :=
  fields.foldlM (fun s (name, t) => s.withField name t) s

/-- Settings from the `codemods` entry: a table of fields, or the fields in their
order. -/
def ofTree (t : Tree) : Option Settings :=
  match t with
  | .table _ fields => default.withFields fields
  | _ => t.items?.bind fun items => default.withFields (fieldNames.zip items)

/-- Settings from a configuration text (`CodemodConfig::parse`); `none` when there is a
fault in it. -/
def ofText (text : String) : Option Settings :=
  (Toml.read text).bind fun fields =>
    match fields with
    | [] => some default
    | [("codemods", t)] => ofTree t
    | _ => none

end Settings

end Retouch
