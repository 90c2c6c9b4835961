import Retouch.Toml.Quoted
import Retouch.Toml.Tree

/-! Reading a configuration: statements line by line, then the tree they make. -/

namespace Retouch.Toml

/-- Values nest less deep than this, and dotted keys have fewer parts. -/
def maxDepth : Nat := 80

def isBareKeyChar (c : Char) : Bool :=
  Text.isDigit c || Text.isAsciiLetter c || c = '-' || c = '_'

/-- One part of a key. -/
def keyPart? (cs : List Char) : Option (String × List Char) :=
  match cs with
  | '"' :: _ => (shortQuote? cs).map fun q => (String.ofList q.1, q.2)
  | '\'' :: _ => (shortQuote? cs).map fun q => (String.ofList q.1, q.2)
  | _ =>
    let word := cs.takeWhile isBareKeyChar
    if word.isEmpty then none else some (String.ofList word, cs.drop word.length)

def keyParts : Nat → List Char → Option (List String × List Char)
  | 0, _ => none
  | fuel + 1, cs =>
    (keyPart? (skipBlanks cs)).bind fun (part, rest) =>
      match skipBlanks rest with
      | '.' :: more => (keyParts fuel more).map fun (parts, rest') => (part :: parts, rest')
      | rest' => some ([part], rest')

/-- A dotted key with the blanks around it. -/
def key? (cs : List Char) : Option (List String × List Char) := keyParts (maxDepth - 1) cs

/-- Blanks, line ends and comments inside an array. -/
def skipGaps : Nat → List Char → List Char
  | 0, cs => cs
  | fuel + 1, cs =>
    match skipLines cs with
    | '#' :: rest =>
      match newline? (rest.dropWhile isPlain) with
      | some rest' => skipGaps fuel rest'
      | none => '#' :: rest
    | cs' => cs'

def gapsSkipped (cs : List Char) : List Char := skipGaps (cs.length + 1) cs

abbrev Reader := List Char → Option (Tree × List Char)

/-- The items of an array up to its closing bracket. -/
def arrayItems (value : Reader) : Nat → List Char → Option (List Tree × List Char)
  | 0, _ => none
  | fuel + 1, cs =>
    match gapsSkipped cs with
    | ']' :: rest => some ([], rest)
    | cs' =>
      (value cs').bind fun (v, rest) =>
        match gapsSkipped rest with
        | ',' :: more => (arrayItems value fuel more).map fun (vs, rest') => (v :: vs, rest')
        | ']' :: rest' => some ([v], rest')
        | _ => none

/-- A key, the equals sign and a value. -/
def pair? (value : Reader) (cs : List Char) : Option (List String × Tree × List Char) :=
  (key? cs).bind fun (key, rest) =>
    match rest with
    | '=' :: more => (value (skipBlanks more)).map fun (v, rest') => (key, v, rest')
    | _ => none

/-- The pairs of an inline table up to its closing brace. -/
def tablePairs (value : Reader) (fs : Fields) : Nat → List Char → Option (Fields × List Char)
  | 0, _ => none
  | fuel + 1, cs =>
    (pair? value cs).bind fun (key, v, rest) =>
      (assign fs key v).bind fun fs' =>
        match skipBlanks rest with
        | ',' :: more => tablePairs value fs' fuel more
        | '\x7d' :: rest' => some (fs', rest')
        | _ => none

/-- A value at the front of a text, of bounded depth. -/
def value : Nat → Reader
  | depth, cs =>
    match cs with
    | '"' :: _ => (quote? cs).map fun q => (.text (String.ofList q.1), q.2)
    | '\'' :: _ => (quote? cs).map fun q => (.text (String.ofList q.1), q.2)
    | '[' :: rest =>
      match depth with
      | 0 => none
      | depth + 1 => (arrayItems (value depth) (rest.length + 1) rest).map fun (vs, rest') =>
          (.array vs, rest')
    | '\x7b' :: rest =>
      match depth with
      | 0 => none
      | depth + 1 =>
        match skipBlanks rest with
        | '\x7d' :: rest' => some (.table .inline [], rest')
        | rest' => (tablePairs (value depth) [] (rest'.length + 1) rest').map fun (fs, rest'') =>
            (.table .inline fs, rest'')
    | _ => (afterScalar? cs).map fun rest => (.scalar, rest)

/-- The key of a header, between brackets that are already open. -/
def header? (closing : List Char) (cs : List Char) : Option (List String × List Char) :=
  (key? cs).bind fun (key, rest) =>
    if closing.isPrefixOf rest then
      (lineEnd? (rest.drop closing.length)).map fun rest' => (key, rest')
    else none

/-- The statements of a document. -/
def statements : Nat → List Char → Option (List Statement)
  | 0, _ => none
  | fuel + 1, cs =>
    match skipBlanks cs with
    | [] => some []
    | '[' :: '[' :: rest =>
      (header? [']', ']'] rest).bind fun (key, rest') =>
        (statements fuel rest').map (.repeated key :: ·)
    | '[' :: rest =>
      (header? [']'] rest).bind fun (key, rest') =>
        (statements fuel rest').map (.header key :: ·)
    | cs' =>
      match lineEnd? cs' with
      | some rest => statements fuel rest
      | none =>
        (pair? (value (maxDepth - 1)) cs').bind fun (key, v, rest) =>
          (lineEnd? rest).bind fun rest' =>
            (statements fuel rest').map (.assignment key v :: ·)

/-- The top level of a document. A byte order mark may stand before it. -/
def read (text : String) : Option Fields :=
  let cs := text.toList
  let cs := if cs.head? = some '\ufeff' then cs.drop 1 else cs
  (statements (cs.length + 1) cs).bind (build [] [])

end Retouch.Toml
