import Retouch.Toml.Scalar

/-! Blanks, line ends and quoted texts. Every reader gives what it read and what
follows it. -/

namespace Retouch.Toml

def isBlank (c : Char) : Bool := c = ' ' || c = '\t'

def skipBlanks (cs : List Char) : List Char := cs.dropWhile isBlank

/-- A character that may stand in a comment or a quoted text as it is. -/
def isPlain (c : Char) : Bool := c = '\t' || (' ' ≤ c && c ≠ '\x7f')

def newline? : List Char → Option (List Char)
  | '\n' :: rest => some rest
  | '\r' :: '\n' :: rest => some rest
  | _ => none

def skipComment : List Char → List Char
  | '#' :: rest => rest.dropWhile isPlain
  | cs => cs

/-- What follows the rest of a line that holds nothing more than a comment. -/
def lineEnd? (cs : List Char) : Option (List Char) :=
  match skipComment (skipBlanks cs) with
  | [] => some []
  | cs' => newline? cs'

/-- Blanks and line ends. -/
def skipLines : List Char → List Char
  | '\r' :: '\n' :: rest => skipLines rest
  | c :: rest => if isBlank c || c = '\n' then skipLines rest else c :: rest
  | [] => []

def hexValue (c : Char) : Nat :=
  if Text.isDigit c then c.toNat - '0'.toNat
  else if 'a' ≤ c then c.toNat - 'a'.toNat + 10
  else c.toNat - 'A'.toNat + 10

/-- A character given by a number of hexadecimal digits. -/
def hexChar? (count : Nat) (cs : List Char) : Option (Char × List Char) :=
  let ds := cs.take count
  if ds.length = count && ds.all isHexDigit then
    let code := ds.foldl (fun n d => n * 16 + hexValue d) 0
    if code.isValidChar then some (Char.ofNat code, cs.drop count) else none
  else none

/-- The character that an escape stands for, from behind the backslash. -/
def escaped? : List Char → Option (Char × List Char)
  | 'b' :: cs => some ('\x08', cs)
  | 't' :: cs => some ('\t', cs)
  | 'n' :: cs => some ('\n', cs)
  | 'f' :: cs => some ('\x0c', cs)
  | 'r' :: cs => some ('\r', cs)
  | '"' :: cs => some ('"', cs)
  | '\\' :: cs => some ('\\', cs)
  | 'u' :: cs => hexChar? 4 cs
  | 'U' :: cs => hexChar? 8 cs
  | _ => none

abbrev Quote := List Char × List Char

def Quote.cons (c : Char) (q : Quote) : Quote := (c :: q.1, q.2)

/-- The rest of a text in double quotes. -/
def basicBody : Nat → List Char → Option Quote
  | 0, _ => none
  | _, [] => none
  | fuel + 1, c :: rest =>
    if c = '"' then some ([], rest)
    else if c = '\\' then
      (escaped? rest).bind fun (d, rest') => (basicBody fuel rest').map (Quote.cons d)
    else if isPlain c then (basicBody fuel rest).map (Quote.cons c)
    else none

/-- Three quotes end a long text; up to two more right before them belong to it. -/
def longEnd (quote : Char) (rest : List Char) : Quote :=
  let extra := min 2 (rest.takeWhile (· = quote)).length
  (List.replicate extra quote, rest.drop extra)

/-- The rest of a text in three double quotes. A backslash at the end of a line
takes away the line end and all blanks after it. -/
def longBasicBody : Nat → List Char → Option Quote
  | 0, _ => none
  | _, [] => none
  | fuel + 1, c :: rest =>
    if "\"\"\"".toList.isPrefixOf (c :: rest) then some (longEnd '"' (rest.drop 2))
    else if c = '\\' then
      match newline? (skipBlanks rest) with
      | some rest' => longBasicBody fuel (skipLines rest')
      | none => (escaped? rest).bind fun (d, rest') => (longBasicBody fuel rest').map (Quote.cons d)
    else
      match newline? (c :: rest) with
      | some rest' => (longBasicBody fuel rest').map (Quote.cons '\n')
      | none => if isPlain c then (longBasicBody fuel rest).map (Quote.cons c) else none

/-- The rest of a text in three single quotes. -/
def longLiteralBody : List Char → Option Quote
  | '\'' :: '\'' :: '\'' :: rest => some (longEnd '\'' rest)
  | '\r' :: '\n' :: rest => (longLiteralBody rest).map (Quote.cons '\n')
  | c :: rest =>
    if c = '\n' || isPlain c then (longLiteralBody rest).map (Quote.cons c) else none
  | [] => none

/-- The rest of a text in single quotes. -/
def literalBody (cs : List Char) : Option Quote :=
  let body := cs.takeWhile fun c => isPlain c && c ≠ '\''
  match cs.drop body.length with
  | '\'' :: rest => some (body, rest)
  | _ => none

/-- A quoted text on one line. -/
def shortQuote? : List Char → Option Quote
  | '"' :: rest => basicBody (rest.length + 1) rest
  | '\'' :: rest => literalBody rest
  | _ => none

/-- A quoted text. The line end right after three opening quotes does not count. -/
def quote? (cs : List Char) : Option Quote :=
  if "\"\"\"".toList.isPrefixOf cs then
    let rest := cs.drop 3
    let body := (newline? rest).getD rest
    longBasicBody (body.length + 1) body
  else if "'''".toList.isPrefixOf cs then
    let rest := cs.drop 3
    longLiteralBody ((newline? rest).getD rest)
  else shortQuote? cs

end Retouch.Toml
