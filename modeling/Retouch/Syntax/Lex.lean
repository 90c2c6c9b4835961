import Retouch.Syntax.Words
import Retouch.Syntax.Token

/-! Cutting source text into lexemes. Every scanner takes the text at the cursor and gives
the text that is left when it has read its lexeme. Malformed input is no exception: an
unterminated literal ends with its line or with the text, and a character that begins
nothing is a lexeme. No scanner says by itself that it gets anywhere; that each of them
leaves a shorter end of the text is proved, branch by branch, and the loop over the text
rests on it.

The context stack remembers what the open braces, substitutions and tags belong
to, because the same character reads differently inside each of them. -/

namespace Retouch.Syntax
open Retouch.Text

/-- What an open delimiter belongs to (`Context`). -/
inductive Context where
  /-- A brace in code. -/
  | brace
  /-- A substitution of a template literal. -/
  | substitution
  /-- A brace inside a tag or among the children of an element. -/
  | container
  /-- Between the angle brackets of a tag. -/
  | tag (closing : Bool)
  /-- Between an opening tag and its closing tag. -/
  | children
  deriving DecidableEq, Repr

/-! ### Scanners -/

/-- Pass over the characters with a property (`eat_while`). -/
def eatWhile (p : Char → Bool) (cs : List Char) : List Char := cs.dropWhile p

/-- Up to the mark that closes a block comment. -/
def seekCommentEnd : List Char → List Char
  | [] => []
  | '*' :: '/' :: r => '*' :: '/' :: r
  | _ :: r => seekCommentEnd r

/-- Past a block comment, both of its marks included. -/
def passComment (cs : List Char) : List Char := (seekCommentEnd (cs.drop 2)).drop 2

/-- Past the rest of a quoted string (`string`). A line feed ends it and is left, unless a
backslash stands before it. -/
def passQuoted (quote : Char) : List Char → List Char
  | [] => []
  | ['\\'] => []
  | '\\' :: _ :: r => passQuoted quote r
  | c :: r => if c = '\n' then c :: r else if c = quote then r else passQuoted quote r

/-- Past the rest of a template chunk, and whether a substitution opens at its end
(`template_chunk`). -/
def passChunk : List Char → List Char × Bool
  | [] => ([], false)
  | ['\\'] => ([], false)
  | '\\' :: _ :: r => passChunk r
  | '`' :: r => (r, false)
  | '$' :: '{' :: r => (r, true)
  | _ :: r => passChunk r

/-- Past the rest of the pattern of a regular expression, the closing slash included. A
slash inside a character class does not close it. -/
def passPattern (inClass : Bool) : List Char → List Char
  | [] => []
  | ['\\'] => []
  | '\\' :: _ :: r => passPattern inClass r
  | c :: r =>
    if c = '\n' then c :: r
    else if c = '[' then passPattern true r
    else if c = ']' then passPattern false r
    else if c = '/' && !inClass then r
    else passPattern inClass r

/-- Past a regular expression with its flags (`regex`). -/
def passRegex (cs : List Char) : List Char := eatWhile isNameChar (passPattern false cs.tail)

def isDigitOrGap (c : Char) : Bool := isDigit c || c == '_'

def passDigits (cs : List Char) : List Char := eatWhile isDigitOrGap cs

def passFraction : List Char → List Char
  | '.' :: r => passDigits r
  | cs => cs

/-- Past an exponent, which counts only when a digit follows its mark and sign. -/
def passExponent : List Char → List Char
  | e :: s :: r =>
    if e == 'e' || e == 'E' then
      if s == '+' || s == '-' then
        if r.head?.any isDigit then passDigits r else e :: s :: r
      else if isDigit s then passDigits (s :: r)
      else e :: s :: r
    else e :: s :: r
  | cs => cs

def passBigSuffix : List Char → List Char
  | 'n' :: r => r
  | cs => cs

def isRadixMark (c : Char) : Bool := c ∈ ['x', 'X', 'o', 'O', 'b', 'B']

def isRadixDigit (c : Char) : Bool := isAsciiLetter c || isDigit c || c == '_'

/-- Past a number (`number`). After a radix mark every letter and digit belongs to it,
whatever the radix. -/
def passNumber (cs : List Char) : List Char :=
  if cs.head? = some '0' && cs.tail.head?.any isRadixMark then eatWhile isRadixDigit (cs.drop 2)
  else passBigSuffix (passExponent (passFraction (passDigits cs)))

/-- The text between the cursor and what is left behind it. -/
def textBefore (cs rest : List Char) : List Char := cs.take (cs.length - rest.length)

/-! ### Choices that look at what stands around -/

/-- Whether an expression may begin after the lexeme `before` (`regex_allowed`); otherwise
a slash divides and an angle bracket compares. -/
def expressionMayBegin : Option Lexeme → Bool
  | none => true
  | some l =>
    match l.kind with
    | .punctuator => l.text ∉ [")", "]", "\x7d", "++", "--"]
    | .keyword => l.text ∉ valueWords
    | .template => ['$', '{'].isSuffixOf l.text.toList
    | _ => false

def isTagNameChar (c : Char) : Bool := isNameChar c || c == '-' || c == '.' || c == ':'

/-- Whether the angle bracket before `r` opens an element (`jsx_element_starts`). A name
that a comma or `extends` follows is a type parameter. -/
def elementBegins (before : Option Lexeme) (r : List Char) : Bool :=
  expressionMayBegin before &&
    match r with
    | [] => false
    | f :: _ =>
      f == '>' || (isNameStart f &&
        let tail := trimStart (r.dropWhile isTagNameChar)
        !([','].isPrefixOf tail || "extends ".toList.isPrefixOf tail))

/-- The operator at the front of `cs`. An optional chain before a digit is a
conditional operator and a number. -/
def operatorAt (cs : List Char) : Option String :=
  let chainBeforeDigit :=
    match cs with
    | '?' :: '.' :: d :: _ => isDigit d
    | _ => false
  operators.find? fun op => op.toList.isPrefixOf cs && !(chainBeforeDigit && op == "?.")

def wordKind (word : String) : Kind :=
  if word ∈ reserved then .keyword else .identifier

/-! ### One lexeme -/

/-- What the scanners make of the text at the cursor: the kind of its first lexeme, the
text that is left, and the contexts open then. -/
structure Reading where
  kind : Kind
  rest : List Char
  stack : List Context

/-- Braces in code open and close their own context. -/
def bracesAfter (stack : List Context) (c : Char) : List Context :=
  match c, stack with
  | '{', _ => .brace :: stack
  | '}', .brace :: outer => outer
  | _, _ => stack

/-- A punctuator (`punctuator`): the longest operator, or a single character. -/
def readPunctuator (stack : List Context) (c : Char) (r : List Char) : Reading :=
  match operatorAt (c :: r) with
  | some op => ⟨.punctuator, (c :: r).drop op.length, stack⟩
  | none => ⟨.punctuator, r, bracesAfter stack c⟩

/-- A template chunk, whose first character is passed. -/
def readChunk (stack : List Context) (r : List Char) : Reading :=
  let (rest, opens) := passChunk r
  ⟨.template, rest, if opens then .substitution :: stack else stack⟩

/-- The next lexeme of code (`next_kind`). -/
def readCode (elements : Bool) (before : Option Lexeme) (stack : List Context) (c : Char)
    (r : List Char) : Reading :=
  if isBlank c then ⟨.whitespace, eatWhile isBlank (c :: r), stack⟩
  else if c = '/' && ['/'].isPrefixOf r then ⟨.comment, eatWhile (· != '\n') (c :: r), stack⟩
  else if c = '/' && ['*'].isPrefixOf r then ⟨.comment, passComment (c :: r), stack⟩
  else if isNameStart c then
    let rest := eatWhile isNameChar (c :: r)
    ⟨wordKind (String.ofList (textBefore (c :: r) rest)), rest, stack⟩
  else if isDigit c || (c = '.' && r.head?.any isDigit) then
    ⟨.number, passNumber (c :: r), stack⟩
  else if c = '"' || c = '\'' then ⟨.string, passQuoted c r, stack⟩
  else if c = '`' then readChunk stack r
  else if c = '}' && stack.head? = some .substitution then readChunk stack.tail r
  else if c = '}' && stack.head? = some .container then ⟨.punctuator, r, stack.tail⟩
  else if c = '<' && elements && elementBegins before r then
    ⟨.punctuator, r, .tag false :: stack⟩
  else if c = '/' && expressionMayBegin before then ⟨.regex, passRegex (c :: r), stack⟩
  else readPunctuator stack c r

/-- The next lexeme inside a tag (`jsx_tag_kind`). Attribute strings have no escapes and
may span lines. -/
def readTag (closing : Bool) (outer : List Context) (c : Char) (r : List Char) : Reading :=
  let stack := .tag closing :: outer
  if isBlank c then ⟨.whitespace, eatWhile isBlank (c :: r), stack⟩
  else if c = '/' && ['*'].isPrefixOf r then ⟨.comment, passComment (c :: r), stack⟩
  else if isNameStart c then
    ⟨.jsxIdentifier, eatWhile (fun x => isNameChar x || x == '-') (c :: r), stack⟩
  else if c = '"' || c = '\'' then ⟨.string, (eatWhile (· != c) r).tail, stack⟩
  else if c = '{' then ⟨.punctuator, r, .container :: stack⟩
  else if c = '/' && ['>'].isPrefixOf r then ⟨.punctuator, r.tail, outer⟩
  else if c = '>' then ⟨.punctuator, r, if closing then outer else .children :: outer⟩
  else ⟨.punctuator, r, stack⟩

/-- The next lexeme among the children of an element (`jsx_children_kind`). A closing tag
ends them. -/
def readChildren (outer : List Context) (c : Char) (r : List Char) : Reading :=
  let stack := .children :: outer
  if c = '<' then
    let closing := ['/'].isPrefixOf (trimStart r)
    ⟨.punctuator, r, .tag closing :: (if closing then outer else stack)⟩
  else if c = '{' then ⟨.punctuator, r, .container :: stack⟩
  else
    let rest := eatWhile (fun x => x != '<' && x != '{') (c :: r)
    ⟨if (textBefore (c :: r) rest).all isBlank then .whitespace else .jsxText, rest, stack⟩

/-- The next lexeme of a text that begins with `c`, in whatever context is open. -/
def read (elements : Bool) (before : Option Lexeme) (stack : List Context) (c : Char)
    (r : List Char) : Reading :=
  match stack with
  | .tag closing :: outer => readTag closing outer c r
  | .children :: outer => readChildren outer c r
  | _ => readCode elements before stack c r

/-! ### Progress -/

theorem seekCommentEnd_suffix (cs : List Char) : seekCommentEnd cs <:+ cs := by
  fun_induction seekCommentEnd cs with
  | case1 => exact List.suffix_rfl
  | case2 => exact List.suffix_rfl
  | case3 c r _ ih => exact ih.trans (List.suffix_cons c r)

theorem passComment_suffix (c : Char) (r : List Char) : passComment (c :: r) <:+ r :=
  (List.drop_suffix _ _).trans ((seekCommentEnd_suffix _).trans (List.drop_suffix 1 r))

theorem passQuoted_suffix (quote : Char) (cs : List Char) : passQuoted quote cs <:+ cs := by
  fun_induction passQuoted quote cs with
  | case1 => exact List.suffix_rfl
  | case2 => exact List.nil_suffix
  | case3 c r ih => exact ih.trans ((List.suffix_cons c r).trans (List.suffix_cons _ _))
  | case4 => exact List.suffix_rfl
  | case5 r => exact List.suffix_cons _ _
  | case6 c r _ _ _ _ ih => exact ih.trans (List.suffix_cons c r)

theorem passChunk_suffix (cs : List Char) : (passChunk cs).1 <:+ cs := by
  fun_induction passChunk cs with
  | case1 => exact List.suffix_rfl
  | case2 => exact List.nil_suffix
  | case3 c r ih => exact ih.trans ((List.suffix_cons c r).trans (List.suffix_cons _ _))
  | case4 r => exact List.suffix_cons _ _
  | case5 r => exact (List.suffix_cons _ _).trans (List.suffix_cons _ _)
  | case6 c r _ _ _ _ ih => exact ih.trans (List.suffix_cons c r)

theorem passPattern_suffix (inClass : Bool) (cs : List Char) : passPattern inClass cs <:+ cs := by
  fun_induction passPattern inClass cs with
  | case1 => exact List.suffix_rfl
  | case2 => exact List.nil_suffix
  | case3 _ c r ih => exact ih.trans ((List.suffix_cons c r).trans (List.suffix_cons _ _))
  | case4 => exact List.suffix_rfl
  | case5 _ r _ _ _ ih => exact ih.trans (List.suffix_cons _ r)
  | case6 _ r _ _ _ _ ih => exact ih.trans (List.suffix_cons _ r)
  | case7 _ c r => exact List.suffix_cons c r
  | case8 _ c r _ _ _ _ _ _ ih => exact ih.trans (List.suffix_cons c r)

theorem eatWhile_suffix (p : Char → Bool) (cs : List Char) : eatWhile p cs <:+ cs :=
  List.dropWhile_suffix p

/-- A character with the property is passed. -/
theorem eatWhile_suffix_of_pos (p : Char → Bool) {c : Char} (h : p c = true) (r : List Char) :
    eatWhile p (c :: r) <:+ r := by
  rw [eatWhile, List.dropWhile_cons_of_pos h]
  exact List.dropWhile_suffix p

theorem passFraction_suffix (cs : List Char) : passFraction cs <:+ cs := by
  unfold passFraction
  split
  · exact (eatWhile_suffix _ _).trans (List.suffix_cons _ _)
  · exact List.suffix_rfl

theorem passExponent_suffix (cs : List Char) : passExponent cs <:+ cs := by
  unfold passExponent
  split
  · rename_i e s r
    have hmark : s :: r <:+ e :: s :: r := List.suffix_cons e _
    split
    · split
      · split
        · exact (eatWhile_suffix _ r).trans ((List.suffix_cons s r).trans hmark)
        · exact List.suffix_rfl
      · split
        · exact (eatWhile_suffix _ _).trans hmark
        · exact List.suffix_rfl
    · exact List.suffix_rfl
  · exact List.suffix_rfl

theorem passBigSuffix_suffix (cs : List Char) : passBigSuffix cs <:+ cs := by
  unfold passBigSuffix
  split
  · exact List.suffix_cons _ _
  · exact List.suffix_rfl

/-- A number takes its first character: a digit with the digits, or the point before a
digit with the fraction. -/
theorem passNumber_suffix {c : Char} {r : List Char}
    (h : (isDigit c || (c = '.' && r.head?.any isDigit)) = true) : passNumber (c :: r) <:+ r := by
  unfold passNumber
  split
  · exact (eatWhile_suffix _ _).trans (List.drop_suffix 1 r)
  · refine (passBigSuffix_suffix _).trans ((passExponent_suffix _).trans ?_)
    by_cases hc : isDigit c = true
    · refine (passFraction_suffix _).trans (eatWhile_suffix_of_pos isDigitOrGap ?_ r)
      simp [isDigitOrGap, hc]
    · obtain rfl : c = '.' := by simp_all
      have hpoint : passDigits ('.' :: r) = '.' :: r := by
        rw [passDigits, eatWhile, List.dropWhile_cons_of_neg (by decide)]
      rw [hpoint]
      exact eatWhile_suffix _ r

theorem operatorAt_ne_empty {cs : List Char} {op : String} (h : operatorAt cs = some op) :
    0 < op.length := by
  have hin : op ∈ operators := by
    unfold operatorAt at h
    exact List.mem_of_find?_eq_some h
  have hall : ∀ o ∈ operators, 0 < o.length := by decide
  exact hall op hin

theorem drop_suffix_tail {n : Nat} (h : 0 < n) (c : Char) (r : List Char) :
    (c :: r).drop n <:+ r := by
  obtain ⟨m, rfl⟩ : ∃ m, n = m + 1 := ⟨n - 1, by omega⟩
  exact List.drop_suffix m r

theorem readPunctuator_suffix (stack : List Context) (c : Char) (r : List Char) :
    (readPunctuator stack c r).rest <:+ r := by
  unfold readPunctuator
  split
  · rename_i op hop
    exact drop_suffix_tail (operatorAt_ne_empty hop) c r
  · exact List.suffix_rfl

/-- What either branch of a choice leaves. -/
theorem ite_suffix {p : Prop} [Decidable p] {s t : Reading} {r : List Char}
    (hpos : p → s.rest <:+ r) (hneg : ¬ p → t.rest <:+ r) : (if p then s else t).rest <:+ r :=
  iteInduction (motive := fun u : Reading => u.rest <:+ r) hpos hneg

theorem readCode_suffix (elements : Bool) (before : Option Lexeme) (stack : List Context)
    (c : Char) (r : List Char) : (readCode elements before stack c r).rest <:+ r := by
  refine ite_suffix (fun hblank => eatWhile_suffix_of_pos isBlank hblank r) fun _ => ?_
  refine ite_suffix (fun hslash => ?_) fun _ => ?_
  · have hc : (c != '\n') = true := by
      obtain rfl : c = '/' := by simp_all
      decide
    exact eatWhile_suffix_of_pos (· != '\n') hc r
  refine ite_suffix (fun _ => passComment_suffix c r) fun _ => ?_
  refine ite_suffix (fun hname => ?_) fun _ => ?_
  · exact eatWhile_suffix_of_pos isNameChar (isNameChar_of_isNameStart hname) r
  refine ite_suffix (fun hnumber => passNumber_suffix hnumber) fun _ => ?_
  refine ite_suffix (fun _ => passQuoted_suffix c r) fun _ => ?_
  refine ite_suffix (fun _ => passChunk_suffix r) fun _ => ?_
  refine ite_suffix (fun _ => passChunk_suffix r) fun _ => ?_
  refine ite_suffix (fun _ => List.suffix_rfl) fun _ => ?_
  refine ite_suffix (fun _ => List.suffix_rfl) fun _ => ?_
  refine ite_suffix (fun _ => ?_) fun _ => readPunctuator_suffix stack c r
  exact (eatWhile_suffix _ _).trans (passPattern_suffix false r)

theorem readTag_suffix (closing : Bool) (outer : List Context) (c : Char) (r : List Char) :
    (readTag closing outer c r).rest <:+ r := by
  refine ite_suffix (fun hblank => eatWhile_suffix_of_pos isBlank hblank r) fun _ => ?_
  refine ite_suffix (fun _ => passComment_suffix c r) fun _ => ?_
  refine ite_suffix (fun hstart => ?_) fun _ => ?_
  · have hname : (isNameChar c || c == '-') = true := by simp [isNameChar_of_isNameStart hstart]
    exact eatWhile_suffix_of_pos (fun x => isNameChar x || x == '-') hname r
  refine ite_suffix (fun _ => (List.tail_suffix _).trans (eatWhile_suffix _ r)) fun _ => ?_
  refine ite_suffix (fun _ => List.suffix_rfl) fun _ => ?_
  refine ite_suffix (fun _ => List.tail_suffix r) fun _ => ?_
  exact ite_suffix (fun _ => List.suffix_rfl) fun _ => List.suffix_rfl

theorem readChildren_suffix (outer : List Context) (c : Char) (r : List Char) :
    (readChildren outer c r).rest <:+ r := by
  refine ite_suffix (fun _ => List.suffix_rfl) fun hangle => ?_
  refine ite_suffix (fun _ => List.suffix_rfl) fun hbrace => ?_
  have hc : (c != '<' && c != '{') = true := by simp [hangle, hbrace]
  exact eatWhile_suffix_of_pos (fun x => x != '<' && x != '{') hc r

/-- In every context the lexeme takes the character at the cursor, and what is left is an
end of the text. -/
theorem read_suffix (elements : Bool) (before : Option Lexeme) (stack : List Context) (c : Char)
    (r : List Char) : (read elements before stack c r).rest <:+ r := by
  unfold read
  split
  · exact readTag_suffix _ _ c r
  · exact readChildren_suffix _ c r
  · exact readCode_suffix elements before _ c r

/-! ### The whole text -/

def lastSignificant (before : Option Lexeme) (l : Lexeme) : Option Lexeme :=
  if l.kind.isTrivia then before else some l

/-- The lexemes of a text (the loop `run`), where `before` is the last significant lexeme
so far. -/
def lex (elements : Bool) (before : Option Lexeme) (stack : List Context) :
    List Char → List Lexeme
  | [] => []
  | c :: r =>
    let s := read elements before stack c r
    let l : Lexeme := ⟨s.kind, String.ofList (textBefore (c :: r) s.rest)⟩
    l :: lex elements (lastSignificant before l) s.stack s.rest
termination_by cs => cs.length
decreasing_by exact Nat.lt_succ_of_le (read_suffix elements before stack c r).length_le

/-- What was read and what is left put together to the text. -/
theorem textBefore_append {cs rest : List Char} (h : rest <:+ cs) :
    textBefore cs rest ++ rest = cs := by
  obtain ⟨front, rfl⟩ := h
  simp [textBefore]

theorem textBefore_ne_nil {c : Char} {r rest : List Char} (h : rest <:+ r) :
    textBefore (c :: r) rest ≠ [] := by
  intro hnil
  have hlen := congrArg List.length (textBefore_append (h.trans (List.suffix_cons c r)))
  have hle := h.length_le
  rw [hnil, List.nil_append, List.length_cons] at hlen
  omega

theorem lex_texts (elements : Bool) (before : Option Lexeme) (stack : List Context)
    (cs : List Char) :
    (lex elements before stack cs).flatMap (fun l => l.text.toList) = cs := by
  fun_induction lex elements before stack cs with
  | case1 => rfl
  | case2 before stack c r s l ih =>
    have hrest : s.rest <:+ c :: r :=
      (read_suffix elements before stack c r).trans (List.suffix_cons c r)
    rw [List.flatMap_cons, ih, String.toList_ofList, textBefore_append hrest]

end Retouch.Syntax
