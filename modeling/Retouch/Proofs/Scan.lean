import Retouch.Syntax.Tokenize

/-! Lexemes by the number of their characters. What a scanner leaves is the text without a
number of characters, and that number can be told from the text alone. Counted so, a
lexeme is one character and some more, and the loop over the text cuts it into such
pieces. -/

namespace Retouch.Syntax
open Retouch.Text

/-- One lexeme: its kind, how many characters follow its first one, and the
contexts open after it. -/
structure Step where
  kind : Kind
  more : Nat
  stack : List Context

def run (p : Char → Bool) (cs : List Char) : Nat := (cs.takeWhile p).length

/-! ### Extents of literals and comments -/

/-- Length of a block comment past its opening mark. -/
def blockComment : List Char → Nat
  | [] => 0
  | '*' :: '/' :: _ => 2
  | _ :: r => 1 + blockComment r

/-- Length of a quoted string past its opening quote. A line feed ends it and
stays outside, unless a backslash stands before it. -/
def quoted (quote : Char) : List Char → Nat
  | [] => 0
  | ['\\'] => 1
  | '\\' :: _ :: r => 2 + quoted quote r
  | c :: r => if c = '\n' then 0 else if c = quote then 1 else 1 + quoted quote r

/-- Length of a template chunk past its first character, and whether a
substitution opens at its end. -/
def templateChunk : List Char → Nat × Bool
  | [] => (0, false)
  | ['\\'] => (1, false)
  | '\\' :: _ :: r => let (n, opens) := templateChunk r; (2 + n, opens)
  | '`' :: _ => (1, false)
  | '$' :: '{' :: _ => (2, true)
  | _ :: r => let (n, opens) := templateChunk r; (1 + n, opens)

/-- Length of the pattern of a regular expression past its opening slash, the
closing slash included. A slash inside a character class does not close it. -/
def regexBody (inClass : Bool) : List Char → Nat
  | [] => 0
  | ['\\'] => 1
  | '\\' :: _ :: r => 2 + regexBody inClass r
  | c :: r =>
    if c = '\n' then 0
    else if c = '[' then 1 + regexBody true r
    else if c = ']' then 1 + regexBody false r
    else if c = '/' && !inClass then 1
    else 1 + regexBody inClass r

/-- The pattern and the flags after it. -/
def regexLiteral (r : List Char) : Nat :=
  let n := regexBody false r
  n + run isNameChar (r.drop n)

/-- An exponent counts only when a digit follows its mark and sign. -/
def exponent : List Char → Nat
  | e :: s :: d :: r =>
    if (e == 'e' || e == 'E') && (s == '+' || s == '-') && isDigit d then 3 + run isDigitOrGap r
    else if (e == 'e' || e == 'E') && isDigit s then 2 + run isDigitOrGap (d :: r)
    else 0
  | [e, s] => if (e == 'e' || e == 'E') && isDigit s then 2 else 0
  | _ => 0

def fraction : List Char → Nat
  | '.' :: r => 1 + run isDigitOrGap r
  | _ => 0

def bigSuffix : List Char → Nat
  | 'n' :: _ => 1
  | _ => 0

/-- Length of a decimal number past its first character, which is a digit or
the point before a digit. -/
def decimalNumber (c : Char) (r : List Char) : Nat :=
  let whole := run isDigitOrGap r
  let frac := if c = '.' then 0 else fraction (r.drop whole)
  let expo := exponent (r.drop (whole + frac))
  whole + frac + expo + bigSuffix (r.drop (whole + frac + expo))

/-- Length of a number past its first character. After a radix mark every
letter and digit belongs to it, whatever the radix. -/
def numberLiteral (c : Char) (r : List Char) : Nat :=
  match r with
  | m :: rest =>
    if c = '0' && isRadixMark m then
      1 + run (fun x => isAsciiLetter x || isDigit x || x == '_') rest
    else decimalNumber c r
  | [] => 0

/-! ### One lexeme -/

/-- A punctuator: the longest operator, or a single character. -/
def punctuatorStep (stack : List Context) (c : Char) (r : List Char) : Step :=
  match operatorAt (c :: r) with
  | some op => ⟨.punctuator, op.length - 1, stack⟩
  | none => ⟨.punctuator, 0, bracesAfter stack c⟩

/-- The next lexeme of code. -/
def codeStep (elements : Bool) (before : Option Lexeme) (stack : List Context) (c : Char)
    (r : List Char) : Step :=
  if isBlank c then ⟨.whitespace, run isBlank r, stack⟩
  else if c = '/' && ['/'].isPrefixOf r then ⟨.comment, run (· != '\n') r, stack⟩
  else if c = '/' && ['*'].isPrefixOf r then ⟨.comment, 1 + blockComment r.tail, stack⟩
  else if isNameStart c then
    let n := run isNameChar r
    ⟨wordKind (String.ofList (c :: r.take n)), n, stack⟩
  else if isDigit c || (c = '.' && r.head?.any isDigit) then ⟨.number, numberLiteral c r, stack⟩
  else if c = '"' || c = '\'' then ⟨.string, quoted c r, stack⟩
  else if c = '`' then
    let (n, opens) := templateChunk r
    ⟨.template, n, if opens then .substitution :: stack else stack⟩
  else if c = '}' && stack.head? = some .substitution then
    let (n, opens) := templateChunk r
    ⟨.template, n, if opens then .substitution :: stack.tail else stack.tail⟩
  else if c = '}' && stack.head? = some .container then ⟨.punctuator, 0, stack.tail⟩
  else if c = '<' && elements && elementBegins before r then
    ⟨.punctuator, 0, .tag false :: stack⟩
  else if c = '/' && expressionMayBegin before then ⟨.regex, regexLiteral r, stack⟩
  else punctuatorStep stack c r

/-- The next lexeme inside a tag. Attribute strings have no escapes and may
span lines. -/
def tagStep (closing : Bool) (outer : List Context) (c : Char) (r : List Char) : Step :=
  let stack := .tag closing :: outer
  if isBlank c then ⟨.whitespace, run isBlank r, stack⟩
  else if c = '/' && ['*'].isPrefixOf r then ⟨.comment, 1 + blockComment r.tail, stack⟩
  else if isNameStart c then ⟨.jsxIdentifier, run (fun x => isNameChar x || x == '-') r, stack⟩
  else if c = '"' || c = '\'' then ⟨.string, run (· != c) r + 1, stack⟩
  else if c = '{' then ⟨.punctuator, 0, .container :: stack⟩
  else if c = '/' && ['>'].isPrefixOf r then ⟨.punctuator, 1, outer⟩
  else if c = '>' then ⟨.punctuator, 0, if closing then outer else .children :: outer⟩
  else ⟨.punctuator, 0, stack⟩

/-- The next lexeme among the children of an element. A closing tag ends them. -/
def childrenStep (outer : List Context) (c : Char) (r : List Char) : Step :=
  let stack := .children :: outer
  if c = '<' then
    let closing := ['/'].isPrefixOf (trimStart r)
    ⟨.punctuator, 0, .tag closing :: (if closing then outer else stack)⟩
  else if c = '{' then ⟨.punctuator, 0, .container :: stack⟩
  else
    let n := run (fun x => x != '<' && x != '{') r
    ⟨if (c :: r.take n).all isBlank then .whitespace else .jsxText, n, stack⟩

def nextStep (elements : Bool) (before : Option Lexeme) (stack : List Context) (c : Char)
    (r : List Char) : Step :=
  match stack with
  | .tag closing :: outer => tagStep closing outer c r
  | .children :: outer => childrenStep outer c r
  | _ => codeStep elements before stack c r

/-- The lexeme that a step takes. -/
def Step.lexeme (s : Step) (c : Char) (r : List Char) : Lexeme :=
  ⟨s.kind, String.ofList (c :: r.take s.more)⟩

/-! ### The whole text -/

/-- The lexemes of `cs`, cut off by their numbers of characters. -/
def scan (elements : Bool) (before : Option Lexeme) (stack : List Context) :
    List Char → List Lexeme
  | [] => []
  | c :: r =>
    let s := nextStep elements before stack c r
    let l : Lexeme := ⟨s.kind, String.ofList (c :: r.take s.more)⟩
    l :: scan elements (lastSignificant before l) s.stack (r.drop s.more)
termination_by cs => cs.length
decreasing_by
  simp only [List.length_drop, List.length_cons]
  omega

/-- What holds of every lexeme as it is cut off holds of the lexemes of a text. -/
theorem scan_forall {elements : Bool} {P : Lexeme → Prop}
    (h : ∀ before stack c r, P ((nextStep elements before stack c r).lexeme c r))
    (before : Option Lexeme) (stack : List Context) (cs : List Char) :
    ∀ l ∈ scan elements before stack cs, P l := by
  fun_induction scan elements before stack cs with
  | case1 => exact List.forall_mem_nil P
  | case2 before stack c r s l ih => exact List.forall_mem_cons.mpr ⟨h before stack c r, ih⟩

/-! ### The two loops agree -/

theorem eatWhile_eq (p : Char → Bool) (cs : List Char) : eatWhile p cs = cs.drop (run p cs) := by
  induction cs with
  | nil => rfl
  | cons c r ih =>
    unfold eatWhile run at ih ⊢
    by_cases h : p c = true
    · rw [List.dropWhile_cons_of_pos h, List.takeWhile_cons_of_pos h, ih]
      rfl
    · rw [List.dropWhile_cons_of_neg h, List.takeWhile_cons_of_neg h]
      rfl

theorem eatWhile_cons (p : Char → Bool) {c : Char} (h : p c = true) (r : List Char) :
    eatWhile p (c :: r) = r.drop (run p r) := by
  rw [← eatWhile_eq, eatWhile, List.dropWhile_cons_of_pos h, eatWhile]

theorem drop_one_add (n : Nat) (c : Char) (r : List Char) : (c :: r).drop (1 + n) = r.drop n := by
  rw [Nat.add_comm, List.drop_succ_cons]

theorem drop_two_add (n : Nat) (c c' : Char) (r : List Char) :
    (c :: c' :: r).drop (2 + n) = r.drop n := by
  rw [Nat.add_comm, List.drop_succ_cons, List.drop_succ_cons]

theorem seekCommentEnd_eq (cs : List Char) :
    (seekCommentEnd cs).drop 2 = cs.drop (blockComment cs) := by
  fun_induction blockComment cs with
  | case1 => rfl
  | case2 => rfl
  | case3 c r h ih => rw [seekCommentEnd.eq_3 c r h, ih, drop_one_add]

theorem passComment_eq {c : Char} {r : List Char} (h : r ≠ []) :
    passComment (c :: r) = r.drop (1 + blockComment r.tail) := by
  obtain ⟨c', r', rfl⟩ := List.exists_cons_of_ne_nil h
  rw [drop_one_add]
  exact seekCommentEnd_eq r'

theorem passQuoted_eq (quote : Char) (cs : List Char) :
    passQuoted quote cs = cs.drop (quoted quote cs) := by
  fun_induction quoted quote cs with
  | case1 => rfl
  | case2 => rfl
  | case3 c r ih => rw [passQuoted, ih, drop_two_add]
  | case4 r => rfl
  | case5 r hlast hescape hline => 
    rw [passQuoted, if_neg hline, if_pos rfl]
    · rfl
    · exact hlast
    · exact hescape
  | case6 c r hlast hescape hline hquote ih =>
    rw [passQuoted, if_neg hline, if_neg hquote, ih, drop_one_add]
    · exact hlast
    · exact hescape

theorem passChunk_eq (cs : List Char) :
    passChunk cs = (cs.drop (templateChunk cs).1, (templateChunk cs).2) := by
  fun_induction passChunk cs with
  | case1 => rfl
  | case2 => rfl
  | case3 c r ih => rw [templateChunk, ih, drop_two_add]
  | case4 r => rfl
  | case5 r => rfl
  | case6 c r hlast hescape htick hopen ih =>
    rw [templateChunk, ih, drop_one_add]
    · exact hlast
    · exact hescape
    · exact htick
    · exact hopen

theorem passPattern_eq (inClass : Bool) (cs : List Char) :
    passPattern inClass cs = cs.drop (regexBody inClass cs) := by
  fun_induction passPattern inClass cs with
  | case1 => rfl
  | case2 => rfl
  | case3 _ c r ih => rw [regexBody, ih, drop_two_add]
  | case4 => rfl
  | case5 _ r _ _ _ ih => rw [ih, ← drop_one_add]; rfl
  | case6 _ r _ _ _ _ ih => rw [ih, ← drop_one_add]; rfl
  | case7 _ c r hlast hescape hline hopen hclose hslash =>
    rw [regexBody, if_neg hline, if_neg hopen, if_neg hclose, if_pos hslash]
    · rfl
    · exact hlast
    · exact hescape
  | case8 _ c r hlast hescape hline hopen hclose hslash ih =>
    rw [regexBody, if_neg hline, if_neg hopen, if_neg hclose, if_neg hslash, ih, drop_one_add]
    · exact hlast
    · exact hescape

theorem passRegex_eq (c : Char) (r : List Char) : passRegex (c :: r) = r.drop (regexLiteral r) := by
  rw [passRegex, List.tail_cons, passPattern_eq, eatWhile_eq, List.drop_drop, regexLiteral]

theorem passFraction_eq (cs : List Char) : passFraction cs = cs.drop (fraction cs) := by
  fun_cases fraction cs with
  | case1 r => rw [drop_one_add, ← eatWhile_eq]; rfl
  | case2 => rw [passFraction.eq_2 cs (by assumption)]; rfl

theorem passBigSuffix_eq (cs : List Char) : passBigSuffix cs = cs.drop (bigSuffix cs) := by
  fun_cases bigSuffix cs with
  | case1 r => rfl
  | case2 => rw [passBigSuffix.eq_2 cs (by assumption)]; rfl

theorem passDigits_cons {d : Char} (h : isDigit d = true) (r : List Char) :
    passDigits (d :: r) = r.drop (run isDigitOrGap r) :=
  eatWhile_cons isDigitOrGap (by simp [isDigitOrGap, h]) r

/-- A sign is no digit, so the two forms of an exponent exclude each other. -/
theorem isDigit_sign {s : Char} (h : (s == '+' || s == '-') = true) : isDigit s = false := by
  rcases Bool.or_eq_true_iff.mp h with h | h <;> rw [beq_iff_eq.mp h] <;> rfl

theorem passExponent_eq (cs : List Char) : passExponent cs = cs.drop (exponent cs) := by
  obtain _ | ⟨e, _ | ⟨s, r⟩⟩ := cs
  · rfl
  · rfl
  · by_cases he : (e == 'e' || e == 'E') = true
    · by_cases hs : (s == '+' || s == '-') = true
      · have hdigit := isDigit_sign hs
        cases r with
        | nil => simp [passExponent, exponent, he, hs, hdigit]
        | cons d r =>
          by_cases hd : isDigit d = true
          · simp [passExponent, exponent, he, hs, hd, passDigits_cons hd, Nat.add_comm 3]
          · simp [passExponent, exponent, he, hs, hd, hdigit]
      · by_cases hd : isDigit s = true
        · cases r with
          | nil => simp [passExponent, exponent, he, hs, hd, passDigits_cons hd]
          | cons d r =>
            simp [passExponent, exponent, he, hs, hd, passDigits_cons hd, Nat.add_comm 2]
        · cases r <;> simp [passExponent, exponent, he, hs, hd]
    · cases r <;> simp [passExponent, exponent, he]

/-- A digit goes with the whole part of the number, a point before a digit with its
fraction. -/
theorem passDecimal_eq {c : Char} {r : List Char}
    (h : (isDigit c || (c = '.' && r.head?.any isDigit)) = true) :
    passBigSuffix (passExponent (passFraction (passDigits (c :: r)))) =
      r.drop (decimalNumber c r) := by
  have hfront : passFraction (passDigits (c :: r)) = r.drop (run isDigitOrGap r +
      if c = '.' then 0 else fraction (r.drop (run isDigitOrGap r))) := by
    by_cases hc : isDigit c = true
    · have hpoint : c ≠ '.' := by
        rintro rfl
        exact absurd hc (by decide)
      rw [passDigits_cons hc, passFraction_eq, if_neg hpoint, List.drop_drop]
    · obtain rfl : c = '.' := by simp_all
      have hpoint : passDigits ('.' :: r) = '.' :: r := by
        rw [passDigits, eatWhile, List.dropWhile_cons_of_neg (by decide)]
      rw [hpoint, if_pos rfl, Nat.add_zero]
      exact eatWhile_eq isDigitOrGap r
  rw [hfront, passExponent_eq, List.drop_drop, passBigSuffix_eq, List.drop_drop, decimalNumber]

theorem passNumber_eq {c : Char} {r : List Char}
    (h : (isDigit c || (c = '.' && r.head?.any isDigit)) = true) :
    passNumber (c :: r) = r.drop (numberLiteral c r) := by
  unfold passNumber
  rw [passDecimal_eq h]
  cases r with
  | nil => simp
  | cons m rest =>
    simp only [numberLiteral, List.head?_cons, List.tail_cons, Option.any_some,
      Option.some.injEq]
    by_cases hradix : (c = '0' && isRadixMark m) = true
    · rw [if_pos hradix, if_pos hradix, drop_one_add]
      exact eatWhile_eq isRadixDigit rest
    · rw [if_neg hradix, if_neg hradix]

theorem textBefore_drop (n : Nat) (c : Char) (r : List Char) :
    textBefore (c :: r) (r.drop n) = c :: r.take n := by
  have hlen : (c :: r).length - (r.drop n).length = min n r.length + 1 := by
    rw [List.length_drop, List.length_cons]
    omega
  rw [textBefore, hlen, List.take_succ_cons, ← List.take_eq_take_min]

/-- What a counted lexeme leaves of the text behind its first character. -/
def Step.reading (s : Step) (r : List Char) : Reading := ⟨s.kind, r.drop s.more, s.stack⟩

theorem ite_reading {p : Prop} [Decidable p] {u v : Reading} {s t : Step} {r : List Char}
    (hpos : p → u = s.reading r) (hneg : ¬ p → v = t.reading r) :
    (if p then u else v) = (if p then s else t).reading r := by
  by_cases h : p
  · rw [if_pos h, if_pos h, hpos h]
  · rw [if_neg h, if_neg h, hneg h]

theorem ne_nil_of_isPrefixOf {d : Char} {r : List Char} (h : [d].isPrefixOf r = true) : r ≠ [] := by
  rintro rfl
  simp at h

theorem readPunctuator_eq (stack : List Context) (c : Char) (r : List Char) :
    readPunctuator stack c r = (punctuatorStep stack c r).reading r := by
  cases hop : operatorAt (c :: r) with
  | some op =>
    have hlen : op.length = op.length - 1 + 1 := by
      have := operatorAt_ne_empty hop
      omega
    have hdrop : (c :: r).drop op.length = r.drop (op.length - 1) := by
      rw [hlen, List.drop_succ_cons]
      rfl
    simp only [readPunctuator, punctuatorStep, hop, hdrop, Step.reading]
  | none => simp only [readPunctuator, punctuatorStep, hop, Step.reading, List.drop_zero]

theorem readCode_eq (elements : Bool) (before : Option Lexeme) (stack : List Context) (c : Char)
    (r : List Char) : readCode elements before stack c r =
      (codeStep elements before stack c r).reading r := by
  refine ite_reading (fun hblank => ?_) fun _ => ?_
  · rw [eatWhile_cons isBlank hblank]
    rfl
  refine ite_reading (fun hslash => ?_) fun _ => ?_
  · have hc : (c != '\n') = true := by
      obtain rfl : c = '/' := by simp_all
      decide
    rw [eatWhile_cons (· != '\n') hc]
    rfl
  refine ite_reading (fun hslash => ?_) fun _ => ?_
  · rw [passComment_eq (ne_nil_of_isPrefixOf (Bool.and_eq_true_iff.mp hslash).2)]
    rfl
  refine ite_reading (fun hname => ?_) fun _ => ?_
  · show Reading.mk _ _ _ = _
    rw [eatWhile_cons isNameChar (isNameChar_of_isNameStart hname), textBefore_drop]
    rfl
  refine ite_reading (fun hnumber => ?_) fun _ => ?_
  · rw [passNumber_eq hnumber]
    rfl
  refine ite_reading (fun _ => ?_) fun _ => ?_
  · rw [passQuoted_eq]
    rfl
  refine ite_reading (fun _ => ?_) fun _ => ?_
  · rw [readChunk, passChunk_eq]
    rfl
  refine ite_reading (fun _ => ?_) fun _ => ?_
  · rw [readChunk, passChunk_eq]
    rfl
  refine ite_reading (fun _ => rfl) fun _ => ?_
  refine ite_reading (fun _ => rfl) fun _ => ?_
  refine ite_reading (fun _ => ?_) fun _ => readPunctuator_eq stack c r
  rw [passRegex_eq]
  rfl

theorem readTag_eq (closing : Bool) (outer : List Context) (c : Char) (r : List Char) :
    readTag closing outer c r = (tagStep closing outer c r).reading r := by
  refine ite_reading (fun hblank => ?_) fun _ => ?_
  · rw [eatWhile_cons isBlank hblank]
    rfl
  refine ite_reading (fun hslash => ?_) fun _ => ?_
  · rw [passComment_eq (ne_nil_of_isPrefixOf (Bool.and_eq_true_iff.mp hslash).2)]
    rfl
  refine ite_reading (fun hstart => ?_) fun _ => ?_
  · have hname : (isNameChar c || c == '-') = true := by simp [isNameChar_of_isNameStart hstart]
    rw [eatWhile_cons (fun x => isNameChar x || x == '-') hname]
    rfl
  refine ite_reading (fun _ => ?_) fun _ => ?_
  · rw [eatWhile_eq, List.tail_drop]
    rfl
  refine ite_reading (fun _ => rfl) fun _ => ?_
  refine ite_reading (fun _ => by rw [← List.drop_one]; rfl) fun _ => ?_
  exact ite_reading (fun _ => rfl) fun _ => rfl

theorem readChildren_eq (outer : List Context) (c : Char) (r : List Char) :
    readChildren outer c r = (childrenStep outer c r).reading r := by
  refine ite_reading (fun _ => rfl) fun hangle => ?_
  refine ite_reading (fun _ => rfl) fun hbrace => ?_
  have hc : (c != '<' && c != '{') = true := by simp [hangle, hbrace]
  show Reading.mk _ _ _ = _
  rw [eatWhile_cons (fun x => x != '<' && x != '{') hc, textBefore_drop]
  rfl

theorem read_eq (elements : Bool) (before : Option Lexeme) (stack : List Context) (c : Char)
    (r : List Char) :
    read elements before stack c r = (nextStep elements before stack c r).reading r := by
  obtain _ | ⟨x, outer⟩ := stack
  · exact readCode_eq elements before [] c r
  · cases x with
    | tag closing => exact readTag_eq closing outer c r
    | children => exact readChildren_eq outer c r
    | brace => exact readCode_eq elements before _ c r
    | substitution => exact readCode_eq elements before _ c r
    | container => exact readCode_eq elements before _ c r

/-- The lexemes that the scanners read are those cut off by their numbers of characters. -/
theorem lex_eq_scan (elements : Bool) (before : Option Lexeme) (stack : List Context)
    (cs : List Char) : lex elements before stack cs = scan elements before stack cs := by
  fun_induction scan elements before stack cs with
  | case1 => rw [lex]
  | case2 before stack c r s l ih =>
    rw [lex, read_eq]
    simp only [Step.reading, textBefore_drop]
    rw [ih]

theorem scan_texts (elements : Bool) (before : Option Lexeme) (stack : List Context)
    (cs : List Char) :
    (scan elements before stack cs).flatMap (fun l => l.text.toList) = cs := by
  rw [← lex_eq_scan, lex_texts]

theorem lexemes_eq (d : Dialect) (source : String) :
    lexemes d source = resolve d none (scan d.hasElements none [] source.toList) := by
  rw [lexemes, lex_eq_scan]

end Retouch.Syntax
