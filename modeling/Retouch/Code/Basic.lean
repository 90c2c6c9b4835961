import Retouch.Code.Bracket
import Retouch.Syntax.Words

/-! The significant tokens of a program, read by index. Past the end a token has
no kind and an empty text, so a look ahead needs no bound; what holds of a token
with a kind holds of an index in range. -/

namespace Retouch
open Syntax

structure Code where
  tokens : Array Token
  partners : Array (Option Nat)
  partners_eq : partners.toList = partnersFrom 0 tokens.toList

namespace Code

def ofTokens (ts : List Token) : Code :=
  ⟨ts.toArray, (partnersFrom 0 ts).toArray, by simp⟩

def size (c : Code) : Nat := c.tokens.size

def kind? (c : Code) (k : Nat) : Option Kind := c.tokens[k]?.map Token.kind

def text (c : Code) (k : Nat) : String := (c.tokens[k]?.map Token.text).getD ""

/-- The closing partner of the opening bracket at `k`. -/
def partner (c : Code) (k : Nat) : Option Nat := c.partners[k]?.join

def punct (c : Code) (k : Nat) (text : String) : Bool :=
  c.kind? k = some .punctuator && c.text k = text

def isName (c : Code) (k : Nat) : Bool :=
  c.kind? k = some .identifier || c.kind? k = some .keyword

def word (c : Code) (k : Nat) (text : String) : Bool := c.isName k && c.text k = text

/-- Whether token `k` starts on a later line than the token before it ends. -/
def freshLine (c : Code) (k : Nat) : Bool :=
  match c.tokens[k - 1]?, c.tokens[k]? with
  | some a, some b => a.stop.line < b.start.line
  | _, _ => false

/-- Whether token `k` starts on the very line where the token before it ends. -/
def sameLine (c : Code) (k : Nat) : Bool :=
  match c.tokens[k - 1]?, c.tokens[k]? with
  | some a, some b => a.stop.line = b.start.line
  | _, _ => false

/-- Whether nothing stands between token `k` and the token before it. -/
def adjacent (c : Code) (k : Nat) : Bool :=
  match c.tokens[k - 1]?, c.tokens[k]? with
  | some a, some b => a.stop.offset = b.start.offset
  | _, _ => false

/-- The first index from `k` on with the given punctuator. -/
def findPunct (c : Code) (k : Nat) (text : String) : Option Nat :=
  if h : k < c.size then
    if c.punct k text then some k else c.findPunct (k + 1) text
  else none
termination_by c.size - k

/-- The first token of a statement stands at the front, after a semicolon or a brace, or on
a line of its own (`statement_start`). -/
def startsStatement (c : Code) (k : Nat) : Bool :=
  k = 0 || c.text (k - 1) ∈ [";", "\x7b", "\x7d"] || c.freshLine k

/-- A template chunk that closes its literal. -/
def closesTemplate (text : String) : Bool :=
  1 < text.utf8ByteSize && ['`'].isSuffixOf text.toList

/-- Whether an expression can end with token `k` (`expression_end`). -/
def endsExpression (c : Code) (k : Nat) : Bool :=
  match c.kind? k with
  | some .identifier | some .number | some .string | some .regex => true
  | some .template => closesTemplate (c.text k)
  | some .keyword => c.text k ∈ valueWords
  | some .punctuator => c.text k ∈ [")", "]", "\x7d"]
  | _ => false

/-! ### Indices in range -/

theorem lt_size_of_kind? {c : Code} {k : Nat} {x : Kind} (h : c.kind? k = some x) :
    k < c.size := by
  simp only [kind?, Option.map_eq_some_iff] at h
  obtain ⟨t, ht, _⟩ := h
  exact (Array.getElem?_eq_some_iff.mp ht).1

theorem lt_size_of_punct {c : Code} {k : Nat} {s : String} (h : c.punct k s = true) :
    k < c.size := by
  simp only [punct, Bool.and_eq_true, decide_eq_true_eq] at h
  exact lt_size_of_kind? h.1

theorem lt_size_of_isName {c : Code} {k : Nat} (h : c.isName k = true) : k < c.size := by
  simp only [isName, Bool.or_eq_true, decide_eq_true_eq] at h
  rcases h with h | h <;> exact lt_size_of_kind? h

theorem lt_size_of_word {c : Code} {k : Nat} {s : String} (h : c.word k s = true) :
    k < c.size := by
  simp only [word, Bool.and_eq_true] at h
  exact lt_size_of_isName h.1

theorem lt_size_of_text {c : Code} {k : Nat} {s : String} (h : c.text k = s) (hs : s ≠ "") :
    k < c.size := by
  refine Nat.lt_of_not_le fun hle => hs ?_
  rw [← h, text, Array.getElem?_eq_none hle]
  rfl

theorem exists_token {c : Code} {k : Nat} (h : k < c.size) : ∃ t, c.tokens[k]? = some t :=
  ⟨_, Array.getElem?_eq_getElem h⟩

/-- The partner of an opener stands after it and in range. -/
theorem partner_bounds {c : Code} {k close : Nat} (h : c.partner k = some close) :
    k < close ∧ close < c.size := by
  simp only [partner, Option.join_eq_some_iff] at h
  rw [← Array.getElem?_toList, c.partners_eq] at h
  have := partnersFrom_bounds h
  simp only [Array.length_toList, size] at this ⊢
  omega

theorem findPunct_bounds {c : Code} {k i : Nat} {s : String} (h : c.findPunct k s = some i) :
    k ≤ i ∧ i < c.size := by
  fun_induction findPunct c k s with
  | case1 k hk hp => simp only [Option.some.injEq] at h; omega
  | case2 k hk hp ih => have := ih h; omega
  | case3 k hk => simp at h

end Code

end Retouch
