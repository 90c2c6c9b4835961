import Retouch.Proofs.Scan

/-! What the kind of a token says about its text and its neighbours. A word or a
literal is never spelled like a mark of punctuation, because its first character
is not one. A contextual word that is still a name stands where no keyword can
stand, and the test for that gives the same answer on the finished token list. -/

namespace Retouch.Syntax
open Retouch.Text

/-! ### First characters -/

/-- Whether a lexeme of a kind can begin with a character. -/
def Kind.canBegin : Kind → Char → Bool
  | .whitespace, c => isBlank c
  | .identifier, c | .keyword, c | .jsxIdentifier, c => isNameStart c
  | .number, c => isDigit c || c == '.'
  | .string, c => c == '"' || c == '\''
  | .template, c => c == '`' || c == '\x7d'
  | .comment, c | .regex, c => c == '/'
  | .punctuator, _ | .jsxText, _ => true

theorem canBegin_ite {p : Prop} [Decidable p] {x y : Step} {c : Char}
    (hx : p → x.kind.canBegin c = true) (hy : ¬ p → y.kind.canBegin c = true) :
    (if p then x else y).kind.canBegin c = true :=
  iteInduction (motive := fun s : Step => s.kind.canBegin c = true) hx hy

section
variable (closing elements : Bool) (before : Option Lexeme) (stack outer : List Context)
  (c : Char) (r : List Char)

theorem punctuatorStep_kind : (punctuatorStep stack c r).kind = .punctuator := by
  unfold punctuatorStep
  cases operatorAt (c :: r) <;> rfl

theorem codeStep_begins : (codeStep elements before stack c r).kind.canBegin c = true := by
  refine canBegin_ite (fun hblank => hblank) fun _ => ?_
  refine canBegin_ite (fun hline => by simp_all [Kind.canBegin]) fun _ => ?_
  refine canBegin_ite (fun hblock => by simp_all [Kind.canBegin]) fun _ => ?_
  refine canBegin_ite (fun hname => ?_) fun _ => ?_
  · dsimp only [wordKind]
    split <;> exact hname
  refine canBegin_ite (fun hdigit => ?_) fun _ => ?_
  · simp only [Bool.or_eq_true, Bool.and_eq_true, decide_eq_true_eq] at hdigit
    rcases hdigit with hdigit | ⟨rfl, -⟩
    · simp [Kind.canBegin, hdigit]
    · rfl
  refine canBegin_ite (fun hquote => by simpa [Kind.canBegin] using hquote) fun _ => ?_
  refine canBegin_ite (fun htick => by simp_all [Kind.canBegin]) fun _ => ?_
  refine canBegin_ite (fun hbrace => by simp_all [Kind.canBegin]) fun _ => ?_
  refine canBegin_ite (fun _ => rfl) fun _ => canBegin_ite (fun _ => rfl) fun _ => ?_
  refine canBegin_ite (fun hslash => by simp_all [Kind.canBegin]) fun _ => ?_
  rw [punctuatorStep_kind]
  rfl

theorem tagStep_begins : (tagStep closing outer c r).kind.canBegin c = true := by
  refine canBegin_ite (fun hblank => hblank) fun _ => ?_
  refine canBegin_ite (fun hblock => by simp_all [Kind.canBegin]) fun _ => ?_
  refine canBegin_ite (fun hname => hname) fun _ => ?_
  refine canBegin_ite (fun hquote => by simpa [Kind.canBegin] using hquote) fun _ => ?_
  refine canBegin_ite (fun _ => rfl) fun _ => canBegin_ite (fun _ => rfl) fun _ => ?_
  exact canBegin_ite (fun _ => rfl) fun _ => rfl

theorem childrenStep_begins : (childrenStep outer c r).kind.canBegin c = true := by
  refine canBegin_ite (fun _ => rfl) fun _ => canBegin_ite (fun _ => rfl) fun _ => ?_
  dsimp only
  split
  · rename_i hblank
    simp only [List.all_cons, Bool.and_eq_true] at hblank
    exact hblank.1
  · rfl

/-- Names stand in code only. -/
theorem tagStep_kind_ne : (tagStep closing outer c r).kind ≠ .identifier := by
  unfold tagStep
  repeat' split
  all_goals simp

theorem childrenStep_kind_ne : (childrenStep outer c r).kind ≠ .identifier := by
  unfold childrenStep
  split
  · simp
  · split
    · simp
    · dsimp only
      split <;> simp

theorem nextStep_begins : (nextStep elements before stack c r).kind.canBegin c = true := by
  unfold nextStep
  split
  · exact tagStep_begins _ _ c r
  · exact childrenStep_begins _ c r
  · exact codeStep_begins elements before _ c r

end

theorem canBegin_resolvedKind (d : Dialect) (before after : Option Lexeme) (l : Lexeme) :
    (resolvedKind d before l after).canBegin = l.kind.canBegin := by
  unfold resolvedKind
  split
  · rename_i hc
    simp only [Bool.and_eq_true, decide_eq_true_eq] at hc
    rw [hc.1.1]
    rfl
  · rfl

/-- The lexeme that a token was placed for. -/
def Token.lexeme (t : Token) : Lexeme := ⟨t.kind, t.text⟩

theorem placed_lexemes (p : Place) (ls : List Lexeme) :
    (placed p ls).map Token.lexeme = ls := by
  induction ls generalizing p with
  | nil => rfl
  | cons l ls ih => simp [placed, Token.lexeme, ih]

theorem resolve_begins {d : Dialect} {before : Option Lexeme} {ls : List Lexeme}
    (h : ∀ l ∈ ls, l.text.toList.head?.any l.kind.canBegin = true) :
    ∀ l ∈ resolve d before ls, l.text.toList.head?.any l.kind.canBegin = true := by
  induction ls generalizing before with
  | nil => exact List.forall_mem_nil _
  | cons l ls ih =>
    obtain ⟨hl, hls⟩ := List.forall_mem_cons.mp h
    refine List.forall_mem_cons.mpr ⟨?_, ih hls⟩
    rwa [canBegin_resolvedKind]

/-- The first character of a token is one that its kind can begin with. -/
theorem tokenize_begins {d : Dialect} {source : String} {t : Token} (h : t ∈ tokenize d source) :
    t.text.toList.head?.any t.kind.canBegin = true := by
  have hm : t.lexeme ∈ lexemes d source := by
    rw [← placed_lexemes .origin (lexemes d source)]
    exact List.mem_map_of_mem h
  rw [lexemes_eq] at hm
  refine resolve_begins (scan_forall (fun before stack c r => ?_) none [] _) _ hm
  simpa [Step.lexeme] using nextStep_begins d.hasElements before stack c r

/-- The kinds of words, numbers and strings. -/
def Kind.IsSpelled (k : Kind) : Prop :=
  k = .identifier ∨ k = .keyword ∨ k = .number ∨ k = .string

/-- Characters that begin a lexeme of such a kind. -/
def beginsSpelled (c : Char) : Bool :=
  isNameStart c || isDigit c || c == '.' || c == '"' || c == '\''

theorem tokenize_begins_spelled {d : Dialect} {source : String} {t : Token}
    (h : t ∈ tokenize d source) (hk : t.kind.IsSpelled) :
    t.text.toList.head?.any beginsSpelled = true := by
  obtain ⟨c, hc, hbegins⟩ := (Option.any_eq_true _ _).mp (tokenize_begins h)
  refine (Option.any_eq_true _ _).mpr ⟨c, hc, ?_⟩
  rcases hk with hk | hk | hk | hk <;> rw [hk] at hbegins <;>
    simp_all [Kind.canBegin, beginsSpelled, or_assoc]

/-! ### Spelling -/

/-- Marks that lists of parameters and bindings are read by. -/
def listMarks : List String := ["(", "[", "\x7b", ",", "=", "?", ":"]

theorem beginsSpelled_listMarks :
    ∀ m ∈ listMarks, m.toList.head?.any beginsSpelled = false := by
  decide

/-- Words, numbers and strings do not look like marks. -/
theorem tokenize_spelled {d : Dialect} {source : String} {t : Token} (h : t ∈ tokenize d source)
    (hk : t.kind.IsSpelled) : t.text ∉ listMarks := by
  intro hm
  have hmark := beginsSpelled_listMarks _ hm
  rw [tokenize_begins_spelled h hk] at hmark
  cases hmark

/-! ### Contextual words -/

/-- Every contextual word of a list of significant lexemes that is still a name
stands where no keyword can stand. -/
def Settled (d : Dialect) : Option Lexeme → List Lexeme → Prop
  | _, [] => True
  | before, l :: ls =>
    (l.kind = .identifier → d.isContextual l.text = true →
      keywordPosition before ls.head? = false) ∧ Settled d (some l) ls

def significantLexemes (ls : List Lexeme) : List Lexeme := ls.filter (!·.isTrivia)

theorem continuesClause_resolved (d : Dialect) (before after : Option Lexeme) (l : Lexeme) :
    continuesClause ⟨resolvedKind d before l after, l.text⟩ = continuesClause l := by
  unfold resolvedKind
  split
  · rename_i hc
    simp only [Bool.and_eq_true, decide_eq_true_eq] at hc
    simp [continuesClause, hc.1.1]
  · rfl

theorem isTrivia_resolved (d : Dialect) (before after : Option Lexeme) (l : Lexeme) :
    Lexeme.isTrivia ⟨resolvedKind d before l after, l.text⟩ = l.isTrivia := by
  unfold resolvedKind
  split
  · rename_i hc
    simp only [Bool.and_eq_true, decide_eq_true_eq] at hc
    simp [Lexeme.isTrivia, Kind.isTrivia, hc.1.1]
  · rfl

/-- What follows a word continues a clause before its kind is decided exactly
when it does so afterwards. -/
theorem continuesClause_resolve (d : Dialect) (before : Option Lexeme) (ls : List Lexeme) :
    (significantLexemes (resolve d before ls)).head?.any continuesClause =
      (firstSignificant ls).any continuesClause := by
  induction ls generalizing before with
  | nil => rfl
  | cons l ls ih =>
    unfold significantLexemes firstSignificant at ih ⊢
    rw [resolve, List.filter_cons, List.find?_cons, isTrivia_resolved]
    by_cases hl : l.isTrivia = true
    · simpa [hl] using ih _
    · simp [hl, continuesClause_resolved]

theorem resolve_settled (d : Dialect) (before : Option Lexeme) (ls : List Lexeme) :
    Settled d before (significantLexemes (resolve d before ls)) := by
  induction ls generalizing before with
  | nil => trivial
  | cons l ls ih =>
    unfold significantLexemes at ih ⊢
    rw [resolve, List.filter_cons, isTrivia_resolved]
    by_cases hl : l.isTrivia = true
    · simpa [hl] using ih before
    · simp only [hl, Bool.not_false, if_true, Bool.false_eq_true, if_false]
      refine ⟨fun hk hc => ?_, ih _⟩
      have ha := continuesClause_resolve d
        (some ⟨resolvedKind d before l (firstSignificant ls), l.text⟩) ls
      unfold significantLexemes at ha
      rw [keywordPosition, ha, ← keywordPosition]
      -- had the word been in a keyword position, it would have become a keyword
      refine Bool.eq_false_iff.mpr fun hp => ?_
      simp only [resolvedKind, hc, hp, Bool.and_true, decide_eq_true_eq] at hk
      split at hk
      · cases hk
      · exact absurd hk ‹_›

theorem Settled.getElem? {d : Dialect} {before : Option Lexeme} {ls : List Lexeme}
    (h : Settled d before ls) {i : Nat} {l : Lexeme} (hl : ls[i]? = some l)
    (hk : l.kind = .identifier) (hc : d.isContextual l.text = true) :
    keywordPosition (if i = 0 then before else ls[i - 1]?) ls[i + 1]? = false := by
  induction ls generalizing before i with
  | nil => cases hl
  | cons u ls ih =>
    cases i with
    | zero =>
      obtain rfl : u = l := Option.some.inj hl
      have hp := h.1 hk hc
      rw [List.head?_eq_getElem?] at hp
      exact hp
    | succ i =>
      have hi := ih h.2 hl
      cases i with
      | zero => exact hi
      | succ i => exact hi

theorem significant_lexemes (d : Dialect) (source : String) :
    (significant (tokenize d source)).map Token.lexeme =
      significantLexemes (lexemes d source) := by
  have hf : ∀ ts : List Token,
      (significant ts).map Token.lexeme = significantLexemes (ts.map Token.lexeme) := by
    intro ts
    rw [significantLexemes, List.filter_map]
    rfl
  rw [hf, tokenize, placed_lexemes]

/-- A contextual word that is no member name, before a token that continues a
clause, is a keyword. -/
theorem tokenize_keyword {d : Dialect} {source : String} {i : Nat} {t u : Token}
    (ht : (significant (tokenize d source))[i]? = some t)
    (hu : (significant (tokenize d source))[i + 1]? = some u)
    (hw : t.kind = .identifier ∨ t.kind = .keyword) (hc : d.isContextual t.text = true)
    (hcont : continuesClause u.lexeme = true)
    (hb : i = 0 ∨ ∃ b, (significant (tokenize d source))[i - 1]? = some b ∧
      b.text ∉ [".", "?."]) : t.kind = .keyword := by
  refine hw.resolve_left fun hk => ?_
  have hs : Settled d none (significantLexemes (lexemes d source)) := resolve_settled d none _
  rw [← significant_lexemes] at hs
  have hp := hs.getElem? (i := i) (l := t.lexeme) (by simp [ht]) hk hc
  simp only [keywordPosition, List.getElem?_map, hu, Option.map_some, Option.any_some, hcont,
    Bool.and_true, Bool.not_eq_false'] at hp
  rcases hb with rfl | ⟨b, hb, hbt⟩
  · cases hp
  · rw [hb] at hp
    split at hp
    · cases hp
    · exact hbt (by simpa [Token.lexeme] using hp)

end Retouch.Syntax
