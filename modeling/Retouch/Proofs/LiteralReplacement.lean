import Retouch.Proofs.FadedScan
import Retouch.Proofs.Partition
import Retouch.Proofs.QuotedText
import Retouch.Proofs.Renaming

/-! One string literal in the place of another. What stands before a literal sees no
more of it than its first quote, which no other lexeme takes or continues with; a
literal that is closed keeps to itself; and what stands behind it is read as before.
So where code has no elements, the literal that is written for a text takes the place
of any other, closed or not, and no other token notices. -/

namespace Retouch.Syntax
open Text

def isQuote (c : Char) : Bool := c = '"' || c = '\''

theorem isQuote_iff {c : Char} : isQuote c = true ↔ c = '"' ∨ c = '\'' := by
  simp [isQuote]

/-- Two texts that go together up to a quote in both of them. -/
inductive Requoted : List Char → List Char → Prop
  | quote {q q' : Char} {r r' : List Char} : isQuote q = true → isQuote q' = true →
      Requoted (q :: r) (q' :: r')
  | keep {c : Char} {r r' : List Char} : Requoted r r' → Requoted (c :: r) (c :: r')

namespace Requoted
variable {x x' : List Char}

theorem keeps (t : List Char) (h : Requoted x x') : Requoted (t ++ x) (t ++ x') := by
  induction t with
  | nil => exact h
  | cons c t ih => exact .keep ih

theorem cut (h : Requoted x x') :
    ∃ u q q' z z', x = u ++ q :: z ∧ x' = u ++ q' :: z' ∧ isQuote q = true ∧
      isQuote q' = true := by
  induction h with
  | @quote q q' z z' hq hq' => exact ⟨[], q, q', z, z', rfl, rfl, hq, hq'⟩
  | @keep c r r' h ih =>
    obtain ⟨u, q, q', z, z', rfl, rfl, hq, hq'⟩ := ih
    exact ⟨c :: u, q, q', z, z', rfl, rfl, hq, hq'⟩

theorem exists_head (h : Requoted x x') : ∃ c, x.head? = some c := by
  cases h <;> exact ⟨_, rfl⟩

/-- A test that both quotes answer alike. -/
theorem head_any (h : Requoted x x') {p : Char → Bool} (hp : p '"' = p '\'') :
    x'.head?.any p = x.head?.any p := by
  have hquote : ∀ {q : Char}, isQuote q = true → p q = p '"' := by
    intro q hq
    rcases isQuote_iff.mp hq with rfl | rfl
    · rfl
    · exact hp.symm
  cases h with
  | quote hq hq' =>
    simp only [List.head?_cons, Option.any_some]
    rw [hquote hq, hquote hq']
  | keep h => rfl

theorem head_eq (h : Requoted x x') {c : Char} (hc : isQuote c = false)
    (hx : x.head? = some c) : x'.head? = some c := by
  cases h with
  | quote hq _ =>
    obtain rfl : _ = c := by simpa using hx
    simp [hq] at hc
  | keep h => exact hx

/-- A mark without quotes is at the front of both texts or of neither. -/
theorem isPrefixOf_eq (h : Requoted x x') {m : List Char} (hm : m.any isQuote = false) :
    m.isPrefixOf x' = m.isPrefixOf x := by
  induction h generalizing m with
  | quote hq hq' =>
    cases m with
    | nil => rfl
    | cons c m =>
      have hne : ∀ {q : Char}, isQuote q = true → (c == q) = false := by
        intro q hq
        refine beq_eq_false_iff_ne.mpr ?_
        rintro rfl
        simp [hq] at hm
      simp [List.isPrefixOf, hne hq, hne hq']
  | keep h ih =>
    cases m with
    | nil => rfl
    | cons c m =>
      rw [List.any_cons, Bool.or_eq_false_iff] at hm
      simp only [List.isPrefixOf, ih hm.2]

theorem of_cons {c : Char} {r : List Char} (h : Requoted (c :: r) x') (hc : isQuote c = false) :
    ∃ r', x' = c :: r' ∧ Requoted r r' := by
  cases h with
  | quote hq _ => simp [hq] at hc
  | keep h => exact ⟨_, rfl, h⟩

theorem operatorAt (h : Requoted x x') : Syntax.operatorAt x' = Syntax.operatorAt x := by
  have hmarks : ∀ op ∈ operators, op.toList.any isQuote = false := by decide
  refine operatorAt_congr (fun op hop => h.isPrefixOf_eq (hmarks op hop)) ?_
  rintro y rfl
  obtain ⟨_, rfl, h₁⟩ := h.of_cons (by decide)
  obtain ⟨y', rfl, h₂⟩ := h₁.of_cons (by decide)
  exact ⟨y', rfl, h₂.head_any (by decide)⟩

end Requoted

/-! ### Numbers before a quote -/

/-- A scanner that never takes a certain character. -/
def Spares (f : List Char → Nat) (q : Char) : Prop := ∀ u z, f (u ++ q :: z) ≤ u.length

theorem spares_run {p : Char → Bool} {q : Char} (hq : p q = false) : Spares (run p) q := by
  intro u z
  induction u with
  | nil => simp [run, hq]
  | cons c u ih =>
    simp only [run, List.cons_append, List.takeWhile_cons] at ih ⊢
    split
    · simpa using ih
    · simp

theorem Spares.andThen {f g : List Char → Nat} {q : Char} (hf : Spares f q) (hg : Spares g q) :
    Spares (fun x => f x + g (x.drop (f x))) q := by
  intro u z
  have hfu := hf u z
  have hgu := hg (u.drop (f (u ++ q :: z))) z
  dsimp only
  rw [List.drop_append_of_le_length hfu]
  rw [List.length_drop] at hgu
  omega

theorem Spares.afterMark {f g : List Char → Nat} {m q : Char}
    (hcons : ∀ c r, f (c :: r) = if c = m then 1 + g r else 0) (hq : q ≠ m) (hg : Spares g q) :
    Spares f q := by
  intro u z
  cases u with
  | nil => simp [hcons, hq]
  | cons c u =>
    have hgu := hg u z
    rw [List.cons_append, hcons, List.length_cons]
    split <;> omega

theorem spares_exponent {q : Char} (hq : isQuote q = true) : Spares exponent q := by
  have hnone : ((q == 'e' || q == 'E') = false) ∧ ((q == '+' || q == '-') = false) ∧
      isDigit q = false ∧ isDigitOrGap q = false := by
    rcases isQuote_iff.mp hq with rfl | rfl <;> decide
  obtain ⟨hmark, hsign, hdigit, hgap⟩ := hnone
  intro u z
  rcases u with _ | ⟨e, _ | ⟨s, u⟩⟩
  · cases z with
    | nil => exact Nat.le_refl 0
    | cons s z =>
      rw [List.nil_append, exponent_cons_cons, hmark]
      simp
  · rw [List.cons_append, List.nil_append, exponent_cons_cons, hsign, hdigit]
    simp
  · have hrun := spares_run hgap u z
    rw [List.cons_append, List.cons_append, exponent_cons_cons, List.length_cons, List.length_cons]
    split <;> omega

theorem spares_numberLiteral {q : Char} (hq : isQuote q = true) (c : Char) :
    Spares (numberLiteral c) q := by
  have hnone : isDigitOrGap q = false ∧ q ≠ '.' ∧ q ≠ 'n' ∧ isRadixMark q = false ∧
      (isAsciiLetter q || isDigit q || q == '_') = false := by
    rcases isQuote_iff.mp hq with rfl | rfl <;> decide
  obtain ⟨hgap, hpoint, hsuffix, hradix, hletter⟩ := hnone
  have hfrac : Spares (fun x => if c = '.' then 0 else fraction x) q := by
    split
    · exact fun _ _ => Nat.zero_le _
    · exact Spares.afterMark fraction_cons hpoint (spares_run hgap)
  have hdecimal : Spares (decimalNumber c) q :=
    (((spares_run hgap).andThen hfrac).andThen (spares_exponent hq)).andThen
      (Spares.afterMark bigSuffix_cons hsuffix fun _ _ => Nat.zero_le _)
  intro u z
  rw [numberLiteral_eq]
  cases u with
  | nil =>
    rw [List.nil_append, List.head?_cons, Option.any_some, hradix, Bool.and_false, if_neg (by simp)]
    exact hdecimal [] z
  | cons m u =>
    split
    · have hrun := spares_run (p := fun x => isAsciiLetter x || isDigit x || x == '_') hletter u z
      simp only [List.cons_append, List.tail_cons, List.length_cons]
      omega
    · exact hdecimal (m :: u) z

/-- Before a quote a number ends as it does before a space. -/
theorem numberLiteral_quote {q : Char} (hq : isQuote q = true) (c : Char) (u z : List Char) :
    numberLiteral c (u ++ [' ']) = numberLiteral c (u ++ q :: z) := by
  refine settles_numberLiteral (.inr rfl) (fun _ => rfl) ?_ u (spares_numberLiteral hq c u z)
  intro e _
  rw [exponent_eq_zero_iff]
  cases (e == 'e' || e == 'E') <;> rfl

theorem Requoted.numberLiteral {x x' : List Char} (h : Requoted x x') (c : Char) :
    Syntax.numberLiteral c x' = Syntax.numberLiteral c x := by
  obtain ⟨u, q, q', z, z', rfl, rfl, hq, hq'⟩ := h.cut
  rw [← numberLiteral_quote hq, ← numberLiteral_quote hq']

/-! ### Lexemes before and behind the literal -/

section
variable {elements : Bool} {before before' : Option Lexeme} {stack : List Context} {c : Char}
  {r y cs : List Char} {s : Step}

/-- The next lexeme stays when a literal behind it is exchanged. -/
theorem codeStep_requoted (hs : codeStep false before stack c r = s)
    (hy : Requoted (r.drop s.more) y) : codeStep false before stack c (r.take s.more ++ y) = s := by
  have hr : Requoted r (r.take s.more ++ y) := by
    have h := hy.keeps (r.take s.more)
    rwa [List.take_append_drop] at h
  obtain ⟨d, hd⟩ := hy.exists_head
  refine codeStep_exchange hs hd
    { slash := hr.isPrefixOf_eq (by decide)
      star := hr.isPrefixOf_eq (by decide)
      digit := hr.head_any (by decide)
      element := fun h => by cases h
      operator := (Requoted.keep hr).operatorAt
      blank := fun h => by rw [hy.head_any (by decide), h]
      lineEnd := fun h => by rw [hy.head_any (by decide), h]
      name := fun h => by rw [hy.head_any (by decide), h]
      line := hy.head_eq (by decide)
      number := fun _ hn => by rw [hr.numberLiteral, hn] }

theorem codeStep_quote (hc : isQuote c = true) :
    codeStep elements before stack c r = ⟨.string, quoted c r, stack⟩ := by
  rcases isQuote_iff.mp hc with rfl | rfl <;> rfl

/-- Only a quote begins a string in code. -/
theorem codeStep_string (h : (codeStep elements before stack c r).kind = .string) :
    isQuote c = true := by
  have hbegins := codeStep_begins elements before stack c r
  rwa [h] at hbegins

theorem Renames.refl (b : Bool) (ls : List Lexeme) : Renames b ls ls := by
  induction ls generalizing b with
  | nil => exact .nil b
  | cons l ls ih => exact .keep (ih _)

/-- Of what stands before a text, it matters only whether an expression may begin. -/
theorem scan_before (h : expressionMayBegin before' = expressionMayBegin before) :
    scan elements before' stack cs = scan elements before stack cs := by
  have hscan := scan_renamed (Renames.refl false (scan elements before stack cs)) h
  rwa [spelled, scan_texts] at hscan

/-! ### Whole texts -/

/-- A literal that its own characters close, whatever stands behind it. -/
def IsClosed (text : String) : Prop :=
  ∃ q body, text.toList = q :: body ∧ isQuote q = true ∧ ∀ y, quoted q (body ++ y) = body.length

theorem isClosed_quote (s : String) : IsClosed (Text.quote s) := by
  refine ⟨'"', s.toList.flatMap escapeChar ++ ['"'], Toolkit.toList_quote s, rfl, ?_⟩
  intro y
  rw [List.append_assoc, List.singleton_append, quoted_escapes, List.length_append]
  rfl

/-- A closed literal in code is one lexeme. -/
theorem scan_closed {text : String} (ht : IsClosed text) (hstack : inCode stack = true) :
    scan elements before stack (text.toList ++ y) =
      ⟨.string, text⟩ :: scan elements (some ⟨.string, text⟩) stack y := by
  obtain ⟨q, body, htext, hq, hclosed⟩ := ht
  have hstep : codeStep elements before stack q (body ++ y) = ⟨.string, body.length, stack⟩ := by
    rw [codeStep_quote hq, hclosed]
  have hlexeme : (⟨.string, body.length, stack⟩ : Step).lexeme q (body ++ y) = ⟨.string, text⟩ := by
    rw [Step.lexeme, List.take_left, ← htext, String.ofList_toList]
  rw [htext, List.cons_append, Erase.scan_code hstack, hstep, hlexeme, List.drop_left]
  rfl

theorem scan_string_start (hstack : Erase.CodeOnly stack) :
    ∀ l ∈ scan false before stack cs, l.kind = .string →
      l.text.toList.head?.any isQuote = true := by
  refine hstack.scan_forall fun before stack c r hk => ?_
  simpa [Step.lexeme] using codeStep_string hk

/-- Texts whose lexemes differ in one literal go together up to its quote. -/
theorem requoted_spelled {xs ys : List Lexeme} {l : Lexeme} {text : String}
    (hl : l.text.toList.head?.any isQuote = true) (ht : IsClosed text) :
    Requoted (spelled (xs ++ l :: ys)) (spelled (xs ++ ⟨.string, text⟩ :: ys)) := by
  obtain ⟨q', body, htext, hq', -⟩ := ht
  simp only [spelled, List.flatMap_append, List.flatMap_cons, htext]
  cases hq : l.text.toList with
  | nil => simp [hq] at hl
  | cons q rest => exact (Requoted.quote (by simpa [hq] using hl) hq').keeps _

/-- A closed literal takes the place of another one, and all lexemes around it stay. -/
theorem scan_requoted {xs ys : List Lexeme} {l : Lexeme} {text : String}
    (hstack : Erase.CodeOnly stack) (hcs : scan false before stack cs = xs ++ l :: ys)
    (hl : l.kind = .string) (ht : IsClosed text) :
    scan false before stack (spelled (xs ++ ⟨.string, text⟩ :: ys)) =
      xs ++ ⟨.string, text⟩ :: ys := by
  -- the lexemes before the literal are scanned one by one, each as it was
  induction xs generalizing before stack cs with
  | nil =>
    cases cs with
    | nil => simp [scan] at hcs
    | cons c r =>
      rw [Erase.scan_code hstack.inCode, List.nil_append, List.cons.injEq] at hcs
      obtain ⟨rfl, hys⟩ := hcs
      have hstep : codeStep false before stack c r = ⟨.string, quoted c r, stack⟩ :=
        codeStep_quote (codeStep_string hl)
      rw [hstep] at hys
      rw [List.nil_append, spelled, List.flatMap_cons, scan_closed ht hstack.inCode, ← hys,
        scan_texts, scan_before]
      rfl
  | cons x xs ih =>
    cases cs with
    | nil => simp [scan] at hcs
    | cons c r =>
      rw [Erase.scan_code hstack.inCode, List.cons_append, List.cons.injEq] at hcs
      obtain ⟨rfl, hrest⟩ := hcs
      generalize hs : codeStep false before stack c r = s at hrest ⊢
      have hopen : Erase.CodeOnly s.stack := hs ▸ hstack.codeStep
      have hquote := scan_string_start hopen l (hrest ▸ List.mem_append_right xs (by simp)) hl
      have hy : Requoted (r.drop s.more) (spelled (xs ++ ⟨.string, text⟩ :: ys)) := by
        rw [← scan_texts false _ s.stack (r.drop s.more), hrest]
        exact requoted_spelled hquote ht
      have hcut := take_drop_exchange (x := r) (y := spelled (xs ++ ⟨.string, text⟩ :: ys))
          (n := s.more) fun hnil => by
        obtain ⟨d, hd⟩ := hy.exists_head
        simp [hnil] at hd
      have htext : spelled (s.lexeme c r :: xs ++ ⟨.string, text⟩ :: ys) =
          c :: (r.take s.more ++ spelled (xs ++ ⟨.string, text⟩ :: ys)) := by
        simp [spelled, Step.lexeme, String.toList_ofList]
      rw [htext, Erase.scan_code hstack.inCode, codeStep_requoted hs hy, hcut.2]
      have hlexeme : s.lexeme c (r.take s.more ++ spelled (xs ++ ⟨.string, text⟩ :: ys)) =
          s.lexeme c r := by
        rw [Step.lexeme, Step.lexeme, hcut.1]
      rw [hlexeme, ih hopen hrest, List.cons_append]

end

/-! ### Contextual words around the literal -/

theorem isMemberMark_of_quote {l : Lexeme} (h : l.text.toList.head?.any isQuote = true) :
    isMemberMark l = false := by
  have hmarks : ∀ m ∈ [".", "?."], m.toList.head?.any isQuote = false := by decide
  refine Bool.eq_false_iff.mpr fun hm => ?_
  rw [isMemberMark, decide_eq_true_eq] at hm
  rw [hmarks _ hm] at h
  cases h

theorem resolve_before {d : Dialect} {before before' : Option Lexeme}
    (hb : before'.any isMemberMark = before.any isMemberMark) (ls : List Lexeme) :
    resolve d before' ls = resolve d before ls := by
  induction ls generalizing before before' with
  | nil => rfl
  | cons l ls ih =>
    have hposition : keywordPosition before' (firstSignificant ls) =
        keywordPosition before (firstSignificant ls) :=
      congrArg (fun x => !x && _) hb
    have hkind : resolvedKind d before' l (firstSignificant ls) =
        resolvedKind d before l (firstSignificant ls) := by
      unfold resolvedKind
      rw [hposition]
    rw [resolve, resolve, hkind]
    refine congrArg (_ :: ·) (ih ?_)
    split
    · exact hb
    · rfl

theorem firstSignificant_append {l : Lexeme} (hl : l.isTrivia = false) (xs ys : List Lexeme) :
    firstSignificant (xs ++ l :: ys) = (firstSignificant xs).or (some l) := by
  simp [firstSignificant, List.find?_append, hl]

/-- Contextual words are decided alike around another literal. -/
theorem resolve_requoted {d : Dialect} {before : Option Lexeme} {xs ys : List Lexeme} {l : Lexeme}
    {text : String} (hl : l.kind = .string) (hmark : isMemberMark l = false)
    (hmark' : isMemberMark ⟨.string, text⟩ = false) :
    resolve d before (xs ++ ⟨.string, text⟩ :: ys) =
      (resolve d before (xs ++ l :: ys)).set xs.length ⟨.string, text⟩ := by
  have htrivia : l.isTrivia = false := by simp [Lexeme.isTrivia, hl, Kind.isTrivia]
  induction xs generalizing before with
  | nil =>
    have hkind : resolvedKind d before l (firstSignificant ys) = .string := by
      simp [resolvedKind, hl]
    rw [List.nil_append, List.nil_append, resolve, resolve, hkind, htrivia]
    refine congrArg (_ :: ·) (resolve_before ?_ ys)
    exact hmark'.trans hmark.symm
  | cons x xs ih =>
    have hafter : (firstSignificant (xs ++ ⟨.string, text⟩ :: ys)).any continuesClause =
        (firstSignificant (xs ++ l :: ys)).any continuesClause := by
      rw [firstSignificant_append rfl, firstSignificant_append htrivia]
      cases firstSignificant xs with
      | none => simp [continuesClause, hl]
      | some f => rfl
    have hkind : resolvedKind d before x (firstSignificant (xs ++ ⟨.string, text⟩ :: ys)) =
        resolvedKind d before x (firstSignificant (xs ++ l :: ys)) := by
      unfold resolvedKind keywordPosition
      rw [hafter]
    rw [List.cons_append, List.cons_append, resolve, resolve, hkind, List.length_cons,
      List.set_cons_succ]
    exact congrArg (_ :: ·) ih

/-- What is no keyword was scanned as it is. -/
theorem getElem?_of_resolve {d : Dialect} {before : Option Lexeme} {ls : List Lexeme} {i : Nat}
    {l : Lexeme} (h : (resolve d before ls)[i]? = some l) (hk : l.kind ≠ .keyword) :
    ls[i]? = some l := by
  induction ls generalizing before i with
  | nil => simp [resolve] at h
  | cons x ls ih =>
    rw [resolve] at h
    cases i with
    | zero =>
      simp only [List.getElem?_cons_zero, Option.some.injEq] at h
      subst h
      rw [List.getElem?_cons_zero, ← resolvedKind_eq rfl hk]
    | succ i => exact ih h

theorem spelled_set_congr {ls ms : List Lexeme} (h : ls.map Lexeme.text = ms.map Lexeme.text)
    (i : Nat) (l : Lexeme) : spelled (ls.set i l) = spelled (ms.set i l) := by
  have hmap : ∀ ls : List Lexeme, spelled ls = (ls.map Lexeme.text).flatMap String.toList := by
    intro ls
    rw [spelled, List.flatMap_map]
  rw [hmap, hmap, List.map_set, List.map_set, h]

/-- The lexemes of a text with another literal are the old ones with that literal. -/
theorem lexemes_requoted {d : Dialect} (hd : d.hasElements = false) {source printed : String}
    {i : Nat} {l : Lexeme} {text : String} (hi : (lexemes d source)[i]? = some l)
    (hl : l.kind = .string) (ht : IsClosed text)
    (hp : printed.toList = spelled ((lexemes d source).set i ⟨.string, text⟩)) :
    lexemes d printed = (lexemes d source).set i ⟨.string, text⟩ := by
  rw [lexemes_eq, hd] at hi
  have hscan := getElem?_of_resolve hi (by simp [hl])
  have hquote := scan_string_start .nil l (List.mem_of_getElem? hscan) hl
  have hquote' : text.toList.head?.any isQuote = true := by
    obtain ⟨q, body, htext, hq, -⟩ := ht
    rw [htext]
    exact hq
  obtain ⟨xs, ys, hcut, rfl⟩ : ∃ xs ys, scan false none [] source.toList = xs ++ l :: ys ∧
      xs.length = i := by
    obtain ⟨hlt, hget⟩ := List.getElem?_eq_some_iff.mp hscan
    refine ⟨(scan false none [] source.toList).take i,
      (scan false none [] source.toList).drop (i + 1), ?_,
      List.length_take_of_le (Nat.le_of_lt hlt)⟩
    rw [← hget, ← List.drop_eq_getElem_cons hlt, List.take_append_drop]
  have hset : (xs ++ l :: ys).set xs.length ⟨.string, text⟩ = xs ++ ⟨.string, text⟩ :: ys := by
    simp
  have hsource : lexemes d source = resolve d none (xs ++ l :: ys) := by
    rw [lexemes_eq, hd, hcut]
  rw [hsource] at hp ⊢
  rw [spelled_set_congr (resolve_texts d none _), hset] at hp
  rw [lexemes_eq, hd, hp, scan_requoted .nil hcut hl ht]
  exact resolve_requoted hl (isMemberMark_of_quote hquote) (isMemberMark_of_quote hquote')

end Retouch.Syntax

namespace Retouch.Toolkit
open Syntax Text
variable {M : Type}

/-! ### A literal in a document -/

/-- The two ways to give a literal a text: another literal in its place, or another
value of its node. -/
def literalWrites (v : String) : List (Write M) :=
  [.replaced (.fixed (stringLiteral (.text v))), .assigned "value" (.text v)]

theorem same_text {v : String} {w : Value} (h : (Value.text v).same w = true) : w = .text v := by
  cases w with
  | text s => simpa [Value.same, eq_comm] using h
  | _ => simp [Value.same] at h

/-- A literal prints its new text, or stays as it is when that was its text before. -/
theorem printedToken_literal {t : Token} (hk : t.kind = .string) {v : String} {u : Write M}
    (hu : u ∈ literalWrites v) :
    ∃ text, (∀ s, printedToken s t [u] = .ok (.text text)) ∧ stringValue text = .text v ∧
      (text = t.text ∨ text = Text.quote v) := by
  simp only [literalWrites, List.mem_cons, List.not_mem_nil, or_false] at hu
  rcases hu with rfl | rfl
  · exact ⟨Text.quote v, fun _ => rfl, stringValue_quote v, .inr rfl⟩
  · have htype : (currentNode t [(.assigned "value" (.text v) : Write M)]).get "type" =
        .text "StringLiteral" := by
      simp [currentNode, Node.written, Node.ofToken, hk]
      rfl
    have hvalue :
        (currentNode t [(.assigned "value" (.text v) : Write M)]).get "value" = .text v := by
      simp [currentNode, Node.written, Node.ofToken, hk]
      rfl
    have hsays : (currentNode t [(.assigned "value" (.text v) : Write M)]).stillSays t =
        (Value.text v).same (stringValue t.text) := by
      rw [Node.stillSays, htype, hvalue, hk]
      rfl
    have hprinted (s : Scene M) : printedToken s t [.assigned "value" (.text v)] =
        if (Value.text v).same (stringValue t.text) then .ok (.text t.text)
        else .ok (.text (Text.quote v)) := by
      have hrender : renderRecord (currentNode t [(.assigned "value" (.text v) : Write M)]).get =
          .ok (.text (Text.quote v)) := by
        simp only [renderRecord, htype, hvalue]
        rfl
      rw [← hsays, ← hrender]
      rfl
    cases hsame : (Value.text v).same (stringValue t.text) with
    | true =>
      simp only [hsame, if_true] at hprinted
      exact ⟨t.text, hprinted, same_text hsame, .inl rfl⟩
    | false =>
      simp only [hsame, Bool.false_eq_true, if_false] at hprinted
      exact ⟨Text.quote v, hprinted, stringValue_quote v, .inr rfl⟩

theorem set_of_getElem? {α : Type} {l : List α} {i : Nat} {a : α} (h : l[i]? = some a) :
    l.set i a = l := by
  obtain ⟨hi, rfl⟩ := List.getElem?_eq_some_iff.mp h
  exact List.set_getElem_self hi

theorem reaching_single (i j : Nat) (u : Write M) :
    reaching j [(i, u)] = if i = j then [u] else [] := by
  by_cases h : i = j <;> simp [reaching, h]

theorem map_zipIdx_set {ts : List Token} {i : Nat} (text : String) :
    (ts.zipIdx.map fun t => if i = t.2 then text else t.1.text) =
      (ts.map Token.text).set i text := by
  apply List.ext_getElem?
  intro j
  rw [List.getElem?_map, List.getElem?_zipIdx, List.getElem?_set, List.getElem?_map]
  cases ht : ts[j]? with
  | none =>
    simp only [Option.map_none]
    split
    · rename_i hij
      rw [List.length_map, if_neg (by simpa [hij] using ht)]
    · rfl
  | some t =>
    have hj := (List.getElem?_eq_some_iff.mp ht).1
    simp only [Option.map_some, Nat.zero_add]
    split
    · rename_i hij
      rw [if_pos (by simpa [hij] using hj)]
    · rfl

/-- After one write the token that it reached prints something else. -/
theorem print_single {d : Dialect} {source : String} {i : Nat} {t : Token} {u : Write M}
    {text : String} (hvalue : ∀ t ∈ tokenize d source, isVoidNumber t = false)
    (ht : (tokenize d source)[i]? = some t)
    (hu : ∀ s, printedToken s t [u] = .ok (.text text)) (s : Scene M) :
    ((Document.ofSource d source).written [(i, u)]).print s =
      .ok (.text (String.join (((tokenize d source).map Token.text).set i text))) := by
  have hprinted : ∀ x ∈ (tokenize d source).zipIdx, printedToken s x.1 (reaching x.2 [(i, u)]) =
      .ok (.text (if i = x.2 then text else x.1.text)) := by
    intro x hx
    rw [reaching_single]
    split
    · rename_i hi
      have hx' := List.mem_zipIdx_iff_getElem?.mp hx
      rw [← hi, ht, Option.some.injEq] at hx'
      rw [← hx', hu]
    · rw [printedToken_nil, hvalue x.1 (List.fst_mem_of_mem_zipIdx hx)]
      rfl
  rw [Document.print_written, mapM_eq_ok hprinted, ← map_zipIdx_set, ← join_texts, List.map_map]
  rfl

/-- A string literal that is given a text is a string literal with that text, and no
other token changes, when the document is printed and read again. What is printed for
the text is one token wherever code stands, and has the text as its value. -/
theorem tokenize_literal_replaced (kit : Kit) (hkit : kit.dialect.hasElements = false)
    (source : String) (memory : M)
    (hvalue : ∀ t ∈ tokenize kit.dialect source, isVoidNumber t = false)
    {i : Nat} {t : Token} (ht : (tokenize kit.dialect source)[i]? = some t)
    (hk : t.kind = .string) (v : String) :
    (∀ u ∈ (literalWrites v : List (Write M)), ∃ printed text,
      (∀ s : Scene M, ((Document.ofSource kit.dialect source).written [(i, u)]).print s =
        .ok (.text printed)) ∧
      (∀ steps : List (Nat × Operation M),
        ((Workbench.start kit source memory).1.after steps).history 0 = [(i, u)] →
        ∀ (register : Nat) c,
          ((Workbench.start kit source memory).1.after steps).registers[register]? = some c →
          c.document = 0 →
          (((Workbench.start kit source memory).1.after steps).step register .source).2 =
            .source (.text printed)) ∧
      (tokenize kit.dialect printed).map Token.lexeme =
        ((tokenize kit.dialect source).map Token.lexeme).set i ⟨.string, text⟩ ∧
      stringValue text = .text v) ∧
    (∀ (elements : Bool) before stack rest, inCode stack = true →
      lex elements before stack ((Text.quote v).toList ++ rest) =
        ⟨.string, Text.quote v⟩ :: lex elements (some ⟨.string, Text.quote v⟩) stack rest) ∧
    stringValue (Text.quote v) = .text v := by
  refine ⟨?_, fun _ _ _ _ hstack => ?_, stringValue_quote v⟩
  rotate_left
  · rw [lex_eq_scan, lex_eq_scan, scan_closed (isClosed_quote v) hstack]
  intro u hu
  obtain ⟨text, hprinted, htext, hcases⟩ := printedToken_literal hk hu
  have hprint := print_single hvalue ht hprinted
  refine ⟨_, text, hprint, ?_, ?_, htext⟩
  · intro steps hw register c hr hzero
    rw [source_of_history kit source memory hr hzero, hw, hprint]
    rfl
  · have hlexemes := placed_lexemes .origin (lexemes kit.dialect source)
    have hi : (lexemes kit.dialect source)[i]? = some ⟨.string, t.text⟩ := by
      rw [← hlexemes, List.getElem?_map, show (placed _ _)[i]? = _ from ht, ← hk]
      rfl
    rw [tokenize, placed_lexemes, tokenize, hlexemes]
    rcases hcases with rfl | rfl
    · have hsame : String.join (((tokenize kit.dialect source).map Token.text).set i t.text) =
          source := by
        rw [set_of_getElem? (by rw [List.getElem?_map, ht]; rfl), tokenize_joined]
      rw [← tokenize, hsame, set_of_getElem? hi]
    · refine lexemes_requoted hkit hi rfl (isClosed_quote v) ?_
      rw [String.toList_join, spelled, ← List.flatMap_map (f := Lexeme.text), List.map_set,
        placed_texts]

/-- A literal that nothing closes, at the end of a line. -/
def openLiteral : String := "f('a\n)"

/-- Give every string literal a text that ends in a backslash. -/
def closeLiterals : List (Nat × Operation Unit) :=
  [(0, .find (.text "StringLiteral") .undefined),
   (1, .assign (.text "value") (.text "\"\n\u2028\\"))]

theorem openLiteral_tokens : tokenize .ts openLiteral =
    [⟨.identifier, "f", ⟨0, 1, 0⟩, ⟨1, 1, 1⟩⟩, ⟨.punctuator, "(", ⟨1, 1, 1⟩, ⟨2, 1, 2⟩⟩,
     ⟨.string, "'a", ⟨2, 1, 2⟩, ⟨4, 1, 4⟩⟩, ⟨.whitespace, "\n", ⟨4, 1, 4⟩, ⟨5, 2, 0⟩⟩,
     ⟨.punctuator, ")", ⟨5, 2, 0⟩, ⟨6, 2, 1⟩⟩] := by
  decide +kernel

/-- The literal is closed, and the line behind it stays what it is. -/
theorem tokenize_literal_replaced_open :
    Dialect.ts.hasElements = false ∧
    (∀ t ∈ tokenize .ts openLiteral, isVoidNumber t = false) ∧
    (tokenize .ts openLiteral)[2]? = some ⟨.string, "'a", ⟨2, 1, 2⟩, ⟨4, 1, 4⟩⟩ ∧
    ∃ printed text,
      (((Workbench.start (.ofDialect .ts) openLiteral ()).1.after closeLiterals).step 0 .source).2 =
        .source (.text printed) ∧
      (tokenize .ts printed).map Token.lexeme =
        [⟨.identifier, "f"⟩, ⟨.punctuator, "("⟩, ⟨.string, text⟩, ⟨.whitespace, "\n"⟩,
         ⟨.punctuator, ")"⟩] ∧
      stringValue text = .text "\"\n\u2028\\" := by
  have hvalue : ∀ t ∈ tokenize .ts openLiteral, isVoidNumber t = false := by
    rw [openLiteral_tokens]
    decide
  have ht : (tokenize .ts openLiteral)[2]? = some ⟨.string, "'a", ⟨2, 1, 2⟩, ⟨4, 1, 4⟩⟩ := by
    rw [openLiteral_tokens]
    rfl
  refine ⟨rfl, hvalue, ht, ?_⟩
  obtain ⟨printed, text, -, hsteps, htokens, htext⟩ :=
    (tokenize_literal_replaced (.ofDialect .ts) rfl openLiteral () hvalue ht rfl
      "\"\n\u2028\\").1 (.assigned "value" (.text "\"\n\u2028\\")) (by simp [literalWrites])
  refine ⟨printed, text, ?_, ?_, htext⟩
  · refine hsteps closeLiterals ?_ 0 ⟨0, [0, 1, 2, 3, 4]⟩ ?_ rfl
    · simp only [Workbench.start, Workbench.openSource, Document.ofSource, Kit.ofDialect,
        openLiteral_tokens]
      rfl
    · simp only [Workbench.start, Workbench.openSource, Document.ofSource, Kit.ofDialect,
        openLiteral_tokens]
      rfl
  · rw [show (Kit.ofDialect .ts).dialect = .ts from rfl, openLiteral_tokens] at htokens
    exact htokens

end Retouch.Toolkit
