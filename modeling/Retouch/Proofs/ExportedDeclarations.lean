import Retouch.Proofs.LoweringPlace

/-! Exported declarations of one or more variables. The keyword goes and the declaration
stays, wherever the main loop comes to it; but only the variable that is declared
first is exported, because the step for the keyword looks no further than the first
name, and the rest of the declaration is passed over word by word. -/

namespace Retouch.Lower
open Syntax Text

/-! ### Declarations -/

/-- The bracket that closes the one that a word opens. -/
def Word.closing? (w : Word) : Option String :=
  if w.isMark "(" then some ")"
  else if w.isMark "[" then some "]"
  else if w.isMark "\x7b" then some "\x7d"
  else none

def Word.isClosing (w : Word) : Bool := w.isMark ")" || w.isMark "]" || w.isMark "\x7d"

/-- Whether a word behind the text `before` begins a statement of the module syntax
rather than naming a member or importing a value. -/
def Word.beginsModule (before : String) (w : Word) (ws : List Word) : Bool :=
  w.kind = .keyword && w.text ∈ ["import", "export"] && before ∉ [".", "?."] &&
    !(w.text = "import" && ws.head?.any (·.text ∈ ["(", "."]))

/-- Whether some words can end the value of a variable, behind the text `before` and
where the brackets `closings` are still to come. Brackets match, no comma and no
semicolon stands outside of them, and no import or export statement outside braces. -/
def isValue (before : String) (closings : List String) : List Word → Bool
  | [] => closings.isEmpty
  | w :: ws =>
    match w.closing? with
    | some closing => isValue w.text (closing :: closings) ws
    | none =>
      if w.isClosing then closings.head? = some w.text && isValue w.text closings.tail ws
      else
        (!closings.isEmpty || !(w.isMark "," || w.isMark ";")) &&
          (closings.contains "\x7d" || !w.beginsModule before ws) && isValue w.text closings ws

/-- `x = e` -/
structure Declarator where
  name : String
  gap : String
  equals : String
  value : List Word
  isValue : isValue "=" [] value = true

def Declarator.words (x : Declarator) : List Word :=
  ⟨.identifier, x.name, x.gap⟩ :: .mark "=" x.equals :: x.value

/-- `export const x = e, y = f;` and the like. -/
structure ExportedDeclaration where
  gap : String
  binder : String
  isBinder : binder ∈ ["const", "let", "var"]
  binderGap : String
  first : Declarator
  /-- The other declarators, each with the gap after the comma before it. -/
  more : List (String × Declarator)
  semicolon : String

namespace ExportedDeclaration

/-- The words from the first comma on. -/
def rest (x : ExportedDeclaration) : List Word :=
  x.more.flatMap (fun m => .mark "," m.1 :: m.2.words) ++ [.mark ";" x.semicolon]

/-- The declaration without its export. -/
def kept (x : ExportedDeclaration) : List Word :=
  .keyword x.binder x.binderGap :: (x.first.words ++ x.rest)

def words (x : ExportedDeclaration) : List Word := .keyword "export" x.gap :: x.kept

def names (x : ExportedDeclaration) : List String := x.first.name :: x.more.map (·.2.name)

end ExportedDeclaration

/-! ### Words of values -/

/-- What the first word of a value does: its brackets fit, it is no module statement, and
the rest is a value behind it. -/
theorem isValue_cons {before : String} {closings : List String} {w : Word} {ws : List Word}
    (h : isValue before closings (w :: ws) = true) :
    (∃ closing, w.closing? = some closing ∧ isValue w.text (closing :: closings) ws = true) ∨
    (∃ more, w.isClosing = true ∧ closings = w.text :: more ∧
      isValue w.text more ws = true) ∨
    (w.closing? = none ∧ w.isClosing = false ∧
      ("\x7d" ∈ closings ∨ w.beginsModule before ws = false) ∧
      isValue w.text closings ws = true) := by
  rw [isValue] at h
  split at h
  · rename_i closing hopen
    exact .inl ⟨closing, hopen, h⟩
  · rename_i hopen
    split at h
    · rename_i hclose
      rw [Bool.and_eq_true, decide_eq_true_eq] at h
      obtain ⟨more, rfl⟩ := List.head?_eq_some_iff.mp h.1
      exact .inr (.inl ⟨more, hclose, rfl, h.2⟩)
    · rename_i hclose
      rw [Bool.and_eq_true, Bool.and_eq_true, Bool.or_eq_true (closings.contains "\x7d"),
        List.contains_iff_mem, Bool.not_eq_true'] at h
      exact .inr (.inr ⟨hopen, by simpa using hclose, h.1.2, h.2⟩)

theorem Word.opens_of_closing? {w : Word} {closing : String} (h : w.closing? = some closing) :
    w.kind = .punctuator ∧
      (w.text, closing) ∈ [("(", ")"), ("[", "]"), ("\x7b", "\x7d")] := by
  simp only [Word.closing?, Word.isMark, Bool.and_eq_true, decide_eq_true_eq] at h
  split at h
  · rename_i hw
    simp [hw, Option.some.inj h.symm]
  · split at h
    · rename_i hw
      simp [hw, Option.some.inj h.symm]
    · split at h
      · rename_i hw
        simp [hw, Option.some.inj h.symm]
      · cases h

theorem Word.isMark_brace_of_closing? {w : Word} (h : w.closing? = none) :
    w.isMark "\x7b" = false := by
  rw [Word.closing?] at h
  split at h
  · cases h
  · split at h
    · cases h
    · split at h
      · cases h
      · rename_i hw
        simpa using hw

theorem Word.closes_of_isClosing {w : Word} (h : w.isClosing = true) :
    w.kind = .punctuator ∧ w.text ∈ [")", "]", "\x7d"] := by
  simp only [Word.isClosing, Word.isMark, Bool.or_eq_true, Bool.and_eq_true,
    decide_eq_true_eq] at h
  rcases h with (⟨hkind, htext⟩ | ⟨hkind, htext⟩) | ⟨hkind, htext⟩
  · simp [hkind, htext]
  · simp [hkind, htext]
  · simp [hkind, htext]

end Retouch.Lower

namespace Retouch.Code
open Syntax Text Lower

variable {c : Code} {k n count depth : Nat} {w : Word} {us ws : List Word} {before : String}

/-! ### Passing over values -/

/-- A word that begins no import or export statement stays. -/
theorem stepAt_stays (h : c.Reads k n (w :: (us ++ ws))) (hk : 0 < k)
    (hbefore : c.text (k - 1) = before) (hw : 0 < depth ∨ w.beginsModule before us = false) :
    c.stepAt depth count k = .ok (.keep k) := by
  unfold stepAt
  split
  · rename_i htop
    simp only [topLevel, Bool.and_eq_true, decide_eq_true_eq, h.kind?, Option.some.injEq] at htop
    obtain ⟨⟨rfl, hkind⟩, hmember⟩ := htop
    replace hw := hw.resolve_left (Nat.lt_irrefl 0)
    have hdot : before ∉ [".", "?."] := by
      simpa [hk, hbefore] using hmember
    rw [h.text]
    split
    · rename_i htext
      -- an import outside braces is followed by what makes it a value
      have hnext : us.head?.any (·.text ∈ ["(", "."]) = true := by
        simpa [Word.beginsModule, hkind, htext, hdot] using hw
      cases us with
      | nil => cases hnext
      | cons u us =>
        have htext' : c.text (k + 1) = u.text := h.tail.text
        rw [htext', if_pos (by simpa using hnext)]
    · rename_i htext
      simp [Word.beginsModule, hkind, htext, hdot] at hw
    · rfl
  · rfl

theorem stepAt_mark (h : c.Reads k n (w :: ws)) (hw : w.kind = .punctuator) :
    c.stepAt depth count k = .ok (.keep k) := by
  refine stepAt_keep h (.inr ?_)
  rintro ⟨hk, -⟩
  rw [hw] at hk
  cases hk

section
variable {closings : List String}

/-! The loop counts the braces among the brackets that a value has still to close. -/

theorem depthAfter_opens {closing : String} (h : c.Reads k n (w :: ws))
    (hopen : w.closing? = some closing) :
    c.depthAfter (closings.count "\x7d") k = (closing :: closings).count "\x7d" := by
  obtain ⟨hmark, hpair⟩ := Word.opens_of_closing? hopen
  rw [depthAfter_eq h]
  simp only [List.mem_cons, Prod.mk.injEq, List.not_mem_nil, or_false] at hpair
  rcases hpair with ⟨htext, rfl⟩ | ⟨htext, rfl⟩ | ⟨htext, rfl⟩
  · simp [Word.isMark, htext]
  · simp [Word.isMark, htext]
  · simp [Word.isMark, hmark, htext]

theorem depthAfter_closes (h : c.Reads k n (w :: ws)) (hclose : w.isClosing = true) :
    c.depthAfter ((w.text :: closings).count "\x7d") k = closings.count "\x7d" := by
  obtain ⟨hmark, hbracket⟩ := Word.closes_of_isClosing hclose
  rw [depthAfter_eq h]
  simp only [List.mem_cons, List.not_mem_nil, or_false] at hbracket
  rcases hbracket with htext | htext | htext
  · simp [Word.isMark, htext]
  · simp [Word.isMark, htext]
  · simp [Word.isMark, hmark, htext]

theorem depthAfter_neither (h : c.Reads k n (w :: ws)) (hopen : w.closing? = none)
    (hclose : w.isClosing = false) : c.depthAfter depth k = depth := by
  have hbrace : w.isMark "\x7d" = false := by
    rw [Word.isClosing, Bool.or_eq_false_iff] at hclose
    exact hclose.2
  rw [depthAfter_eq h, Word.isMark_brace_of_closing? hopen, hbrace]
  rfl

/-- A value stays, by induction on its words. -/
theorem lowerFrom_value (h : c.Reads k n (us ++ ws)) (hk : 0 < k)
    (hbefore : c.text (k - 1) = before) (hv : isValue before closings us = true) :
    c.lowerFrom (closings.count "\x7d") count k = c.lowerFrom 0 count (k + us.length) := by
  induction us generalizing k n before closings with
  | nil =>
    obtain rfl : closings = [] := by simpa [isValue] using hv
    rfl
  | cons w us ih =>
    have hread : c.Reads k n (w :: (us ++ ws)) := h
    have htext : c.text (k + 1 - 1) = w.text := hread.text
    rw [end_cons]
    rcases isValue_cons hv with ⟨closing, hopen, hrest⟩ | ⟨more, hclose, rfl, hrest⟩ |
      ⟨hopen, hclose, hstays, hrest⟩
    · have hmark := (Word.opens_of_closing? hopen).1
      rw [lowerFrom_keep hread.lt_size (stepAt_mark hread hmark), depthAfter_opens hread hopen,
        ih hread.tail (Nat.succ_pos k) htext hrest]
    · have hmark := (Word.closes_of_isClosing hclose).1
      rw [lowerFrom_keep hread.lt_size (stepAt_mark hread hmark), depthAfter_closes hread hclose,
        ih hread.tail (Nat.succ_pos k) htext hrest]
    · have hkeep : 0 < closings.count "\x7d" ∨ w.beginsModule before us = false :=
        hstays.imp_left List.count_pos_iff.mpr
      have hdepth := @depthAfter_neither c k n (closings.count "\x7d") w _ hread hopen hclose
      rw [lowerFrom_keep hread.lt_size (by rw [hdepth]; exact stepAt_stays hread hk hbefore hkeep),
        hdepth, ih hread.tail (Nat.succ_pos k) htext hrest]

end

/-! ### Passing over declarations -/

theorem lowerFrom_declarator {x : Declarator} (h : c.Reads k n (x.words ++ ws)) :
    c.lowerFrom 0 count k = c.lowerFrom 0 count (k + x.words.length) := by
  have hread : c.Reads k n
      ([⟨.identifier, x.name, x.gap⟩, .mark "=" x.equals] ++ (x.value ++ ws)) := h
  have hquiet : isQuiet 0 [⟨.identifier, x.name, x.gap⟩, .mark "=" x.equals] = true := by
    simp [isQuiet, Word.isMark, Word.mark]
  have hvalue : c.Reads (k + 2) _ (x.value ++ ws) := hread.append
  have hbefore : c.text (k + 2 - 1) = "=" := h.tail.text
  have hlen : k + x.words.length = k + 2 + x.value.length := by
    simp only [Declarator.words, List.length_cons]
    omega
  rw [lowerFrom_quiet hread hquiet, hlen]
  exact lowerFrom_value hvalue (Nat.succ_pos _) hbefore x.isValue

/-- The declarators behind the first are passed over, by induction on them. -/
theorem lowerFrom_more {more : List (String × Declarator)}
    (h : c.Reads k n (more.flatMap (fun m => .mark "," m.1 :: m.2.words) ++ ws)) :
    c.lowerFrom 0 count k = c.lowerFrom 0 count
      (k + (more.flatMap fun m => .mark "," m.1 :: m.2.words).length) := by
  induction more generalizing k n with
  | nil => rfl
  | cons m more ih =>
    rw [List.flatMap_cons, List.cons_append, List.cons_append, List.append_assoc] at h
    have hcomma : c.lowerFrom 0 count k = c.lowerFrom 0 count (k + 1) :=
      @lowerFrom_quiet c k n count 0 [.mark "," m.1] _ h (by simp [isQuiet, Word.isMark, Word.mark])
    rw [hcomma, lowerFrom_declarator h.tail, ih h.tail.append]
    congr 1
    simp only [List.flatMap_cons, List.length_append, List.length_cons]
    omega

theorem lowerFrom_kept {x : ExportedDeclaration} (h : c.Reads k n (x.kept ++ ws)) :
    c.lowerFrom 0 count k = c.lowerFrom 0 count (k + x.kept.length) := by
  have hread : c.Reads k n (.keyword x.binder x.binderGap :: (x.first.words ++
      (x.more.flatMap (fun m => .mark "," m.1 :: m.2.words) ++ .mark ";" x.semicolon :: ws))) := by
    simpa [ExportedDeclaration.kept, ExportedDeclaration.rest] using h
  have hbinder : c.lowerFrom 0 count k = c.lowerFrom 0 count (k + 1) := by
    refine @lowerFrom_quiet c k n count 0 [.keyword x.binder x.binderGap] _ hread ?_
    have hin := x.isBinder
    simp only [List.mem_cons, List.not_mem_nil, or_false] at hin
    rcases hin with hin | hin | hin <;> simp [hin, isQuiet, Word.isMark, Word.keyword]
  have hrest := hread.tail.append
  rw [hbinder, lowerFrom_declarator hread.tail, lowerFrom_more hrest,
    @lowerFrom_quiet c _ _ count 0 [.mark ";" x.semicolon] ws hrest.append
      (isQuiet_semicolon x.semicolon)]
  congr 1
  simp only [ExportedDeclaration.kept, ExportedDeclaration.rest, List.length_append,
    List.length_cons, List.length_nil]
  omega

/-- The step for the keyword looks at the first name only. -/
theorem stepAt_exportedDeclaration {x : ExportedDeclaration} (h : c.Reads k n (x.words ++ ws))
    (hk : c.Starts k) : c.stepAt 0 count k = .ok (c.declarationStep k [x.first.name]) := by
  have hbinder : c.text (k + 1) = x.binder := h.tail.text
  have hname : c.text (k + 2) = x.first.name := h.tail.tail.text
  have hkind : c.kind? (k + 2) = some .identifier := h.tail.tail.kind?
  have hin := x.isBinder
  rw [stepAt_export h hk, exportStep, hbinder, hname, hkind]
  simp only [List.mem_cons, List.not_mem_nil, or_false] at hin
  rcases hin with hin | hin | hin <;> rw [hin] <;> rfl

/-- What the main loop does with a declaration. -/
theorem lowerFrom_exportedDeclaration {x : ExportedDeclaration} (h : c.Reads k n (x.words ++ ws))
    (hk : c.Starts k) :
    c.lowerFrom 0 count k = (c.lowerFrom 0 count (k + x.words.length)).map fun r =>
      (c.dropKeyword k :: r.1, assignment x.first.name x.first.name :: r.2) := by
  have hdepth : c.depthAfter 0 k = 0 := depthAfter_keyword h.kind?
  have hlen : k + x.words.length = k + 1 + x.kept.length := by
    rw [ExportedDeclaration.words, List.length_cons]
    omega
  have hkept : c.lowerFrom 0 count (k + 1) = c.lowerFrom 0 count (k + 1 + x.kept.length) :=
    lowerFrom_kept h.tail
  rw [lowerFrom_turn h.lt_size, hdepth, stepAt_exportedDeclaration h hk, hlen, ← hkept]
  rfl

end Retouch.Code

namespace Retouch.Lower
open Syntax Text Code

/-! ### Lines behind the code -/

/-- Texts with the same code behind which more lines stand are longer. -/
theorem eq_nil_of_withLines {code line : String} {before more after : List String}
    (h : withLines code (before ++ line :: after) =
      withLines code (before ++ line :: (more ++ after))) : more = [] := by
  have hne (lines : List String) : before ++ line :: lines ≠ [] := by simp
  rw [withLines, withLines, if_neg (hne _), if_neg (hne _)] at h
  have hlength := congrArg String.length h
  simp only [List.map_append, List.map_cons, String.join_append, String.join_cons,
    String.length_append] at hlength
  cases more with
  | nil => rfl
  | cons l more =>
    exfalso
    simp only [List.map_cons, String.join_cons, String.length_append] at hlength
    have hend : ("\n" : String).length = 1 := rfl
    omega

/-! ### A declaration in its program -/

/-- The words of a text at their places. -/
theorem reads_wordsOf (d : Dialect) (source : String) :
    (codeOf d source).Reads 0 (byteLength (wordsOf (tokenize d source)).1.toList)
      (wordsOf (tokenize d source)).2 := by
  have hlaid := laid_wordsOf .origin (lexemes d source)
  rw [show Place.origin.offset = 0 from rfl, Nat.zero_add] at hlaid
  exact ⟨significant (tokenize d source), rfl, hlaid⟩

/-- A program in which a declaration stands outside braces where the main loop comes to
it, with the words before and behind it. -/
structure Exports (d : Dialect) (source : String) (x : ExportedDeclaration) (p : Progress)
    (before after : List Word) : Prop where
  words : (wordsOf (tokenize d source)).2 = before ++ (x.words ++ after)
  closed : endsOpen before = false
  reached : (codeOf d source).Reached p
  next : p.next = before.length
  depth : p.depth = 0

/-- The program without the keyword, if the declaration leaves some lines for the end. -/
def ExportedDeclaration.outcome (x : ExportedDeclaration) (c : Code) (p : Progress)
    (front back : String) (lines : List String) : Except LoweringError Lowered :=
  (c.lowerFrom 0 p.count (p.next + x.words.length)).map fun r =>
    ⟨withLines
      (String.ofList (splice 0 front.toList p.edits) ++ spelling x.kept ++
        String.ofList (splice (byteLength (front ++ spelling x.words).toList) back.toList r.1))
      (p.deferred ++ (lines ++ r.2)), true⟩

/-- The text up to the word behind some words. -/
def textBefore (d : Dialect) (source : String) (before : List Word) : String :=
  (wordsOf (tokenize d source)).1 ++ spelling before

section
variable {d : Dialect} {source : String} {x : ExportedDeclaration} {p : Progress}
  {before after : List Word}

theorem Exports.source_eq (h : Exports d source x p before after) :
    source = textBefore d source before ++ (spelling x.words ++ spelling after) := by
  have hwhole := spelling_wordsOf (tokenize d source)
  rw [tokenize_joined, h.words, spelling_append, spelling_append] at hwhole
  rw [textBefore, String.append_assoc]
  exact hwhole.symm

theorem Exports.reads (h : Exports d source x p before after) :
    (codeOf d source).Reads p.next (byteLength (textBefore d source before).toList)
      (x.words ++ after) := by
  have hread := reads_wordsOf d source
  rw [h.words] at hread
  have hat := hread.append
  rwa [Nat.zero_add, ← h.next, ← byteLength_append, ← String.toList_append] at hat

theorem Exports.starts (h : Exports d source x p before after) :
    (codeOf d source).Starts p.next := by
  have hread := reads_wordsOf d source
  rw [h.words] at hread
  have hstarts := hread.starts rfl h.closed
  rwa [Nat.zero_add, ← h.next] at hstarts

/-- The whole run, with the declaration in its midst. -/
theorem Exports.lowerFrom (h : Exports d source x p before after) :
    (codeOf d source).lowerFrom 0 0 0 =
      ((codeOf d source).lowerFrom 0 p.count (p.next + x.words.length)).map fun r =>
        (p.edits ++ (codeOf d source).dropKeyword p.next :: r.1,
          p.deferred ++ assignment x.first.name x.first.name :: r.2) := by
  rw [h.reached.lowerFrom, h.depth, lowerFrom_exportedDeclaration h.reads h.starts]
  cases (codeOf d source).lowerFrom 0 p.count (p.next + x.words.length) with
  | error e => rfl
  | ok r => rfl

/-- The keyword goes with the gap after it. -/
theorem Exports.dropKeyword (h : Exports d source x p before after) :
    (codeOf d source).dropKeyword p.next =
      ⟨byteLength (textBefore d source before).toList,
        byteLength (textBefore d source before).toList + byteLength ("export" ++ x.gap).toList,
        ""⟩ := by
  have hstart := h.reads.startOffset
  have hnext := h.reads.tail.startOffset
  rw [Code.dropKeyword, hstart, hnext]
  simp [Word.keyword, Nat.add_assoc]

/-- The edits before the declaration, its own, and those behind it. -/
theorem Exports.splice (h : Exports d source x p before after) {r : List Edit × List String}
    (hr : (codeOf d source).lowerFrom 0 p.count (p.next + x.words.length) = .ok r) :
    Lower.splice 0 source.toList (p.edits ++ (codeOf d source).dropKeyword p.next :: r.1) =
      Lower.splice 0 (textBefore d source before).toList p.edits ++ ((spelling x.kept).toList ++
        Lower.splice (byteLength (textBefore d source before ++ spelling x.words).toList)
          (spelling after).toList r.1) := by
  have hc : (codeOf d source).StandsIn ((textBefore d source before).toList ++
      (spelling x.words ++ spelling after).toList) := by
    rw [← String.toList_append, ← h.source_eq]
    exact standsIn_tokenize d source
  obtain ⟨out, hout⟩ := h.reached.replaced_front hc h.reads
  have hbehind : ∀ e ∈ r.1,
      byteLength (textBefore d source before ++ spelling x.words).toList ≤ e.start ∧
        byteLength (textBefore d source before ++ spelling x.words).toList ≤ e.stop := by
    intro e he
    obtain ⟨j, t, hj, ht, hstart, hlt⟩ := lowerFrom_behind hc hr e he
    have hle := h.reads.append.le_start hc ht hj
    rw [String.toList_append, byteLength_append]
    omega
  have hoffset : byteLength (textBefore d source before ++ spelling x.words).toList =
      byteLength (textBefore d source before).toList + byteLength ("export" ++ x.gap).toList +
        byteLength (spelling x.kept).toList := by
    simp [ExportedDeclaration.words, Word.keyword, Nat.add_assoc]
  have hyields := yields_splice (spelling after).toList hbehind
  rw [hoffset] at hyields ⊢
  -- the keyword goes, and the declaration stays
  have hown := (hyields.keep (spelling x.kept).toList).edit ("export" ++ x.gap).toList ""
  have htext : source.toList = (textBefore d source before).toList ++
      (("export" ++ x.gap).toList ++ ((spelling x.kept).toList ++ (spelling after).toList)) := by
    rw [congrArg String.toList h.source_eq]
    simp [ExportedDeclaration.words, Word.keyword]
  rw [htext, h.dropKeyword, hout.append (by rw [Nat.zero_add]; exact hown), hout.splice]
  rfl

theorem Exports.lower_eq (h : Exports d source x p before after) :
    lower d source = x.outcome (codeOf d source) p (textBefore d source before) (spelling after)
      [assignment x.first.name x.first.name] := by
  have hrun := h.lowerFrom
  rw [codeOf] at hrun
  rw [lower, hrun, ExportedDeclaration.outcome]
  cases hr : (codeOf d source).lowerFrom 0 p.count (p.next + x.words.length) with
  | error e =>
    rw [codeOf] at hr
    rw [hr]
    rfl
  | ok r =>
    have hsplice := h.splice hr
    rw [codeOf] at hr hsplice
    rw [hr]
    simp only [Except.map]
    rw [hsplice, ← ofList_withTrailer]
    simp [String.toList_append]

end

/-- An exported declaration stays without its keyword, and the name that it declares
first is exported behind the program, once and in its place among the other exports.
The names declared after it are not exported, so all of them are only if there is no
other, or if lowering fails somewhere else. -/
theorem lower_exportedDeclaration {d : Dialect} {source : String} {x : ExportedDeclaration}
    {p : Progress} {before after : List Word} (h : Exports d source x p before after) :
    source = textBefore d source before ++ (spelling x.words ++ spelling after) ∧
    lower d source = x.outcome (codeOf d source) p (textBefore d source before) (spelling after)
      [assignment x.first.name x.first.name] ∧
    (lower d source = x.outcome (codeOf d source) p (textBefore d source before) (spelling after)
        (x.names.map fun name => assignment name name) ↔
      x.more = [] ∨ lower d source = .error .cutShort) := by
  refine ⟨h.source_eq, h.lower_eq, ?_⟩
  rw [h.lower_eq, ExportedDeclaration.outcome, ExportedDeclaration.outcome]
  cases (codeOf d source).lowerFrom 0 p.count (p.next + x.words.length) with
  | error e =>
    cases e
    simp [Except.map]
  | ok r =>
    simp only [Except.map, Except.ok.injEq, Lowered.mk.injEq, and_true, reduceCtorEq, or_false]
    constructor
    · intro hlines
      have hmore := eq_nil_of_withLines hlines
      simpa using hmore
    · intro hmore
      simp [ExportedDeclaration.names, hmore]

/-- Two variables, whose values hold commas in brackets and an import of a value, behind
an import and before another export. -/
def pairDeclaration : ExportedDeclaration where
  gap := " "
  binder := "const"
  isBinder := by decide
  binderGap := " "
  first := ⟨"a", " ", " ", [⟨.identifier, "f", ""⟩, .mark "(" "", .mark "\x7b" "",
    ⟨.identifier, "x", ""⟩, .mark "," " ", ⟨.identifier, "y", ""⟩, .mark "\x7d" "",
    .mark "," " ", .mark "[" "", ⟨.number, "2", ""⟩, .mark "]" "", .mark ")" ""], by decide⟩
  more := [(" ", ⟨"b", " ", " ", [.keyword "import" "", .mark "(" "", ⟨.string, "'n'", ""⟩,
    .mark ")" ""], by decide⟩)]
  semicolon := "\n"

def pairModule : String :=
  "import 'm';\nexport const a = f(\x7bx, y\x7d, [2]), b = import('n');\nexport let c = a;"

def pairBefore : List Word :=
  [.keyword "import" " ", ⟨.string, "'m'", ""⟩, .mark ";" "\n"]

def pairAfter : List Word :=
  [.keyword "export" " ", .keyword "let" " ", ⟨.identifier, "c", " "⟩, .mark "=" " ",
    ⟨.identifier, "a", ""⟩, .mark ";" ""]

/-- The state of the main loop behind the import. -/
def pairProgress : Progress := ⟨[⟨0, 2, ⟨0, 10, "require('m')"⟩⟩], [], 0, 0, 3⟩

theorem pairModule_exports :
    Exports .js pairModule pairDeclaration pairProgress pairBefore pairAfter := by
  let behindImport : Progress := ⟨pairProgress.rewrites, [], 0, 0, 2⟩
  let c := codeOf .js pairModule
  have hrun : (wordsOf (tokenize .js pairModule)).2 =
        pairBefore ++ (pairDeclaration.words ++ pairAfter) ∧
      (0 < c.size ∧ (c.turn .start).toOption.map (c.afterStep .start) = some behindImport) ∧
      2 < c.size ∧ (c.turn behindImport).toOption.map (c.afterStep behindImport) =
        some pairProgress := by
    decide +kernel
  obtain ⟨hwords, ⟨hstart, himport⟩, hsize, hsemicolon⟩ := hrun
  exact ⟨hwords, rfl, (Reached.start.goes hstart himport).goes hsize hsemicolon, rfl, rfl⟩

theorem lower_exportedDeclaration_pair :
    Exports .js pairModule pairDeclaration pairProgress pairBefore pairAfter ∧
    lower .js pairModule = .ok ⟨"require('m');\nconst a = f(\x7bx, y\x7d, [2]), " ++
      "b = import('n');\nlet c = a;\nmodule.exports.a = a;\nmodule.exports.c = c;\n", true⟩ ∧
    lower .js pairModule ≠ pairDeclaration.outcome (codeOf .js pairModule) pairProgress
      "import 'm';\n" "export let c = a;" ["module.exports.a = a;", "module.exports.b = b;"] := by
  obtain ⟨-, hlower, hall⟩ := lower_exportedDeclaration pairModule_exports
  have hfront : textBefore .js pairModule pairBefore = "import 'm';\n" := by
    decide +kernel
  have hok : lower .js pairModule = .ok ⟨"require('m');\nconst a = f(\x7bx, y\x7d, [2]), " ++
      "b = import('n');\nlet c = a;\nmodule.exports.a = a;\nmodule.exports.c = c;\n", true⟩ := by
    rw [hlower]
    decide +kernel
  refine ⟨pairModule_exports, hok, ?_⟩
  intro hboth
  rw [hfront] at hall
  rcases hall.mp hboth with hmore | herror
  · cases hmore
  · cases hok.symm.trans herror

/-- The second name of a declaration is lost. -/
theorem lower_secondDeclarator_lost :
    lower .js "export const a = 1, b = 2;" =
      .ok ⟨"const a = 1, b = 2;\nmodule.exports.a = a;\n", true⟩ ∧
    lower .js "export const a = 1, b = 2;" ≠
      .ok ⟨"const a = 1, b = 2;\nmodule.exports.a = a;\nmodule.exports.b = b;\n", true⟩ := by
  decide +kernel

end Retouch.Lower
