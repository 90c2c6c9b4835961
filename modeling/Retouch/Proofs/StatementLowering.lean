import Retouch.Proofs.ModuleClauses

/-! Each import and export statement on its own. `c.Lowers s` says that `s` makes its
own edit wherever it stands, that the edit turns its text into `s.lowered`, and
that the loop goes on behind it at brace depth 0. All that the statements around it
contribute is the number of modules before it. -/

namespace Retouch.Lower
open Syntax Text

/-! ### Edits one after the other -/

/-- Edits of a text that stands at offset `n` make `out` of it, whatever stands
before it. -/
def Yields (n : Nat) (input : List Char) (edits : List Edit) (out : List Char) : Prop :=
  ∀ (cursor : Nat) (before : List Char), cursor + byteLength before = n →
    splice cursor (before ++ input) edits = before ++ out

theorem Yields.nil (n : Nat) (input : List Char) : Yields n input [] input := fun _ _ _ => rfl

theorem Yields.keep {n : Nat} {input out : List Char} {es : List Edit} (a : List Char)
    (h : Yields (n + byteLength a) input es out) : Yields n (a ++ input) es (a ++ out) := by
  intro cursor before hn
  rw [← List.append_assoc, ← List.append_assoc]
  exact h cursor (before ++ a) (by rw [byteLength_append]; omega)

theorem Yields.edit {n : Nat} {input out : List Char} {es : List Edit} (a : List Char)
    (text : String) (h : Yields (n + byteLength a) input es out) :
    Yields n (a ++ input) (⟨n, n + byteLength a, text⟩ :: es) (text.toList ++ out) := by
  intro cursor before hn
  have hstart : n - cursor = byteLength before := by omega
  have hstop : n + byteLength a - cursor = byteLength (before ++ a) := by
    rw [byteLength_append]
    omega
  have hrest := h (n + byteLength a) [] rfl
  rw [splice, hstart, hstop, takeBytes_byteLength, ← List.append_assoc before a,
    dropBytes_byteLength]
  rw [List.nil_append, List.nil_append] at hrest
  rw [hrest, List.append_assoc]

/-! ### Quiet stretches -/

theorem isQuiet_append {depth : Nat} {us vs : List Word} (hu : isQuiet depth us = true)
    (hv : isQuiet 0 vs = true) : isQuiet depth (us ++ vs) = true := by
  induction us generalizing depth with
  | nil =>
    obtain rfl : depth = 0 := by simpa [isQuiet] using hu
    exact hv
  | cons w us ih =>
    rw [isQuiet] at hu
    rw [List.cons_append, isQuiet]
    split at hu
    · rename_i ho
      rw [if_pos ho, ih hu]
    · rename_i ho
      rw [if_neg ho]
      split at hu
      · rename_i hc
        rw [Bool.and_eq_true] at hu
        rw [if_pos hc, hu.1, ih hu.2]
        rfl
      · rename_i hc
        rw [Bool.and_eq_true] at hu
        rw [if_neg hc, hu.1, ih hu.2]
        rfl

theorem isQuiet_semicolon (gap : String) : isQuiet 0 [.mark ";" gap] = true := by
  simp [isQuiet, Word.isMark, Word.mark]

theorem Head.quiet (head : Head) : isQuiet 0 head.words = true := by
  cases head with
  | ofFunction async gap star f =>
    cases async <;> cases star <;>
      simp [Head.words, isQuiet, Word.isMark, Word.keyword, Word.mark, Name.word, Soft.word]
  | ofClass gap c => simp [Head.words, isQuiet, Word.isMark, Word.keyword, Name.word]

end Retouch.Lower

namespace Retouch.Code
open Syntax Text Lower

variable {c : Code} {k n count depth : Nat} {w : Word} {us ws : List Word}

/-! ### One turn of the loop -/

theorem lowerFrom_step (hk : k < c.size) {s : Step k}
    (hs : c.stepAt (c.depthAfter depth k) count k = .ok s) {edits : List Edit}
    {lines : List String}
    (hrest : c.lowerFrom (c.depthAfter depth k) (if s.numbered then count + 1 else count) s.next =
      .ok (edits, lines)) :
    c.lowerFrom depth count k = .ok (s.edit.toList ++ edits, s.deferred ++ lines) := by
  obtain ⟨edit, deferred, numbered, next, hlt⟩ := s
  rw [lowerFrom, dif_pos hk, hs]
  dsimp only at hrest ⊢
  rw [hrest]

theorem lowerFrom_keep (hk : k < c.size)
    (hs : c.stepAt (c.depthAfter depth k) count k = .ok (.keep k)) :
    c.lowerFrom depth count k = c.lowerFrom (c.depthAfter depth k) count (k + 1) := by
  rw [lowerFrom, dif_pos hk, hs]
  simp only [Step.keep, Bool.false_eq_true, if_false]
  cases c.lowerFrom (c.depthAfter depth k) count (k + 1) with
  | error e => rfl
  | ok r => rfl

theorem lowerFrom_end (h : c.Reads k n []) : c.lowerFrom depth count k = .ok ([], []) := by
  rw [lowerFrom, dif_neg (Nat.not_lt.mpr h.size_le)]

theorem depthAfter_eq (h : c.Reads k n (w :: ws)) : c.depthAfter depth k =
    if w.isMark "\x7b" then depth + 1 else if w.isMark "\x7d" then depth - 1 else depth := by
  rw [depthAfter, h.punct, h.punct]

/-- A word that is no import or export keyword outside braces stays. -/
theorem stepAt_keep (h : c.Reads k n (w :: ws))
    (hw : 0 < depth ∨ ¬(w.kind = .keyword ∧ w.text ∈ ["import", "export"])) :
    c.stepAt depth count k = .ok (.keep k) := by
  unfold stepAt
  split
  · rename_i ht
    simp only [topLevel, Bool.and_eq_true, decide_eq_true_eq, h.kind?, Option.some.injEq] at ht
    obtain ⟨⟨rfl, hk⟩, -⟩ := ht
    have hn : w.text ∉ ["import", "export"] := fun hm =>
      hw.elim (Nat.lt_irrefl 0) fun hw => hw ⟨hk, hm⟩
    rw [h.text]
    split <;> simp_all
  · rfl

/-- A quiet stretch stays, and leaves no brace open. -/
theorem lowerFrom_quiet (h : c.Reads k n (us ++ ws)) (hq : isQuiet depth us = true) :
    c.lowerFrom depth count k = c.lowerFrom 0 count (k + us.length) := by
  induction us generalizing k n depth with
  | nil =>
    obtain rfl : depth = 0 := by simpa [isQuiet] using hq
    rfl
  | cons w us ih =>
    -- The loop and the stretch count braces alike, so the depths stay the same.
    have hd := @depthAfter_eq c k n depth w (us ++ ws) h
    rw [isQuiet] at hq
    rw [end_cons]
    split at hq
    · rename_i ho
      rw [if_pos ho] at hd
      rw [lowerFrom_keep h.lt_size (by rw [hd]; exact stepAt_keep h (.inl (Nat.succ_pos depth))),
        hd, ih h.tail hq]
    · rename_i ho
      rw [if_neg ho] at hd
      split at hq
      · rename_i hc
        rw [if_pos hc] at hd
        rw [Bool.and_eq_true, decide_eq_true_eq] at hq
        have hmark : ¬(w.kind = .keyword ∧ w.text ∈ ["import", "export"]) := by
          simp only [Word.isMark, Bool.and_eq_true, decide_eq_true_eq] at hc
          simp [hc.1]
        rw [lowerFrom_keep h.lt_size (by rw [hd]; exact stepAt_keep h (.inr hmark)), hd,
          ih h.tail hq.2]
      · rename_i hc
        rw [if_neg hc] at hd
        rw [Bool.and_eq_true, Bool.or_eq_true] at hq
        have hkeep : 0 < depth ∨ ¬(w.kind = .keyword ∧ w.text ∈ ["import", "export"]) := by
          refine hq.1.imp of_decide_eq_true fun hno hw => ?_
          simp [hw.1, hw.2] at hno
        rw [lowerFrom_keep h.lt_size (by rw [hd]; exact stepAt_keep h hkeep), hd, ih h.tail hq.2]

/-! ### Statements -/

/-- A token that names no member. -/
def Starts (c : Code) (k : Nat) : Prop :=
  (decide (0 < k) && decide (c.text (k - 1) ∈ [".", "?."])) = false

theorem Reads.starts (h : c.Reads k n (us ++ ws)) (hk : c.Starts k)
    (hu : endsOpen us = false) : c.Starts (k + us.length) := by
  cases hl : us.getLast? with
  | none =>
    rw [List.getLast?_eq_none_iff] at hl
    rwa [hl]
  | some w =>
    obtain ⟨xs, rfl⟩ := List.getLast?_eq_some_iff.mp hl
    rw [List.append_assoc] at h
    have htext : c.text (k + xs.length) = w.text := h.append.text
    have hopen : w.text ∉ [".", "?."] := by simpa [endsOpen] using hu
    simp [Starts, ← Nat.add_assoc, htext, hopen]

theorem topLevel_keyword {text gap : String} (h : c.Reads k n (.keyword text gap :: ws))
    (hk : c.Starts k) : c.topLevel 0 k = true := by
  unfold Starts at hk
  rw [topLevel, h.kind?, hk]
  rfl

theorem stepAt_import {gap : String} (h : c.Reads k n (.keyword "import" gap :: ws))
    (hk : c.Starts k) (hw : c.text (k + 1) ∉ ["(", "."]) :
    c.stepAt 0 count k = .ok (c.importStep count k) := by
  have h₀ : c.text k = "import" := h.text
  rw [stepAt, if_pos (topLevel_keyword h hk), h₀]
  simp only [hw, if_false]

theorem stepAt_export {gap : String} (h : c.Reads k n (.keyword "export" gap :: ws))
    (hk : c.Starts k) : c.stepAt 0 count k = c.exportStep k := by
  have h₀ : c.text k = "export" := h.text
  rw [stepAt, if_pos (topLevel_keyword h hk), h₀]
  rfl

/-- What a step does. -/
structure Takes {k : Nat} (s : Lower.Step k) (edit : Edit) (lines : List String)
    (numbered : Bool) (next : Nat) : Prop where
  edit : s.edit = some edit
  deferred : s.deferred = lines
  numbered : s.numbered = numbered
  next : s.next = next

/-- Some words at `k` and offset `n` become `out` and leave some lines for the end;
`edited` tells that an edit was made. -/
def Becomes (c : Code) (count k n : Nat) (us : List Word) (numbered : Bool) (out : String)
    (lines : List String) (edited : Bool) : Prop :=
  ∃ edits : List Edit, edits.isEmpty = !edited ∧
    (∀ es ls, c.lowerFrom 0 (if numbered then count + 1 else count) (k + us.length) =
        .ok (es, ls) →
      c.lowerFrom 0 count k = .ok (edits ++ es, lines ++ ls)) ∧
    ∀ input es rest, Yields (n + byteLength (spelling us).toList) input es rest →
      Yields n ((spelling us).toList ++ input) (edits ++ es) (out.toList ++ rest)

variable {lines : List String} {numbered : Bool} {text out : String} {rest : List Word}
  {source : Nat}

/-- A step whose edit covers the text `a`, before some words that stay. -/
theorem becomes_edit {first : Word} {front : List Word} {a b : String}
    (h : c.Reads k n ((first :: front) ++ (rest ++ ws))) (hfirst : first.kind = .keyword)
    {s : Lower.Step k} (hs : c.stepAt 0 count k = .ok s)
    (ht : Takes s ⟨n, n + byteLength a.toList, text⟩ lines numbered (k + (first :: front).length))
    (ha : spelling (first :: front) = a ++ b) (hq : isQuiet 0 rest = true) :
    Becomes c count k n ((first :: front) ++ rest) numbered (text ++ b ++ spelling rest) lines
      true := by
  have hdepth : c.depthAfter 0 k = 0 := by
    rw [depthAfter_eq h]
    simp [Word.isMark, hfirst]
  refine ⟨[⟨n, n + byteLength a.toList, text⟩], rfl, ?_, ?_⟩
  · intro es ls hrest
    -- The step jumps over its own words; the words that stay are quiet.
    have hnext : c.lowerFrom 0 (if numbered then count + 1 else count)
        (k + (first :: front).length) = .ok (es, ls) := by
      rw [lowerFrom_quiet h.append hq, Nat.add_assoc, ← List.length_append, hrest]
    have hstep := lowerFrom_step h.lt_size (by rw [hdepth]; exact hs)
      (by rw [hdepth, ht.numbered, ht.next]; exact hnext)
    rw [ht.edit, ht.deferred] at hstep
    exact hstep
  · intro input es o hy
    -- One edit for `a`, then `b` and the rest unchanged.
    rw [spelling_append, ha] at hy ⊢
    simp only [String.toList_append, byteLength_append, List.append_assoc] at hy ⊢
    refine Yields.edit a.toList text ?_
    rw [← List.append_assoc b.toList, ← List.append_assoc b.toList]
    refine Yields.keep _ ?_
    rwa [byteLength_append, Nat.add_assoc]

/-! ### Edits of statements -/

/-- A step that replaces the words up to `w`. -/
theorem becomes_replace {first : Word} (front : List Word) (w : Word) (rest : List Word)
    (hus : us = first :: (front ++ w :: rest)) (h : c.Reads k n (us ++ ws))
    (hfirst : first.kind = .keyword) {s : Lower.Step k} (hs : c.stepAt 0 count k = .ok s)
    (ht : Takes s (c.replace k (k + 1 + front.length) text) lines numbered
      (k + 1 + front.length + 1))
    (hq : isQuiet 0 rest = true) (hout : text ++ w.gap ++ spelling rest = out) :
    Becomes c count k n us numbered out lines true := by
  have hcut : us = (first :: (front ++ [w])) ++ rest := by simp [hus]
  have hread : c.Reads k n (first :: (front ++ w :: (rest ++ ws))) := by simpa [hus] using h
  have hedit : c.replace k (k + 1 + front.length) text =
      ⟨n, n + byteLength (spelling (first :: front) ++ w.text).toList, text⟩ := by
    rw [replace, hread.startOffset, hread.tail.append.stopOffset]
    simp [Nat.add_assoc]
  have hnext : k + 1 + front.length + 1 = k + (first :: (front ++ [w])).length := by
    simp only [List.length_cons, List.length_append, List.length_nil]
    omega
  rw [hedit, hnext] at ht
  rw [hcut, List.append_assoc] at h
  rw [hcut, ← hout]
  refine becomes_edit h hfirst hs ht ?_ hq
  simp [String.append_assoc]

/-- A step that drops the keyword and the gap after it. -/
theorem becomes_dropKeyword {first : Word} (h : c.Reads k n (first :: (rest ++ ws)))
    (hfirst : first.kind = .keyword) (hne : rest ≠ []) {s : Lower.Step k}
    (hs : c.stepAt 0 count k = .ok s) (ht : Takes s (c.dropKeyword k) lines numbered (k + 1))
    (hq : isQuiet 0 rest = true) :
    Becomes c count k n (first :: rest) numbered (spelling rest) lines true := by
  have hedit : c.dropKeyword k = ⟨n, n + byteLength (first.text ++ first.gap).toList, ""⟩ := by
    obtain ⟨w, rest, rfl⟩ := List.exists_cons_of_ne_nil hne
    have hnext := h.tail.startOffset
    rw [dropKeyword, h.startOffset, hnext]
    simp [Nat.add_assoc]
  rw [hedit] at ht
  have ha : spelling [first] = first.text ++ first.gap ++ "" := by simp
  have hcut : c.Reads k n ([first] ++ (rest ++ ws)) := h
  simpa using becomes_edit hcut hfirst hs ht ha hq

/-- A statement that ends with a source becomes some text in front of what stays. -/
theorem becomes_sourced {first : Word} {front : List Word} {origin : Origin}
    (hus : us = first :: (front ++ origin.words)) (h : c.Reads k n (us ++ ws))
    (hfirst : first.kind = .keyword) {s : Lower.Step k} (hs : c.stepAt 0 count k = .ok s)
    (ht : Takes s (c.replace k (k + 1 + front.length + 1) text) lines numbered
      (k + 1 + front.length + 2)) :
    Becomes c count k n us numbered (text ++ origin.rest) lines true := by
  have hout : text ++ origin.source.word.gap ++ spelling [.mark ";" origin.semicolon] =
      text ++ origin.rest := by
    simp [Origin.rest, String.append_assoc]
  refine becomes_replace (front ++ [origin.link.word "from"]) origin.source.word
    [.mark ";" origin.semicolon] (by simp [hus, Origin.words]) h hfirst hs ?_
    (isQuiet_semicolon origin.semicolon) hout
  rw [List.length_append]
  exact ht

/-- A statement that is removed with the semicolon after its last word. -/
theorem becomes_removed (first : Word) (front : List Word) {semicolon : String} {last : Nat}
    (hus : us = first :: (front ++ [.mark ";" semicolon])) (h : c.Reads k n (us ++ ws))
    (hfirst : first.kind = .keyword) {s : Lower.Step k} (hs : c.stepAt 0 count k = .ok s)
    (hlast : last = k + front.length)
    (ht : Takes s (c.replace k (c.withSemicolon last) "") lines numbered
      (c.withSemicolon last + 1)) :
    Becomes c count k n us numbered semicolon lines true := by
  have hread : c.Reads k n ((first :: front) ++ .mark ";" semicolon :: ws) := by
    simpa [hus] using h
  have hnext : last + 1 = k + 1 + front.length := by omega
  have hsemicolon : c.text (last + 1) = ";" := by
    rw [hlast]
    exact hread.append.text
  rw [withSemicolon, if_pos hsemicolon, hnext] at ht
  exact becomes_replace front (.mark ";" semicolon) [] hus h hfirst hs ht rfl (by simp)

/-! ### Import statements -/

theorem importStep_effects (hk : c.kind? (k + 1) = some .string) :
    Takes (c.importStep count k) (c.replace k (k + 1) (required (c.text (k + 1)))) [] false
      (k + 2) := by
  unfold importStep
  rw [if_pos hk]
  exact ⟨rfl, rfl, rfl, rfl⟩

/-- An import with a source after `from`: of types, or of bindings. -/
theorem importStep_sourced (hk : c.kind? (k + 1) ≠ some .string)
    (hf : c.find (k + 1) "from" = some source) (hs : c.kind? (source + 1) = some .string) :
    ((c.text (k + 1) = "type" && c.text (k + 2) ∉ ["from", ","]) = true →
      Takes (c.importStep count k) (c.replace k (c.withSemicolon (source + 1)) "") [] false
        (c.withSemicolon (source + 1) + 1)) ∧
    ((c.text (k + 1) = "type" && c.text (k + 2) ∉ ["from", ","]) = false →
      Takes (c.importStep count k)
        (c.replace k (source + 1) ("const " ++ commaSeparated
          (("__import" ++ toString count ++ " = " ++ required (c.text (source + 1))) ::
            c.clauseDeclarators ("__import" ++ toString count) source (k + 1)))) [] true
        (source + 2)) := by
  unfold importStep
  rw [if_neg hk]
  split
  · rename_i hnone
    rw [hf] at hnone
    cases hnone
  · rename_i source' hf'
    obtain rfl := Option.some.inj (hf.symm.trans hf')
    rw [if_neg (not_not_intro hs)]
    constructor
    · intro ht
      rw [if_pos ht]
      exact ⟨rfl, rfl, rfl, rfl⟩
    · intro ht
      rw [if_neg (by rw [ht]; decide)]
      exact ⟨rfl, rfl, rfl, rfl⟩

/-- A statement becomes what it should wherever it stands. -/
def Lowers (c : Code) (s : Statement) : Prop :=
  ∀ (count k n : Nat) (ws : List Word), c.Reads k n (s.words ++ ws) → c.Starts k →
    Becomes c count k n s.words s.isNumbered (s.lowered count) s.deferred s.isModule

theorem lowers_importEffects (gap : String) (source : Literal) (semicolon : String) :
    c.Lowers (.importEffects gap source semicolon) := by
  intro count k n ws h hk
  have h₁ : c.text (k + 1) = source.text := h.tail.text
  have hquoted : c.text (k + 1) ∉ ["(", "."] := by
    rw [h₁]
    intro hm
    have hopen : ∀ s ∈ ["(", "."], s.toList.head?.any (fun c => c = '"' || c = '\'') = false := by
      decide
    have hq := source.quoted
    rw [hopen _ hm] at hq
    cases hq
  have ht := @importStep_effects c k count h.tail.kind?
  rw [h₁] at ht
  have hlow : (Statement.importEffects gap source semicolon).lowered count =
      "require(" ++ source.text ++ ")" ++ source.gap ++ ";" ++ semicolon := rfl
  refine becomes_replace [] source.word [.mark ";" semicolon] rfl h rfl
    (stepAt_import h hk hquoted) ht (isQuiet_semicolon semicolon) ?_
  rw [hlow]
  simp [required, String.append_assoc]

/-- An import of bindings begins neither with a source nor with the word for types.
A default binding may be named `type`; then `from` or a comma comes next. -/
theorem Reads.clause_head {clause : Clause} {origin : Origin}
    (h : c.Reads k n (clause.words ++ (origin.words ++ ws))) :
    c.kind? k ≠ some .string ∧ c.text k ∉ ["(", "."] ∧
      (c.text k = "type" && c.text (k + 1) ∉ ["from", ","]) = false := by
  have hname (d : Name) : d.text ∉ ["(", "."] := notMem_of_isPlainName d.plain (by decide)
  cases clause with
  | single d =>
    have h₀ : c.text k = d.text := h.text
    have h₁ : c.text (k + 1) = "from" := h.tail.text
    have hkind : c.kind? k = some .identifier := h.kind?
    exact ⟨by simp [hkind], h₀ ▸ hname d, by simp [h₁]⟩
  | whole star as ns =>
    have h₀ : c.text k = "*" := h.text
    have hkind : c.kind? k = some .punctuator := h.kind?
    exact ⟨by simp [hkind], by simp [h₀], by simp [h₀]⟩
  | listed l =>
    have h₀ : c.text k = "\x7b" := h.text
    have hkind : c.kind? k = some .punctuator := h.kind?
    exact ⟨by simp [hkind], by simp [h₀], by simp [h₀]⟩
  | singleListed d comma l =>
    have h₀ : c.text k = d.text := h.text
    have h₁ : c.text (k + 1) = "," := h.tail.text
    have hkind : c.kind? k = some .identifier := h.kind?
    exact ⟨by simp [hkind], h₀ ▸ hname d, by simp [h₁]⟩
  | singleWhole d comma star as ns =>
    have h₀ : c.text k = d.text := h.text
    have h₁ : c.text (k + 1) = "," := h.tail.text
    have hkind : c.kind? k = some .identifier := h.kind?
    exact ⟨by simp [hkind], h₀ ▸ hname d, by simp [h₁]⟩

theorem lowers_importBindings (gap : String) (clause : Clause) (origin : Origin) :
    c.Lowers (.importBindings gap clause origin) := by
  intro count k n ws h hk
  have hread : c.Reads k n (.keyword "import" gap :: (clause.words ++ (origin.words ++ ws))) := by
    simpa [Statement.words] using h
  obtain ⟨hkind, hopen, htype⟩ := hread.tail.clause_head
  have hsource : c.text (k + 1 + clause.words.length + 1) = origin.source.text :=
    hread.tail.append.tail.text
  have ht := (@importStep_sourced c k count _ hkind hread.tail.find_from
    hread.tail.append.tail.kind?).2 htype
  rw [hsource, clauseDeclarators_clause hread.tail] at ht
  exact becomes_sourced rfl h rfl (stepAt_import h hk hopen) ht

theorem lowers_importTypes (gap : String) (type : Soft) (names : NameList) (origin : Origin) :
    c.Lowers (.importTypes gap type names origin) := by
  intro count k n ws h hk
  have hread : c.Reads k n (.keyword "import" gap :: type.word "type" ::
      (names.words ++ (origin.words ++ ws))) := by
    simpa [Statement.words] using h
  have hlist := hread.tail.tail
  have h₁ : c.text (k + 1) = "type" := hread.tail.text
  have h₂ : c.text (k + 2) = "\x7b" := hlist.text
  have hkind : c.kind? (k + 1) ≠ some .string := by
    rw [hread.tail.kind?]
    have hsoft := type.soft
    rintro heq
    rw [show type.kind = .string from Option.some.inj heq] at hsoft
    revert hsoft
    decide
  have hfind : c.find (k + 1) "from" = some (k + 2 + names.words.length) := by
    rw [find, @findOnLevel_skip c (k + 1) _ [type.word "type"] _ _ _ hread.tail
      (by simp [levelMarks])]
    exact hlist.find_across.trans (findOnLevel_hit hlist.append)
  have ht := (@importStep_sourced c k count _ hkind hfind hlist.append.tail.kind?).1
    (by simp [h₁, h₂])
  have hwords : (Statement.importTypes gap type names origin).words = .keyword "import" gap ::
      ((type.word "type" :: (names.words ++ [origin.link.word "from", origin.source.word])) ++
        [.mark ";" origin.semicolon]) := by
    simp [Statement.words, Origin.words]
  refine becomes_removed _ _ hwords h rfl (stepAt_import h hk (by simp [h₁])) ?_ ht
  simp only [List.length_cons, List.length_append, List.length_nil]
  omega

/-! ### Export statements -/

variable {gap : String}

theorem lowers_exportAssign (gap equals : String) (value : Stretch) (semicolon : String) :
    c.Lowers (.exportAssign gap equals value semicolon) := by
  intro count k n ws h hk
  have h₁ : c.text (k + 1) = "=" := h.tail.text
  have hstep : c.stepAt 0 count k =
      .ok ⟨some (c.replace k (k + 1) "module.exports ="), [], false, k + 2, by omega⟩ := by
    rw [stepAt_export h hk, exportStep, h₁]
    rfl
  have hlow : (Statement.exportAssign gap equals value semicolon).lowered count =
      "module.exports =" ++ equals ++ spelling value.words ++ ";" ++ semicolon := rfl
  refine becomes_replace [] (.mark "=" equals) (value.words ++ [.mark ";" semicolon]) rfl h rfl
    hstep ⟨rfl, rfl, rfl, rfl⟩ (isQuiet_append value.quiet (isQuiet_semicolon semicolon)) ?_
  rw [hlow]
  simp [String.append_assoc]

theorem Reads.head_kind? (h : c.Reads k n ws) : c.kind? k = ws.head?.map Word.kind := by
  cases ws with
  | nil => simpa [Code.kind?, Code.size] using h.size_le
  | cons w ws => exact h.kind?

theorem Reads.head_text (h : c.Reads k n ws) : c.text k = (ws.head?.map Word.text).getD "" := by
  cases ws with
  | nil =>
    have hnone : c.tokens[k]? = none := by simpa [Code.size] using h.size_le
    simp [Code.text, hnone]
  | cons w ws => exact h.text

theorem Reads.declaredAt (h : c.Reads k n ws) :
    c.kind? (c.declaredAt k) = some .identifier ↔ bindsNext ws = true := by
  rw [Code.declaredAt, h.head_text]
  cases ws with
  | nil => simp [h.head_kind?, bindsNext]
  | cons w ws =>
    have hnext := h.tail.head_kind?
    by_cases hstar : w.text = "*"
    · cases ws <;> simp [hstar, bindsNext, hnext]
    · simp [hstar, bindsNext, h.kind?]

theorem defaultStep_value (h : c.Reads (k + 2) n ws) (hws : beginsDeclaration ws = false) :
    Takes (c.defaultStep k) (c.replace k (k + 1) "module.exports.default =") [] false (k + 2) := by
  unfold defaultStep
  dsimp only
  split
  · rename_i j hj
    exfalso
    obtain ⟨hj, hkind⟩ := Option.filter_eq_some_iff.mp hj
    rw [decide_eq_true_eq] at hkind
    obtain ⟨w, ws, rfl⟩ : ∃ w vs, ws = w :: vs := by
      cases ws with
      | nil => simp [h.head_text] at hj
      | cons w ws => exact ⟨w, ws, rfl⟩
    rw [h.text] at hj
    split at hj
    · rename_i htext
      obtain rfl := Option.some.inj hj
      simp [beginsDeclaration, htext, h.tail.declaredAt.mp hkind] at hws
    · rename_i htext
      obtain rfl := Option.some.inj hj
      simp [beginsDeclaration, htext, h.tail.declaredAt.mp hkind] at hws
    · rename_i htext
      split at hj
      · rename_i hfunction
        obtain rfl := Option.some.inj hj
        obtain ⟨v, ws, rfl⟩ : ∃ v vs, ws = v :: vs := by
          cases ws with
          | nil => simp [h.tail.head_text] at hfunction
          | cons v ws => exact ⟨v, ws, rfl⟩
        rw [h.tail.text] at hfunction
        simp [beginsDeclaration, htext, hfunction, h.tail.tail.declaredAt.mp hkind] at hws
      · cases hj
    · cases hj
  · exact ⟨rfl, rfl, rfl, rfl⟩

theorem beginsDeclaration_semicolon {semicolon : String} (us ws : List Word) :
    beginsDeclaration (us ++ .mark ";" semicolon :: ws) = beginsDeclaration us := by
  have hnext (vs : List Word) : bindsNext (vs ++ .mark ";" semicolon :: ws) = bindsNext vs := by
    match vs with
    | [] => simp [bindsNext, Word.mark]
    | [v] => simp [bindsNext, Word.mark]
    | v :: u :: vs => simp [bindsNext]
  match us with
  | [] => simp [beginsDeclaration]
  | [u] => simp [beginsDeclaration, bindsNext, Word.mark]
  | u :: v :: us =>
    have hmore := hnext (v :: us)
    rw [List.cons_append] at hmore
    simp [beginsDeclaration, hnext, hmore]

/-- The name that the head of a declaration binds, past an asterisk. -/
theorem Reads.declares {star : Option String} {f : Name}
    (h : c.Reads k n (star.toList.map (.mark "*") ++ f.word :: ws)) :
    c.text (c.declaredAt k) = f.text ∧ c.kind? (c.declaredAt k) = some .identifier := by
  cases star with
  | none =>
    have h₀ : c.text k = f.text := h.text
    have hstar : f.text ∉ ["*"] := notMem_of_isPlainName f.plain (by decide)
    rw [Code.declaredAt, if_neg (by rw [h₀]; simpa using hstar)]
    exact ⟨h₀, h.kind?⟩
  | some star =>
    have h₀ : c.text k = "*" := h.text
    rw [Code.declaredAt, if_pos h₀]
    exact ⟨h.tail.text, h.tail.kind?⟩

/-- Where the head of a declaration at `k` has its name. -/
theorem Reads.head_name {head : Head} (h : c.Reads k n (head.words ++ ws)) :
    ∃ j, c.text j = head.name ∧ c.kind? j = some .identifier ∧
      ((c.text k ∈ ["function", "class"] ∧ j = c.declaredAt (k + 1)) ∨
        (c.text k = "async" ∧ c.text (k + 1) = "function" ∧ j = c.declaredAt (k + 2))) := by
  cases head with
  | ofFunction async gap star f =>
    cases async with
    | none =>
      have h₀ : c.text k = "function" := h.text
      have hread : c.Reads k n
          (.keyword "function" gap :: (star.toList.map (.mark "*") ++ f.word :: ws)) := by
        simpa [Head.words] using h
      obtain ⟨hname, hkind⟩ := hread.tail.declares
      exact ⟨_, hname, hkind, .inl ⟨by simp [h₀], rfl⟩⟩
    | some async =>
      have h₀ : c.text k = "async" := h.text
      have h₁ : c.text (k + 1) = "function" := h.tail.text
      have hread : c.Reads k n (async.word "async" :: .keyword "function" gap ::
          (star.toList.map (.mark "*") ++ f.word :: ws)) := by
        simpa [Head.words] using h
      obtain ⟨hname, hkind⟩ := hread.tail.tail.declares
      exact ⟨_, hname, hkind, .inr ⟨h₀, h₁, rfl⟩⟩
  | ofClass gap d =>
    have h₀ : c.text k = "class" := h.text
    obtain ⟨hname, hkind⟩ := @Reads.declares c (k + 1) _ ws none d h.tail
    exact ⟨_, hname, hkind, .inl ⟨by simp [h₀], rfl⟩⟩

theorem defaultStep_head {head : Head} (h : c.Reads (k + 2) n (head.words ++ ws)) :
    Takes (c.defaultStep k) (c.replace k (k + 1) "") [assignment "default" head.name] false
      (k + 2) := by
  obtain ⟨j, hname, hkind, hplace⟩ := h.head_name
  rw [← hname]
  unfold defaultStep
  rcases hplace with ⟨htext, rfl⟩ | ⟨htext, hfunction, rfl⟩
  · simp only [List.mem_cons, List.not_mem_nil, or_false] at htext
    rcases htext with htext | htext
    · simp only [htext, Option.filter_some, hkind, decide_true, if_true]
      exact ⟨rfl, rfl, rfl, rfl⟩
    · simp only [htext, Option.filter_some, hkind, decide_true, if_true]
      exact ⟨rfl, rfl, rfl, rfl⟩
  · simp only [htext, hfunction, Option.filter_some, hkind, decide_true, if_true]
    exact ⟨rfl, rfl, rfl, rfl⟩

theorem exportStep_head {head : Head} (h : c.Reads (k + 1) n (head.words ++ ws)) :
    c.exportStep k = .ok (c.declarationStep k [head.name]) := by
  obtain ⟨j, hname, -, hplace⟩ := h.head_name
  rw [← hname, exportStep]
  rcases hplace with ⟨htext, rfl⟩ | ⟨htext, -, rfl⟩
  · simp only [List.mem_cons, List.not_mem_nil, or_false] at htext
    rcases htext with htext | htext
    · rw [htext]
      rfl
    · rw [htext]
      rfl
  · rw [htext]
    rfl

theorem stepAt_default {default : String}
    (h : c.Reads k n (.keyword "export" gap :: .keyword "default" default :: ws))
    (hk : c.Starts k) : c.stepAt 0 count k = .ok (c.defaultStep k) := by
  have h₁ : c.text (k + 1) = "default" := h.tail.text
  rw [stepAt_export h hk, exportStep, h₁]
  rfl

theorem lowers_exportValue (gap default : String) (value : Stretch)
    (isValue : beginsDeclaration value.words = false) (semicolon : String) :
    c.Lowers (.exportValue gap default value isValue semicolon) := by
  intro count k n ws h hk
  have hread : c.Reads k n (.keyword "export" gap :: .keyword "default" default ::
      (value.words ++ .mark ";" semicolon :: ws)) := by
    simpa [Statement.words] using h
  have ht := defaultStep_value hread.tail.tail (by rw [beginsDeclaration_semicolon, isValue])
  have hlow : (Statement.exportValue gap default value isValue semicolon).lowered count =
      "module.exports.default =" ++ default ++ spelling value.words ++ ";" ++ semicolon := rfl
  refine becomes_replace [] (.keyword "default" default) (value.words ++ [.mark ";" semicolon]) rfl
    h rfl (stepAt_default h hk) ht (isQuiet_append value.quiet (isQuiet_semicolon semicolon)) ?_
  rw [hlow]
  simp [Word.keyword, String.append_assoc]

theorem lowers_exportDefault (gap default : String) (head : Head) (body : Stretch) :
    c.Lowers (.exportDefault gap default head body) := by
  intro count k n ws h hk
  have hread : c.Reads k n (.keyword "export" gap :: .keyword "default" default ::
      (head.words ++ (body.words ++ ws))) := by
    simpa [Statement.words] using h
  have hout : "" ++ (Word.keyword "default" default).gap ++ spelling (head.words ++ body.words) =
      default ++ spelling (head.words ++ body.words) := by
    simp [Word.keyword]
  exact becomes_replace [] (.keyword "default" default) (head.words ++ body.words) rfl h rfl
    (stepAt_default h hk) (defaultStep_head hread.tail.tail)
    (isQuiet_append head.quiet body.quiet) hout

theorem lowers_exportDeclaration (gap : String) (head : Head) (body : Stretch) :
    c.Lowers (.exportDeclaration gap head body) := by
  intro count k n ws h hk
  have hread : c.Reads k n (.keyword "export" gap :: (head.words ++ (body.words ++ ws))) := by
    simpa [Statement.words] using h
  have hstep : c.stepAt 0 count k = .ok (c.declarationStep k [head.name]) := by
    rw [stepAt_export h hk, exportStep_head hread.tail]
  have hne : head.words ++ body.words ≠ [] := by
    cases head <;> simp [Head.words]
  exact becomes_dropKeyword h rfl hne hstep ⟨rfl, rfl, rfl, rfl⟩
    (isQuiet_append head.quiet body.quiet)

theorem lowers_exportVariable (gap binder : String) (isBinder : binder ∈ ["const", "let", "var"])
    (binderGap : String) (name : Name) (equals : String) (value : Stretch) (semicolon : String) :
    c.Lowers (.exportVariable gap binder isBinder binderGap name equals value semicolon) := by
  intro count k n ws h hk
  have h₁ : c.text (k + 1) = binder := h.tail.text
  have h₂ : c.text (k + 2) = name.text := h.tail.tail.text
  have hkind : c.kind? (k + 2) = some .identifier := h.tail.tail.kind?
  have hstep : c.stepAt 0 count k = .ok (c.declarationStep k [name.text]) := by
    rw [stepAt_export h hk, exportStep, h₁, h₂, hkind]
    simp only [List.mem_cons, List.not_mem_nil, or_false] at isBinder
    rcases isBinder with rfl | rfl | rfl <;> rfl
  have hquiet : isQuiet 0 (.keyword binder binderGap :: name.word :: .mark "=" equals ::
      (value.words ++ [.mark ";" semicolon])) = true := by
    have hbinder : binder ∉ ["import", "export"] := by
      simp only [List.mem_cons, List.not_mem_nil, or_false] at isBinder
      rcases isBinder with rfl | rfl | rfl <;> decide
    simp only [List.mem_cons, List.not_mem_nil, or_false] at hbinder
    have hvalue := isQuiet_append value.quiet (isQuiet_semicolon semicolon)
    simpa [isQuiet, Word.isMark, Word.keyword, Name.word, Word.mark, hbinder] using hvalue
  have hout : spelling (.keyword binder binderGap :: name.word :: .mark "=" equals ::
      (value.words ++ [.mark ";" semicolon])) = binder ++ binderGap ++ name.text ++ name.gap ++
      "=" ++ equals ++ spelling value.words ++ ";" ++ semicolon := by
    simp [Word.keyword, Name.word, String.append_assoc]
  have hbecomes := becomes_dropKeyword h rfl (by simp) hstep ⟨rfl, rfl, rfl, rfl⟩ hquiet
  rw [hout] at hbecomes
  exact hbecomes

theorem NameList.length_words (l : NameList) : l.words.length = l.inner.length + 2 := by
  simp [NameList.words]

theorem braceEnd_list {l : NameList} (h : c.Reads k n (l.words ++ ws)) :
    c.braceEnd k + 1 = k + l.words.length := by
  rw [braceEnd, h.find_close, NameList.length_words, Option.getD_some]
  omega

/-- The names of a list and the word after it. -/
theorem Reads.listed {l : NameList} (h : c.Reads k n (l.words ++ w :: ws)) :
    c.specifiers (c.braceEnd k) (k + 1) = l.names.map (fun s => ⟨s.1, s.2⟩) ∧
      c.text (c.braceEnd k + 1) = w.text := by
  constructor
  · rw [braceEnd, h.find_close]
    exact specifiers_inner h
  · rw [braceEnd_list h]
    exact h.append.text

theorem lowers_exportNames (gap : String) (names : NameList) (semicolon : String) :
    c.Lowers (.exportNames gap names semicolon) := by
  intro count k n ws h hk
  have hread : c.Reads k n
      (.keyword "export" gap :: (names.words ++ .mark ";" semicolon :: ws)) := by
    simpa [Statement.words] using h
  have h₁ : c.text (k + 1) = "\x7b" := hread.tail.text
  obtain ⟨hnames, hsemicolon⟩ := hread.tail.listed
  have hend := braceEnd_list hread.tail
  have hstep : c.stepAt 0 count k = .ok (c.removal k (c.braceEnd (k + 1))
      ((c.specifiers (c.braceEnd (k + 1)) (k + 2)).map fun s => assignment s.localName s.imported)
      (by omega)) := by
    rw [stepAt_export h hk, exportStep, h₁]
    change c.nameListStep k = _
    rw [nameListStep, if_neg (by rw [hsemicolon]; simp)]
  rw [hnames, List.map_map] at hstep
  exact becomes_removed _ names.words rfl h rfl hstep (by omega) ⟨rfl, rfl, rfl, rfl⟩

theorem lowers_exportTypes (gap : String) (type : Soft) (names : NameList) (semicolon : String) :
    c.Lowers (.exportTypes gap type names semicolon) := by
  intro count k n ws h hk
  have hread : c.Reads k n (.keyword "export" gap :: type.word "type" ::
      (names.words ++ .mark ";" semicolon :: ws)) := by
    simpa [Statement.words] using h
  have hlist := hread.tail.tail
  have h₁ : c.text (k + 1) = "type" := hread.tail.text
  have h₂ : c.text (k + 2) = "\x7b" := hlist.text
  have hend : c.braceEnd (k + 2) + 1 = k + 2 + names.words.length := braceEnd_list hlist
  have hstep : c.stepAt 0 count k = .ok (c.removal k (c.braceEnd (k + 2)) [] (by omega)) := by
    rw [stepAt_export h hk, exportStep, h₁]
    change (if c.text (k + 2) = "\x7b" then c.typeListStep k else .ok (.keep k)) = _
    rw [if_pos h₂, typeListStep, if_neg (by rw [hlist.listed.2]; simp)]
  refine becomes_removed _ (type.word "type" :: names.words) rfl h rfl hstep ?_
    ⟨rfl, rfl, rfl, rfl⟩
  rw [List.length_cons]
  omega

theorem reexport_call : reexport ++ "(module.exports, " = "__codemod_reexport(module.exports, " :=
  rfl

theorem nameListStep_from (hf : c.text (c.braceEnd (k + 1) + 1) = "from")
    (hs : c.braceEnd (k + 1) + 2 < c.size) :
    ∃ s, c.nameListStep k = .ok s ∧ Takes s (c.replace k (c.braceEnd (k + 1) + 2)
      (reexport ++ "(module.exports, " ++ required (c.text (c.braceEnd (k + 1) + 2)) ++ ", [" ++
        commaSeparated ((c.specifiers (c.braceEnd (k + 1)) (k + 2)).map fun s =>
          "[\"" ++ s.imported ++ "\", \"" ++ s.localName ++ "\"]") ++ "])")) [] false
      (c.braceEnd (k + 1) + 3) := by
  rw [nameListStep, if_pos hf, if_pos hs]
  exact ⟨_, rfl, rfl, rfl, rfl, rfl⟩

theorem lowers_exportFrom (gap : String) (names : NameList) (origin : Origin) :
    c.Lowers (.exportFrom gap names origin) := by
  intro count k n ws h hk
  have hread : c.Reads k n (.keyword "export" gap :: (names.words ++ (origin.words ++ ws))) := by
    simpa [Statement.words] using h
  have hlist := hread.tail
  have h₁ : c.text (k + 1) = "\x7b" := hlist.text
  obtain ⟨hnames, hfrom⟩ := hlist.listed
  have hend := braceEnd_list hlist
  have hnext : c.braceEnd (k + 1) + 2 = k + 1 + names.words.length + 1 := by omega
  have hafter : c.braceEnd (k + 1) + 3 = k + 1 + names.words.length + 2 := by omega
  have hsource : c.text (k + 1 + names.words.length + 1) = origin.source.text :=
    hlist.append.tail.text
  obtain ⟨s, hs, ht⟩ := nameListStep_from hfrom (by rw [hnext]; exact hlist.append.tail.lt_size)
  rw [reexport_call, hnames, List.map_map, hnext, hafter, hsource] at ht
  have hstep : c.stepAt 0 count k = .ok s := by
    rw [stepAt_export h hk, exportStep, h₁]
    exact hs
  exact becomes_sourced rfl h rfl hstep ht

theorem wholeStep_from {source : Nat} (hf : c.find (k + 1) "from" = some source)
    (hs : source + 1 < c.size) :
    ∃ s, c.wholeStep k = .ok s ∧ Takes s (c.replace k (source + 1)
      (if c.text (k + 2) = "as" then
        "module.exports." ++ c.text (k + 3) ++ " = " ++ required (c.text (source + 1))
      else reexport ++ "(module.exports, " ++ required (c.text (source + 1)) ++ ", null)"))
      [] false (source + 2) := by
  unfold wholeStep
  split
  · rename_i hnone
    rw [hf] at hnone
    cases hnone
  · rename_i source' hf'
    obtain rfl := Option.some.inj (hf.symm.trans hf')
    rw [if_pos hs]
    exact ⟨_, rfl, rfl, rfl, rfl, rfl⟩

theorem stepAt_whole {star : String}
    (h : c.Reads k n (.keyword "export" gap :: .mark "*" star :: ws)) (hk : c.Starts k) :
    c.stepAt 0 count k = c.wholeStep k := by
  have h₁ : c.text (k + 1) = "*" := h.tail.text
  rw [stepAt_export h hk, exportStep, h₁]
  rfl

theorem lowers_exportAll (gap star : String) (origin : Origin) :
    c.Lowers (.exportAll gap star origin) := by
  intro count k n ws h hk
  have h₂ : c.text (k + 2) = "from" := h.tail.tail.text
  have h₃ : c.text (k + 2 + 1) = origin.source.text := h.tail.tail.tail.text
  have hfind : c.find (k + 1) "from" = some (k + 2) := by
    rw [find, @findOnLevel_skip c (k + 1) _ [.mark "*" star] _ _ _ h.tail (by simp [levelMarks])]
    exact findOnLevel_hit h.tail.tail
  obtain ⟨s, hs, ht⟩ := wholeStep_from hfind h.tail.tail.tail.lt_size
  rw [if_neg (by rw [h₂]; decide), reexport_call, h₃] at ht
  exact @becomes_sourced _ _ _ _ _ _ _ _ _ _ [.mark "*" star] origin rfl h rfl _
    ((stepAt_whole h hk).trans hs) ht

theorem lowers_exportWhole (gap star : String) (as : Soft) (ns : Name) (origin : Origin) :
    c.Lowers (.exportWhole gap star as ns origin) := by
  intro count k n ws h hk
  have h₂ : c.text (k + 2) = "as" := h.tail.tail.text
  have h₃ : c.text (k + 3) = ns.text := h.tail.tail.tail.text
  have hsource : c.text (k + 4 + 1) = origin.source.text := h.tail.tail.tail.tail.tail.text
  have hfind : c.find (k + 1) "from" = some (k + 4) :=
    @Reads.find_from c (k + 1) _ ws (.whole star as ns) origin h.tail
  obtain ⟨s, hs, ht⟩ := wholeStep_from hfind h.tail.tail.tail.tail.tail.lt_size
  rw [if_pos h₂, h₃, hsource] at ht
  exact @becomes_sourced _ _ _ _ _ _ _ _ _ _ [.mark "*" star, as.word "as", ns.word] origin rfl h
    rfl _ ((stepAt_whole h hk).trans hs) ht

theorem lowers_other (body : Stretch) : c.Lowers (.other body) := by
  intro count k n ws h hk
  refine ⟨[], rfl, ?_, ?_⟩
  · intro es ls hrest
    rw [lowerFrom_quiet h body.quiet]
    exact hrest
  · intro input es rest hy
    exact hy.keep (spelling body.words).toList

/-! ### Programs -/

theorem lowers (s : Statement) : c.Lowers s := by
  cases s with
  | importEffects gap source semicolon => exact lowers_importEffects gap source semicolon
  | importBindings gap clause origin => exact lowers_importBindings gap clause origin
  | importTypes gap type names origin => exact lowers_importTypes gap type names origin
  | exportValue gap default value isValue semicolon =>
    exact lowers_exportValue gap default value isValue semicolon
  | exportDefault gap default head body => exact lowers_exportDefault gap default head body
  | exportDeclaration gap head body => exact lowers_exportDeclaration gap head body
  | exportVariable gap binder isBinder binderGap name equals value semicolon =>
    exact lowers_exportVariable gap binder isBinder binderGap name equals value semicolon
  | exportNames gap names semicolon => exact lowers_exportNames gap names semicolon
  | exportFrom gap names origin => exact lowers_exportFrom gap names origin
  | exportAll gap star origin => exact lowers_exportAll gap star origin
  | exportWhole gap star as ns origin => exact lowers_exportWhole gap star as ns origin
  | exportAssign gap equals value semicolon => exact lowers_exportAssign gap equals value semicolon
  | exportTypes gap type names semicolon => exact lowers_exportTypes gap type names semicolon
  | other body => exact lowers_other body

end Retouch.Code
