import Retouch.Proofs.Brackets
import Retouch.Proofs.ModuleSyntax
import Retouch.Proofs.Partition

/-! What the tokens of a program say about its words: the search for a mark on one
level, lists of names and import clauses. -/

namespace Retouch.Lower
open Syntax Text

/-! ### Words at their places -/

@[simp] theorem spelling_nil : spelling [] = "" := rfl

@[simp] theorem spelling_cons (w : Word) (ws : List Word) :
    spelling (w :: ws) = w.text ++ w.gap ++ spelling ws := by
  simp [spelling, String.join_cons]

@[simp] theorem spelling_append (us ws : List Word) :
    spelling (us ++ ws) = spelling us ++ spelling ws := by
  simp [spelling, String.join_append]

/-- Tokens that spell some words, from offset `n` on. -/
inductive Laid : Nat → List Word → List Token → Prop
  | nil (n : Nat) : Laid n [] []
  | cons {n : Nat} {w : Word} {ws : List Word} {t : Token} {ts : List Token} :
      t.kind = w.kind → t.text = w.text → t.start.offset = n →
      t.stop.offset = n + byteLength w.text.toList →
      Laid (n + byteLength w.text.toList + byteLength w.gap.toList) ws ts →
      Laid n (w :: ws) (t :: ts)

theorem laid_wordsOf (p : Place) (ls : List Lexeme) :
    Laid (p.offset + byteLength (wordsOf (placed p ls)).1.toList) (wordsOf (placed p ls)).2
      (significant (placed p ls)) := by
  induction ls generalizing p with
  | nil => exact .nil _
  | cons l ls ih =>
    have hrest := ih (p.past l.text.toList)
    rw [Place.past_offset] at hrest
    rw [placed, wordsOf, significant, List.filter_cons]
    split
    · rename_i ht
      rw [ht]
      simpa [significant, Nat.add_assoc] using hrest
    · rename_i ht
      simp only [ht, Bool.not_false, if_true]
      refine .cons rfl rfl (by simp) ?_ ?_
      · simp [Place.past_offset]
      · simpa [significant, Nat.add_assoc] using hrest

theorem spelling_wordsOf (ts : List Token) :
    (wordsOf ts).1 ++ spelling (wordsOf ts).2 = String.join (ts.map Token.text) := by
  induction ts with
  | nil => rfl
  | cons t ts ih =>
    rw [wordsOf, List.map_cons, String.join_cons, ← ih]
    split <;> simp [String.append_assoc]

end Retouch.Lower

namespace Retouch.Code
open Syntax Text Lower

/-- The tokens from index `k` on spell some words, from offset `n` on. -/
def Reads (c : Code) (k n : Nat) (ws : List Word) : Prop :=
  ∃ ts, c.From k ts ∧ Laid n ws ts

namespace Reads
variable {c : Code} {k n : Nat} {w : Word} {us ws : List Word}

theorem tail (h : c.Reads k n (w :: ws)) :
    c.Reads (k + 1) (n + byteLength w.text.toList + byteLength w.gap.toList) ws := by
  obtain ⟨ts, hf, hl⟩ := h
  cases hl with
  | cons _ _ _ _ hl => exact ⟨_, hf.tail, hl⟩

theorem token (h : c.Reads k n (w :: ws)) : ∃ t ts, c.From k (t :: ts) ∧ t.kind = w.kind ∧
    t.text = w.text ∧ t.start.offset = n ∧ t.stop.offset = n + byteLength w.text.toList := by
  obtain ⟨ts, hf, hl⟩ := h
  cases hl with
  | cons hk ht hs he _ => exact ⟨_, _, hf, hk, ht, hs, he⟩

theorem text (h : c.Reads k n (w :: ws)) : c.text k = w.text := by
  obtain ⟨t, ts, hf, -, ht, -⟩ := h.token
  rw [hf.text, ht]

theorem kind? (h : c.Reads k n (w :: ws)) : c.kind? k = some w.kind := by
  obtain ⟨t, ts, hf, hk, -⟩ := h.token
  rw [hf.kind?, hk]

theorem lt_size (h : c.Reads k n (w :: ws)) : k < c.size := by
  obtain ⟨t, ts, hf, -⟩ := h.token
  exact hf.lt_size

theorem startOffset (h : c.Reads k n (w :: ws)) : c.startOffset k = n := by
  obtain ⟨t, ts, hf, -, -, hs, -⟩ := h.token
  simp [Code.startOffset, hf.getElem?, hs]

theorem stopOffset (h : c.Reads k n (w :: ws)) :
    c.stopOffset k = n + byteLength w.text.toList := by
  obtain ⟨t, ts, hf, -, -, -, he⟩ := h.token
  simp [Code.stopOffset, hf.getElem?, he]

theorem punct (h : c.Reads k n (w :: ws)) (s : String) : c.punct k s = w.isMark s := by
  simp [Code.punct, Word.isMark, h.kind?, h.text]

theorem append (h : c.Reads k n (us ++ ws)) :
    c.Reads (k + us.length) (n + byteLength (spelling us).toList) ws := by
  induction us generalizing k n with
  | nil => exact h
  | cons w us ih =>
    have hrest := ih h.tail
    simpa [Nat.add_assoc, Nat.add_comm 1, Nat.add_left_comm] using hrest

theorem size_le (h : c.Reads k n []) : c.size ≤ k := by
  obtain ⟨ts, hf, hl⟩ := h
  cases hl
  rw [From, List.drop_eq_nil_iff] at hf
  simpa [Code.size] using hf

end Reads

variable {c : Code} {k n : Nat} {w : Word} {us ws : List Word}

/-! ### Looking for a mark -/

/-- Texts at which a search changes its level or ends. -/
def levelMarks : List String := ["\x7b", "(", "[", "\x7d", ")", "]", ";"]

theorem findOnLevel_skip {needle : String} {level : Int} (h : c.Reads k n (us ++ ws))
    (hu : ∀ w ∈ us, w.text ∉ levelMarks ∧ w.text ≠ needle) :
    c.findOnLevel needle k level = c.findOnLevel needle (k + us.length) level := by
  induction us generalizing k n with
  | nil => rfl
  | cons w us ih =>
    obtain ⟨hmark, hneedle⟩ := hu w List.mem_cons_self
    have hrest := ih h.tail fun u hm => hu u (List.mem_cons_of_mem w hm)
    rw [findOnLevel, dif_pos h.lt_size, h.text, end_cons, ← hrest]
    simp only [hneedle, decide_false, Bool.and_false, Bool.false_eq_true, if_false]
    split <;> simp_all [levelMarks]

theorem findOnLevel_hit (h : c.Reads k n (w :: ws)) :
    c.findOnLevel w.text k 0 = some k := by
  rw [findOnLevel, dif_pos h.lt_size, h.text]
  simp

theorem findOnLevel_open {needle gap : String} {level : Int} (hneedle : needle ≠ "\x7b")
    (h : c.Reads k n (.mark "\x7b" gap :: ws)) :
    c.findOnLevel needle k level = c.findOnLevel needle (k + 1) (level + 1) := by
  rw [findOnLevel, dif_pos h.lt_size, h.text]
  simp [Word.mark, hneedle.symm]

theorem findOnLevel_close {needle gap : String} {level : Int} (hlevel : level ≠ 0)
    (h : c.Reads k n (.mark "\x7d" gap :: ws)) :
    c.findOnLevel needle k level = c.findOnLevel needle (k + 1) (level - 1) := by
  rw [findOnLevel, dif_pos h.lt_size, h.text]
  simp [Word.mark, hlevel]

end Retouch.Code

namespace Retouch.Lower
open Syntax Text

/-! ### Lists of names -/

@[simp] theorem Name.text_word (a : Name) : a.word.text = a.text := rfl

@[simp] theorem Soft.text_word (s : Soft) (text : String) : (s.word text).text = text := rfl

@[simp] theorem Word.text_mark (text gap : String) : (Word.mark text gap).text = text := rfl

@[simp] theorem Word.gap_mark (text gap : String) : (Word.mark text gap).gap = gap := rfl

@[simp] theorem Literal.text_word (s : Literal) : s.word.text = s.text := rfl

@[simp] theorem Literal.gap_word (s : Literal) : s.word.gap = s.gap := rfl

@[simp] theorem Name.isPlainName_text (a : Name) : isPlainName a.text = true := a.plain

/-- A plain name is spelled like no text that is not a plain name. -/
theorem notMem_of_isPlainName {s : String} (hs : isPlainName s = true) {texts : List String}
    (h : texts.any isPlainName = false) : s ∉ texts := by
  intro hm
  rw [List.any_eq_false] at h
  exact h s hm hs

theorem NameList.inner_text (l : NameList) : ∀ w ∈ l.inner,
    isPlainName w.text = true ∨ w.text ∈ ["as", "default", ","] := by
  have hentry : ∀ (e : Entry), ∀ w ∈ e.words,
      isPlainName w.text = true ∨ w.text ∈ ["as", "default", ","] := by
    intro e
    have htype : isPlainName "type" = true := by decide
    cases e <;> simp [Entry.words, Name.word, Soft.word, Word.keyword, htype]
  intro w hw
  rcases List.mem_append.mp hw with hw | hw
  · obtain ⟨e, -, he⟩ := List.mem_flatMap.mp hw
    rcases List.mem_append.mp he with he | he
    · exact hentry e.1 w he
    · obtain rfl : w = .mark "," e.2 := by simpa using he
      exact .inr (by simp [Word.mark])
  · cases hl : l.last with
    | none => simp [hl] at hw
    | some e => exact hentry e w (by simpa [hl] using hw)

theorem NameList.inner_skip (l : NameList) {needle : String} (hn : needle ∈ ["from", "\x7d"]) :
    ∀ w ∈ l.inner, w.text ∉ Code.levelMarks ∧ w.text ≠ needle := by
  intro w hw
  have hout : w.text ∉ "from" :: Code.levelMarks := by
    rcases l.inner_text w hw with hplain | hword
    · exact notMem_of_isPlainName hplain (by decide)
    · have hapart : ∀ s ∈ ["as", "default", ","], s ∉ "from" :: Code.levelMarks := by decide
      exact hapart _ hword
  refine ⟨fun hm => hout (List.mem_cons_of_mem _ hm), ?_⟩
  rintro rfl
  have hin : ∀ s ∈ ["from", "\x7d"], s ∈ "from" :: Code.levelMarks := by decide
  exact hout (hin _ hn)

end Retouch.Lower

namespace Retouch.Code
open Syntax Text Lower
variable {c : Code} {k n close : Nat} {w : Word} {us ws : List Word} {l : NameList}

theorem Reads.inner (h : c.Reads k n (l.words ++ ws)) :
    ∃ m, c.Reads (k + 1) m (l.inner ++ (.mark "\x7d" l.closed :: ws)) := by
  rw [NameList.words, List.cons_append, List.append_assoc] at h
  exact ⟨_, h.tail⟩

theorem Reads.find_close (h : c.Reads k n (l.words ++ ws)) :
    c.find (k + 1) "\x7d" = some (k + 1 + l.inner.length) := by
  obtain ⟨m, hinner⟩ := h.inner
  rw [find, findOnLevel_skip hinner (l.inner_skip (by simp))]
  exact findOnLevel_hit hinner.append

theorem Reads.find_across (h : c.Reads k n (l.words ++ ws)) :
    c.findOnLevel "from" k 0 = c.findOnLevel "from" (k + l.words.length) 0 := by
  obtain ⟨m, hinner⟩ := h.inner
  have hlen : k + l.words.length = k + 1 + l.inner.length + 1 := by
    simp only [NameList.words, List.length_cons, List.length_append, List.length_nil]
    omega
  rw [findOnLevel_open (by decide) h, findOnLevel_skip hinner (l.inner_skip (by simp)),
    findOnLevel_close (by decide) hinner.append, hlen]
  rfl

theorem specifiers_comma {gap : String} (h : c.Reads k n (.mark "," gap :: ws)) (hk : k < close) :
    c.specifiers close k = c.specifiers close (k + 1) := by
  rw [specifiers, dif_pos hk, h.text]
  simp [Word.mark]

/-- One entry, before a comma or the closing brace. -/
theorem specifiers_entry {e : Entry} (h : c.Reads k n (e.words ++ w :: ws))
    (hw : w.text ∈ [",", "\x7d"]) (hk : k + e.words.length ≤ close) :
    c.specifiers close k =
      (e.names?.map fun s => ⟨s.1, s.2⟩).toList ++ c.specifiers close (k + e.words.length) := by
  have hpos : k < close := by
    cases e <;> simp only [Entry.words, List.length_cons] at hk <;> omega
  have has : w.text ≠ "as" := by
    rintro heq
    rw [heq] at hw
    revert hw
    decide
  have hcomma (a : Name) : a.text ∉ [",", "\x7d", "as"] :=
    notMem_of_isPlainName a.plain (by decide)
  rw [specifiers, dif_pos hpos]
  cases e with
  | same a =>
    have h₀ : c.text k = a.text := h.text
    have h₁ : c.text (k + 1) = w.text := h.tail.text
    have hend : w.text ∈ [",", "\x7d", "as"] := List.mem_append_left ["as"] hw
    have hne : a.text ≠ "," := fun heq => hcomma a (by simp [heq])
    simp [h₀, h₁, hne, has, hend, Entry.names?, Entry.words]
  | renamed a as b =>
    have h₀ : c.text k = a.text := h.text
    have h₁ : c.text (k + 1) = "as" := h.tail.text
    have h₂ : c.text (k + 2) = b.text := h.tail.tail.text
    have hne : a.text ≠ "," := fun heq => hcomma a (by simp [heq])
    simp [h₀, h₁, h₂, hne, Entry.names?, Entry.words]
  | default gap as b =>
    have h₀ : c.text k = "default" := h.text
    have h₁ : c.text (k + 1) = "as" := h.tail.text
    have h₂ : c.text (k + 2) = b.text := h.tail.tail.text
    simp [h₀, h₁, h₂, Entry.names?, Entry.words]
  | ofType type t =>
    have h₀ : c.text k = "type" := h.text
    have h₁ : c.text (k + 1) = t.text := h.tail.text
    have h₂ : c.text (k + 2) = w.text := h.tail.tail.text
    simp [h₀, h₁, h₂, hcomma t, has, Entry.names?, Entry.words]
  | ofRenamedType type t as u =>
    have h₀ : c.text k = "type" := h.text
    have h₁ : c.text (k + 1) = t.text := h.tail.text
    have h₂ : c.text (k + 2) = "as" := h.tail.tail.text
    simp [h₀, h₁, h₂, hcomma t, Entry.names?, Entry.words]

theorem specifiers_end (c : Code) (close : Nat) : c.specifiers close close = [] := by
  rw [specifiers, dif_neg (Nat.lt_irrefl close)]

/-- Entries with a comma after each. -/
theorem specifiers_entries {es : List (Entry × String)}
    (h : c.Reads k n (es.flatMap (fun e => e.1.words ++ [.mark "," e.2]) ++ ws))
    (hk : k + (es.flatMap fun e => e.1.words ++ [.mark "," e.2]).length ≤ close) :
    c.specifiers close k = (es.filterMap fun e => e.1.names?).map (fun s => ⟨s.1, s.2⟩) ++
      c.specifiers close (k + (es.flatMap fun e => e.1.words ++ [.mark "," e.2]).length) := by
  induction es generalizing k n with
  | nil => rfl
  | cons e es ih =>
    rw [List.flatMap_cons, List.append_assoc, List.append_assoc] at h
    simp only [List.flatMap_cons, List.length_append, List.length_cons, List.length_nil] at hk ⊢
    have hcomma := h.append
    have hlen : k + (e.1.words.length + (0 + 1) +
        (es.flatMap fun e => e.1.words ++ [.mark "," e.2]).length) =
        k + e.1.words.length + 1 +
          (es.flatMap fun e => e.1.words ++ [.mark "," e.2]).length := by omega
    rw [specifiers_entry h (by simp [Word.mark]) (by omega), specifiers_comma hcomma (by omega),
      ih hcomma.tail (by omega), hlen]
    cases he : e.1.names? <;> simp [he]

theorem specifiers_inner (h : c.Reads k n (l.words ++ ws)) :
    c.specifiers (k + 1 + l.inner.length) (k + 1) = l.names.map fun s => ⟨s.1, s.2⟩ := by
  obtain ⟨m, hinner⟩ := h.inner
  rw [NameList.inner, List.append_assoc] at hinner
  have hnames : l.names = (l.entries.filterMap fun e => e.1.names?) ++
      l.last.toList.filterMap Entry.names? := by
    rw [NameList.names, List.filterMap_append, List.filterMap_map]
    rfl
  rw [NameList.inner, List.length_append,
    specifiers_entries hinner (by omega), hnames, List.map_append, ← Nat.add_assoc]
  refine congrArg (_ ++ ·) ?_
  have hlast := hinner.append
  cases hl : l.last with
  | none => exact specifiers_end c _
  | some e =>
    rw [hl] at hlast
    rw [Option.elim_some, specifiers_entry hlast (by simp [Word.mark]) (Nat.le_refl _),
      specifiers_end]
    cases he : e.names? <;> simp [he]

/-! ### Import clauses -/

theorem defaultDeclarator_eq (module name : String) :
    name ++ " = " ++ importDefault ++ "(" ++ module ++ ")" = defaultDeclarator module name := by
  have hliteral : " = __codemod_importDefault(" = " = " ++ importDefault ++ "(" := rfl
  simp only [defaultDeclarator, hliteral, String.append_assoc]

theorem namedDeclarators_names (module : String) (l : NameList) :
    namedDeclarators module (l.names.map fun s => ⟨s.1, s.2⟩) = l.declarators module := by
  simp only [namedDeclarators, NameList.declarators, List.filter_map, List.map_map,
    Function.comp_def, defaultDeclarator_eq, List.isEmpty_map, commaSeparated]
  split
  · rw [List.append_nil]
  · rfl

theorem clauseDeclarators_end (c : Code) (module : String) (k : Nat) :
    c.clauseDeclarators module k k = [] := by
  rw [clauseDeclarators, dif_neg (Nat.lt_irrefl k)]

variable {module : String} {source : Nat}

theorem clauseDeclarators_comma {gap : String} (h : c.Reads k n (.mark "," gap :: ws))
    (hk : k < source) :
    c.clauseDeclarators module source k = c.clauseDeclarators module source (k + 1) := by
  rw [clauseDeclarators, dif_pos hk, h.text]
  rfl

theorem clauseDeclarators_name {a : Name} (h : c.Reads k n (a.word :: ws)) (hk : k < source) :
    c.clauseDeclarators module source k =
      defaultDeclarator module a.text :: c.clauseDeclarators module source (k + 1) := by
  have hmark : a.text ∉ [",", "*", "\x7b"] := notMem_of_isPlainName a.plain (by decide)
  have htext : c.text k = a.text := h.text
  rw [clauseDeclarators, dif_pos hk, htext]
  split
  · simp_all
  · simp_all
  · simp_all
  · rw [defaultDeclarator_eq]

theorem clauseDeclarators_whole {star : String} {as : Soft} {ns : Name}
    (h : c.Reads k n (.mark "*" star :: as.word "as" :: ns.word :: ws)) (hk : k < source) :
    c.clauseDeclarators module source k =
      (ns.text ++ " = " ++ module) :: c.clauseDeclarators module source (k + 3) := by
  have hns : c.text (k + 2) = ns.text := h.tail.tail.text
  rw [clauseDeclarators, dif_pos hk, h.text, hns]
  rfl

theorem clauseDeclarators_listed (h : c.Reads k n (l.words ++ ws)) (hk : k < source) :
    c.clauseDeclarators module source k =
      l.declarators module ++ c.clauseDeclarators module source (k + l.words.length) := by
  have hlen : k + l.words.length = k + 1 + l.inner.length + 1 := by
    simp only [NameList.words, List.length_cons, List.length_append, List.length_nil]
    omega
  have htext : c.text k = "\x7b" := h.text
  rw [clauseDeclarators, dif_pos hk, htext, hlen]
  split
  · rename_i heq
    exact absurd heq (by decide)
  · rename_i heq
    exact absurd heq (by decide)
  · split
    · rename_i close hf
      obtain rfl := Option.some.inj (h.find_close.symm.trans hf)
      rw [specifiers_inner h, namedDeclarators_names]
    · rename_i hf
      rw [h.find_close] at hf
      cases hf
  · rename_i hne
    exact (hne rfl).elim

theorem Reads.find_from {clause : Clause} {origin : Origin}
    (h : c.Reads k n (clause.words ++ (origin.words ++ ws))) :
    c.find k "from" = some (k + clause.words.length) := by
  have hhit : c.findOnLevel "from" (k + clause.words.length) 0 =
      some (k + clause.words.length) := findOnLevel_hit h.append
  have hname (a : Name) : a.text ∉ levelMarks ∧ a.text ≠ "from" := by
    have hout : a.text ∉ "from" :: levelMarks := notMem_of_isPlainName a.plain (by decide)
    exact ⟨fun hm => hout (List.mem_cons_of_mem _ hm), fun heq => hout (by simp [heq])⟩
  have hmark : "," ∉ levelMarks ∧ "*" ∉ levelMarks ∧ "as" ∉ levelMarks := by decide
  rw [find, ← hhit]
  cases clause with
  | single d => exact findOnLevel_skip h (by simp [Clause.words, hname d])
  | whole star as ns => exact findOnLevel_skip h (by simp [Clause.words, hname ns, hmark])
  | listed l => exact h.find_across
  | singleListed d comma l =>
    have hlen : k + (Clause.singleListed d comma l).words.length = k + 2 + l.words.length := by
      simp only [Clause.words, List.length_cons]
      omega
    rw [hlen, @findOnLevel_skip c k n [d.word, .mark "," comma] _ _ _ h
      (by simp [hname d, hmark])]
    exact h.tail.tail.find_across
  | singleWhole d comma star as ns =>
    exact findOnLevel_skip h (by simp [Clause.words, hname d, hname ns, hmark])

theorem clauseDeclarators_clause {clause : Clause}
    (h : c.Reads k n (clause.words ++ ws)) :
    c.clauseDeclarators module (k + clause.words.length) k = clause.declarators module := by
  cases clause with
  | single d =>
    rw [clauseDeclarators_name h (by simp [Clause.words])]
    exact congrArg (_ :: ·) (clauseDeclarators_end c module _)
  | whole star as ns =>
    rw [clauseDeclarators_whole h (by simp [Clause.words])]
    exact congrArg (_ :: ·) (clauseDeclarators_end c module _)
  | listed l =>
    rw [clauseDeclarators_listed h (by simp [Clause.words, NameList.words]), Clause.words,
      clauseDeclarators_end, List.append_nil]
    rfl
  | singleListed d comma l =>
    have hlen : k + (Clause.singleListed d comma l).words.length = k + 1 + 1 + l.words.length := by
      simp only [Clause.words, List.length_cons]
      omega
    have hpos : 0 < l.words.length := by simp [NameList.words]
    rw [hlen, clauseDeclarators_name h (by omega), clauseDeclarators_comma h.tail (by omega),
      clauseDeclarators_listed h.tail.tail (by omega), clauseDeclarators_end, List.append_nil]
    rfl
  | singleWhole d comma star as ns =>
    rw [clauseDeclarators_name h (by simp [Clause.words]),
      clauseDeclarators_comma h.tail (by simp [Clause.words]),
      clauseDeclarators_whole h.tail.tail (by simp [Clause.words])]
    exact congrArg (_ :: _ :: ·) (clauseDeclarators_end c module _)

end Retouch.Code
