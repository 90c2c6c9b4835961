import Retouch.Proofs.TokenWrites
import Retouch.Proofs.Lockstep

/-! Renaming is local to the tokens that are renamed. A name that is neither
reserved nor a keyword anywhere takes the place of another one without a trace in
the tokens around it: the text with the new names has the old tokens, but for these
names. Only right after a number a name cannot be changed freely, since letters and
digits may continue the number. -/

namespace Retouch.Syntax
open Retouch.Text

/-! ### New names -/

/-- Whether a text is a name that is no keyword in any dialect and any place. -/
def isNewName (name : String) : Bool :=
  (match name.toList with
    | [] => false
    | c :: r => isNameStart c && r.all isNameChar) &&
  name ∉ reserved && name ∉ contextual && name ∉ typedContextual

theorem isFreeWord_of_isNewName {name : String} (h : isNewName name = true) :
    IsFreeWord name.toList := by
  simp only [isNewName, Bool.and_eq_true, decide_eq_true_eq] at h
  obtain ⟨⟨⟨hchars, hfree⟩, -⟩, -⟩ := h
  cases hn : name.toList with
  | nil => simp [hn] at hchars
  | cons c r =>
    simp only [hn, Bool.and_eq_true, List.all_eq_true] at hchars
    refine ⟨by simpa using hchars.1, ?_, by rwa [← hn, String.ofList_toList]⟩
    intro x hx
    rcases List.mem_cons.mp hx with rfl | hx
    · exact isNameChar_of_isNameStart hchars.1
    · exact hchars.2 x hx

theorem isContextual_of_isNewName {name : String} (h : isNewName name = true) (d : Dialect) :
    d.isContextual name = false := by
  simp only [isNewName, Bool.and_eq_true, decide_eq_true_eq] at h
  simp [Dialect.isContextual, h.1.2, h.2]

/-! ### Lexeme lists with new names -/

/-- Give new names to some lexemes of a list that starts at position `i`. -/
def withNames (names : Nat → Option String) (i : Nat) (ls : List Lexeme) : List Lexeme :=
  (ls.zipIdx i).map fun l => ⟨l.1.kind, (names l.2).getD l.1.text⟩

/-- Only names get new names, and not right after a number; `b` tells that a number
stands before the list. -/
def Fits (names : Nat → Option String) : Bool → Nat → List Lexeme → Prop
  | _, _, [] => True
  | b, i, l :: ls =>
    (∀ name, names i = some name → b = false ∧ l.kind = .identifier ∧ isNewName name = true) ∧
      Fits names (l.kind == .number) (i + 1) ls

variable {names : Nat → Option String} {b : Bool} {i : Nat}

theorem withNames_cons (l : Lexeme) (ls : List Lexeme) :
    withNames names i (l :: ls) =
      ⟨l.kind, (names i).getD l.text⟩ :: withNames names (i + 1) ls := by
  simp [withNames, List.zipIdx_cons]

theorem Fits.renames {ls : List Lexeme} (h : Fits names b i ls) :
    Renames b ls (withNames names i ls) := by
  induction ls generalizing b i with
  | nil => exact .nil b
  | cons l ls ih =>
    rw [withNames_cons]
    cases hn : names i with
    | none => exact .keep (ih h.2)
    | some name =>
      obtain ⟨rfl, hk, hname⟩ := h.1 name hn
      have hrest := ih h.2
      rw [hk] at hrest ⊢
      exact .rename hk (isFreeWord_of_isNewName hname) hrest

theorem resolvedKind_eq {d : Dialect} {before after : Option Lexeme} {l : Lexeme} {k : Kind}
    (h : resolvedKind d before l after = k) (hk : k ≠ .keyword) : l.kind = k := by
  unfold resolvedKind at h
  split at h
  · exact absurd h.symm hk
  · exact h

theorem resolvedKind_number {d : Dialect} {before after : Option Lexeme} {l : Lexeme} :
    (resolvedKind d before l after == .number) = (l.kind == .number) := by
  unfold resolvedKind
  split
  · rename_i h
    simp only [Bool.and_eq_true, decide_eq_true_eq] at h
    rw [h.1.1]
    rfl
  · rfl

theorem Fits.of_resolve {d : Dialect} {before : Option Lexeme} {ls : List Lexeme}
    (h : Fits names b i (resolve d before ls)) : Fits names b i ls := by
  induction ls generalizing before b i with
  | nil => trivial
  | cons l ls ih =>
    obtain ⟨hl, hrest⟩ := h
    rw [resolvedKind_number] at hrest
    refine ⟨fun name hn => ?_, ih hrest⟩
    obtain ⟨hb, hk, hname⟩ := hl name hn
    exact ⟨hb, resolvedKind_eq hk (by decide), hname⟩

/-! ### Contextual words around new names -/

/-- What follows continues a clause with new names as it did with the old ones. -/
theorem continuesClause_withNames {ls : List Lexeme} (h : Fits names b i ls) :
    (firstSignificant (withNames names i ls)).any continuesClause =
      (firstSignificant ls).any continuesClause := by
  induction ls generalizing b i with
  | nil => rfl
  | cons l ls ih =>
    rw [withNames_cons]
    unfold firstSignificant at ih ⊢
    rw [List.find?_cons, List.find?_cons]
    have htrivia : Lexeme.isTrivia ⟨l.kind, (names i).getD l.text⟩ = l.isTrivia := rfl
    rw [htrivia]
    cases ht : l.isTrivia with
    | true => exact ih h.2
    | false =>
      simp only [Bool.not_false, Option.any_some]
      cases hn : names i with
      | none => rfl
      | some name =>
        obtain ⟨-, hk, -⟩ := h.1 name hn
        simp [continuesClause, hk]

/-- Whether a lexeme is the mark before a member name. -/
def isMemberMark (l : Lexeme) : Bool := l.text ∈ [".", "?."]

theorem isMemberMark_of_start {l : Lexeme} (h : l.text.toList.head?.any isNameStart = true) :
    isMemberMark l = false := by
  have hmarks : ∀ m ∈ [".", "?."], m.toList.head?.any isNameStart = false := by decide
  refine Bool.eq_false_iff.mpr fun hm => ?_
  rw [isMemberMark, decide_eq_true_eq] at hm
  rw [hmarks _ hm] at h
  cases h

/-- Names begin with a character that begins names. -/
theorem scan_identifier_start (elements : Bool) (before : Option Lexeme) (stack : List Context)
    (cs : List Char) : ∀ l ∈ scan elements before stack cs, l.kind = .identifier →
      l.text.toList.head?.any isNameStart = true := by
  refine scan_forall (fun before stack c r hk => ?_) before stack cs
  have hbegins := nextStep_begins elements before stack c r
  rw [show (nextStep elements before stack c r).kind = .identifier from hk] at hbegins
  simpa [Step.lexeme, Kind.canBegin] using hbegins

/-- Contextual words are decided alike around new names. -/
theorem resolve_withNames {d : Dialect} {before before' : Option Lexeme} {ls : List Lexeme}
    (hstart : ∀ l ∈ ls, l.kind = .identifier → l.text.toList.head?.any isNameStart = true)
    (hb : before'.any isMemberMark = before.any isMemberMark)
    (h : Fits names b i (resolve d before ls)) :
    resolve d before' (withNames names i ls) = withNames names i (resolve d before ls) := by
  induction ls generalizing before before' b i with
  | nil => rfl
  | cons l ls ih =>
    have hafter := continuesClause_withNames (Fits.of_resolve h.2)
    have hposition : keywordPosition before' (firstSignificant (withNames names (i + 1) ls)) =
        keywordPosition before (firstSignificant ls) := by
      unfold keywordPosition
      rw [hafter]
      exact congrArg (fun x => !x && _) hb
    have hkind : resolvedKind d before' ⟨l.kind, (names i).getD l.text⟩
        (firstSignificant (withNames names (i + 1) ls)) =
          resolvedKind d before l (firstSignificant ls) := by
      cases hn : names i with
      | none =>
        unfold resolvedKind
        rw [hposition]
        rfl
      | some name =>
        obtain ⟨-, hk, hname⟩ := h.1 name hn
        have hl : l.kind = .identifier := resolvedKind_eq hk (by decide)
        rw [show resolvedKind d before l (firstSignificant ls) = .identifier from hk]
        simp [resolvedKind, hl, isContextual_of_isNewName hname d]
    have hmark : isMemberMark ⟨l.kind, (names i).getD l.text⟩ = isMemberMark l := by
      cases hn : names i with
      | none => rfl
      | some name =>
        obtain ⟨-, hk, hname⟩ := h.1 name hn
        have hl : l.kind = .identifier := resolvedKind_eq hk (by decide)
        rw [isMemberMark_of_start (hstart l List.mem_cons_self hl)]
        exact isMemberMark_of_start (isFreeWord_of_isNewName hname).start
    rw [withNames_cons, resolve, resolve, withNames_cons]
    dsimp only
    rw [hkind]
    refine congrArg (_ :: ·) (ih (fun u hu => hstart u (List.mem_cons_of_mem l hu)) ?_ h.2)
    have htrivia : Lexeme.isTrivia ⟨l.kind, (names i).getD l.text⟩ = l.isTrivia := rfl
    rw [htrivia]
    split
    · exact hb
    · exact hmark

/-- Deciding contextual words changes no text. -/
theorem spelled_withNames_resolve {d : Dialect} {before : Option Lexeme} {ls : List Lexeme} :
    spelled (withNames names i (resolve d before ls)) = spelled (withNames names i ls) := by
  induction ls generalizing before i with
  | nil => rfl
  | cons l ls ih =>
    unfold spelled at ih ⊢
    rw [resolve, withNames_cons, withNames_cons, List.flatMap_cons, List.flatMap_cons, ih]

/-- The lexemes of a text with new names are those of the old text with new names. -/
theorem lexemes_withNames {d : Dialect} {source printed : String}
    (h : Fits names false 0 (lexemes d source))
    (hp : printed.toList = spelled (withNames names 0 (lexemes d source))) :
    lexemes d printed = withNames names 0 (lexemes d source) := by
  rw [lexemes_eq] at h hp ⊢
  have hfits : Fits names false 0 (scan d.hasElements none [] source.toList) := Fits.of_resolve h
  rw [spelled_withNames_resolve] at hp
  rw [lexemes_eq, hp, scan_renamed hfits.renames rfl]
  exact resolve_withNames (scan_identifier_start _ _ _ _) rfl h

/-! ### Tokens that can be renamed -/

/-- Whether the token at a position is a name that does not follow a number. -/
def isRenamable (ts : List Token) (i : Nat) : Bool :=
  ts[i]?.any (·.kind = .identifier) &&
    match i with
    | 0 => true
    | j + 1 => !ts[j]?.any (·.kind = .number)

theorem fits_of_isRenamable {ts : List Token}
    (h : ∀ j name, names (i + j) = some name →
      isRenamable ts j = true ∧ (j = 0 → b = false) ∧ isNewName name = true) :
    Fits names b i (ts.map Token.lexeme) := by
  induction ts generalizing b i with
  | nil => trivial
  | cons t ts ih =>
    constructor
    · intro name hn
      obtain ⟨ht, hb, hname⟩ := h 0 name hn
      exact ⟨hb rfl, by simpa [isRenamable, Token.lexeme] using ht, hname⟩
    · refine ih fun j name hn => ?_
      obtain ⟨ht, -, hname⟩ := h (j + 1) name (by rwa [← Nat.add_assoc, Nat.add_right_comm])
      simp only [isRenamable, List.getElem?_cons_succ, Bool.and_eq_true] at ht ⊢
      cases j with
      | zero => exact ⟨⟨ht.1, rfl⟩, fun _ => by simpa [Token.lexeme] using ht.2, hname⟩
      | succ j => exact ⟨⟨ht.1, ht.2⟩, fun hj => absurd hj (Nat.succ_ne_zero j), hname⟩

end Retouch.Syntax

namespace Retouch.Toolkit
open Syntax
variable {M : Type}

/-! ### Renaming in a document -/

/-- The writes that put identifiers with new names in the places of tokens. -/
def renamingWrites (renamings : List (Nat × String)) : List (Nat × Write M) :=
  renamings.map fun r => (r.1, .replaced (.fixed (identifier (.text r.2))))

/-- The name that a token was given last. -/
def newName (renamings : List (Nat × String)) (i : Nat) : Option String :=
  ((renamings.filter (·.1 = i)).getLast?).map (·.2)

theorem newName_eq_some {renamings : List (Nat × String)} {i : Nat} {name : String}
    (h : newName renamings i = some name) : (i, name) ∈ renamings := by
  obtain ⟨r, hr, rfl⟩ := Option.map_eq_some_iff.mp h
  have hm := List.mem_filter.mp (List.mem_of_getLast? hr)
  obtain rfl : r.1 = i := by simpa using hm.2
  exact hm.1

theorem reaching_renamingWrites (renamings : List (Nat × String)) (i : Nat) :
    reaching i (renamingWrites renamings : List (Nat × Write M)) =
      (renamings.filter (·.1 = i)).map fun r =>
        .replaced (.fixed (identifier (.text r.2))) := by
  simp only [reaching, renamingWrites, List.filter_map, List.map_map]
  rfl

theorem lastReplacement_renaming (renamings : List (Nat × String)) (i : Nat) :
    lastReplacement (reaching i (renamingWrites renamings : List (Nat × Write M))) =
      (newName renamings i).map fun name => .fixed (identifier (.text name)) := by
  rw [reaching_renamingWrites, lastReplacement, newName, List.filterMap_map]
  have hall : (Write.replacement? ∘ fun r : Nat × String =>
      (Write.replaced (.fixed (identifier (.text r.2))) : Write M)) =
      fun r => some (.fixed (identifier (.text r.2))) := rfl
  rw [hall, List.filterMap_eq_map', List.getLast?_map, Option.map_map]
  rfl

/-- A renamed token prints its new name, any other its text. -/
theorem printedToken_renaming (s : Scene M) {renamings : List (Nat × String)} {i : Nat}
    {t : Token} (ht : isVoidNumber t = false) :
    printedToken s t (reaching i (renamingWrites renamings)) =
      .ok (.text ((newName renamings i).getD t.text)) := by
  cases hn : newName renamings i with
  | none =>
    have hnone : renamings.filter (·.1 = i) = [] := by
      simpa [newName] using hn
    rw [reaching_renamingWrites, hnone, List.map_nil, printedToken_nil, ht]
    rfl
  | some name =>
    rw [printedToken, lastReplacement_renaming, hn]
    rfl

theorem join_texts (ss : List String) : Wide.join (ss.map .text) = .text (String.join ss) := by
  have h : (ss.map Wide.text).mapM Wide.text? = some ss := by
    induction ss with
    | nil => rfl
    | cons s ss ih =>
      rw [List.map_cons, List.mapM_cons, ih]
      rfl
  rw [Wide.join, h]

theorem mapM_eq_ok {α β ε : Type} {f : α → Except ε β} {g : α → β} {xs : List α}
    (h : ∀ x ∈ xs, f x = .ok (g x)) : xs.mapM f = .ok (xs.map g) := by
  induction xs with
  | nil => rfl
  | cons x xs ih =>
    rw [List.mapM_cons, h x List.mem_cons_self, ih fun y hy => h y (List.mem_cons_of_mem x hy)]
    rfl

/-- A renamed document prints its token texts with the new names. -/
theorem print_renaming {d : Dialect} {source : String} (renamings : List (Nat × String))
    (hvalue : ∀ t ∈ tokenize d source, isVoidNumber t = false) (s : Scene M) :
    ((Document.ofSource d source).written (renamingWrites renamings)).print s =
      .ok (.text (String.join ((tokenize d source).zipIdx.map fun t =>
        (newName renamings t.2).getD t.1.text))) := by
  rw [Document.print_written, mapM_eq_ok fun t ht => printedToken_renaming s
    (hvalue t.1 (List.fst_mem_of_mem_zipIdx ht)), ← join_texts, List.map_map]
  rfl

/-- Giving identifiers new names changes no other token, when the document is printed and
read again. The new names may come by any operations, as long as these do nothing else to
the document. -/
theorem tokenize_renamed (kit : Kit) (source : String) (memory : M)
    (renamings : List (Nat × String))
    (hvalue : ∀ t ∈ tokenize kit.dialect source, isVoidNumber t = false)
    (hnames : ∀ r ∈ renamings,
      isRenamable (tokenize kit.dialect source) r.1 = true ∧ isNewName r.2 = true) :
    ∃ printed,
      (∀ s : Scene M,
        ((Document.ofSource kit.dialect source).written (renamingWrites renamings)).print s =
          .ok (.text printed)) ∧
      (∀ steps : List (Nat × Operation M),
        ((Workbench.start kit source memory).1.after steps).history 0 = renamingWrites renamings →
        ∀ (register : Nat) c,
          ((Workbench.start kit source memory).1.after steps).registers[register]? = some c →
          c.document = 0 →
          (((Workbench.start kit source memory).1.after steps).step register .source).2 =
            .source (.text printed)) ∧
      (tokenize kit.dialect printed).map Token.lexeme =
        (tokenize kit.dialect source).zipIdx.map fun t =>
          ⟨t.1.kind, (newName renamings t.2).getD t.1.text⟩ := by
  refine ⟨_, print_renaming renamings hvalue, ?_, ?_⟩
  · intro steps hw register c hr hzero
    rw [source_of_history kit source memory hr hzero, hw, print_renaming renamings hvalue]
    rfl
  · have hfits : Fits (newName renamings) false 0 (lexemes kit.dialect source) := by
      rw [← placed_lexemes .origin (lexemes kit.dialect source)]
      refine fits_of_isRenamable fun i name hn => ?_
      rw [Nat.zero_add] at hn
      obtain ⟨hi, hname⟩ := hnames _ (newName_eq_some hn)
      exact ⟨hi, fun _ => rfl, hname⟩
    have hnamed : (tokenize kit.dialect source).zipIdx.map (fun t =>
        (⟨t.1.kind, (newName renamings t.2).getD t.1.text⟩ : Lexeme)) =
          withNames (newName renamings) 0 (lexemes kit.dialect source) := by
      rw [← placed_lexemes .origin (lexemes kit.dialect source), withNames, List.zipIdx_map,
        List.map_map]
      rfl
    rw [hnamed, tokenize, placed_lexemes]
    refine lexemes_withNames hfits ?_
    rw [← hnamed, spelled, List.flatMap_map, String.toList_join, List.flatMap_map]

/-- Give one name to all names. -/
def renameAll : List (Nat × Operation Unit) :=
  [(0, .find (.text "Identifier") .undefined),
   (1, .replaceBy fun s _ _ =>
     .answer s.memory (((Builder.identifier).build (.text "Rest")).map .fixed))]

theorem tokenize_type_parameter : tokenize .tsx "<T, >" =
    [⟨.punctuator, "<", ⟨0, 1, 0⟩, ⟨1, 1, 1⟩⟩, ⟨.identifier, "T", ⟨1, 1, 1⟩, ⟨2, 1, 2⟩⟩,
     ⟨.punctuator, ",", ⟨2, 1, 2⟩, ⟨3, 1, 3⟩⟩, ⟨.whitespace, " ", ⟨3, 1, 3⟩, ⟨4, 1, 4⟩⟩,
     ⟨.punctuator, ">", ⟨4, 1, 4⟩, ⟨5, 1, 5⟩⟩] := by decide +kernel

/-- What the angle bracket is depends on what stands behind the name, which a
longer name does not change. -/
theorem tokenize_renamed_type_parameter :
    (∀ t ∈ tokenize .tsx "<T, >", isVoidNumber t = false) ∧
    (∀ r ∈ [(1, "Rest")], isRenamable (tokenize .tsx "<T, >") r.1 = true ∧
      isNewName r.2 = true) ∧
    ∃ printed,
      (((Workbench.start (.ofDialect .tsx) "<T, >" ()).1.after renameAll).step 1 .source).2 =
        .source (.text printed) ∧
      (tokenize .tsx printed).map Token.lexeme =
        [⟨.punctuator, "<"⟩, ⟨.identifier, "Rest"⟩, ⟨.punctuator, ","⟩, ⟨.whitespace, " "⟩,
         ⟨.punctuator, ">"⟩] := by
  have hvalue : ∀ t ∈ tokenize .tsx "<T, >", isVoidNumber t = false := by
    rw [tokenize_type_parameter]
    decide
  have hnames : ∀ r ∈ [(1, "Rest")], isRenamable (tokenize .tsx "<T, >") r.1 = true ∧
      isNewName r.2 = true := by
    rw [tokenize_type_parameter]
    decide
  refine ⟨hvalue, hnames, ?_⟩
  obtain ⟨printed, -, hsteps, htokens⟩ :=
    tokenize_renamed (.ofDialect .tsx) "<T, >" () [(1, "Rest")] hvalue hnames
  refine ⟨printed, ?_, ?_⟩
  · refine hsteps renameAll ?_ 1 ⟨0, [1]⟩ ?_ rfl
    · simp only [Workbench.start, Workbench.openSource, Document.ofSource, Kit.ofDialect,
        tokenize_type_parameter]
      rfl
    · simp only [Workbench.start, Workbench.openSource, Document.ofSource, Kit.ofDialect,
        tokenize_type_parameter]
      rfl
  · rw [show (Kit.ofDialect .tsx).dialect = .tsx from rfl, tokenize_type_parameter] at htokens
    exact htokens

end Retouch.Toolkit
