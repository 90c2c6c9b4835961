import Retouch.Proofs.DerivedCollections
import Retouch.Proofs.TokenPositions

/-! The token under a position. Places only grow along a text, in lines and then in
columns, whatever lines a token spans. So the last token of a collection that begins
no later than a position is the only one that can have it, and the search that keeps
the last such token of an increasing collection finds it. -/

namespace Retouch

namespace Syntax

/-- Whether a place is no later than a column of a line. -/
def Place.notAfter (p : Place) (line column : Nat) : Bool :=
  p.line < line || (p.line = line && p.column ≤ column)

/-- Whether a token has a position, which its start is and its stop is not. -/
def Token.covers (t : Token) (line column : Nat) : Bool :=
  t.start.notAfter line column && !t.stop.notAfter line column

/-! ### Places grow -/

theorem Place.notAfter_of_step {p : Place} {c : Char} {line column : Nat}
    (h : (p.step c).notAfter line column = true) : p.notAfter line column = true := by
  unfold Place.step at h
  split at h
  · simp [Place.notAfter] at h ⊢
    omega
  · simp [Place.notAfter] at h ⊢
    omega

theorem Place.notAfter_of_past {p : Place} {cs : List Char} {line column : Nat}
    (h : (p.past cs).notAfter line column = true) : p.notAfter line column = true := by
  induction cs generalizing p with
  | nil => exact h
  | cons c cs ih => exact Place.notAfter_of_step (ih h)

theorem placed_start_past {p : Place} {ls : List Lexeme} {u : Token} (h : u ∈ placed p ls) :
    ∃ cs, u.start = p.past cs := by
  obtain ⟨xs, ys, hcut⟩ := List.append_of_mem h
  exact ⟨_, (placed_append_cons hcut).1⟩

/-- A token stops no later than a later one starts. -/
theorem placed_stop_notAfter {p : Place} {ls : List Lexeme} {i j line column : Nat} {t u : Token}
    (hij : i < j) (ht : (placed p ls)[i]? = some t) (hu : (placed p ls)[j]? = some u)
    (h : u.start.notAfter line column = true) : t.stop.notAfter line column = true := by
  induction ls generalizing p i j with
  | nil => simp [placed] at ht
  | cons l ls ih =>
    obtain ⟨j, rfl⟩ := Nat.exists_eq_add_one_of_ne_zero (Nat.ne_zero_of_lt hij)
    simp only [placed, List.getElem?_cons_succ] at hu
    cases i with
    | zero =>
      simp only [placed, List.getElem?_cons_zero, Option.some.injEq] at ht
      obtain ⟨cs, hstart⟩ := placed_start_past (List.mem_of_getElem? hu)
      rw [hstart] at h
      rw [← ht]
      exact Place.notAfter_of_past h
    | succ i =>
      simp only [placed, List.getElem?_cons_succ] at ht
      exact ih (Nat.lt_of_succ_lt_succ hij) ht hu

/-- Lines and columns of the tokens are bounded by the text. -/
theorem tokenize_start_le {d : Dialect} {source : String} {t : Token} (h : t ∈ tokenize d source) :
    t.start.line ≤ source.length ∧ t.start.column < source.length := by
  obtain ⟨before, after, hsource, hstart, -⟩ := tokenize_ends h
  have htext : t.text.toList ≠ [] := by
    simpa using tokenize_nonempty d source t h
  have hbefore : before.length < source.length := by
    have hlen := congrArg List.length hsource
    have hpos := List.length_pos_iff.mpr htext
    simp only [List.length_append, String.length_toList] at hlen hpos
    omega
  have hline : before.count '\n' ≤ before.length := List.count_le_length
  have hcolumn := Buffer.Position.length_lastLine_le before
  rw [hstart, Place.past_origin]
  show before.count '\n' + 1 ≤ source.length ∧ (Buffer.lastLine before).length < source.length
  omega

end Syntax

namespace Toolkit
open Syntax
variable {M : Type}

/-! ### Positions of scripts -/

/-- A value that names a line and a column. -/
structure PointsTo (position : Value) (line column : Nat) : Prop where
  line : position.member "line" = .number (.ofNat line)
  column : position.member "column" = .number (.ofNat column)

theorem PointsTo.truthy {position : Value} {line column : Nat}
    (h : PointsTo position line column) : position.truthy = true := by
  have hline := h.line
  cases position with
  | array | object => rfl
  | undefined | null | bool | number => cases hline
  | text | loose => cases hline

theorem isLess_number (m n : Number) : isLess (.number m) (.number n) = .ok (m.less n) := rfl

theorem positionBefore_of_pointsTo {position : Value} {line column : Nat}
    (h : PointsTo position line column) {p : Place} (hline : p.line < 2 ^ 53)
    (hcolumn : p.column < 2 ^ 53) :
    positionBefore position p = .ok (!p.notAfter line column) := by
  unfold positionBefore
  rw [h.line, h.column]
  simp only [isLess_number, Value.same, Number.less_ofNat _ hline, Number.less_ofNat _ hcolumn,
    Number.same_ofNat _ hline]
  rcases Nat.lt_trichotomy line p.line with hlt | heq | hgt
  · have hnot : p.notAfter line column = false := by
      simp [Place.notAfter]
      omega
    simp [hlt, hnot, bind, Except.bind, pure, Except.pure]
  · subst heq
    have hnot : (!p.notAfter p.line column) = decide (column < p.column) := by
      simp [Place.notAfter, ← decide_not]
    simp [hnot, bind, Except.bind]
  · have hnot : p.notAfter line column = true := by
      simp [Place.notAfter, hgt]
    simp [Nat.not_lt.mpr (Nat.le_of_lt hgt), Nat.ne_of_gt hgt, hnot, bind, Except.bind, pure,
      Except.pure]

/-! ### The search -/

/-- Whether token `i` is significant and begins no later than a position. -/
def hasBegun (tokens : List Token) (line column i : Nat) : Bool :=
  tokens[i]?.any fun t => !t.isTrivia && t.start.notAfter line column

/-- What is found for a position among some tokens. It is empty when all of them are
trivia or begin later; else it is the last one that does not, and when one of them has
the position it is that one. -/
structure ClosestIn (tokens : List Token) (members : List Nat) (line column : Nat)
    (found : List Nat) : Prop where
  eq_nil_iff : found = [] ↔ ∀ i ∈ members, hasBegun tokens line column i = false
  last : ∀ i ∈ found, found = [i] ∧ i ∈ members ∧ hasBegun tokens line column i = true ∧
    ∀ j ∈ members, hasBegun tokens line column j = true → j ≤ i
  covering : ∀ i ∈ members, ∀ t, tokens[i]? = some t → t.isTrivia = false →
    t.covers line column = true → found = [i]

theorem sift_of_ok {test : Nat → Except Fault Bool} {p : Nat → Bool} {members : List Nat}
    (h : ∀ i ∈ members, test i = .ok (p i)) : sift test members = .ok (members.filter p) := by
  induction members with
  | nil => rfl
  | cons i rest ih =>
    rw [sift, h i List.mem_cons_self, ih fun j hj => h j (List.mem_cons_of_mem _ hj),
      List.filter_cons]
    rfl

theorem le_of_getLast? {l : List Nat} (hl : l.Pairwise (· < ·)) {i : Nat}
    (hi : l.getLast? = some i) : ∀ j ∈ l, j ≤ i := by
  obtain ⟨front, rfl⟩ := List.getLast?_eq_some_iff.mp hi
  intro j hj
  rcases List.mem_append.mp hj with hj | hj
  · exact Nat.le_of_lt ((List.pairwise_append.mp hl).2.2 j hj i List.mem_cons_self)
  · exact Nat.le_of_eq (List.mem_singleton.mp hj)

theorem hasBegun_eq_true {tokens : List Token} {line column i : Nat} :
    hasBegun tokens line column i = true ↔
      ∃ t, tokens[i]? = some t ∧ t.isTrivia = false ∧ t.start.notAfter line column = true := by
  simp [hasBegun, Option.any_eq_true]

/-- Once a token has the position, no later one has begun. -/
theorem le_of_covers {d : Dialect} {source : String} {i j line column : Nat} {t : Token}
    (ht : (tokenize d source)[i]? = some t) (hcovers : t.covers line column = true)
    (hj : hasBegun (tokenize d source) line column j = true) : j ≤ i := by
  obtain ⟨u, hu, -, hstart⟩ := hasBegun_eq_true.mp hj
  obtain ⟨-, hstop⟩ := Bool.and_eq_true_iff.mp hcovers
  apply Nat.le_of_not_lt
  intro hij
  simp [placed_stop_notAfter hij ht hu hstart] at hstop

/-- The last token that has begun, of an increasing collection. -/
theorem closestIn_getLast (d : Dialect) (source : String) {members : List Nat}
    (hm : members.Pairwise (· < ·)) (line column : Nat) :
    ClosestIn (tokenize d source) members line column
      (members.filter (hasBegun (tokenize d source) line column)).getLast?.toList where
  eq_nil_iff := by
    simp
  last := by
    intro i hi
    have hlast := Option.mem_toList.mp hi
    obtain ⟨hmem, hbegun⟩ := List.mem_filter.mp (List.mem_of_getLast? hlast)
    refine ⟨by rw [Option.mem_def.mp hlast]; rfl, hmem, hbegun, ?_⟩
    intro j hj hbegun'
    exact le_of_getLast? (hm.filter _) hlast j (List.mem_filter.mpr ⟨hj, hbegun'⟩)
  covering := by
    intro i hi t ht htrivia hcovers
    have hbegun : hasBegun (tokenize d source) line column i = true :=
      hasBegun_eq_true.mpr ⟨t, ht, htrivia, (Bool.and_eq_true_iff.mp hcovers).1⟩
    have himem := List.mem_filter.mpr ⟨hi, hbegun⟩
    obtain ⟨k, hk⟩ := Option.isSome_iff_exists.mp
      (List.getLast?_isSome.mpr (List.ne_nil_of_mem himem))
    have hik : i ≤ k := le_of_getLast? (hm.filter _) hk i himem
    have hki : k ≤ i :=
      le_of_covers ht hcovers (List.mem_filter.mp (List.mem_of_getLast? hk)).2
    rw [hk, Nat.le_antisymm hik hki]
    rfl

/-! ### Documents that were written to -/

/-- Writes leave the tokens as they are, and with them what begins where. -/
theorem reaches_written {d : Dialect} {source : String} (hsource : source.length < 2 ^ 53)
    (ws : List (Nat × Write M)) {position : Value} {line column : Nat}
    (hp : PointsTo position line column) (i : Nat) :
    ((Document.ofSource d source).written ws).reaches position i =
      .ok (hasBegun (tokenize d source) line column i) := by
  unfold Document.reaches hasBegun
  rw [Document.written_getElem?]
  simp only [Document.ofSource, List.getElem?_toArray, List.getElem?_map]
  cases ht : (tokenize d source)[i]? with
  | none => rfl
  | some t =>
    obtain ⟨hline, hcolumn⟩ := tokenize_start_le (List.mem_of_getElem? ht)
    simp only [Option.map_some, foldl_write, Entry.ofToken, Option.any_some]
    rw [positionBefore_of_pointsTo hp (Nat.lt_of_le_of_lt hline hsource)
      (Nat.lt_trans hcolumn hsource)]
    cases t.isTrivia with
    | true => rfl
    | false => simp [Except.map]

theorem closestTo_written {d : Dialect} {source : String} (hsource : source.length < 2 ^ 53)
    (ws : List (Nat × Write M)) {position : Value} {line column : Nat}
    (hp : PointsTo position line column) {members : List Nat}
    (hm : members.Sublist (List.range (tokenize d source).length)) :
    ((Document.ofSource d source).written ws).closestTo members position =
      .ok (members.filter (hasBegun (tokenize d source) line column)).getLast?.toList := by
  have hreach : ((Document.ofSource d source).written ws).reach members "type" = .ok () := by
    unfold Document.reach
    rw [Document.size_written, Document.size_ofSource, if_pos]
    exact List.all_eq_true.mpr fun i hi => decide_eq_true (List.mem_range.mp (hm.subset hi))
  unfold Document.closestTo
  rw [hp.truthy, hreach, sift_of_ok fun i _ => reaches_written hsource ws hp i]
  rfl

/-- Whatever was done before, and whatever functions were called back, the token closest to
a position is found in every collection of a run, and in every collection that a choice
could make of the tokens of a document that was written to in any way. Lines and columns
are compared as doubles, which is exact in texts of fewer than `2 ^ 53` characters. -/
theorem closestTo_token_under_position (kit : Kit) (memory : M) {source : String}
    (hsource : source.length < 2 ^ 53) {position : Value} {line column : Nat}
    (hp : PointsTo position line column) :
    (∀ steps : List (Nat × Operation M), (∀ s ∈ steps, s.2.Numbered) →
      let w := (Workbench.start kit source memory).1.after steps
      ∀ (register : Nat) c, w.registers[register]? = some c →
        ∃ d s, (c.document = 0 → d = kit.dialect ∧ s = source) ∧
          (s.length < 2 ^ 53 → ∃ found, ClosestIn (tokenize d s) c.indices line column found ∧
            w.step register (.closest position) = w.keep c found)) ∧
    ∀ (ws : List (Nat × Write M)) (members : List Nat),
      members.Sublist (List.range (tokenize kit.dialect source).length) →
      ∃ found, ClosestIn (tokenize kit.dialect source) members line column found ∧
        ((Document.ofSource kit.dialect source).written ws).closestTo members position =
          .ok found := by
  constructor
  · intro steps hs w register c hr
    obtain ⟨d, s, hzero, hof, -⟩ :=
      (Workbench.after_began kit source memory steps).documentOf hr
    refine ⟨d, s, hzero, fun hlength => ?_⟩
    have hsub := Workbench.after_within kit source memory hs register c hr
    rw [hof.size] at hsub
    refine ⟨_, closestIn_getLast d s (List.pairwise_lt_range.sublist hsub) line column, ?_⟩
    simp only [Workbench.step, show w.registers[register]? = some c from hr, Workbench.apply]
    rw [hof, closestTo_written hlength _ hp hsub]
    rfl
  · intro ws members hm
    exact ⟨_, closestIn_getLast _ source (List.pairwise_lt_range.sublist hm) line column,
      closestTo_written hsource ws hp hm⟩

/-- A comment and a template of two lines each. -/
def spreadSource : String := "a /*\n*/ `\n`;"

/-- The second line of the template. -/
def inTemplate : Value := .object [("line", .number (.ofNat 3)), ("column", .number (.ofNat 0))]

theorem spreadSource_tokens : tokenize .ts spreadSource =
    [⟨.identifier, "a", ⟨0, 1, 0⟩, ⟨1, 1, 1⟩⟩, ⟨.whitespace, " ", ⟨1, 1, 1⟩, ⟨2, 1, 2⟩⟩,
     ⟨.comment, "/*\n*/", ⟨2, 1, 2⟩, ⟨7, 2, 2⟩⟩, ⟨.whitespace, " ", ⟨7, 2, 2⟩, ⟨8, 2, 3⟩⟩,
     ⟨.template, "`\n`", ⟨8, 2, 3⟩, ⟨11, 3, 1⟩⟩, ⟨.punctuator, ";", ⟨11, 3, 1⟩, ⟨12, 3, 2⟩⟩] := by
  decide +kernel

/-- Make every node say that it is a comment. -/
def callComments : List (Nat × Operation Unit) :=
  [(0, .forEach fun s r _ => .write s.memory r (.assigned "type" (.text "Comment")) fun s' =>
    .answer s'.memory (.ok (.fixed .undefined)))]

/-- The template is found where its text goes on, and after its node was made to say
that it is a comment. -/
theorem closestTo_token_under_position_template :
    spreadSource.length < 2 ^ 53 ∧ PointsTo inTemplate 3 0 ∧
    let w := (Workbench.start (.ofDialect .ts) spreadSource ()).1.after callComments
    w.registers[0]? = some ⟨0, [0, 1, 2, 3, 4, 5]⟩ ∧
    w.step 0 (.closest inTemplate) = w.keep ⟨0, [0, 1, 2, 3, 4, 5]⟩ [4] := by
  have hsource : spreadSource.length < 2 ^ 53 := by decide
  have hp : PointsTo inTemplate 3 0 := ⟨rfl, rfl⟩
  have hr : ((Workbench.start (.ofDialect .ts) spreadSource ()).1.after
      callComments).registers[0]? = some ⟨0, [0, 1, 2, 3, 4, 5]⟩ := by
    simp only [Workbench.start, Workbench.openSource, Document.ofSource, Kit.ofDialect,
      spreadSource_tokens]
    rfl
  have hs : ∀ s ∈ callComments, s.2.Numbered := by
    simp [callComments, Operation.Numbered, Operation.All, Reaction.All, Operation.countsByNumber]
  obtain ⟨d, s, hzero, hfound⟩ :=
    (closestTo_token_under_position (.ofDialect .ts) () hsource hp).1 callComments hs 0 _ hr
  obtain ⟨rfl, rfl⟩ := hzero rfl
  obtain ⟨found, hclosest, hstep⟩ := hfound hsource
  have hfour : found = [4] := hclosest.covering 4 (by decide) _
    (congrArg (·[4]?) spreadSource_tokens) rfl rfl
  exact ⟨hsource, hp, hr, hfour ▸ hstep⟩

end Toolkit

end Retouch
