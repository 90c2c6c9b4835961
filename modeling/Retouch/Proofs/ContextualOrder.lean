import Retouch.Proofs.Spelling

/-! Contextual words in any order. A decision reads of its neighbours only what no
decision changes: whether they are trivia, their texts, and whether they continue a
clause. So the words can be decided in place one after the other, in any order and
also more than once, or all at once from the list as it was; each time the result is
that of the pass from left to right, and a second pass changes nothing. -/

namespace Retouch.Syntax

/-! ### What neighbours see -/

/-- What is read of a lexeme when a word beside it is decided. -/
def Lexeme.look (l : Lexeme) : Bool × String × Bool := (l.isTrivia, l.text, continuesClause l)

theorem look_resolved (d : Dialect) (before after : Option Lexeme) (l : Lexeme) :
    Lexeme.look ⟨resolvedKind d before l after, l.text⟩ = l.look := by
  rw [Lexeme.look, isTrivia_resolved, continuesClause_resolved, Lexeme.look]

theorem keywordPosition_look (before after : Option Lexeme) : keywordPosition before after =
    (!(before.map Lexeme.look).any (fun seen => seen.2.1 ∈ [".", "?."]) &&
      (after.map Lexeme.look).any (·.2.2)) := by
  rw [Option.any_map, Option.any_map]
  rfl

theorem resolvedKind_look {before before' after after' : Option Lexeme}
    (hb : before'.map Lexeme.look = before.map Lexeme.look)
    (ha : after'.map Lexeme.look = after.map Lexeme.look) (d : Dialect) (l : Lexeme) :
    resolvedKind d before' l after' = resolvedKind d before l after := by
  rw [resolvedKind, keywordPosition_look, hb, ha, ← keywordPosition_look, resolvedKind]

/-- A decision makes a keyword of a contextual word, or changes nothing. -/
theorem resolvedKind_cases (d : Dialect) (before after : Option Lexeme) (l : Lexeme) :
    resolvedKind d before l after = l.kind ∨
      l.kind = .identifier ∧ d.isContextual l.text = true ∧
        resolvedKind d before l after = .keyword := by
  unfold resolvedKind
  split
  · rename_i h
    simp only [Bool.and_eq_true, decide_eq_true_eq] at h
    exact .inr ⟨h.1.1, h.1.2, rfl⟩
  · exact .inl rfl

/-- A word that is decided is not decided otherwise by the same neighbours. -/
theorem resolvedKind_resolved (d : Dialect) (before after : Option Lexeme) (l : Lexeme) :
    resolvedKind d before ⟨resolvedKind d before l after, l.text⟩ after =
      resolvedKind d before l after := by
  rcases resolvedKind_cases d before after l with hsame | ⟨-, -, hkind⟩
  · rw [hsame]
    exact hsame
  · rw [hkind]
    rfl

/-! ### Deciding in place -/

/-- The lexeme at `i` with its kind decided by its neighbours in the list. -/
def decided (d : Dialect) (ls : List Lexeme) (i : Nat) (l : Lexeme) : Lexeme :=
  ⟨resolvedKind d (firstSignificant (ls.take i).reverse) l (firstSignificant (ls.drop (i + 1))),
    l.text⟩

/-- Decide the word at one position, by the list as it is then. -/
def decideAt (d : Dialect) (ls : List Lexeme) (i : Nat) : List Lexeme :=
  ls.modify i (decided d ls i)

/-- Decide all words by the list as it was. -/
def decideAll (d : Dialect) (ls : List Lexeme) : List Lexeme := ls.mapIdx (decided d ls)

/-- The list with the words at some positions decided by the list as it was. -/
def decideSome (d : Dialect) (ls : List Lexeme) (seen : List Nat) : List Lexeme :=
  ls.mapIdx fun i l => if i ∈ seen then decided d ls i l else l

variable {d : Dialect} {ls ms : List Lexeme}

theorem firstSignificant_cons (l : Lexeme) (ls : List Lexeme) :
    firstSignificant (l :: ls) = if l.isTrivia then firstSignificant ls else some l := by
  rw [firstSignificant, List.find?_cons]
  cases l.isTrivia <;> rfl

theorem firstSignificant_look (ls : List Lexeme) :
    (firstSignificant ls).map Lexeme.look = (ls.map Lexeme.look).find? (!·.1) := by
  rw [firstSignificant, List.find?_map]
  rfl

/-- Lists that look the same lead to the same decisions. -/
theorem decided_look (h : ms.map Lexeme.look = ls.map Lexeme.look) (i : Nat) (l : Lexeme) :
    decided d ms i l = decided d ls i l := by
  unfold decided
  congr 1
  apply resolvedKind_look
  · simp only [firstSignificant_look, List.map_reverse, List.map_take, h]
  · simp only [firstSignificant_look, List.map_drop, h]

theorem decided_decided (i : Nat) (l : Lexeme) :
    decided d ls i (decided d ls i l) = decided d ls i l := by
  unfold decided
  rw [resolvedKind_resolved]

theorem decided_trivia {l : Lexeme} (h : l.isTrivia = true) (i : Nat) : decided d ls i l = l := by
  have hkind : l.kind ≠ .identifier := by
    intro hk
    rw [Lexeme.isTrivia, hk] at h
    cases h
  simp [decided, resolvedKind, hkind]

theorem decideSome_look (seen : List Nat) :
    (decideSome d ls seen).map Lexeme.look = ls.map Lexeme.look := by
  apply List.ext_getElem?
  intro i
  rw [List.getElem?_map, List.getElem?_map, decideSome, List.getElem?_mapIdx, Option.map_map]
  congr 1
  funext l
  simp only [Function.comp_apply]
  split
  · exact look_resolved d _ _ l
  · rfl

theorem decideSome_nil : decideSome d ls [] = ls := by
  apply List.ext_getElem?
  intro i
  simp [decideSome]

/-- One visit, at a position that may have been visited before. -/
theorem decideAt_decideSome (seen : List Nat) (i : Nat) :
    decideAt d (decideSome d ls seen) i = decideSome d ls (i :: seen) := by
  have hvisit : decided d (decideSome d ls seen) i = decided d ls i :=
    funext fun l => decided_look (decideSome_look seen) i l
  rw [decideAt, hvisit]
  apply List.ext_getElem?
  intro j
  rw [List.getElem?_modify]
  simp only [decideSome, List.getElem?_mapIdx, List.mem_cons]
  cases ls[j]? with
  | none => rfl
  | some l =>
    by_cases hij : i = j
    · subst hij
      by_cases hseen : i ∈ seen
      · simp [hseen, decided_decided]
      · simp [hseen]
    · simp [hij, Ne.symm hij]

/-- Visits in any order decide the positions that were visited. -/
theorem foldl_decideAt (d : Dialect) (ls : List Lexeme) (order seen : List Nat) :
    order.foldl (decideAt d) (decideSome d ls seen) = decideSome d ls (order.reverse ++ seen) := by
  induction order generalizing seen with
  | nil => rfl
  | cons i order ih =>
    rw [List.foldl_cons, decideAt_decideSome, ih, List.reverse_cons, List.append_assoc]
    rfl

theorem decideSome_significant {seen : List Nat}
    (h : ∀ (i : Nat) (l : Lexeme), ls[i]? = some l → l.isTrivia = false → i ∈ seen) :
    decideSome d ls seen = decideAll d ls := by
  apply List.ext_getElem?
  intro i
  rw [decideSome, decideAll, List.getElem?_mapIdx, List.getElem?_mapIdx]
  cases hl : ls[i]? with
  | none => rfl
  | some l =>
    by_cases hseen : i ∈ seen
    · simp [hseen]
    · have htrivia : l.isTrivia = true := by
        cases ht : l.isTrivia with
        | true => rfl
        | false => exact absurd (h i l hl ht) hseen
      simp [hseen, decided_trivia htrivia]

theorem decideAll_look (d : Dialect) (ls : List Lexeme) :
    (decideAll d ls).map Lexeme.look = ls.map Lexeme.look := by
  have hall : decideSome d ls (List.range ls.length) = decideAll d ls := by
    apply decideSome_significant
    intro i l hl _
    exact List.mem_range.mpr (List.getElem?_eq_some_iff.mp hl).1
  rw [← hall, decideSome_look]

theorem decideAll_decideAll : decideAll d (decideAll d ls) = decideAll d ls := by
  apply List.ext_getElem?
  intro i
  rw [decideAll, List.getElem?_mapIdx]
  simp only [decideAll, List.getElem?_mapIdx, Option.map_map]
  congr 1
  funext l
  exact (decided_look (decideAll_look d ls) i (decided d ls i l)).trans (decided_decided i l)

/-- The pass from left to right, behind lexemes that it has already passed. -/
theorem resolve_behind {before : Option Lexeme} (xs : List Lexeme)
    (hb : before.map Lexeme.look = (firstSignificant xs.reverse).map Lexeme.look)
    (ls : List Lexeme) :
    resolve d before ls = ls.mapIdx fun i l => decided d (xs ++ ls) (xs.length + i) l := by
  induction ls generalizing before xs with
  | nil => rfl
  | cons l ls ih =>
    have hhead : (⟨resolvedKind d before l (firstSignificant ls), l.text⟩ : Lexeme) =
        decided d (xs ++ l :: ls) (xs.length + 0) l := by
      have htake : (xs ++ l :: ls).take (xs.length + 0) = xs := by simp
      have hdrop : (xs ++ l :: ls).drop (xs.length + 0 + 1) = ls := by simp
      rw [decided, htake, hdrop, resolvedKind_look hb rfl]
    have hnext : (if l.isTrivia then before
        else some (⟨resolvedKind d before l (firstSignificant ls), l.text⟩ : Lexeme)).map
          Lexeme.look = (firstSignificant (xs ++ [l]).reverse).map Lexeme.look := by
      rw [List.reverse_concat, firstSignificant_cons]
      split
      · exact hb
      · exact congrArg some (look_resolved d _ _ l)
    rw [resolve, List.mapIdx_cons, ih (xs ++ [l]) hnext, hhead]
    simp [Nat.add_assoc, Nat.add_comm 1]

theorem resolve_eq_decideAll (d : Dialect) (ls : List Lexeme) :
    resolve d none ls = decideAll d ls := by
  have hfront := @resolve_behind d none [] rfl ls
  rw [hfront, decideAll]
  simp

/-- The contextual words of a list are decided alike in place, in any order in which
every significant lexeme is visited, and all at once from the list as it was. Only
names that are contextual words of the dialect change, and only to keywords; and a
second pass changes nothing. -/
theorem resolve_any_order (d : Dialect) (ls : List Lexeme) :
    (∀ order : List Nat,
      (∀ (i : Nat) (l : Lexeme), ls[i]? = some l → l.isTrivia = false → i ∈ order) →
      order.foldl (decideAt d) ls = resolve d none ls) ∧
    decideAll d ls = resolve d none ls ∧
    (resolve d none ls).length = ls.length ∧
    (∀ (i : Nat) (l l' : Lexeme), ls[i]? = some l → (resolve d none ls)[i]? = some l' →
      l' = l ∨ l.kind = .identifier ∧ d.isContextual l.text = true ∧ l' = ⟨.keyword, l.text⟩) ∧
    resolve d none (resolve d none ls) = resolve d none ls := by
  rw [resolve_eq_decideAll, resolve_eq_decideAll]
  refine ⟨fun order horder => ?_, rfl, List.length_mapIdx, fun i l l' hl hl' => ?_,
    decideAll_decideAll⟩
  · have hrun := foldl_decideAt d ls order []
    rw [decideSome_nil, List.append_nil] at hrun
    rw [hrun]
    apply decideSome_significant
    intro i l hl ht
    exact List.mem_reverse.mpr (horder i l hl ht)
  · rw [decideAll, List.getElem?_mapIdx, hl, Option.map_some, Option.some.injEq] at hl'
    subst hl'
    unfold decided
    rcases resolvedKind_cases d (firstSignificant (ls.take i).reverse)
      (firstSignificant (ls.drop (i + 1))) l with hsame | ⟨hname, hword, hkind⟩
    · exact .inl (by rw [hsame])
    · exact .inr ⟨hname, hword, by rw [hkind]⟩

/-- Words that each would be a keyword before the next. -/
def wordChain : List Lexeme :=
  [⟨.identifier, "as"⟩, ⟨.whitespace, " "⟩, ⟨.identifier, "as"⟩, ⟨.comment, "/**/"⟩,
    ⟨.identifier, "from"⟩, ⟨.whitespace, " "⟩, ⟨.identifier, "of"⟩]

theorem resolve_any_order_chain :
    [6, 4, 2, 0].foldl (decideAt .js) wordChain = resolve .js none wordChain ∧
    [2, 6, 0, 4, 2].foldl (decideAt .js) wordChain = resolve .js none wordChain ∧
    (resolve .js none wordChain).map Lexeme.kind =
      [.keyword, .whitespace, .keyword, .comment, .keyword, .whitespace, .identifier] := by
  have hsignificant : ∀ (i : Nat) (l : Lexeme), wordChain[i]? = some l → l.isTrivia = false →
      i = 0 ∨ i = 2 ∨ i = 4 ∨ i = 6 := by
    intro i l hl ht
    have hlt : i < 7 := (List.getElem?_eq_some_iff.mp hl).1
    have hodd : ∀ j < 7, (wordChain[j]?).any (fun l => l.isTrivia = false) →
        j = 0 ∨ j = 2 ∨ j = 4 ∨ j = 6 := by decide +kernel
    exact hodd i hlt (by simp [hl, ht])
  obtain ⟨horder, -⟩ := resolve_any_order .js wordChain
  refine ⟨horder _ fun i l hl ht => ?_, horder _ fun i l hl ht => ?_, by decide +kernel⟩
  · rcases hsignificant i l hl ht with rfl | rfl | rfl | rfl <;> decide
  · rcases hsignificant i l hl ht with rfl | rfl | rfl | rfl <;> decide

end Retouch.Syntax
