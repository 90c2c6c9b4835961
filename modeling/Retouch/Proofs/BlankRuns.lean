import Retouch.Erase.Layout
import Retouch.Proofs.Partition

/-! The text with its erased tokens blanked out, token by token. Blanking goes run by run:
from the first byte of a run of erased tokens to its last, with all that stands between.
A token knows the bytes before it, so a run takes in whole tokens, and the trivia that it
takes in is that with an erased token on either side. -/

namespace Retouch
open Syntax Text

namespace Erase

def shown (hide : Bool) (text : List Char) : List Char := if hide then text.map blank else text

/-- The text of a token list whose first significant token has index `k`: a significant
token is blanked if it is erased, and trivia if both tokens around it are. -/
def laidOut (erased : Nat → Bool) (k : Nat) : List Token → List Char
  | [] => []
  | t :: ts =>
    if t.isTrivia then
      shown (0 < k && erased (k - 1) && erased k) t.text.toList ++ laidOut erased k ts
    else shown (erased k) t.text.toList ++ laidOut erased (k + 1) ts

theorem shown_length (hide : Bool) (text : List Char) : (shown hide text).length = text.length := by
  unfold shown
  split <;> simp

/-! ### Trivia and the token behind it -/

def texts (ts : List Token) : List Char := ts.flatMap fun t => t.text.toList

@[simp] theorem texts_nil : texts [] = [] := rfl

@[simp] theorem texts_cons (t : Token) (ts : List Token) :
    texts (t :: ts) = t.text.toList ++ texts ts := rfl

@[simp] theorem texts_append (ts us : List Token) : texts (ts ++ us) = texts ts ++ texts us :=
  List.flatMap_append

/-- Trivia is all of a list, or stands before its first significant token. -/
theorem exists_first_significant (ts : List Token) :
    (∀ t ∈ ts, t.isTrivia = true) ∨ ∃ gap t rest, ts = gap ++ t :: rest ∧
      (∀ t ∈ gap, t.isTrivia = true) ∧ t.isTrivia = false := by
  induction ts with
  | nil => exact .inl (by simp)
  | cons t ts ih =>
    by_cases ht : t.isTrivia = true
    · rcases ih with hall | ⟨gap, u, rest, rfl, hgap, hu⟩
      · exact .inl (by simpa [ht] using hall)
      · exact .inr ⟨t :: gap, u, rest, rfl, by simpa [ht] using hgap, hu⟩
    · exact .inr ⟨[], t, ts, rfl, by simp, by simpa using ht⟩

theorem laidOut_trivia {erased : Nat → Bool} {k : Nat} {gap : List Token}
    (hgap : ∀ t ∈ gap, t.isTrivia = true) (ts : List Token) : laidOut erased k (gap ++ ts) =
      shown (0 < k && erased (k - 1) && erased k) (texts gap) ++ laidOut erased k ts := by
  induction gap with
  | nil => simp [shown]
  | cons t gap ih =>
    rw [List.cons_append, laidOut, if_pos (hgap t (by simp)),
      ih fun u hu => hgap u (by simp [hu])]
    unfold shown
    split <;> simp

theorem length_significant_append (us vs : List Token) :
    (significant (us ++ vs)).length = (significant us).length + (significant vs).length := by
  simp [significant]

theorem length_significant_cons {t : Token} (ht : t.isTrivia = false) (ts : List Token) :
    (significant (t :: ts)).length = (significant ts).length + 1 := by
  simp [significant, ht]

theorem significant_trivia {gap : List Token} (hgap : ∀ t ∈ gap, t.isTrivia = true) :
    significant gap = [] := by
  simpa [significant] using hgap

/-! ### Where tokens stand -/

/-- Every token of the list starts behind the texts of those before it. -/
def Placed (ts : List Token) : Prop := ∀ us t vs, ts = us ++ t :: vs →
  t.start.offset = byteLength (texts us) ∧ t.stop.offset = byteLength (texts (us ++ [t]))

theorem placed_tokenize (d : Dialect) (source : String) : Placed (tokenize d source) := by
  intro us t vs h
  obtain ⟨hstart, hstop⟩ := placed_append_cons h
  have hbegin : t.start.offset = byteLength (texts us) := by
    rw [hstart, Place.past_offset]
    exact Nat.zero_add _
  refine ⟨hbegin, ?_⟩
  rw [hstop, Place.past_offset, hbegin]
  simp

end Erase

namespace Code

theorem runLast_stops {c : Code} {erased : Nat → Bool} {k : Nat}
    (h : c.runLast erased k + 1 < c.size) : erased (c.runLast erased k + 1) = false := by
  fun_induction runLast c erased k with
  | case1 k hnext ih => exact ih h
  | case2 k hstop =>
    rw [← Bool.not_eq_true]
    exact fun he => hstop ⟨h, he⟩

theorem isErased_of_le {c : Code} (e : Erase.Erasure) {k : Nat} (h : c.size ≤ k) :
    c.isErased e k = false := by
  simp [isErased, Nat.not_lt.mpr h]

end Code

namespace Erase
section
variable {ts : List Token} {erased : Nat → Bool}

/-- The code of the significant tokens of a list. -/
def codeOf (ts : List Token) : Code := Code.ofTokens (significant ts)

theorem size_codeOf (ts : List Token) : (codeOf ts).size = (significant ts).length := by
  simp [codeOf, Code.size, Code.ofTokens]

theorem token_codeOf {us vs : List Token} {t : Token} (h : ts = us ++ t :: vs)
    (ht : t.isTrivia = false) : (codeOf ts).tokens[(significant us).length]? = some t := by
  subst h
  simp [codeOf, Code.ofTokens, significant, ht]

theorem startOf_codeOf (hts : Placed ts) {us vs : List Token} {t : Token} (h : ts = us ++ t :: vs)
    (ht : t.isTrivia = false) :
    (codeOf ts).startOf (significant us).length = byteLength (texts us) := by
  rw [Code.startOf, token_codeOf h ht, Option.map_some, Option.getD_some, (hts us t vs h).1]

theorem stopOf_codeOf (hts : Placed ts) {us vs : List Token} {t : Token} (h : ts = us ++ t :: vs)
    (ht : t.isTrivia = false) :
    (codeOf ts).stopOf (significant us).length = byteLength (texts (us ++ [t])) := by
  rw [Code.stopOf, token_codeOf h ht, Option.map_some, Option.getD_some, (hts us t vs h).2]

/-! ### One run -/

/-- A run of erased tokens: behind its first token it takes in whole tokens, all of them
blanked, up to a token that is not erased. -/
theorem laidOut_run (hts : Placed ts) {us vs : List Token} {t : Token} (h : ts = us ++ t :: vs)
    (ht : t.isTrivia = false) (herased : erased (significant us).length = true) :
    ∃ mid rest, vs = mid ++ rest ∧
      (codeOf ts).runLast erased (significant us).length + 1 =
        (significant (us ++ t :: mid)).length ∧
      (codeOf ts).stopOf ((codeOf ts).runLast erased (significant us).length) =
        byteLength (texts (us ++ t :: mid)) ∧
      laidOut erased ((significant us).length + 1) vs = (texts mid).map blank ++
        laidOut erased (significant (us ++ t :: mid)).length rest := by
  induction hn : vs.length using Nat.strongRecOn generalizing us t vs with
  | ind n ih =>
    have hcount : (significant (us ++ [t])).length = (significant us).length + 1 := by
      rw [length_significant_append, length_significant_cons ht]
      rfl
    rw [Code.runLast]
    split
    · rename_i hnext
      -- the token that goes on with the run is the first significant one behind
      rcases exists_first_significant vs with hall | ⟨gap, u, rest, rfl, hgap, hu⟩
      · rw [size_codeOf, h, length_significant_append, length_significant_cons ht,
          significant_trivia hall] at hnext
        simp at hnext
      · have hcut : ts = (us ++ t :: gap) ++ u :: rest := by
          rw [h]
          simp
        have hindex : (significant (us ++ t :: gap)).length = (significant us).length + 1 := by
          rw [length_significant_append, length_significant_cons ht, significant_trivia hgap]
          rfl
        have hshorter : rest.length < n := by
          rw [← hn]
          simp only [List.length_append, List.length_cons]
          omega
        obtain ⟨mid, rest', rfl, hlast, hstop, htext⟩ :=
          ih _ hshorter hcut hu (by rw [hindex]; exact hnext.2) rfl
        rw [hindex] at hlast hstop htext
        refine ⟨gap ++ u :: mid, rest', by simp, ?_, ?_, ?_⟩
        · rw [hlast]
          simp
        · rw [hstop]
          simp
        · have hblank : (0 < (significant us).length + 1 &&
              erased ((significant us).length + 1 - 1) &&
              erased ((significant us).length + 1)) = true := by
            simp [herased, hnext.2]
          rw [laidOut_trivia hgap, hblank, laidOut, if_neg (by simp [hu]), htext, hnext.2]
          simp [shown]
    · exact ⟨[], vs, rfl, hcount.symm, stopOf_codeOf hts h ht, by rw [hcount]; rfl⟩

/-- Behind a run comes a token that is kept, or none. -/
theorem erased_behind_run (hend : ∀ k, (significant ts).length ≤ k → erased k = false) (k : Nat) :
    erased ((codeOf ts).runLast erased k + 1) = false := by
  by_cases hin : (codeOf ts).runLast erased k + 1 < (codeOf ts).size
  · exact Code.runLast_stops hin
  · exact hend _ (by rw [← size_codeOf]; omega)

/-- The slices taken around a run `mid`: what is kept before it, and its own text. -/
theorem slices_at_run {us mid rest : List Token} (h : ts = us ++ mid ++ rest)
    {front kept : List Char} (hfront : texts us = front ++ kept) :
    slice (byteLength front) (byteLength (texts us)) (texts ts) = kept ∧
      slice (byteLength (texts us)) (byteLength (texts (us ++ mid))) (texts ts) = texts mid := by
  have hall : texts ts = texts us ++ texts mid ++ texts rest := by
    rw [h, texts_append, texts_append]
  constructor
  · rw [hall, List.append_assoc, hfront, slice_byteLength]
  · rw [hall, texts_append, slice_byteLength]

/-! ### All runs -/

/-- The text from a cursor on, where what stands between the cursor and the tokens `vs` is
kept, and so is the trivia before the next token. -/
theorem rebuilt_eq (hts : Placed ts) (hend : ∀ k, (significant ts).length ≤ k → erased k = false)
    {us vs : List Token} (h : ts = us ++ vs) {front kept : List Char}
    (hfront : texts us = front ++ kept)
    (hopen : (0 < (significant us).length && erased ((significant us).length - 1) &&
      erased (significant us).length) = false) :
    rebuilt (texts ts) (byteLength front)
        ((codeOf ts).blanks erased (significant us).length) =
      kept ++ laidOut erased (significant us).length vs := by
  induction hn : vs.length using Nat.strongRecOn generalizing us vs front kept with
  | ind n ih =>
    have hall : texts ts = front ++ (kept ++ texts vs) := by
      rw [h, texts_append, hfront, List.append_assoc]
    rcases exists_first_significant vs with htrivia | ⟨gap, t, rest, rfl, hgap, ht⟩
    · have hsize : (codeOf ts).size = (significant us).length := by
        rw [size_codeOf, h, length_significant_append, significant_trivia htrivia]
        rfl
      have hkept := @laidOut_trivia erased (significant us).length vs htrivia []
      rw [List.append_nil] at hkept
      rw [Code.blanks, if_neg (by omega), rebuilt, hall, dropBytes_byteLength, hkept, hopen]
      simp [shown, laidOut]
    · have hcut : ts = (us ++ gap) ++ t :: rest := by
        rw [h]
        simp
      have hindex : (significant (us ++ gap)).length = (significant us).length := by
        rw [length_significant_append, significant_trivia hgap]
        rfl
      have hlt : (significant us).length < (codeOf ts).size := by
        rw [size_codeOf, hcut, length_significant_append, length_significant_cons ht, hindex]
        omega
      have hgapped : laidOut erased (significant us).length (gap ++ t :: rest) =
          texts gap ++ (shown (erased (significant us).length) t.text.toList ++
            laidOut erased ((significant us).length + 1) rest) := by
        rw [laidOut_trivia hgap, hopen, laidOut, if_neg (by simp [ht])]
        rfl
      rw [Code.blanks, if_pos hlt, hgapped]
      split
      · rename_i herased
        obtain ⟨mid, rest', rfl, hlast, hstop, htext⟩ :=
          laidOut_run hts hcut ht (by rwa [hindex])
        rw [hindex] at hlast hstop htext
        have hstart := startOf_codeOf hts hcut ht
        rw [hindex] at hstart
        have hrest : ts = (us ++ gap ++ t :: mid) ++ rest' := by
          rw [hcut]
          simp
        obtain ⟨hkept, hrun⟩ := slices_at_run hrest
          (show texts (us ++ gap) = front ++ (kept ++ texts gap) by simp [hfront])
        have hclosed : erased (significant (us ++ gap ++ t :: mid)).length = false :=
          hlast ▸ erased_behind_run hend _
        have hshorter : rest'.length < n := by
          rw [← hn]
          simp only [List.length_append, List.length_cons]
          omega
        have hafter := @ih _ hshorter _ _ hrest (texts (us ++ gap ++ t :: mid)) [] (by simp)
          (by rw [hclosed, Bool.and_false]) rfl
        rw [rebuilt, hstart, hstop, hkept, hrun, hlast, hafter, htext, herased]
        simp [shown]
      · rename_i herased
        rw [Bool.not_eq_true] at herased
        have hnext : ts = (us ++ gap ++ [t]) ++ rest := by
          rw [hcut]
          simp
        have hcount : (significant (us ++ gap ++ [t])).length = (significant us).length + 1 := by
          rw [length_significant_append, length_significant_cons ht, hindex]
          rfl
        have hshorter : rest.length < n := by
          rw [← hn]
          simp only [List.length_append, List.length_cons]
          omega
        have hafter := @ih _ hshorter _ _ hnext front (kept ++ texts gap ++ t.text.toList)
          (by simp [hfront]) (by rw [hcount, Nat.add_sub_cancel, herased, Bool.and_false]; rfl) rfl
        rw [hcount] at hafter
        rw [hafter, herased]
        simp [shown]

theorem rebuilt_tokens (hts : Placed ts)
    (hend : ∀ k, (significant ts).length ≤ k → erased k = false) :
    rebuilt (texts ts) 0 ((codeOf ts).blanks erased 0) = laidOut erased 0 ts :=
  @rebuilt_eq ts erased hts hend [] ts rfl [] [] rfl rfl

end

/-- The text without type syntax, token by token. -/
theorem eraseTypes_eq {d : Dialect} (hd : d.isTyped = true) (source : String) :
    eraseTypes d source = (Code.ofTokens (significant (tokenize d source))).erasure.map fun e =>
      String.ofList (laidOut ((Code.ofTokens (significant (tokenize d source))).isErased e) 0
        (tokenize d source)) := by
  have htexts : source.toList = texts (tokenize d source) := (tokenize_texts d source).symm
  rw [eraseTypes, if_pos hd]
  refine Option.map_congr fun e he => ?_
  rw [finish, htexts]
  refine congrArg String.ofList (rebuilt_tokens (placed_tokenize d source) fun k hk => ?_)
  exact Code.isErased_of_le e (by rwa [← size_codeOf] at hk)

end Erase

end Retouch
