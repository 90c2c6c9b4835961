import Retouch.Proofs.Places

/-! Absolute paths. Made absolute, a path spells the current directory and its own
names, without its dots; two slashes at its front are kept, and one at its end. Such
a path is its own absolute form. Its steps are those of the first path without dots,
except that a dot at the very end, which asks for a directory, is lost too. -/

namespace Retouch.Path
open Files (IsStep steps)
open OsChar (slash)

/-! ### Parts -/

/-- The parts of a path that are not empty. -/
def parts (p : OsString) : List OsString := (splitSlashes p).filter (· ≠ [])

theorem steps_eq (p : OsString) : steps p = parts p ++ if endsWithSlash p then [dot] else [] := by
  unfold steps
  dsimp only
  split
  · rfl
  · rw [List.append_nil]
    rfl

theorem names_eq (p : OsString) : names p = (parts p).filter (· ≠ dot) := by
  rw [names, parts, List.filter_filter]
  congr 1
  funext part
  simp [Bool.and_comm]

theorem isStep_of_mem_parts {p name : OsString} (h : name ∈ parts p) : IsStep name := by
  apply Files.isStep_of_mem_steps (p := p)
  rw [steps_eq]
  exact List.mem_append_left _ h

theorem mem_names {p name : OsString} (h : name ∈ names p) : IsStep name ∧ name ≠ dot := by
  rw [names_eq] at h
  obtain ⟨hmem, hne⟩ := List.mem_filter.mp h
  exact ⟨isStep_of_mem_parts hmem, by simpa using hne⟩

/-- The last part is a single dot. -/
def endsInDot (p : OsString) : Prop := (splitSlashes p).getLast? = some dot

instance (p : OsString) : Decidable (endsInDot p) := inferInstanceAs (Decidable (_ = _))

/-- Only behind a slash at the end there is nothing. -/
theorem getLast?_splitSlashes {cs : OsString} (hne : cs ≠ []) :
    (splitSlashes cs).getLast? = some [] ↔ cs.getLast? = some slash := by
  constructor
  · intro hlast
    by_cases hslash : slash ∈ cs
    · -- cut at the last slash
      obtain ⟨back, front, hcut, hback⟩ :=
        List.eq_append_cons_of_mem (List.mem_reverse.mpr hslash)
      have hcs : cs = front.reverse ++ slash :: back.reverse := by
        rw [← List.reverse_reverse cs, hcut]
        simp
      rw [hcs, Files.splitSlashes_slash,
        Files.splitSlashes_of_notMem (fun h => hback (List.mem_reverse.mp h)),
        List.getLast?_concat, Option.some.injEq] at hlast
      rw [hcs, hlast, List.getLast?_concat]
    · rw [Files.splitSlashes_of_notMem hslash] at hlast
      exact absurd (Option.some.inj hlast) hne
  · intro hlast
    obtain ⟨front, rfl⟩ := List.getLast?_eq_some_iff.mp hlast
    rw [Files.splitSlashes_slash, splitSlashes, List.getLast?_concat]

/-- The last step of a path that does not end with a slash is its last part. -/
theorem steps_concat {p : OsString} (hp : p ≠ []) (hslash : endsWithSlash p = false) :
    ∃ front last, parts p = front ++ [last] ∧ (endsInDot p ↔ last = dot) := by
  obtain ⟨last, hlast⟩ := Option.ne_none_iff_exists'.mp
    (mt List.getLast?_eq_none_iff.mp (Files.splitSlashes_ne_nil p))
  have hne : last ≠ [] := by
    rintro rfl
    have hend := (getLast?_splitSlashes hp).mp hlast
    simp [endsWithSlash, hend] at hslash
  obtain ⟨front, hsplit⟩ := List.getLast?_eq_some_iff.mp hlast
  refine ⟨front.filter (· ≠ []), last, ?_, ?_⟩
  · simp [parts, hsplit, hne]
  · rw [endsInDot, hlast, Option.some.injEq]

theorem endsWithSlash_of_endsInDot {p : OsString} (h : endsInDot p) : endsWithSlash p = false := by
  rw [endsWithSlash, decide_eq_false_iff_not]
  intro hslash
  have hne : p ≠ [] := by
    rintro rfl
    cases hslash
  have hlast := (getLast?_splitSlashes hne).mpr hslash
  rw [endsInDot, hlast] at h
  cases h

/-! ### The spelling of an absolute path -/

/-- Exactly two slashes stand at the front. -/
def doubled (p : OsString) : Bool :=
  [slash, slash].isPrefixOf p && !([slash, slash, slash].isPrefixOf p)

/-- The path of a place, with one more slash in front of it or behind it. -/
def spelled (lead : Bool) (place : List OsString) (trail : Bool) : OsString :=
  (if lead then [slash] else []) ++ ofNames place ++ if trail && !place.isEmpty then [slash] else []

variable {lead trail : Bool} {place : List OsString}

theorem spelled_plain (place : List OsString) : spelled false place false = ofNames place := by
  simp [spelled]

theorem spelled_eq (h : place ≠ []) : spelled lead place trail =
    (if lead then [slash] else []) ++ place.flatMap (slash :: ·) ++
      if trail then [slash] else [] := by
  have hempty : place.isEmpty = false := by simpa using h
  rw [spelled, Files.ofNames_eq h, hempty]
  cases lead <;> cases trail <;> rfl

theorem isAbsolute_spelled : isAbsolute (spelled lead place trail) = true := by
  by_cases h : place = []
  · subst h
    cases lead <;> cases trail <;> decide
  · obtain ⟨name, rest, rfl⟩ := List.exists_cons_of_ne_nil h
    rw [isAbsolute, spelled_eq h]
    cases lead <;> simp

theorem endsWithSlash_spelled (hplace : ∀ n ∈ place, IsStep n) :
    endsWithSlash (spelled lead place trail) = (trail || place.isEmpty) := by
  by_cases h : place = []
  · subst h
    cases lead <;> cases trail <;> decide
  · have hempty : place.isEmpty = false := by simpa using h
    have hend := Files.endsWithSlash_ofNames h hplace
    rw [endsWithSlash, Files.ofNames_eq h] at hend
    rw [endsWithSlash, spelled_eq h, hempty, Bool.or_false]
    cases trail with
    | true => simp
    | false =>
      have hne : place.flatMap (slash :: ·) ≠ [] := by
        obtain ⟨name, rest, rfl⟩ := List.exists_cons_of_ne_nil h
        simp
      rw [List.getLast?_eq_some_getLast hne] at hend
      rw [if_neg Bool.false_ne_true, List.append_nil, List.getLast?_append,
        List.getLast?_eq_some_getLast hne]
      exact hend

theorem parts_spelled (hplace : ∀ n ∈ place, IsStep n) :
    parts (spelled lead place trail) = place := by
  by_cases h : place = []
  · subst h
    cases lead <;> cases trail <;> decide
  · have hnames := Files.splitSlashes_names (fun n hn => (hplace n hn).2)
    have hkept : place.filter (· ≠ []) = place :=
      List.filter_eq_self.mpr fun n hn => by simpa using (hplace n hn).1
    have hsplit : ∃ n m, splitSlashes (spelled lead place trail) =
        List.replicate n [] ++ place ++ List.replicate m [] := by
      rw [spelled_eq h]
      cases trail with
      | true =>
        rw [if_pos rfl, Files.splitSlashes_slash, hnames]
        cases lead
        · exact ⟨1, 1, rfl⟩
        · exact ⟨2, 1, rfl⟩
      | false =>
        rw [if_neg Bool.false_ne_true, List.append_nil, hnames]
        cases lead
        · exact ⟨1, 0, by simp [splitSlashes]⟩
        · exact ⟨2, 0, by simp [splitSlashes, List.replicate]⟩
    obtain ⟨n, m, hsplit⟩ := hsplit
    rw [parts, hsplit, List.filter_append, List.filter_append, hkept]
    simp

theorem doubled_spelled (hplace : ∀ n ∈ place, IsStep n) :
    doubled (spelled lead place trail) = lead := by
  by_cases h : place = []
  · subst h
    cases lead <;> cases trail <;> decide
  · obtain ⟨name, rest, rfl⟩ := List.exists_cons_of_ne_nil h
    obtain ⟨hne, hslash⟩ := hplace name List.mem_cons_self
    obtain ⟨c, cs, rfl⟩ := List.exists_cons_of_ne_nil hne
    have hc : slash ≠ c := by
      rintro rfl
      exact hslash List.mem_cons_self
    rw [doubled, spelled_eq h, List.flatMap_cons]
    cases lead <;> simp [hc, List.isPrefixOf]

/-! ### Putting names behind a path -/

theorem isAbsolute_of_isStep {name : OsString} (h : IsStep name) : isAbsolute name = false := by
  rw [isAbsolute, decide_eq_false_iff_not]
  intro hhead
  exact h.2 (List.mem_of_head? hhead)

theorem spelled_ne_nil : spelled lead place trail ≠ [] := by
  intro he
  have habs := @isAbsolute_spelled lead trail place
  rw [he] at habs
  cases habs

theorem join_spelled (hplace : ∀ n ∈ place, IsStep n) {name : OsString} (hname : IsStep name) :
    join (spelled lead place false) name = spelled lead (place ++ [name]) false := by
  have hne : place ++ [name] ≠ [] := by simp
  rw [join, isAbsolute_of_isStep hname, endsWithSlash_spelled hplace]
  simp only [Bool.false_or, decide_eq_true_eq, if_neg spelled_ne_nil]
  by_cases h : place = []
  · subst h
    rw [spelled_eq hne]
    cases lead <;> simp [spelled, ofNames]
  · have hempty : place.isEmpty = false := by simpa using h
    rw [spelled_eq hne, hempty, if_neg Bool.false_ne_true, spelled_eq h]
    simp

theorem joinAll_spelled (hplace : ∀ n ∈ place, IsStep n) {more : List OsString}
    (hmore : ∀ n ∈ more, IsStep n) :
    joinAll (spelled lead place false) more = spelled lead (place ++ more) false := by
  induction more generalizing place with
  | nil => rw [List.append_nil]; rfl
  | cons name more ih =>
    have hname := hmore name List.mem_cons_self
    have hnext : ∀ n ∈ place ++ [name], IsStep n := by
      intro n hn
      rcases List.mem_append.mp hn with hin | hlast
      · exact hplace n hin
      · exact List.mem_singleton.mp hlast ▸ hname
    have hrest := ih hnext fun n hn => hmore n (List.mem_cons_of_mem _ hn)
    rw [joinAll, List.foldl_cons, join_spelled hplace hname, ← joinAll, hrest, List.append_assoc]
    rfl

theorem join_nil (hplace : ∀ n ∈ place, IsStep n) :
    join (spelled lead place false) [] = spelled lead place true := by
  have habs : isAbsolute [] = false := rfl
  rw [join, habs, endsWithSlash_spelled hplace]
  simp only [Bool.false_or, decide_eq_true_eq, if_neg spelled_ne_nil]
  by_cases h : place = []
  · subst h
    cases lead <;> decide
  · have hempty : place.isEmpty = false := by simpa using h
    rw [hempty, if_neg Bool.false_ne_true]
    simp [spelled, hempty]

theorem isAbsolute_of_doubled {p : OsString} (h : doubled p = true) : isAbsolute p = true := by
  rw [doubled, Bool.and_eq_true] at h
  obtain ⟨rest, hrest⟩ := List.isPrefixOf_iff_prefix.mp h.1
  rw [isAbsolute, ← hrest]
  rfl

/-- The absolute form spells where the path begins, and its names. -/
theorem absolute?_eq {cwd : List OsString} (hcwd : ∀ n ∈ cwd, IsStep n) {p : OsString}
    (hp : p ≠ []) :
    absolute? (ofNames cwd) p =
      some (spelled (doubled p) ((if isAbsolute p then [] else cwd) ++ names p)
        (endsWithSlash p)) := by
  have hnames : ∀ n ∈ names p, IsStep n := fun n hn => (mem_names hn).1
  have horigin : ∀ n ∈ if isAbsolute p then [] else cwd, IsStep n := by
    split
    · exact fun n hn => absurd hn List.not_mem_nil
    · exact hcwd
  have hbase : (if isAbsolute p then
      if [slash, slash].isPrefixOf p && !([slash, slash, slash].isPrefixOf p) then [slash, slash]
      else [slash]
      else ofNames cwd) = spelled (doubled p) (if isAbsolute p then [] else cwd) false := by
    cases habs : isAbsolute p with
    | true =>
      rw [if_pos rfl, if_pos rfl, ← doubled]
      cases doubled p <;> decide
    | false =>
      have hsingle : doubled p = false := by
        refine Bool.eq_false_iff.mpr fun hd => ?_
        rw [isAbsolute_of_doubled hd] at habs
        cases habs
      rw [if_neg Bool.false_ne_true, if_neg Bool.false_ne_true, hsingle, spelled_plain]
  have hall : ∀ n ∈ (if isAbsolute p then [] else cwd) ++ names p, IsStep n := by
    intro n hn
    rcases List.mem_append.mp hn with hin | hin
    · exact horigin n hin
    · exact hnames n hin
  rw [absolute?, if_neg hp]
  dsimp only
  rw [hbase, joinAll_spelled horigin hnames]
  cases endsWithSlash p with
  | true => rw [if_pos rfl, join_nil hall]
  | false => rw [if_neg Bool.false_ne_true]

/-- Names as they stand in an absolute form. -/
def Proper (place : List OsString) : Prop := ∀ n ∈ place, IsStep n ∧ n ≠ dot

theorem Proper.isStep (h : Proper place) : ∀ n ∈ place, IsStep n := fun n hn => (h n hn).1

theorem names_spelled (h : Proper place) : names (spelled lead place trail) = place := by
  rw [names_eq, parts_spelled h.isStep]
  exact List.filter_eq_self.mpr fun n hn => by simpa using (h n hn).2

theorem steps_spelled (h : Proper place) : steps (spelled lead place trail) =
    place ++ if trail || place.isEmpty then [dot] else [] := by
  rw [steps_eq, parts_spelled h.isStep, endsWithSlash_spelled h.isStep]

theorem absolute?_spelled {cwd : List OsString} (hcwd : ∀ n ∈ cwd, IsStep n) (h : Proper place) :
    absolute? (ofNames cwd) (spelled lead place trail) = some (spelled lead place trail) := by
  rw [absolute?_eq hcwd spelled_ne_nil, isAbsolute_spelled, if_pos rfl, List.nil_append,
    names_spelled h, doubled_spelled h.isStep, endsWithSlash_spelled h.isStep]
  congr 1
  unfold spelled
  cases place <;> simp

end Retouch.Path
