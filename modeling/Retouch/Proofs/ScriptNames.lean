import Mathlib.Data.List.TakeWhile
import Retouch.Settings.FileName

/-! The two readings of a file name. Discovery takes a name apart from its end, and so
does the question whether a script goes by a name. Each cut is the inverse of putting
the parts together, so both say the same about a name, whatever the suffix is: it may be
empty, hold dots, or stand in the name more than once. -/

namespace Retouch

/-! ### Cuts -/

/-- The cut at the last dot: no dot is behind it. -/
theorem splitLastDot_eq_some_iff {cs stem ext : List Char} :
    splitLastDot cs = some (stem, ext) ↔ cs = stem ++ '.' :: ext ∧ '.' ∉ ext := by
  constructor
  · intro h
    have hcut := List.takeWhile_append_dropWhile (p := (· != '.')) (l := cs.reverse)
    have hno : '.' ∉ cs.reverse.takeWhile (· != '.') := by
      intro hm
      simpa using List.mem_takeWhile_imp hm
    unfold splitLastDot at h
    dsimp only at h
    split at h
    · cases h
    · rename_i c back hdrop
      obtain ⟨rfl, rfl⟩ :
          back.reverse = stem ∧ (cs.reverse.takeWhile (· != '.')).reverse = ext := by
        simpa using h
      have hdot : c = '.' := by
        have hhead := List.head?_dropWhile_not (· != '.') cs.reverse
        rw [hdrop] at hhead
        simpa using hhead
      refine ⟨?_, by simpa using hno⟩
      rw [hdrop, hdot] at hcut
      have hback := congrArg List.reverse hcut
      simpa using hback.symm
  · rintro ⟨rfl, hext⟩
    have hall : ∀ c ∈ ext.reverse, (c != '.') = true := by
      intro c hc
      simpa using fun he : c = '.' => hext (he ▸ List.mem_reverse.mp hc)
    have hback : (stem ++ '.' :: ext).reverse = ext.reverse ++ '.' :: stem.reverse := by simp
    simp only [splitLastDot, hback, List.dropWhile_append_of_pos hall,
      List.takeWhile_append_of_pos hall]
    simp

theorem withoutEnding_eq_some_iff {ending cs front : List Char} :
    withoutEnding ending cs = some front ↔ cs = front ++ ending := by
  unfold withoutEnding
  constructor
  · intro h
    split at h
    · rename_i hsuffix
      obtain ⟨front', rfl⟩ := List.isSuffixOf_iff_suffix.mp hsuffix
      obtain rfl : front' = front := by simpa using h
      rfl
    · cases h
  · rintro rfl
    rw [if_pos (List.isSuffixOf_iff_suffix.mpr (List.suffix_append front ending))]
    simp

theorem bareName_eq_some_iff {suffix : String} {stem bare : List Char} :
    bareName suffix stem = some bare ↔ stem = bare ++ '.' :: suffix.toList := by
  simp only [bareName, Option.bind_eq_some_iff, withoutEnding_eq_some_iff]
  constructor
  · rintro ⟨front, rfl, rfl⟩
    rw [List.append_assoc, List.singleton_append]
  · rintro rfl
    exact ⟨bare ++ ['.'], by rw [List.append_assoc, List.singleton_append], rfl⟩

/-- A name that is put together falls apart at the dot before its extension. -/
theorem splitLastDot_spelled (stem : String) {ext : String} (h : '.' ∉ ext.toList) :
    splitLastDot (stem ++ "." ++ ext).toList = some (stem.toList, ext.toList) :=
  splitLastDot_eq_some_iff.mpr ⟨by simp, h⟩

theorem bareName_spelled (base suffix : String) :
    bareName suffix (base ++ "." ++ suffix).toList = some base.toList :=
  bareName_eq_some_iff.mpr (by simp)

/-! ### Names a script goes by -/

/-- A script goes by its label, by the label without the extension, and by what stands
before the suffix. -/
theorem goesBy_iff {suffix name label : String} :
    goesBy suffix name label = true ↔
      label = name ∨
      (∃ ext : String, '.' ∉ ext.toList ∧ label = name ++ "." ++ ext) ∨
      ∃ ext : String, '.' ∉ ext.toList ∧ label = name ++ "." ++ suffix ++ "." ++ ext := by
  simp only [goesBy, Bool.or_eq_true, decide_eq_true_eq]
  refine or_congr_right ?_
  constructor
  · intro h
    split at h
    · cases h
    · rename_i stem ext hcut
      obtain ⟨hlabel, hext⟩ := splitLastDot_eq_some_iff.mp hcut
      simp only [Bool.or_eq_true, decide_eq_true_eq] at h
      rcases h with rfl | hbare
      · exact .inl ⟨String.ofList ext, by simpa using hext,
          String.toList_inj.mp (by simp [hlabel])⟩
      · rw [bareName_eq_some_iff] at hbare
        exact .inr ⟨String.ofList ext, by simpa using hext,
          String.toList_inj.mp (by simp [hlabel, hbare])⟩
  · rintro (⟨ext, hext, rfl⟩ | ⟨ext, hext, rfl⟩)
    · simp only [splitLastDot_spelled name hext, decide_true, Bool.true_or]
    · simp only [splitLastDot_spelled (name ++ "." ++ suffix) hext, bareName_spelled, decide_true,
        Bool.or_true]

namespace Settings

/-! ### Script files -/

/-- A name that is put together from a base, the suffix and a listed extension. -/
structure Suffixed (s : Settings) (base ext name : String) : Prop where
  nonempty : base ≠ ""
  listed : ext ∈ s.extensions
  dotless : '.' ∉ ext.toList
  spelled : name = base ++ "." ++ s.suffix ++ "." ++ ext

variable {s : Settings} {base ext name : String}

theorem isScriptFile_iff :
    s.isScriptFile name = true ↔
      ∃ stem ext : String, stem ≠ "" ∧ ext ∈ s.extensions ∧ '.' ∉ ext.toList ∧
        name = stem ++ "." ++ ext ∧
        (s.discovery = .suffix → ∃ base : String, base ≠ "" ∧ stem = base ++ "." ++ s.suffix) := by
  constructor
  · intro h
    unfold isScriptFile at h
    split at h
    · cases h
    · rename_i stem ext hcut
      obtain ⟨hname, hext⟩ := splitLastDot_eq_some_iff.mp hcut
      simp only [Bool.and_eq_true, Bool.not_eq_true', List.isEmpty_eq_false_iff,
        isScriptExtension, decide_eq_true_eq] at h
      obtain ⟨⟨hstem, hlisted⟩, hmode⟩ := h
      refine ⟨String.ofList stem, String.ofList ext, by simpa using hstem, hlisted,
        by simpa using hext, String.toList_inj.mp (by simp [hname]), ?_⟩
      intro hsuffix
      simp only [hsuffix] at hmode
      obtain ⟨bare, hbare, hne⟩ := (Option.any_eq_true _ _).mp hmode
      rw [bareName_eq_some_iff] at hbare
      exact ⟨String.ofList bare, by simpa using hne, String.toList_inj.mp (by simp [hbare])⟩
  · rintro ⟨stem, ext, hstem, hlisted, hext, rfl, hmode⟩
    have hcut := splitLastDot_spelled stem hext
    have hne : stem.toList ≠ [] := fun he => hstem (String.toList_eq_nil_iff.mp he)
    simp only [isScriptFile, hcut, isScriptExtension, String.ofList_toList, hlisted, decide_true,
      Bool.and_true, Bool.and_eq_true, Bool.not_eq_true', List.isEmpty_eq_false_iff]
    refine ⟨hne, ?_⟩
    cases hd : s.discovery with
    | all => rfl
    | suffix =>
      obtain ⟨base, hbase, rfl⟩ := hmode hd
      have hbase' : base.toList ≠ [] := fun he => hbase (String.toList_eq_nil_iff.mp he)
      simp only [bareName_spelled]
      simpa using hbase'

/-- The last dot of a name is the one before its extension. -/
theorem eq_of_dotless {stem stem' ext ext' : String} (h : '.' ∉ ext.toList)
    (h' : '.' ∉ ext'.toList) (he : stem ++ "." ++ ext = stem' ++ "." ++ ext') :
    stem = stem' ∧ ext = ext' := by
  have hcut := splitLastDot_spelled stem h
  rw [he, splitLastDot_spelled stem' h', Option.some.injEq, Prod.mk.injEq, String.toList_inj,
    String.toList_inj] at hcut
  exact ⟨hcut.1.symm, hcut.2.symm⟩

theorem Suffixed.unique {base' ext' : String} (h : s.Suffixed base ext name)
    (h' : s.Suffixed base' ext' name) : base' = base ∧ ext' = ext := by
  obtain ⟨hstem, rfl⟩ := eq_of_dotless h'.dotless h.dotless (h'.spelled.symm.trans h.spelled)
  refine ⟨?_, rfl⟩
  rw [String.append_assoc, String.append_assoc] at hstem
  exact (String.append_left_inj _).mp hstem

theorem Suffixed.goesBy_iff {asked : String} (h : s.Suffixed base ext name) :
    goesBy s.suffix asked name = true ↔
      asked = name ∨ asked = base ++ "." ++ s.suffix ∨ asked = base := by
  rw [Retouch.goesBy_iff, h.spelled]
  refine or_congr eq_comm (or_congr ?_ ?_)
  · constructor
    · rintro ⟨ext', hext', he⟩
      exact (eq_of_dotless h.dotless hext' he).1.symm
    · rintro rfl
      exact ⟨ext, h.dotless, rfl⟩
  · constructor
    · rintro ⟨ext', hext', he⟩
      have hstem := (eq_of_dotless h.dotless hext' he).1
      rw [String.append_assoc, String.append_assoc] at hstem
      exact ((String.append_left_inj _).mp hstem).symm
    · rintro rfl
      exact ⟨ext, h.dotless, rfl⟩

theorem isScriptFile_suffix (h : s.discovery = .suffix) :
    s.isScriptFile name = true ↔ ∃ base ext, s.Suffixed base ext name := by
  rw [isScriptFile_iff]
  constructor
  · rintro ⟨stem, ext, -, hlisted, hext, rfl, hmode⟩
    obtain ⟨base, hbase, rfl⟩ := hmode h
    exact ⟨base, ext, hbase, hlisted, hext, rfl⟩
  · rintro ⟨base, ext, hbase, hlisted, hext, rfl⟩
    refine ⟨base ++ "." ++ s.suffix, ext, ?_, hlisted, hext, rfl, fun _ => ⟨base, hbase, rfl⟩⟩
    intro he
    simpa using congrArg String.toList he

theorem isScriptFile_all (h : s.isScriptFile name = true) :
    { s with discovery := .all }.isScriptFile name = true := by
  obtain ⟨stem, ext, hstem, hlisted, hext, hname, -⟩ := isScriptFile_iff.mp h
  exact isScriptFile_iff.mpr ⟨stem, ext, hstem, hlisted, hext, hname, nofun⟩

/-- With a suffix asked for, the script files are the names put together from a base,
the suffix and a listed extension, in one way only; such a file goes by its name, by the
name without the extension, by the base, and by nothing else. Without a suffix no file
is lost. -/
theorem suffixed_names_agree (s : Settings) (name : String) :
    ({ s with discovery := .suffix }.isScriptFile name = true ↔
      ∃ base ext, s.Suffixed base ext name) ∧
    (∀ base ext, s.Suffixed base ext name →
      (∀ base' ext', s.Suffixed base' ext' name → base' = base ∧ ext' = ext) ∧
      goesBy s.suffix base name = true ∧
      ∀ asked, goesBy s.suffix asked name = true ↔
        asked = name ∨ asked = base ++ "." ++ s.suffix ∨ asked = base) ∧
    ({ s with discovery := .suffix }.isScriptFile name = true →
      { s with discovery := .all }.isScriptFile name = true) := by
  refine ⟨?_, ?_, isScriptFile_all (s := { s with discovery := .suffix })⟩
  · rw [isScriptFile_suffix rfl]
    constructor
    · rintro ⟨base, ext, h⟩
      exact ⟨base, ext, h.nonempty, h.listed, h.dotless, h.spelled⟩
    · rintro ⟨base, ext, h⟩
      exact ⟨base, ext, h.nonempty, h.listed, h.dotless, h.spelled⟩
  · intro base ext h
    exact ⟨fun _ _ h' => h.unique h', h.goesBy_iff.mpr (.inr (.inr rfl)), fun _ => h.goesBy_iff⟩

end Settings

end Retouch
