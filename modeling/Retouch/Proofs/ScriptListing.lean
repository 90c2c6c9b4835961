import Mathlib.Data.List.Nodup
import Retouch.Proofs.ScriptNames
import Retouch.Listing
import Retouch.Proofs.Places

/-! The scripts of a directory on offer. A listing may come in any order and hold names
that are no text; the candidates are the same, in the order of the bytes of their labels.
Where one script could be asked for by the label of another, with its stem or its bare
name, its own label begins with that label and so stands behind it. This is why the first
script that goes by a label is the one that has it. -/

namespace Retouch
open Files

/-! ### The order of bytes -/

/-- The bytes of a text. -/
def bytesOf (s : String) : List UInt8 := s.toUTF8.data.toList

theorem bytesOf_eq_flatMap (s : String) : bytesOf s = s.toList.flatMap String.utf8EncodeChar := by
  have hbytes : s.toByteArray = s.toList.utf8Encode := by
    rw [← String.toByteArray_ofList, String.ofList_toList]
  rw [bytesOf, String.toUTF8_eq_toByteArray, hbytes, List.utf8Encode]
  simp

/-- Bytes compare as the numbers that they are made from. -/
theorem ofNat_cons_lt_cons {a b : Nat} (ha : a < 256) (hb : b < 256) {xs ys : List UInt8} :
    UInt8.ofNat a :: xs < UInt8.ofNat b :: ys ↔ a < b ∨ a = b ∧ xs < ys := by
  rw [List.cons_lt_cons_iff, UInt8.lt_iff_toNat_lt, ← UInt8.toNat_inj,
    UInt8.toNat_ofNat_of_lt' ha, UInt8.toNat_ofNat_of_lt' hb]

/-- A lesser character has lesser bytes, whatever follows: the first byte tells how many
there are, and more of them stand for a greater character. -/
theorem utf8EncodeChar_lt {c d : Char} (h : c < d) (xs ys : List UInt8) :
    String.utf8EncodeChar c ++ xs < String.utf8EncodeChar d ++ ys := by
  have hlt : c.val.toNat < d.val.toNat := h
  have hd : d.val.toNat < 0x110000 := by
    have hvalid := d.valid
    unfold UInt32.isValidChar Nat.isValidChar at hvalid
    omega
  simp only [String.utf8EncodeChar]
  generalize c.val.toNat = m at hlt
  generalize d.val.toNat = n at hlt hd
  by_cases hfour : 0xffff < m
  · -- both have four bytes, and the first digit in which the numbers differ decides
    have hm : ¬ m ≤ 0x7f ∧ ¬ m ≤ 0x7ff ∧ ¬ m ≤ 0xffff := by omega
    have hn : ¬ n ≤ 0x7f ∧ ¬ n ≤ 0x7ff ∧ ¬ n ≤ 0xffff := by omega
    simp only [hm, hn, if_false, List.cons_append, List.nil_append]
    have h₃ : m / 262144 ≤ n / 262144 := Nat.div_le_div_right (Nat.le_of_lt hlt)
    have h₂ : m / 4096 ≤ n / 4096 := Nat.div_le_div_right (Nat.le_of_lt hlt)
    have h₁ : m / 64 ≤ n / 64 := Nat.div_le_div_right (Nat.le_of_lt hlt)
    simp (disch := omega) only [ofNat_cons_lt_cons]
    rcases Nat.lt_or_eq_of_le h₃ with h₃ | h₃
    · omega
    rcases Nat.lt_or_eq_of_le h₂ with h₂ | h₂
    · omega
    rcases Nat.lt_or_eq_of_le h₁ with h₁ | h₁ <;> omega
  · split_ifs <;> try omega
    all_goals
      simp (disch := omega) only [List.cons_append, List.nil_append, ofNat_cons_lt_cons]
      omega

theorem flatMap_utf8EncodeChar_lt {cs ds : List Char} (h : cs < ds) :
    cs.flatMap String.utf8EncodeChar < ds.flatMap String.utf8EncodeChar := by
  have hlex : List.Lex (· < ·) cs ds := h
  induction hlex with
  | @nil d ds =>
    obtain ⟨b, bs, hbytes⟩ := List.exists_cons_of_ne_nil (String.utf8EncodeChar_ne_nil (c := d))
    rw [List.flatMap_nil, List.flatMap_cons, hbytes, List.cons_append]
    exact List.nil_lt_cons _ _
  | @cons c cs ds hcs ih =>
    rw [List.flatMap_cons, List.flatMap_cons]
    exact List.append_left_lt (ih hcs)
  | @rel c cs d ds hcd =>
    rw [List.flatMap_cons, List.flatMap_cons]
    exact utf8EncodeChar_lt hcd _ _

theorem bytesOf_lt {s t : String} (h : s < t) : bytesOf s < bytesOf t := by
  rw [bytesOf_eq_flatMap, bytesOf_eq_flatMap]
  exact flatMap_utf8EncodeChar_lt h

/-! ### Names as they are stored -/

/-- The names of a listing that are text. Directories store names as bytes. -/
def textNames (listed : List ByteArray) : List String := listed.filterMap String.fromUTF8?

theorem fromUTF8?_eq_some_iff {bytes : ByteArray} {s : String} :
    String.fromUTF8? bytes = some s ↔ bytes = s.toUTF8 := by
  unfold String.fromUTF8?
  split
  · rename_i hvalid
    rw [Option.some.injEq, ← String.toByteArray_inj]
    exact Iff.rfl
  · rename_i hvalid
    refine iff_of_false nofun ?_
    rintro rfl
    exact hvalid s.isValidUTF8

theorem mem_textNames {listed : List ByteArray} {name : String} :
    name ∈ textNames listed ↔ name.toUTF8 ∈ listed := by
  simp only [textNames, List.mem_filterMap, fromUTF8?_eq_some_iff]
  constructor
  · rintro ⟨bytes, hm, rfl⟩
    exact hm
  · intro hm
    exact ⟨_, hm, rfl⟩

theorem nodup_textNames {listed : List ByteArray} (h : listed.Nodup) : (textNames listed).Nodup :=
  h.filterMap fun _ _ _ ha hb => by
    rw [Option.mem_def, fromUTF8?_eq_some_iff] at ha hb
    rw [ha, hb]

/-! ### Candidates -/

namespace Files.Disk
variable {d : Disk} {s : Settings} {dir : OsString} {names names' : List OsString}

theorem isFile_iff {d : Disk} {p : OsString} :
    d.isFile p = true ↔ ∃ content, d.find p = .ok (.file content) := by
  unfold isFile holds
  cases hfind : d.find p with
  | error e => simp
  | ok t => cases t <;> simp [Tree.isFile]

theorem candidate?_eq_some {name : OsString} {c : Candidate} :
    d.candidate? s dir name = some c ↔ ∃ label content, name = .ofText label ∧
      d.find (Path.join dir name) = .ok (.file content) ∧ s.isScriptFile label = true ∧
      c = ⟨label, Path.join dir name⟩ := by
  unfold candidate?
  constructor
  · intro h
    split at h
    · rename_i hfile
      obtain ⟨content, hcontent⟩ := isFile_iff.mp hfile
      split at h
      · rename_i label htext
        split at h
        · rename_i hscript
          exact ⟨label, content, OsString.text?_eq_some.mp htext, hcontent, hscript,
            (Option.some.inj h).symm⟩
        · cases h
      · cases h
    · cases h
  · rintro ⟨label, content, hname, hcontent, hscript, rfl⟩
    rw [if_pos (isFile_iff.mpr ⟨content, hcontent⟩), OsString.text?_eq_some.mpr hname]
    exact if_pos hscript

theorem candidate?_eq_none {name : OsString} (h : OsString.text? name = none) :
    d.candidate? s dir name = none := by
  rw [candidate?, h, ite_self]

theorem mem_candidates {c : Candidate} :
    c ∈ d.candidates s dir names ↔ ∃ name content, .ofText name ∈ names ∧
      d.find (Path.join dir (.ofText name)) = .ok (.file content) ∧ s.isScriptFile name = true ∧
      c = ⟨name, Path.join dir (.ofText name)⟩ := by
  simp only [candidates, List.mem_mergeSort, List.mem_filterMap, candidate?_eq_some]
  constructor
  · rintro ⟨name, hm, label, content, rfl, hrest⟩
    exact ⟨label, content, hm, hrest⟩
  · rintro ⟨label, content, hm, hrest⟩
    exact ⟨_, hm, label, content, rfl, hrest⟩

theorem candidates_pairwise_le :
    (d.candidates s dir names).Pairwise fun a b => a.label ≤ b.label := by
  have h : (d.candidates s dir names).Pairwise fun a b => decide (a.label ≤ b.label) = true := by
    refine List.pairwise_mergeSort ?_ ?_ _
    · intro a b c hab hbc
      rw [decide_eq_true_eq] at *
      exact String.le_trans hab hbc
    · intro a b
      simpa using String.le_total a.label b.label
  exact h.imp of_decide_eq_true

/-- The names that are no text make no difference. -/
theorem filterMap_candidate?_text (names : List OsString) :
    names.filterMap (d.candidate? s dir) =
      ((names.filterMap OsString.text?).map OsString.ofText).filterMap (d.candidate? s dir) := by
  induction names with
  | nil => rfl
  | cons name names ih =>
    cases htext : OsString.text? name with
    | none => rw [List.filterMap_cons_none (candidate?_eq_none htext), ih,
        List.filterMap_cons_none htext]
    | some label =>
      rw [List.filterMap_cons_some htext, List.map_cons, ← OsString.text?_eq_some.mp htext,
        List.filterMap_cons, List.filterMap_cons, ih]

/-- The label of a candidate tells its path, so candidates in order are in one order. -/
theorem candidates_eq_of_perm
    (h : (names.filterMap OsString.text?).Perm (names'.filterMap OsString.text?)) :
    d.candidates s dir names = d.candidates s dir names' := by
  refine List.Perm.eq_of_pairwise ?_ candidates_pairwise_le candidates_pairwise_le ?_
  · intro a b ha hb hab hba
    obtain ⟨name, _, -, -, -, rfl⟩ := mem_candidates.mp ha
    obtain ⟨name', _, -, -, -, rfl⟩ := mem_candidates.mp hb
    obtain rfl : name = name' := String.le_antisymm hab hba
    rfl
  · refine (List.mergeSort_perm _ _).trans (.trans ?_ (List.mergeSort_perm _ _).symm)
    rw [filterMap_candidate?_text names, filterMap_candidate?_text names']
    exact (h.map _).filterMap _

theorem candidates_ascending (h : names.Nodup) :
    (d.candidates s dir names).Pairwise fun a b => a.label < b.label := by
  have hlabels : (d.candidates s dir names).Nodup := by
    refine (List.mergeSort_perm _ _).nodup_iff.mpr (h.filterMap ?_)
    intro a b c ha hb
    obtain ⟨name, _, rfl, -, -, rfl⟩ := candidate?_eq_some.mp ha
    obtain ⟨name', _, rfl, -, -, he⟩ := candidate?_eq_some.mp hb
    exact congrArg OsString.ofText (congrArg Candidate.label he)
  have hboth := candidates_pairwise_le.and hlabels
  refine hboth.imp_of_mem ?_
  rintro a b ha hb ⟨hle, hne⟩
  -- equal labels would be those of one candidate
  obtain ⟨name, _, -, -, -, rfl⟩ := mem_candidates.mp ha
  obtain ⟨name', _, -, -, -, rfl⟩ := mem_candidates.mp hb
  refine String.not_le.mp fun hge => hne ?_
  obtain rfl : name = name' := String.le_antisymm hle hge
  rfl

end Files.Disk

/-! ### Selection by label -/

theorem le_of_goesBy {suffix name label : String} (h : goesBy suffix name label = true) :
    name ≤ label := by
  have hbegin : name.toList <+: label.toList := by
    rcases goesBy_iff.mp h with rfl | ⟨ext, -, rfl⟩ | ⟨ext, -, rfl⟩
    · exact List.prefix_rfl
    · simp [List.append_assoc]
    · simp [List.append_assoc]
  exact hbegin.le

theorem indexByName_of_ascending {suffix : String} {labels : List String} {i : Nat}
    {label : String} (h : labels.Pairwise (· < ·)) (hi : labels[i]? = some label) :
    indexByName suffix label labels = some i := by
  obtain ⟨hlt, rfl⟩ := List.getElem?_eq_some_iff.mp hi
  refine List.findIdx?_eq_some_iff_getElem.mpr ⟨hlt, goesBy_iff.mpr (.inl rfl), ?_⟩
  intro j hj hgoes
  exact le_of_goesBy hgoes (List.pairwise_iff_getElem.mp h j i (by omega) hlt hj)

/-- However a directory is listed, the scripts on offer are its files with script names, in
the order of the bytes of their labels, and asking for the label of one selects that one. -/
theorem scripts_of_any_listing {d : Disk} {s : Settings} {dir : OsString} {names : List OsString}
    {listed : List ByteArray} (hnames : d.list dir = .ok names) (hdistinct : listed.Nodup)
    (hlisted : (textNames listed).Perm (names.filterMap OsString.text?)) :
    d.scripts s dir = ⟨d.candidates s dir ((textNames listed).map .ofText), none⟩ ∧
    ((d.scripts s dir).candidates.Pairwise fun a b => bytesOf a.label < bytesOf b.label) ∧
    (∀ c, c ∈ (d.scripts s dir).candidates ↔ ∃ name content, name.toUTF8 ∈ listed ∧
      d.find (Path.join dir (.ofText name)) = .ok (.file content) ∧
      s.isScriptFile name = true ∧ c = ⟨name, Path.join dir (.ofText name)⟩) ∧
    ∀ suffix i c, (d.scripts s dir).candidates[i]? = some c →
      Selector.byName suffix c.label (d.scripts s dir).candidates = .ok (some i) := by
  have htexts : ((textNames listed).map OsString.ofText).filterMap OsString.text? =
      textNames listed := by
    have hback : OsString.text? ∘ OsString.ofText = some :=
      funext fun _ => OsString.text?_eq_some.mpr rfl
    rw [List.filterMap_map, hback, List.filterMap_some]
  have hscripts : d.scripts s dir =
      ⟨d.candidates s dir ((textNames listed).map .ofText), none⟩ := by
    rw [Disk.candidates_eq_of_perm (htexts.symm ▸ hlisted), Disk.scripts, hnames]
  have hascending : (d.candidates s dir ((textNames listed).map .ofText)).Pairwise
      fun a b => a.label < b.label :=
    Disk.candidates_ascending ((nodup_textNames hdistinct).map
      fun _ _ => OsString.ofText_injective)
  rw [hscripts]
  refine ⟨rfl, hascending.imp bytesOf_lt, ?_, ?_⟩
  · intro c
    have hmem (name : String) :
        OsString.ofText name ∈ (textNames listed).map .ofText ↔ name.toUTF8 ∈ listed := by
      rw [← mem_textNames]
      refine ⟨fun h => ?_, List.mem_map_of_mem⟩
      obtain ⟨other, hother, he⟩ := List.mem_map.mp h
      exact OsString.ofText_injective he ▸ hother
    simp only [Disk.mem_candidates, hmem]
  · intro suffix i c hc
    refine congrArg Except.ok (indexByName_of_ascending ?_ ?_)
    · exact List.pairwise_map.mpr hascending
    · rw [List.getElem?_map, hc, Option.map_some]

/-- A directory in which one script goes by the label of another, with a name that is no
text. -/
def shadowingDisk : Disk :=
  ⟨.dir [(.ofText "codemods", .dir [(.ofText "a.js.ts", .file (.text "")),
    ([.stray [0xff]], .file (.text "")), (.ofText "a.js", .file (.text ""))])], []⟩

/-- Its names in another order. -/
def shadowingNames : List ByteArray := ["a.js".toUTF8, ⟨#[0xff]⟩, "a.js.ts".toUTF8]

theorem scripts_of_any_listing_shadowed :
    shadowingDisk.list (.ofText "/codemods") =
      .ok [.ofText "a.js.ts", [.stray [0xff]], .ofText "a.js"] ∧
    textNames shadowingNames = ["a.js", "a.js.ts"] ∧
    goesBy "cm" "a.js" "a.js.ts" = true ∧
    ∃ i, (shadowingDisk.scripts .default (.ofText "/codemods")).candidates[i]? =
        some ⟨"a.js", .ofText "/codemods/a.js"⟩ ∧
      Selector.byName "cm" "a.js"
        (shadowingDisk.scripts .default (.ofText "/codemods")).candidates = .ok (some i) := by
  have hlist : shadowingDisk.list (.ofText "/codemods") =
      .ok [.ofText "a.js.ts", [.stray [0xff]], .ofText "a.js"] :=
    eq_ok_of_toOption (by decide +kernel)
  have hplace : shadowingDisk.place (.ofText "/codemods/a.js") =
      .ok [.ofText "codemods", .ofText "a.js"] := eq_ok_of_toOption (by decide +kernel)
  have hfile : shadowingDisk.find (.ofText "/codemods/a.js") = .ok (.file (.text "")) := by
    rw [Disk.find, hplace]
    rfl
  have hdistinct : shadowingNames.Nodup := by decide
  have hnames : textNames shadowingNames = ["a.js", "a.js.ts"] := by decide
  have htexts : [OsString.ofText "a.js.ts", [.stray [0xff]], .ofText "a.js"].filterMap
      OsString.text? = ["a.js.ts", "a.js"] := by decide
  have hperm : (textNames shadowingNames).Perm
      ([OsString.ofText "a.js.ts", [.stray [0xff]], .ofText "a.js"].filterMap OsString.text?) := by
    rw [hnames, htexts]
    exact List.Perm.swap "a.js.ts" "a.js" []
  obtain ⟨-, -, hmem, hselect⟩ := scripts_of_any_listing (s := .default) hlist hdistinct hperm
  have hjoin : Path.join (.ofText "/codemods") (.ofText "a.js") = .ofText "/codemods/a.js" := rfl
  obtain ⟨i, hi⟩ := List.mem_iff_getElem?.mp ((hmem ⟨"a.js", .ofText "/codemods/a.js"⟩).mpr
    ⟨"a.js", .text "", by simp [shadowingNames], hjoin ▸ hfile, by decide, by rw [hjoin]⟩)
  exact ⟨hlist, hnames, by decide, i, hi, hselect "cm" i _ hi⟩

end Retouch
