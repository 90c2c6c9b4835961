import Retouch.Proofs.LoaderCache

/-! A loader finds what it loaded under every path to the same file, since it keeps
scripts under normal forms. The exception is a script that was loaded by a path with a dot
behind a file, if a link or two dots are left in the normal form of that. -/

namespace Retouch.Loader
open Files Script
variable {E : Engine} {l l' : Loader E} {disk : Disk} {path : OsString} {moment : E.Moment}
  {unit : Nat} {t : Transform E}

/-- Paths with the same normal form are looked up alike. -/
theorem cached?_same {p q : OsString}
    (h : Path.same (disk.normalize q) (disk.normalize p) = true) (l : Loader E) :
    l.cached? disk q = l.cached? disk p := by
  rw [Path.same, Bool.and_eq_true, decide_eq_true_eq, decide_eq_true_eq] at h
  obtain ⟨habs, hnames⟩ := h
  simp only [cached?, Path.same, habs, hnames]

/-- A script that was loaded is a file, and its normal form leads to it. -/
theorem file_of_load (h : l.load disk path moment = (l', .back (.ok (unit, t))))
    (htext : OsString.IsText (disk.normalize path)) : ∃ place c,
      disk.place (disk.normalize path) = .ok place ∧ disk.tree.at? place = some (.file c) := by
  obtain ⟨hload, -, -⟩ := load_ok h
  obtain ⟨r, exports, default, hloaded⟩ := Transform.loaded_of_load hload
  have hhead := hloaded.head_dependencies
  rw [htext.ofText_shown] at hhead
  exact Disk.place_of_isFile (hloaded.recorded.readable _ (List.mem_of_head? hhead)).isFile

theorem cached?_of_load (hd : disk.Grounded)
    (h : l.load disk path moment = (l', .back (.ok (unit, t))))
    (hdot : disk.FileBehindDot path → Solid disk.tree (Path.names (disk.normalize path)))
    {place : List OsString} {q : OsString} (hplace : disk.place (disk.normalize path) = .ok place)
    (hq : disk.place q = .ok place) : l'.cached? disk q = some unit := by
  have hsame := Disk.same_normalize hd hdot
  rw [Disk.normalize_of_place hplace, ← Disk.normalize_of_place hq] at hsame
  have hcached := cached?_load l disk path moment
  rw [h] at hcached
  rw [cached?_same hsame, hcached]
  rfl

/-- A normal form is its own, unless the path ends in a dot behind a file and so leads
nowhere; and then it is its own, as a path, where no link and no two dots are on the
way. A path that leads somewhere leads where its normal form leads, and two such paths
have the same one exactly if they lead to the same place. So a script that was loaded is
found under every path to its file; and a path that is text was loaded from the file that
its normal form leads to. -/
theorem normal_forms {disk : Disk} (hd : disk.Grounded) :
    (∀ p, ¬ disk.FileBehindDot p → disk.normalize (disk.normalize p) = disk.normalize p) ∧
    (∀ p, disk.FileBehindDot p → (∃ e, disk.place p = .error e) ∧
      (Path.same (disk.normalize (disk.normalize p)) (disk.normalize p) = true ↔
        Solid disk.tree (Path.names (disk.normalize p)))) ∧
    (∀ p place, disk.place p = .ok place → disk.place (disk.normalize p) = .ok place ∧
      ∀ q place', disk.place q = .ok place' →
        (disk.normalize q = disk.normalize p ↔ place' = place)) ∧
    ∀ (E : Engine) (l l' : Loader E) p moment unit t,
      l.load disk p moment = (l', .back (.ok (unit, t))) →
      (OsString.IsText (disk.normalize p) → ∃ place c,
        disk.place (disk.normalize p) = .ok place ∧ disk.tree.at? place = some (.file c)) ∧
      ((disk.FileBehindDot p → Solid disk.tree (Path.names (disk.normalize p))) →
        ∀ place q, disk.place (disk.normalize p) = .ok place → disk.place q = .ok place →
          l'.cached? disk q = some unit) := by
  refine ⟨fun p => Disk.normalize_normalize hd,
    fun p h => ⟨h.leads_nowhere hd, Disk.same_normalize_iff hd h.file⟩,
    fun p place h => ⟨?_, fun q place' => Disk.normalize_eq_iff hd h⟩,
    fun E l l' p moment unit t hload => ⟨file_of_load hload, fun hdot place q => ?_⟩⟩
  · rw [Disk.normalize_of_place h, Disk.place_ofNames hd h]
  · exact cached?_of_load hd hload hdot

open Sample OsString

/-- A script and a link to it, in the current directory. -/
def linkedDisk : Disk where
  tree := .dir [(ofText "work", .dir [
    (ofText "real.js", .file (.text "module.exports = file => file.source + '!';")),
    (ofText "link.js", .link (ofText "real.js"))])]
  cwd := [ofText "work"]

theorem linkedDisk_grounded : linkedDisk.Grounded := by
  obtain ⟨es, hes⟩ : ∃ es, linkedDisk.tree.at? ([] ++ [ofText "work"]) = some (.dir es) := ⟨_, rfl⟩
  exact (solid_nil linkedDisk.tree).concat ⟨⟨by decide, by decide⟩, by decide, by decide⟩ hes
    fun _ => Tree.noConfusion

theorem normal_forms_linked :
    linkedDisk.normalize (ofText "link.js") = ofText "/work/real.js" ∧
    linkedDisk.normalize (linkedDisk.normalize (ofText "link.js")) =
      linkedDisk.normalize (ofText "link.js") ∧
    linkedDisk.normalize (ofText "../work//./real.js") =
      linkedDisk.normalize (ofText "link.js") ∧
    ∃ l t, plainLoader.load linkedDisk (ofText "link.js") () = (l, .back (.ok (0, t))) ∧
      l.cached? linkedDisk (ofText "../work//./real.js") = some 0 := by
  obtain ⟨hown, -, hplaces, hfound⟩ := normal_forms linkedDisk_grounded
  have hdot : ¬ linkedDisk.FileBehindDot (ofText "link.js") :=
    fun h => absurd h.dot (by decide +kernel)
  have hlink : linkedDisk.place (ofText "link.js") = .ok [ofText "work", ofText "real.js"] :=
    eq_ok_of_toOption (by decide +kernel)
  have hreal : linkedDisk.place (ofText "../work//./real.js") =
      .ok [ofText "work", ofText "real.js"] :=
    eq_ok_of_toOption (by decide +kernel)
  obtain ⟨t, ht⟩ := Option.isSome_iff_exists.mp (show (load? (plainLoader.host linkedDisk)
    (linkedDisk.normalize (ofText "link.js"))).isSome = true by decide +kernel)
  have hload := load_of_transform (l := plainLoader) (load_of_load? ht)
  obtain ⟨hform, hforms⟩ := hplaces (ofText "link.js") _ hlink
  obtain ⟨-, hcached⟩ := hfound engine _ _ _ _ _ _ hload
  exact ⟨by decide +kernel, hown _ hdot, (hforms _ _ hreal).mpr rfl, _, t, hload,
    hcached (fun h => absurd h hdot) _ _ hform hreal⟩

/-- A dot behind a link to a file is lost without the link being followed: the normal form
is not that of the file, and the script that is loaded is not found by the link. -/
theorem normal_form_keeps_link :
    linkedDisk.Grounded ∧
    linkedDisk.normalize (ofText "link.js/.") = ofText "/work/link.js" ∧
    linkedDisk.normalize (linkedDisk.normalize (ofText "link.js/.")) = ofText "/work/real.js" ∧
    Path.same (ofText "/work/real.js") (ofText "/work/link.js") = false ∧
    linkedDisk.place (ofText "link.js") = .ok [ofText "work", ofText "real.js"] ∧
    linkedDisk.place (linkedDisk.normalize (ofText "link.js/.")) =
      .ok [ofText "work", ofText "real.js"] ∧
    ∃ l t, plainLoader.load linkedDisk (ofText "link.js/.") () = (l, .back (.ok (0, t))) ∧
      l.cached? linkedDisk (ofText "link.js") = none := by
  obtain ⟨t, ht⟩ := Option.isSome_iff_exists.mp (show (load? (plainLoader.host linkedDisk)
    (linkedDisk.normalize (ofText "link.js/."))).isSome = true by decide +kernel)
  refine ⟨linkedDisk_grounded, by decide +kernel, by decide +kernel, by decide +kernel,
    eq_ok_of_toOption (by decide +kernel), eq_ok_of_toOption (by decide +kernel), _, t,
    load_of_transform (l := plainLoader) (load_of_load? ht), ?_⟩
  have hkey : Path.same (linkedDisk.normalize (ofText "link.js/."))
      (linkedDisk.normalize (ofText "link.js")) = false := by
    decide +kernel
  simp [cached?, insert, cleared, invalidate, evict, plainLoader, hkey]

end Retouch.Loader
