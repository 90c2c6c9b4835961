import Retouch.Proofs.AbsolutePaths
import Retouch.Proofs.FileReplacement

/-! Normal forms of paths. A path that leads somewhere has the path of that place as its
normal form, so each file and each directory has one. A path that leads nowhere has its
absolute form, which leads nowhere either, and so a normal form is its own. There is
one exception. A dot at the end asks for a directory, so behind a file it leads
nowhere; but the absolute form lacks the dot and leads to the file, perhaps through a
link or two dots that are left in it. -/

namespace Retouch.Files
open Retouch.Path (ofNames names endsInDot endsWithSlash spelled)

/-! ### Steps without dots -/

/-- Steps from which some dots are left out, none of them the last step. -/
inductive Undots : List OsString → List OsString → Prop
  | refl (xs : List OsString) : Undots xs xs
  | cons (x : OsString) {xs ys : List OsString} : Undots xs ys → Undots (x :: xs) (x :: ys)
  | dot {xs ys : List OsString} : Undots xs ys → ys ≠ [] → Undots (Path.dot :: xs) ys

theorem Undots.append_left {xs ys : List OsString} (h : Undots xs ys) (front : List OsString) :
    Undots (front ++ xs) (front ++ ys) := by
  induction front with
  | nil => exact h
  | cons x front ih => exact .cons x ih

theorem Undots.isEmpty_eq {xs ys : List OsString} (h : Undots xs ys) : ys.isEmpty = xs.isEmpty := by
  cases h with
  | refl => rfl
  | cons => rfl
  | dot _ hne => simpa using hne

theorem undots_filter (xs : List OsString) (last : OsString) :
    Undots (xs ++ [last]) (xs.filter (· ≠ Path.dot) ++ [last]) := by
  induction xs with
  | nil => exact .refl _
  | cons x xs ih =>
    by_cases hx : x = Path.dot
    · subst hx
      exact .dot ih (by simp)
    · rw [List.filter_cons_of_pos (by simpa using hx)]
      exact .cons x ih

/-- A dot changes a walk only at its end. -/
theorem walk_undots {t : Tree} (follow : Bool) : ∀ budget here todo, ∀ todo', Undots todo todo' →
    walk t follow budget here todo' = walk t follow budget here todo := by
  apply walk_induction
  · intro budget here todo' h
    cases h
    rfl
  · intro budget here name rest ihrest ihlink todo' h
    cases h with
    | refl => rfl
    | @cons _ _ ys h =>
      rw [walk_cons, walk_cons, h.isEmpty_eq]
      simp only [fun here' => ihrest here' ys h]
      cases budget with
      | zero => rfl
      | succ budget =>
        simp only [fun here' target =>
          ihlink budget here' (steps target ++ rest) rfl _ (h.append_left (steps target))]
    | dot h hne =>
      -- where there is no directory, whatever step is left fails as the dot does
      obtain ⟨next, later, rfl⟩ := List.exists_cons_of_ne_nil hne
      have hrest := ihrest here _ h
      rw [walk_cons] at hrest
      rw [walk_cons, walk_cons]
      cases hat : t.at? here with
      | none => rfl
      | some node =>
        cases node with
        | file c => rfl
        | link target => rfl
        | dir es =>
          rw [hat] at hrest
          exact hrest

/-- A dot at the end of the steps to a directory leads there too. -/
theorem Arrives.concat_dot {t : Tree} {budget : Nat} {here todo place : List OsString}
    {es : Entries} (h : Arrives t true budget here todo place)
    (hp : t.at? place = some (.dir es)) :
    Arrives t true budget here (todo ++ [Path.dot]) place := by
  induction h with
  | done => exact .dot hp .done
  | dot hd _ ih => exact .dot hd (ih hp)
  | up hd _ ih => exact .up hd (ih hp)
  | stop _ _ _ _ hf => cases hf
  | jump hd hdot hdots hlink _ htarget _ ih =>
    have hrest := ih hp
    rw [List.append_assoc] at hrest
    exact .jump hd hdot hdots hlink (.inr rfl) htarget hrest
  | enter hd hdot hdots hnode hlink _ ih => exact .enter hd hdot hdots hnode hlink (ih hp)

/-- Steps with a dot at the end lead to a directory. -/
theorem Arrives.dir_of_dot {t : Tree} {budget : Nat} {here todo place : List OsString}
    (h : Arrives t true budget here todo place) (htodo : todo.getLast? = some Path.dot) :
    ∃ es, t.at? place = some (.dir es) := by
  induction h with
  | done => cases htodo
  | @dot _ _ rest _ es hd hrest ih =>
    cases rest with
    | nil =>
      cases hrest
      exact ⟨es, hd⟩
    | cons next rest => exact ih (by rwa [List.getLast?_cons_cons] at htodo)
  | @up _ _ rest _ _ _ _ ih =>
    cases rest with
    | nil => exact absurd (Option.some.inj htodo) Path.dots_ne_dot
    | cons next rest => exact ih (by rwa [List.getLast?_cons_cons] at htodo)
  | stop _ _ _ _ hf => cases hf
  | @jump _ _ _ rest _ _ _ _ hdot _ _ _ _ _ ih =>
    cases rest with
    | nil => exact absurd (Option.some.inj htodo) hdot
    | cons next rest =>
      rw [List.getLast?_cons_cons] at htodo
      exact ih (by rw [List.getLast?_append, htodo]; rfl)
  | @enter _ _ _ rest _ _ _ _ hdot _ _ _ _ ih =>
    cases rest with
    | nil => exact absurd (Option.some.inj htodo) hdot
    | cons next rest => exact ih (by rwa [List.getLast?_cons_cons] at htodo)

theorem Arrives.eq_of_dot {t : Tree} {budget : Nat} {here todo place : List OsString}
    (h : Arrives t true budget here todo place) (htodo : todo = [Path.dot]) : place = here := by
  cases h with
  | done => cases htodo
  | dot _ hrest =>
    cases htodo
    cases hrest
    rfl
  | up => exact absurd (List.cons.inj htodo).1 Path.dots_ne_dot
  | stop _ hdot => exact absurd (List.cons.inj htodo).1 hdot
  | jump _ hdot => exact absurd (List.cons.inj htodo).1 hdot
  | enter _ hdot => exact absurd (List.cons.inj htodo).1 hdot

namespace Disk
variable {d : Disk} {p : OsString} {place : List OsString}

/-! ### Absolute forms -/

/-- The absolute form of a path. -/
def absolute (d : Disk) (p : OsString) : OsString :=
  spelled (Path.doubled p) (d.origin p ++ names p) (endsWithSlash p)

theorem Grounded.origin (hd : d.Grounded) (p : OsString) : Solid d.tree (d.origin p) := by
  unfold Disk.origin
  split
  · exact solid_nil _
  · exact hd

theorem proper_of_solid {t : Tree} (h : Solid t place) : Path.Proper place :=
  fun n hn => ⟨(h.names n hn).1, (h.names n hn).2.1⟩

theorem proper_absolute (hd : d.Grounded) (p : OsString) :
    Path.Proper (d.origin p ++ names p) := by
  intro n hn
  rcases List.mem_append.mp hn with hin | hin
  · exact proper_of_solid (hd.origin p) n hin
  · exact Path.mem_names hin

theorem absolute?_cwd (hd : d.Grounded) (hp : p ≠ []) :
    Path.absolute? (ofNames d.cwd) p = some (d.absolute p) :=
  Path.absolute?_eq (fun n hn => (hd.names n hn).1) hp

theorem normalize_of_error (hd : d.Grounded) (hp : p ≠ []) {e : Fault} (h : d.place p = .error e) :
    d.normalize p = d.absolute p := by
  simp only [normalize, canonical, h, absolute?_cwd hd hp, Option.getD_some]

theorem normalize_empty (d : Disk) : d.normalize [] = [] := rfl

/-- The steps of a path, taken from the root. -/
theorem spot_eq_walk (hd : d.Grounded) (hp : p ≠ []) :
    d.spot true p = walk d.tree true linkBudget [] (d.origin p ++ steps p) := by
  have hfrom := @walk_append_of_solid _ [] (d.origin p) (hd.origin p) true linkBudget (steps p)
  rw [spot, if_neg hp, hfrom, List.nil_append]

theorem spot_spelled {lead trail : Bool} (h : Path.Proper place) :
    d.spot true (spelled lead place trail) = walk d.tree true linkBudget []
      (place ++ if trail || place.isEmpty then [Path.dot] else []) := by
  rw [spot, if_neg Path.spelled_ne_nil, Disk.origin, Path.isAbsolute_spelled, if_pos rfl,
    Path.steps_spelled h]

theorem spot_of_place (h : d.place p = .ok place) : d.spot true p = .ok (.node place) := by
  obtain ⟨hp, hwalk⟩ := walk_of_place h
  rw [spot, if_neg hp, hwalk]

theorem place_congr {q : OsString} (h : d.spot true q = d.spot true p) : d.place q = d.place p := by
  unfold Disk.place
  rw [h]

/-- A path leads where its absolute form leads, unless it ends in a dot. -/
theorem place_absolute (hd : d.Grounded) (hp : p ≠ []) (hdot : ¬ endsInDot p) :
    d.place (d.absolute p) = d.place p := by
  apply place_congr
  rw [absolute, spot_spelled (proper_absolute hd p), spot_eq_walk hd hp, List.append_assoc]
  apply walk_undots
  apply Undots.append_left
  rw [Path.steps_eq, Path.names_eq]
  cases hslash : endsWithSlash p with
  | true => exact undots_filter _ Path.dot
  | false =>
    obtain ⟨front, last, hparts, hlast⟩ := Path.steps_concat hp hslash
    have hkept : last ≠ Path.dot := fun he => hdot (hlast.mpr he)
    have hfilter :
        (front ++ [last]).filter (· ≠ Path.dot) = front.filter (· ≠ Path.dot) ++ [last] := by
      simp [hkept]
    rw [hparts, hfilter]
    simpa using undots_filter front last

/-- A path that ends in a dot has a dot behind the steps of its absolute form. -/
theorem spot_of_endsInDot (hd : d.Grounded) (hp : p ≠ []) (hdot : endsInDot p) : d.spot true p =
    walk d.tree true linkBudget [] (d.origin p ++ names p ++ [Path.dot]) := by
  have hslash := Path.endsWithSlash_of_endsInDot hdot
  obtain ⟨front, last, hparts, hlast⟩ := Path.steps_concat hp hslash
  obtain rfl := hlast.mp hdot
  have hnames : names p = front.filter (· ≠ Path.dot) := by
    rw [Path.names_eq, hparts]
    simp
  rw [spot_eq_walk hd hp, Path.steps_eq, hparts, hslash, if_neg Bool.false_ne_true,
    List.append_nil, hnames, List.append_assoc]
  exact (walk_undots true _ _ _ _ ((undots_filter front Path.dot).append_left _)).symm

/-- What a path leads to is a file or a directory. -/
theorem node_of_place (hd : d.Grounded) (h : d.place p = .ok place) :
    (∃ c, d.tree.at? place = some (.file c)) ∨ ∃ es, d.tree.at? place = some (.dir es) := by
  by_cases hnil : place = []
  · obtain ⟨es, hes⟩ := root_of_place h
    exact .inr ⟨es, by rw [hnil, hes]; rfl⟩
  · obtain ⟨node, hnode, hlink⟩ := (solid_of_place hd h).nodes place List.prefix_rfl hnil
    cases node with
    | file c => exact .inl ⟨c, hnode⟩
    | dir es => exact .inr ⟨es, hnode⟩
    | link target => exact absurd rfl (hlink target)

/-- The absolute form of a path that ends in a dot may lead somewhere although the path
does not: to a file, where the dot asks for a directory. -/
theorem file_of_absolute (hd : d.Grounded) (hp : p ≠ []) (hdot : endsInDot p) {e : Fault}
    (h : d.place p = .error e) (hplace : d.place (d.absolute p) = .ok place) :
    ∃ c, d.tree.at? place = some (.file c) := by
  refine (node_of_place hd hplace).resolve_right fun ⟨es, hes⟩ => ?_
  have hpath := spot_of_endsInDot hd hp hdot
  have hform := spot_of_place hplace
  rw [absolute, spot_spelled (proper_absolute hd p), Path.endsWithSlash_of_endsInDot hdot,
    Bool.false_or] at hform
  -- a dot behind a directory, or behind the root, leads where the absolute form leads
  have hthere : d.spot true p = .ok (.node place) := by
    cases hempty : (d.origin p ++ names p).isEmpty with
    | true => rwa [hempty, if_pos rfl, ← hpath] at hform
    | false =>
      rw [hempty, if_neg Bool.false_ne_true, List.append_nil] at hform
      rw [hpath, ((arrives_of_walk _ _ _ hform).concat_dot hes).walk_eq]
  rw [Disk.place, hthere] at h
  cases h

/-! ### Normal forms -/

/-- The path ends in a dot, and without it leads to a file. -/
structure FileBehindDot (d : Disk) (p : OsString) : Prop where
  dot : endsInDot p
  file : d.isFile (d.normalize p) = true

theorem isFile_of_place {c : Content} (h : d.place p = .ok place)
    (hat : d.tree.at? place = some (.file c)) : d.isFile p = true := by
  simp [isFile, holds, find, h, hat, Tree.isFile]

/-- Such a path leads nowhere itself. -/
theorem FileBehindDot.leads_nowhere (hd : d.Grounded) (h : d.FileBehindDot p) :
    ∃ e, d.place p = .error e := by
  cases hplace : d.place p with
  | error e => exact ⟨e, rfl⟩
  | ok place =>
    have hform := spot_of_place hplace
    rw [spot_of_endsInDot hd (walk_of_place hplace).1 h.dot] at hform
    obtain ⟨es, hes⟩ := (arrives_of_walk _ _ _ hform).dir_of_dot List.getLast?_concat
    have hfile := h.file
    rw [normalize_of_place hplace] at hfile
    simp [isFile, holds, find, place_ofNames hd hplace, hes, Tree.isFile] at hfile

/-- Normal forms are spelled as absolute forms are. -/
theorem normalize_spelled (hd : d.Grounded) (hp : p ≠ []) : ∃ lead place trail,
    d.normalize p = spelled lead place trail ∧ Path.Proper place := by
  cases h : d.place p with
  | ok place =>
    refine ⟨false, place, false, ?_, proper_of_solid (solid_of_place hd h)⟩
    rw [normalize_of_place h, Path.spelled_plain]
  | error e => exact ⟨_, _, _, normalize_of_error hd hp h, proper_absolute hd p⟩

theorem normalize_normalize (hd : d.Grounded) (hp : ¬ d.FileBehindDot p) :
    d.normalize (d.normalize p) = d.normalize p := by
  cases h : d.place p with
  | ok place => rw [normalize_of_place h, normalize_of_place (place_ofNames hd h)]
  | error e =>
    by_cases hempty : p = []
    · rw [hempty, normalize_empty, normalize_empty]
    · have hform := normalize_of_error hd hempty h
      rw [hform]
      cases hagain : d.place (d.absolute p) with
      | error e' =>
        have habs := @Path.absolute?_spelled (Path.doubled p) (endsWithSlash p) _ d.cwd
          (fun n hn => (hd.names n hn).1) (proper_absolute hd p)
        rw [← absolute] at habs
        simp only [normalize, canonical, hagain, habs, Option.getD_some]
      | ok place =>
        -- only a dot at the end makes a difference
        by_cases hdot : endsInDot p
        · obtain ⟨c, hc⟩ := file_of_absolute hd hempty hdot h hagain
          exact absurd ⟨hdot, hform ▸ isFile_of_place hagain hc⟩ hp
        · rw [place_absolute hd hempty hdot, h] at hagain
          cases hagain

theorem names_ofNames {t : Tree} (h : Solid t place) : names (ofNames place) = place := by
  rw [← Path.spelled_plain, Path.names_spelled (proper_of_solid h)]

/-- Where no link and no two dots are on the way, an absolute path spells its place. -/
theorem place_of_solid (hd : d.Grounded) (hsolid : Solid d.tree (names (d.normalize p)))
    (h : d.place (d.normalize p) = .ok place) : place = names (d.normalize p) := by
  have hp : p ≠ [] := by
    rintro rfl
    exact (walk_of_place h).1 (normalize_empty d)
  obtain ⟨lead, spelling, trail, hform, hproper⟩ := normalize_spelled hd hp
  rw [hform, Path.names_spelled hproper] at hsolid ⊢
  have hspot := spot_of_place h
  rw [hform, spot_spelled hproper, @walk_append_of_solid _ [] _ hsolid, List.nil_append] at hspot
  cases hmore : trail || spelling.isEmpty with
  | true =>
    rw [hmore, if_pos rfl] at hspot
    exact (arrives_of_walk _ _ _ hspot).eq_of_dot rfl
  | false =>
    rw [hmore, if_neg Bool.false_ne_true, walk_nil] at hspot
    cases hspot
    rfl

/-- A normal form that leads to a file is that file's, as a path, where no link and no two
dots are on the way. -/
theorem same_normalize_iff (hd : d.Grounded) (h : d.isFile (d.normalize p) = true) :
    Path.same (d.normalize (d.normalize p)) (d.normalize p) = true ↔
      Solid d.tree (names (d.normalize p)) := by
  obtain ⟨place, c, hplace, -⟩ := place_of_isFile h
  have hsolid := solid_of_place hd hplace
  have hp : p ≠ [] := by
    rintro rfl
    exact (walk_of_place hplace).1 (normalize_empty d)
  have habs : Path.isAbsolute (d.normalize p) = true := by
    obtain ⟨lead, spelling, trail, hform, -⟩ := normalize_spelled hd hp
    rw [hform, Path.isAbsolute_spelled]
  rw [normalize_of_place hplace, Path.same, isAbsolute_ofNames, habs, names_ofNames hsolid]
  simp only [decide_true, Bool.true_and, decide_eq_true_eq]
  constructor
  · intro heq
    rwa [← heq]
  · intro hnames
    exact place_of_solid hd hnames hplace

/-- All but the exceptional paths have a normal form that is its own. -/
theorem same_normalize (hd : d.Grounded)
    (hp : d.FileBehindDot p → Solid d.tree (names (d.normalize p))) :
    Path.same (d.normalize (d.normalize p)) (d.normalize p) = true := by
  by_cases hfile : d.FileBehindDot p
  · exact (same_normalize_iff hd hfile.file).mpr (hp hfile)
  · rw [normalize_normalize hd hfile]
    simp [Path.same]

theorem normalize_eq_iff (hd : d.Grounded) {q : OsString} {place' : List OsString}
    (h : d.place p = .ok place) (h' : d.place q = .ok place') :
    d.normalize q = d.normalize p ↔ place' = place := by
  rw [normalize_of_place h, normalize_of_place h']
  constructor
  · intro heq
    have hnames := congrArg names heq
    rwa [names_ofNames (solid_of_place hd h'), names_ofNames (solid_of_place hd h)] at hnames
  · rintro rfl
    rfl

end Disk

end Retouch.Files
