import Retouch.Files.Disk

/-! Places and the paths that lead to them. Where the current directory is a real
one, everything that a path leads to has one path that spells its place, free of
links and dots, and this path leads there too. And there are only so many places
where files are. -/

namespace Retouch

theorem eq_ok_of_toOption {ε α : Type} {x : Except ε α} {a : α} (h : x.toOption = some a) :
    x = .ok a := by
  cases x with
  | error e => cases h
  | ok b => exact congrArg _ (Option.some.inj h)

end Retouch

namespace Retouch.Files
open Retouch.Path (ofNames splitSlashes endsWithSlash)
open OsChar (slash)

/-! ### Places below places -/

theorem Tree.at?_append (t : Tree) (place more : List OsString) :
    t.at? (place ++ more) = (t.at? place).bind fun below => below.at? more := by
  induction place generalizing t with
  | nil => rfl
  | cons name rest ih =>
    simp only [List.cons_append, Tree.at?]
    cases Entries.get? t.entries name with
    | none => rfl
    | some child => exact ih child

theorem Tree.at?_concat {t : Tree} {place : List OsString} {es : Entries}
    (h : t.at? place = some (.dir es)) (name : OsString) :
    t.at? (place ++ [name]) = Entries.get? es name := by
  rw [Tree.at?_append, h]
  simp only [Option.bind_some, Tree.at?, Tree.entries]
  cases Entries.get? es name <;> rfl

/-- What has something below it is a directory. -/
theorem Tree.dir_of_at?_concat {t : Tree} {place : List OsString} {name : OsString} {node : Tree}
    (h : t.at? (place ++ [name]) = some node) : ∃ es, t.at? place = some (.dir es) := by
  rw [Tree.at?_append] at h
  obtain ⟨below, hbelow, hnode⟩ := Option.bind_eq_some_iff.mp h
  cases below with
  | dir es => exact ⟨es, hbelow⟩
  | file c => simp [Tree.at?, Tree.entries, Entries.get?] at hnode
  | link target => simp [Tree.at?, Tree.entries, Entries.get?] at hnode

theorem Tree.dir_of_at?_dir {t : Tree} {place : List OsString} {es : Entries}
    (h : t.at? place = some (.dir es)) : ∃ es, t = .dir es := by
  cases place with
  | nil => exact ⟨es, Option.some.inj h⟩
  | cons name rest =>
    cases t with
    | dir es' => exact ⟨es', rfl⟩
    | file c => simp [Tree.at?, Tree.entries, Entries.get?] at h
    | link target => simp [Tree.at?, Tree.entries, Entries.get?] at h

/-! ### Where files are -/

mutual

/-- The places of the files in a tree. -/
def Tree.filePlaces : Tree → List (List OsString)
  | .file _ => [[]]
  | .link _ => []
  | .dir es => Tree.filePlacesIn es

def Tree.filePlacesIn : List (OsString × Tree) → List (List OsString)
  | [] => []
  | (name, t) :: es => t.filePlaces.map (name :: ·) ++ Tree.filePlacesIn es

end

mutual

theorem Tree.length_filePlaces : ∀ t : Tree, t.filePlaces.length = t.fileCount
  | .file _ => rfl
  | .link _ => rfl
  | .dir es => by
    rw [Tree.filePlaces, Tree.fileCount]
    exact Tree.length_filePlacesIn es

theorem Tree.length_filePlacesIn :
    ∀ es : List (OsString × Tree), (Tree.filePlacesIn es).length = Tree.fileCounts es
  | [] => rfl
  | (name, t) :: es => by
    rw [Tree.filePlacesIn, Tree.fileCounts, List.length_append, List.length_map,
      Tree.length_filePlaces t, Tree.length_filePlacesIn es]

end

/-- Neither nothing nor more than one step. -/
def IsStep (name : OsString) : Prop := name ≠ [] ∧ slash ∉ name

theorem slash_notMem_splitSlashes {cs part : OsString} (h : part ∈ splitSlashes cs) :
    slash ∉ part := by
  induction cs generalizing part with
  | nil =>
    rw [List.mem_singleton.mp h]
    exact List.not_mem_nil
  | cons c cs ih =>
    rw [splitSlashes] at h
    split at h
    · rcases List.mem_cons.mp h with rfl | hrest
      · exact List.not_mem_nil
      · exact ih hrest
    · rename_i hc
      split at h
      · rename_i first parts hsplit
        rcases List.mem_cons.mp h with rfl | hrest
        · have hfirst := ih (hsplit ▸ List.mem_cons_self)
          intro hslash
          rcases List.mem_cons.mp hslash with heq | hin
          · exact hc heq.symm
          · exact hfirst hin
        · exact ih (hsplit ▸ List.mem_cons_of_mem _ hrest)
      · rw [List.mem_singleton.mp h]
        intro hslash
        exact hc (List.mem_singleton.mp hslash).symm

theorem isStep_of_mem_steps {p name : OsString} (h : name ∈ steps p) : IsStep name := by
  have hparts : ∀ part ∈ (splitSlashes p).filter (· ≠ []), IsStep part := by
    intro part hmem
    obtain ⟨hmem, hne⟩ := List.mem_filter.mp hmem
    exact ⟨by simpa using hne, slash_notMem_splitSlashes hmem⟩
  have hdot : IsStep Path.dot := ⟨by decide, by decide⟩
  unfold steps at h
  dsimp only at h
  split at h
  · rcases List.mem_append.mp h with hpart | hlast
    · exact hparts name hpart
    · exact List.mem_singleton.mp hlast ▸ hdot
  · exact hparts name h

theorem eq_slash_of_splitSlashes {cs : OsString} (h : ∀ part ∈ splitSlashes cs, part = []) :
    ∀ c ∈ cs, c = slash := by
  induction cs with
  | nil =>
    intro c hc
    cases hc
  | cons c cs ih =>
    rw [splitSlashes] at h
    split at h
    · rename_i hc
      intro c' hmem
      rcases List.mem_cons.mp hmem with rfl | hin
      · exact hc
      · exact ih (fun part hpart => h part (List.mem_cons_of_mem _ hpart)) c' hin
    · split at h
      · exact absurd (h _ List.mem_cons_self) (List.cons_ne_nil _ _)
      · exact absurd (h _ List.mem_cons_self) (List.cons_ne_nil _ _)

/-- Only the empty path has no steps. -/
theorem steps_ne_nil {p : OsString} (hp : p ≠ []) : steps p ≠ [] := by
  intro hnil
  unfold steps at hnil
  dsimp only at hnil
  split at hnil
  · exact absurd hnil (by simp)
  · rename_i hend
    have hparts : ∀ part ∈ splitSlashes p, part = [] := by
      intro part hpart
      simpa using List.filter_eq_nil_iff.mp hnil part hpart
    have hlast := eq_slash_of_splitSlashes hparts _ (List.getLast_mem hp)
    exact hend (by simp [endsWithSlash, List.getLast?_eq_some_getLast hp, hlast])

theorem splitSlashes_ne_nil (cs : OsString) : splitSlashes cs ≠ [] := by
  cases cs with
  | nil => exact List.cons_ne_nil _ _
  | cons c cs =>
    rw [splitSlashes]
    split
    · exact List.cons_ne_nil _ _
    · split <;> exact List.cons_ne_nil _ _

/-- The parts on both sides of a slash. -/
theorem splitSlashes_slash (front cs : OsString) :
    splitSlashes (front ++ slash :: cs) = splitSlashes front ++ splitSlashes cs := by
  induction front with
  | nil => simp [splitSlashes]
  | cons c front ih =>
    by_cases hc : c = slash
    · rw [List.cons_append, splitSlashes, if_pos hc, ih, splitSlashes, if_pos hc]
      rfl
    · rw [List.cons_append, splitSlashes, if_neg hc, ih, splitSlashes, if_neg hc]
      cases hsplit : splitSlashes front with
      | nil => exact absurd hsplit (splitSlashes_ne_nil front)
      | cons part parts => rfl

theorem splitSlashes_of_notMem {cs : OsString} (h : slash ∉ cs) : splitSlashes cs = [cs] := by
  induction cs with
  | nil => rfl
  | cons c cs ih =>
    obtain ⟨hc, hcs⟩ := not_or.mp (mt List.mem_cons.mpr h)
    have hne : ¬ c = slash := fun he => hc he.symm
    rw [splitSlashes, if_neg hne, ih hcs]

theorem splitSlashes_names {place : List OsString} (h : ∀ n ∈ place, slash ∉ n)
    (front : OsString) : splitSlashes (front ++ place.flatMap (slash :: ·)) =
      splitSlashes front ++ place := by
  induction place generalizing front with
  | nil => simp
  | cons name place ih =>
    rw [List.flatMap_cons, List.cons_append, splitSlashes_slash,
      ih fun n hn => h n (List.mem_cons_of_mem _ hn),
      splitSlashes_of_notMem (h name List.mem_cons_self)]
    rfl

theorem ofNames_eq {place : List OsString} (h : place ≠ []) :
    ofNames place = place.flatMap (slash :: ·) := by
  rw [ofNames, if_neg (by simpa using h)]

theorem isAbsolute_ofNames (place : List OsString) : Path.isAbsolute (ofNames place) = true := by
  cases place with
  | nil => rfl
  | cons name place => simp [Path.isAbsolute, ofNames_eq]

theorem endsWithSlash_ofNames {place : List OsString} (h : place ≠ [])
    (hnames : ∀ n ∈ place, IsStep n) : endsWithSlash (ofNames place) = false := by
  obtain ⟨front, last, rfl⟩ : ∃ front last, place = front ++ [last] :=
    ⟨place.dropLast, place.getLast h, (List.dropLast_concat_getLast h).symm⟩
  obtain ⟨hne, hslash⟩ := hnames last (by simp)
  have hlast : last.getLast hne ≠ slash := fun he => hslash (he ▸ List.getLast_mem hne)
  simp [endsWithSlash, ofNames_eq h, List.flatMap_append, List.getLast?_append,
    List.getLast?_cons, List.getLast?_eq_some_getLast hne, hlast]

/-- The steps of the path of a place are the names of the place. -/
theorem steps_ofNames {place : List OsString} (h : place ≠ []) (hnames : ∀ n ∈ place, IsStep n) :
    steps (ofNames place) = place := by
  have hsplit : splitSlashes (ofNames place) = [] :: place := by
    rw [ofNames_eq h]
    exact splitSlashes_names (fun n hn => (hnames n hn).2) []
  have hfilter : place.filter (· ≠ []) = place := by
    apply List.filter_eq_self.mpr
    intro n hn
    simpa using (hnames n hn).1
  unfold steps
  dsimp only
  rw [endsWithSlash_ofNames h hnames, if_neg (by decide), hsplit]
  simpa using hfilter

/-! ### Walking -/

/-- Induction along a walk: either there is one step less, or a link is spent. -/
theorem walk_induction {motive : Nat → List OsString → List OsString → Prop}
    (nil : ∀ budget here, motive budget here [])
    (cons : ∀ budget here name rest, (∀ here', motive budget here' rest) →
      (∀ budget' here' todo, budget = budget' + 1 → motive budget' here' todo) →
      motive budget here (name :: rest)) :
    ∀ budget here todo, motive budget here todo := by
  intro budget
  induction budget with
  | zero =>
    intro here todo
    induction todo generalizing here with
    | nil => exact nil 0 here
    | cons name rest ih => exact cons 0 here name rest ih fun _ _ _ h => nomatch h
  | succ budget ihb =>
    intro here todo
    induction todo generalizing here with
    | nil => exact nil _ here
    | cons name rest ih =>
      refine cons _ here name rest ih fun budget' here' todo h => ?_
      cases h
      exact ihb here' todo

/-- A place spelled by names, with no links on the way. -/
structure Solid (t : Tree) (place : List OsString) : Prop where
  names : ∀ name ∈ place, IsStep name ∧ name ≠ Path.dot ∧ name ≠ Path.dots
  nodes : ∀ front, front <+: place → front ≠ [] →
    ∃ node, t.at? front = some node ∧ ∀ target, node ≠ .link target

theorem solid_nil (t : Tree) : Solid t [] :=
  ⟨fun _ h => absurd h List.not_mem_nil, fun _ h hne => absurd (List.prefix_nil.mp h) hne⟩

theorem Solid.dropLast {t : Tree} {place : List OsString} (h : Solid t place) :
    Solid t place.dropLast :=
  ⟨fun name hmem => h.names name ((List.dropLast_subset place) hmem),
    fun front hfront => h.nodes front (hfront.trans (List.dropLast_prefix place))⟩

theorem Solid.concat {t : Tree} {place : List OsString} (h : Solid t place) {name : OsString}
    (hname : IsStep name ∧ name ≠ Path.dot ∧ name ≠ Path.dots) {node : Tree}
    (hnode : t.at? (place ++ [name]) = some node) (hlink : ∀ target, node ≠ .link target) :
    Solid t (place ++ [name]) := by
  refine ⟨fun n hmem => ?_, fun front hfront hne => ?_⟩
  · rcases List.mem_append.mp hmem with hin | hlast
    · exact h.names n hin
    · exact List.mem_singleton.mp hlast ▸ hname
  · rcases List.prefix_concat_iff.mp hfront with rfl | hin
    · exact ⟨node, hnode, hlink⟩
    · exact h.nodes front hin hne

/-- A walk that follows links ends at a solid place. -/
theorem walk_solid {t : Tree} : ∀ budget here todo, Solid t here → (∀ name ∈ todo, IsStep name) →
    ∀ place, walk t true budget here todo = .ok (.node place) → Solid t place := by
  apply walk_induction
  · intro budget here hhere _ place h
    rw [walk_nil] at h
    cases h
    exact hhere
  · intro budget here name rest ihrest ihlink hhere hsteps place h
    have hrest : ∀ n ∈ rest, IsStep n := fun n hn => hsteps n (List.mem_cons_of_mem _ hn)
    rw [walk_cons] at h
    cases hat : t.at? here with
    | none => simp [hat] at h
    | some node =>
      cases node with
      | file c => simp [hat] at h
      | link target => simp [hat] at h
      | dir es =>
        simp only [hat] at h
        split at h
        · exact ihrest here hhere hrest place h
        · rename_i hdot
          split at h
          · exact ihrest _ hhere.dropLast hrest place h
          · rename_i hdots
            have hname := And.intro (hsteps name List.mem_cons_self) (And.intro hdot hdots)
            have hnode := Tree.at?_concat hat name
            cases hget : Entries.get? es name with
            | none =>
              simp only [hget] at h
              split at h <;> cases h
            | some child =>
              cases child with
              | link target =>
                simp only [hget, Bool.not_true, Bool.and_false, Bool.false_eq_true, if_false] at h
                cases budget with
                | zero => cases h
                | succ budget =>
                  dsimp only at h
                  split at h
                  · cases h
                  · have hstart : Solid t (if Path.isAbsolute target then [] else here) := by
                      split
                      · exact solid_nil t
                      · exact hhere
                    refine ihlink budget _ _ rfl hstart (fun n hn => ?_) place h
                    rcases List.mem_append.mp hn with hin | hin
                    · exact isStep_of_mem_steps hin
                    · exact hrest n hin
              | file c =>
                simp only [hget] at h
                exact ihrest _ (hhere.concat hname (hnode.trans hget) fun _ => Tree.noConfusion)
                  hrest place h
              | dir es' =>
                simp only [hget] at h
                exact ihrest _ (hhere.concat hname (hnode.trans hget) fun _ => Tree.noConfusion)
                  hrest place h

/-- The names of a solid place lead there, whatever comes behind them. -/
theorem walk_append_of_solid {t : Tree} {here place : List OsString} (h : Solid t (here ++ place))
    (follow : Bool) (budget : Nat) (rest : List OsString) :
    walk t follow budget here (place ++ rest) = walk t follow budget (here ++ place) rest := by
  induction place generalizing here with
  | nil => rw [List.nil_append, List.append_nil]
  | cons name place ih =>
    obtain ⟨-, hdot, hdots⟩ := h.names name (by simp)
    obtain ⟨node, hnode, hlink⟩ := h.nodes (here ++ [name]) (by simp) (by simp)
    obtain ⟨es, hes⟩ := Tree.dir_of_at?_concat hnode
    have hget : Entries.get? es name = some node := (Tree.at?_concat hes name).symm.trans hnode
    have hnext : walk t follow budget (here ++ [name]) (place ++ rest) =
        walk t follow budget (here ++ name :: place) rest := by
      have hsame : here ++ name :: place = here ++ [name] ++ place := by simp
      rw [hsame] at h ⊢
      exact ih h
    rw [List.cons_append, walk_cons]
    simp only [hes, hget, if_neg hdot, if_neg hdots]
    cases node with
    | link target => exact absurd rfl (hlink target)
    | file c => exact hnext
    | dir es' => exact hnext

/-! ### One path for each place -/

namespace Disk

/-- The current directory is a real one. -/
def Grounded (d : Disk) : Prop := Solid d.tree d.cwd

theorem walk_of_place {d : Disk} {p : OsString} {place : List OsString}
    (h : d.place p = .ok place) :
    p ≠ [] ∧ walk d.tree true linkBudget (d.origin p) (steps p) = .ok (.node place) := by
  unfold Disk.place spot at h
  by_cases hp : p = []
  · simp [hp] at h
  · rw [if_neg hp] at h
    split at h
    · rename_i place' hwalk
      cases h
      exact ⟨hp, hwalk⟩
    · cases h
    · cases h

theorem solid_of_place {d : Disk} (hd : d.Grounded) {p : OsString} {place : List OsString}
    (h : d.place p = .ok place) : Solid d.tree place := by
  obtain ⟨-, hwalk⟩ := walk_of_place h
  have hstart : Solid d.tree (d.origin p) := by
    unfold origin
    split
    · exact solid_nil _
    · exact hd
  exact walk_solid linkBudget _ _ hstart (fun name hname => isStep_of_mem_steps hname) place hwalk

theorem root_of_place {d : Disk} {p : OsString} {place : List OsString}
    (h : d.place p = .ok place) :
    ∃ es, d.tree = .dir es := by
  obtain ⟨hp, hwalk⟩ := walk_of_place h
  cases hsteps : steps p with
  | nil => exact absurd hsteps (steps_ne_nil hp)
  | cons name rest =>
    rw [hsteps, walk_cons] at hwalk
    split at hwalk
    · rename_i es hat
      exact Tree.dir_of_at?_dir hat
    · cases hwalk

theorem place_of_isFile {d : Disk} {p : OsString} (h : d.isFile p = true) :
    ∃ place c, d.place p = .ok place ∧ d.tree.at? place = some (.file c) := by
  unfold isFile holds find at h
  cases hplace : d.place p with
  | error e => simp [hplace] at h
  | ok place =>
    cases hat : d.tree.at? place with
    | none => simp [hplace, hat] at h
    | some node =>
      cases node with
      | file c => exact ⟨place, c, rfl, hat⟩
      | link target => simp [hplace, hat, Tree.isFile] at h
      | dir es => simp [hplace, hat, Tree.isFile] at h

/-- The path that spells a place leads there. -/
theorem place_ofNames {d : Disk} (hd : d.Grounded) {p : OsString} {place : List OsString}
    (h : d.place p = .ok place) : d.place (ofNames place) = .ok place := by
  have hsolid := solid_of_place hd h
  have hne : ofNames place ≠ [] := by
    intro he
    have habs := isAbsolute_ofNames place
    rw [he] at habs
    cases habs
  have hwalk : walk d.tree true linkBudget [] (steps (ofNames place)) = .ok (.node place) := by
    by_cases hnil : place = []
    · obtain ⟨es, hes⟩ := root_of_place h
      have hroot : steps (ofNames []) = [Path.dot] := by decide
      rw [hnil, hroot, hes]
      simp [Tree.at?]
    · rw [steps_ofNames hnil fun n hn => (hsolid.names n hn).1]
      have hlead := @walk_append_of_solid _ [] place hsolid true linkBudget []
      rwa [List.append_nil, walk_nil] at hlead
  rw [Disk.place, spot, if_neg hne, origin, isAbsolute_ofNames, if_pos rfl, hwalk]

theorem normalize_of_place {d : Disk} {p : OsString} {place : List OsString}
    (h : d.place p = .ok place) : d.normalize p = ofNames place := by
  simp only [normalize, canonical, h]

end Disk

end Retouch.Files
