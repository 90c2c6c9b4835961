import Mathlib.Logic.Basic
import Retouch.Proofs.FileShapes

/-! Putting a new file in the place of an old one. A path that leads to a file ends
at that file or at a link to it. Either one gives way to the new file, and no other
place changes its shape; so the path leads to the new file, unless it went through
the link on its way. It cannot have done so: what the link leads to is a file, and
nothing lies behind a file. -/

namespace Retouch.Files

/-! ### Trees with one place changed -/

theorem Entries.get?_cons (e : OsString × Tree) (es : Entries) (name : OsString) :
    Entries.get? (e :: es) name = if e.1 = name then some e.2 else Entries.get? es name := by
  unfold Entries.get?
  by_cases h : e.1 = name <;> simp [h]

theorem Entries.get?_map (es : Entries) (name other : OsString) (t : Tree) :
    Entries.get? (es.map fun e => if e.1 = name then (name, t) else e) other =
      if other = name then (Entries.get? es name).map fun _ => t else Entries.get? es other := by
  induction es with
  | nil => simp [Entries.get?]
  | cons e es ih =>
    rw [List.map_cons, Entries.get?_cons, ih, Entries.get?_cons, Entries.get?_cons]
    by_cases he : e.1 = name
    · by_cases ho : other = name
      · simp [he, ho]
      · simp [he, ho, show ¬ name = other from fun h => ho h.symm]
    · by_cases ho : other = name
      · subst ho
        simp [he]
      · simp [he, ho]

theorem Entries.get?_concat (es : Entries) (name other : OsString) (t : Tree)
    (h : Entries.get? es name = none) :
    Entries.get? (es ++ [(name, t)]) other =
      if other = name then some t else Entries.get? es other := by
  induction es with
  | nil =>
    rw [List.nil_append, Entries.get?_cons]
    simp [eq_comm]
  | cons e es ih =>
    rw [Entries.get?_cons] at h
    split at h
    · cases h
    · rename_i he
      rw [List.cons_append, Entries.get?_cons, Entries.get?_cons, ih h]
      by_cases ho : e.1 = other
      · subst ho
        simp [he]
      · simp [ho]

theorem Entries.get?_put (es : Entries) (name other : OsString) (t : Tree) :
    Entries.get? (Entries.put es name t) other =
      if other = name then some t else Entries.get? es other := by
  have hany : es.any (·.1 = name) = (Entries.get? es name).isSome := by
    rw [Entries.get?, Option.isSome_map, Bool.eq_iff_iff, List.any_eq_true, List.find?_isSome]
  unfold Entries.put
  rw [hany]
  cases hget : Entries.get? es name with
  | none => exact Entries.get?_concat es name other t hget
  | some old =>
    rw [Option.isSome_some, if_pos rfl, Entries.get?_map, hget]
    rfl

theorem Tree.dir_of_at?_cons {t node : Tree} {name : OsString} {place : List OsString}
    (h : t.at? (name :: place) = some node) :
    ∃ es child, t = .dir es ∧ Entries.get? es name = some child ∧ child.at? place = some node := by
  cases t with
  | file c => simp [Tree.at?, Tree.entries, Entries.get?] at h
  | link target => simp [Tree.at?, Tree.entries, Entries.get?] at h
  | dir es =>
    rw [Tree.at?] at h
    cases hget : Entries.get? es name with
    | none => simp [Tree.entries, hget] at h
    | some child => exact ⟨es, child, rfl, hget, by simpa [Tree.entries, hget] using h⟩

theorem Tree.at?_put {t node : Tree} {place : List OsString} (new : Tree)
    (h : t.at? place = some node) : (t.put place new).at? place = some new := by
  induction place generalizing t with
  | nil => rfl
  | cons name place ih =>
    obtain ⟨es, child, rfl, hget, hchild⟩ := Tree.dir_of_at?_cons h
    simpa [Tree.put, Tree.at?, Tree.entries, Entries.get?_put, hget] using ih hchild

/-- Where something that is no directory gives way to another such thing, no other
place changes its shape. -/
theorem Tree.shape_put {t node : Tree} {place : List OsString} (new : Tree)
    (h : t.at? place = some node) (hnode : node.isDir = false) (hnew : new.isDir = false)
    (other : List OsString) :
    ((t.put place new).at? other).map Tree.shape =
      if other = place then some new.shape else (t.at? other).map Tree.shape := by
  induction place generalizing t other with
  | nil =>
    obtain rfl : t = node := Option.some.inj h
    cases other with
    | nil => simp [Tree.put, Tree.at?]
    | cons name rest =>
      have hnone (u : Tree) (hu : u.isDir = false) : u.at? (name :: rest) = none := by
        cases u with
        | dir es => cases hu
        | file c => rfl
        | link target => rfl
      simp [Tree.put, hnone, hnode, hnew]
  | cons name place ih =>
    obtain ⟨es, child, rfl, hget, hchild⟩ := Tree.dir_of_at?_cons h
    cases other with
    | nil => simp [Tree.put, Tree.at?, Tree.shape]
    | cons first rest =>
      simp only [Tree.put, hget, Option.getD_some, Tree.at?, Tree.entries, Entries.get?_put]
      by_cases hf : first = name
      · subst hf
        simp [hget, ih hchild]
      · simp [hf]

/-! ### Walks that arrive -/

/-- Where the target of a link in the directory `here` is looked for. -/
def linkStart (here : List OsString) (target : OsString) : List OsString :=
  if Path.isAbsolute target then [] else here

/-- `Arrives t follow budget here todo place`: the steps `todo` lead from `here` to
something at `place`. -/
inductive Arrives (t : Tree) (follow : Bool) :
    Nat → List OsString → List OsString → List OsString → Prop
  | done {budget here} : Arrives t follow budget here [] here
  | dot {budget here rest place es} : t.at? here = some (.dir es) →
      Arrives t follow budget here rest place →
      Arrives t follow budget here (Path.dot :: rest) place
  | up {budget here rest place es} : t.at? here = some (.dir es) →
      Arrives t follow budget here.dropLast rest place →
      Arrives t follow budget here (Path.dots :: rest) place
  | stop {budget here name es target} :
      t.at? here = some (.dir es) → name ≠ Path.dot → name ≠ Path.dots →
      t.at? (here ++ [name]) = some (.link target) → follow = false →
      Arrives t follow budget here [name] (here ++ [name])
  | jump {budget here name rest place es target} : t.at? here = some (.dir es) → name ≠ Path.dot →
      name ≠ Path.dots → t.at? (here ++ [name]) = some (.link target) → rest ≠ [] ∨ follow = true →
      target ≠ [] → Arrives t follow budget (linkStart here target) (steps target ++ rest) place →
      Arrives t follow (budget + 1) here (name :: rest) place
  | enter {budget here name rest place es node} : t.at? here = some (.dir es) → name ≠ Path.dot →
      name ≠ Path.dots → t.at? (here ++ [name]) = some node → (∀ target, node ≠ .link target) →
      Arrives t follow budget (here ++ [name]) rest place →
      Arrives t follow budget here (name :: rest) place

variable {t : Tree} {follow : Bool} {budget : Nat} {here rest place : List OsString}
  {name : OsString}
  {es : Entries}

theorem walk_dot (hd : t.at? here = some (.dir es)) :
    walk t follow budget here (Path.dot :: rest) = walk t follow budget here rest := by
  simp [hd]

theorem walk_up (hd : t.at? here = some (.dir es)) :
    walk t follow budget here (Path.dots :: rest) = walk t follow budget here.dropLast rest := by
  simp [hd, Path.dots_ne_dot]

theorem walk_stop {target : OsString} (hd : t.at? here = some (.dir es)) (hdot : name ≠ Path.dot)
    (hdots : name ≠ Path.dots) (hlink : t.at? (here ++ [name]) = some (.link target)) :
    walk t false budget here [name] = .ok (.node (here ++ [name])) := by
  rw [Tree.at?_concat hd] at hlink
  rw [walk_cons, hd]
  simp [hdot, hdots, hlink]

theorem walk_jump {target : OsString} (hd : t.at? here = some (.dir es)) (hdot : name ≠ Path.dot)
    (hdots : name ≠ Path.dots) (hlink : t.at? (here ++ [name]) = some (.link target))
    (hgo : rest ≠ [] ∨ follow = true) (htarget : target ≠ []) :
    walk t follow (budget + 1) here (name :: rest) =
      walk t follow budget (linkStart here target) (steps target ++ rest) := by
  have hthrough : (rest.isEmpty && !follow) = false := by
    rcases hgo with hrest | rfl
    · simp [hrest]
    · simp
  rw [Tree.at?_concat hd] at hlink
  rw [walk_cons, hd]
  simp only [if_neg hdot, if_neg hdots, hlink, hthrough, Bool.false_eq_true, if_false,
    if_neg htarget, linkStart]

theorem walk_enter {node : Tree} (hd : t.at? here = some (.dir es)) (hdot : name ≠ Path.dot)
    (hdots : name ≠ Path.dots) (hnode : t.at? (here ++ [name]) = some node)
    (hlink : ∀ target, node ≠ .link target) :
    walk t follow budget here (name :: rest) = walk t follow budget (here ++ [name]) rest := by
  rw [Tree.at?_concat hd] at hnode
  rw [walk_cons, hd]
  simp only [if_neg hdot, if_neg hdots, hnode]

theorem Arrives.walk_eq {todo : List OsString} (h : Arrives t follow budget here todo place) :
    walk t follow budget here todo = .ok (.node place) := by
  induction h with
  | done => exact walk_nil ..
  | dot hd _ ih => rw [walk_dot hd, ih]
  | up hd _ ih => rw [walk_up hd, ih]
  | stop hd hdot hdots hlink hf => rw [hf, walk_stop hd hdot hdots hlink]
  | jump hd hdot hdots hlink hgo htarget _ ih => rw [walk_jump hd hdot hdots hlink hgo htarget, ih]
  | enter hd hdot hdots hnode hlink _ ih => rw [walk_enter hd hdot hdots hnode hlink, ih]

theorem arrives_of_walk : ∀ budget here todo,
    walk t follow budget here todo = .ok (.node place) →
      Arrives t follow budget here todo place := by
  apply walk_induction
  · intro budget here h
    rw [walk_nil] at h
    obtain rfl : here = place := by simpa using h
    exact .done
  · intro budget here name rest ihrest ihlink h
    have hwalk := h
    rw [walk_cons] at h
    split at h
    · rename_i es hd
      by_cases hdot : name = Path.dot
      · subst hdot
        rw [walk_dot hd] at hwalk
        exact .dot hd (ihrest here hwalk)
      by_cases hdots : name = Path.dots
      · subst hdots
        rw [walk_up hd] at hwalk
        exact .up hd (ihrest _ hwalk)
      rw [if_neg hdot, if_neg hdots] at h
      have hnode := Tree.at?_concat hd name
      cases hget : Entries.get? es name with
      | none =>
        simp only [hget] at h
        split at h <;> cases h
      | some node =>
        rw [hget] at hnode
        by_cases hlink : ∃ target, node = .link target
        · obtain ⟨target, rfl⟩ := hlink
          simp only [hget] at h
          split at h
          · rename_i hstop
            obtain ⟨rfl, rfl⟩ : rest = [] ∧ follow = false := by simpa using hstop
            obtain rfl : here ++ [name] = place := by simpa using h
            exact .stop hd hdot hdots hnode rfl
          · rename_i hgo
            replace hgo : rest ≠ [] ∨ follow = true := by
              rw [Bool.and_eq_true, not_and_or] at hgo
              simpa using hgo
            cases budget with
            | zero => cases h
            | succ budget =>
              dsimp only at h
              split at h
              · cases h
              · rename_i htarget
                exact .jump hd hdot hdots hnode hgo htarget (ihlink budget _ _ rfl h)
        · have hnot : ∀ target, node ≠ .link target := fun target he => hlink ⟨target, he⟩
          rw [walk_enter hd hdot hdots hnode hnot] at hwalk
          exact .enter hd hdot hdots hnode hnot (ihrest _ hwalk)
    · cases h

/-! ### Paths that lead to a file -/

/-- Nothing lies behind a file. -/
theorem Arrives.behind_file {todo : List OsString} {c : Content}
    (h : Arrives t true budget here todo place) (hp : t.at? place = some (.file c))
    {more : List OsString} (hmore : more ≠ []) {budget' : Nat} (hle : budget ≤ budget') :
    walk t true budget' here (todo ++ more) = .error .notDirectory := by
  induction h generalizing budget' with
  | done =>
    obtain ⟨name, rest, rfl⟩ := List.exists_cons_of_ne_nil hmore
    rw [List.nil_append, walk_cons, hp]
  | dot hd _ ih => rw [List.cons_append, walk_dot hd, ih hp hle]
  | up hd _ ih => rw [List.cons_append, walk_up hd, ih hp hle]
  | stop _ _ _ _ hf => cases hf
  | jump hd hdot hdots hlink _ htarget _ ih =>
    obtain ⟨budget', rfl⟩ : ∃ n, budget' = n + 1 := ⟨budget' - 1, by omega⟩
    rw [List.cons_append, walk_jump hd hdot hdots hlink (Or.inr rfl) htarget,
      ← List.append_assoc, ih hp (by omega)]
  | enter hd hdot hdots hnode hlink _ ih =>
    rw [List.cons_append, walk_enter hd hdot hdots hnode hlink, ih hp hle]

/-- Where a path to a file ends: at something that is no directory. If it is a link,
following it takes part of the budget. -/
structure Ends (t : Tree) (budget : Nat) (here todo file place : List OsString) (node : Tree) :
    Prop where
  unfollowed : walk t false budget here todo = .ok (.node place)
  found : t.at? place = some node
  isDir : node.isDir = false
  link : ∀ target, node = .link target →
    ∃ spent < budget, Arrives t true spent (linkStart place.dropLast target) (steps target) file

/-- `t'` has a file at `place` and is shaped like `t` everywhere else. -/
def FileAt (t t' : Tree) (place : List OsString) : Prop :=
  ∀ other, (t'.at? other).map Tree.shape =
    if other = place then some .file else (t.at? other).map Tree.shape

namespace FileAt
variable {t' node : Tree}

theorem file (h : FileAt t t' place) : ∃ c, t'.at? place = some (.file c) := by
  have hshape := h place
  rw [if_pos rfl] at hshape
  obtain ⟨u, hu, hshape⟩ := Option.map_eq_some_iff.mp hshape
  cases u with
  | file c => exact ⟨c, hu⟩
  | link target => cases hshape
  | dir es => cases hshape

theorem other (h : FileAt t t' place) (hne : here ≠ place) (hnode : t.at? here = some node) :
    ∃ node', t'.at? here = some node' ∧ node'.shape = node.shape := by
  have hshape := h here
  rw [if_neg hne, hnode] at hshape
  exact Option.map_eq_some_iff.mp hshape

theorem dir (h : FileAt t t' place) (hplace : t.at? place = some node) (hdir : node.isDir = false)
    (hd : t.at? here = some (.dir es)) : ∃ es', t'.at? here = some (.dir es') := by
  have hne : here ≠ place := by
    rintro rfl
    rw [hd] at hplace
    cases hplace
    cases hdir
  obtain ⟨node', hnode', hshape⟩ := h.other hne hd
  cases node' with
  | dir es' => exact ⟨es', hnode'⟩
  | file c => cases hshape
  | link target => cases hshape

theorem link (h : FileAt t t' place) (hne : here ≠ place) {target : OsString}
    (hlink : t.at? here = some (.link target)) : t'.at? here = some (.link target) := by
  obtain ⟨node', hnode', hshape⟩ := h.other hne hlink
  cases node' with
  | link u =>
    obtain rfl : u = target := by simpa [Tree.shape] using hshape
    exact hnode'
  | file c => cases hshape
  | dir es => cases hshape

theorem no_link (h : FileAt t t' place) (hnode : t.at? here = some node)
    (hlink : ∀ target, node ≠ .link target) :
    ∃ node', t'.at? here = some node' ∧ ∀ target, node' ≠ .link target := by
  by_cases hplace : here = place
  · obtain ⟨c, hc⟩ := h.file
    exact ⟨.file c, hplace ▸ hc, fun _ => nofun⟩
  · obtain ⟨node', hnode', hshape⟩ := h.other hplace hnode
    refine ⟨node', hnode', ?_⟩
    rintro target rfl
    cases node with
    | link u => exact hlink u rfl
    | file c => cases hshape
    | dir es => cases hshape

end FileAt

/-- A path to a file ends somewhere, and leads to that place once a file is put
there. -/
theorem Arrives.ends {todo file : List OsString} {c : Content}
    (h : Arrives t true budget here todo file) (hfile : t.at? file = some (.file c)) :
    ∃ place node, Ends t budget here todo file place node ∧
      ∀ t', FileAt t t' place → walk t' true budget here todo = .ok (.node place) := by
  induction h with
  | @done budget here =>
    refine ⟨here, _, ⟨walk_nil .., hfile, rfl, fun _ he => nomatch he⟩, fun t' _ => walk_nil ..⟩
  | dot hd _ ih =>
    obtain ⟨place, node, hends, hput⟩ := ih hfile
    refine ⟨place, node, ⟨?_, hends.found, hends.isDir, hends.link⟩, fun t' ht' => ?_⟩
    · rw [walk_dot hd, hends.unfollowed]
    · obtain ⟨es', hd'⟩ := ht'.dir hends.found hends.isDir hd
      rw [walk_dot hd', hput t' ht']
  | up hd _ ih =>
    obtain ⟨place, node, hends, hput⟩ := ih hfile
    refine ⟨place, node, ⟨?_, hends.found, hends.isDir, hends.link⟩, fun t' ht' => ?_⟩
    · rw [walk_up hd, hends.unfollowed]
    · obtain ⟨es', hd'⟩ := ht'.dir hends.found hends.isDir hd
      rw [walk_up hd', hput t' ht']
  | stop _ _ _ _ hf => cases hf
  | @jump budget here name rest file es target hd hdot hdots hlink _ htarget hrest ih =>
    by_cases hnil : rest = []
    · -- the path ends at the link
      subst hnil
      rw [List.append_nil] at hrest
      have hfollow : ∃ spent < budget + 1,
          Arrives t true spent (linkStart (here ++ [name]).dropLast target) (steps target) file :=
        ⟨budget, Nat.lt_succ_self _, by rwa [List.dropLast_concat]⟩
      refine ⟨here ++ [name], _, ⟨walk_stop hd hdot hdots hlink, hlink, rfl, ?_⟩, fun t' ht' => ?_⟩
      · rintro _ ⟨⟩
        exact hfollow
      · obtain ⟨es', hd'⟩ := ht'.dir hlink rfl hd
        obtain ⟨c', hnew⟩ := ht'.file
        rw [walk_enter hd' hdot hdots hnew (fun _ => nofun), walk_nil]
    · obtain ⟨place, node, hends, hput⟩ := ih hfile
      -- had the path come through the link where it ends, a file would lie before its end
      have hthrough : here ++ [name] ≠ place := by
        rintro rfl
        obtain ⟨spent, hspent, hfollow⟩ :=
          hends.link target (Option.some.inj (hends.found.symm.trans hlink))
        rw [List.dropLast_concat] at hfollow
        have hstuck := hfollow.behind_file hfile hnil (Nat.le_of_lt hspent)
        rw [hrest.walk_eq] at hstuck
        cases hstuck
      refine ⟨place, node, ⟨?_, hends.found, hends.isDir, fun u hu => ?_⟩, fun t' ht' => ?_⟩
      · rw [walk_jump hd hdot hdots hlink (Or.inl hnil) htarget, hends.unfollowed]
      · obtain ⟨spent, hspent, hfollow⟩ := hends.link u hu
        exact ⟨spent, Nat.lt_succ_of_lt hspent, hfollow⟩
      · obtain ⟨es', hd'⟩ := ht'.dir hends.found hends.isDir hd
        rw [walk_jump hd' hdot hdots (ht'.link hthrough hlink) (Or.inl hnil) htarget, hput t' ht']
  | @enter budget here name rest file es next hd hdot hdots hnext hlink hrest ih =>
    obtain ⟨place, node, hends, hput⟩ := ih hfile
    refine ⟨place, node, ⟨?_, hends.found, hends.isDir, hends.link⟩, fun t' ht' => ?_⟩
    · rw [walk_enter hd hdot hdots hnext hlink, hends.unfollowed]
    · obtain ⟨es', hd'⟩ := ht'.dir hends.found hends.isDir hd
      obtain ⟨next', hnext', hlink'⟩ := ht'.no_link hnext hlink
      rw [walk_enter hd' hdot hdots hnext' hlink', hput t' ht']

/-! ### Reading what was written -/

namespace Disk
variable {d : Disk} {p : OsString} {s : String}

theorem readText_eq_ok : d.readText p = .ok s ↔
    ∃ place, d.place p = .ok place ∧ d.tree.at? place = some (.file (.text s)) := by
  unfold readText find
  cases d.place p with
  | error e => simp
  | ok place =>
    cases hat : d.tree.at? place with
    | none => simp [hat]
    | some node =>
      cases node with
      | file c => cases c <;> simp [hat]
      | link target => simp [hat]
      | dir es => simp [hat]

/-- A file that can be read can be replaced, and then the new text is read there. -/
theorem readText_supplant (h : d.readText p = .ok s) (text : String) :
    ∃ d', d.supplant p (.text text) = .ok d' ∧ d'.readText p = .ok text := by
  obtain ⟨file, hplace, hfile⟩ := readText_eq_ok.mp h
  obtain ⟨hp, hwalk⟩ := walk_of_place hplace
  obtain ⟨place, node, hends, hput⟩ := (arrives_of_walk _ _ _ hwalk).ends hfile
  have hspot : d.spot false p = .ok (.node place) := by
    rw [spot, if_neg hp, hends.unfollowed]
  have hsupplant : d.supplant p (.text text) =
      .ok { d with tree := d.tree.put place (.file (.text text)) } := by
    rw [supplant, hspot]
    dsimp only
    rw [hends.found]
    cases node with
    | dir es => cases hends.isDir
    | file c => rfl
    | link target => rfl
  have hnew := hput (d.tree.put place (.file (.text text)))
    (Tree.shape_put _ hends.found hends.isDir rfl)
  refine ⟨_, hsupplant, readText_eq_ok.mpr ⟨place, ?_, Tree.at?_put _ hends.found⟩⟩
  have horigin : origin { d with tree := d.tree.put place (.file (.text text)) } p = d.origin p :=
    rfl
  rw [Disk.place, spot, if_neg hp, horigin, hnew]

end Disk

end Retouch.Files
