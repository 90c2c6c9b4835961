import Retouch.Proofs.ScriptRuns

/-! The journal of a load and the registry. What the registry holds for a path can
be read off the journal: the last module that began there and has not failed
since. So the registry is a replay of the journal, at every moment of a load. It follows
in which order things can happen: a module begins only where none is registered, and
whoever asks for one that is registered gets its exports at once. -/

namespace Retouch.Script
variable {E : Engine} {h : Host}

/-! ### Replaying a journal -/

/-- What becomes of the module at a path when something happens. -/
def Note.update (path : String) (m : Option E.Module) : Note E → Option E.Module
  | .began q m' => if q = path then some m' else m
  | .failed q => if q = path then none else m
  | _ => m

/-- The module that is registered at a path after all that happened. -/
def standing (path : String) (notes : List (Note E)) : Option E.Module :=
  notes.foldl (Note.update path) none

theorem standing_append (path : String) (notes more : List (Note E)) :
    standing path (notes ++ more) = more.foldl (Note.update path) (standing path notes) :=
  List.foldl_append ..

/-- What happens to a registered module, other than that it fails, leaves one there: the
same one unless it begins. -/
theorem update_some {path : String} {n : Note E} (hf : n ≠ .failed path) (m : E.Module) :
    ∃ m', n.update path (some m) = some m' ∧ ((∀ m, n ≠ .began path m) → m' = m) := by
  cases n with
  | failed q =>
    have hq : ¬ q = path := fun he => hf (he ▸ rfl)
    exact ⟨m, if_neg hq, fun _ => rfl⟩
  | began q e =>
    by_cases hq : q = path
    · subst hq
      exact ⟨e, if_pos rfl, fun h => absurd rfl (h e)⟩
    · exact ⟨m, if_neg hq, fun _ => rfl⟩
  | _ => exact ⟨m, rfl, fun _ => rfl⟩

/-- Where a module has not failed, there is still one: the same unless it began again. -/
theorem standing_of_notMem_failed {path : String} {notes more : List (Note E)} {m : E.Module}
    (h : standing path notes = some m) (hf : .failed path ∉ more) :
    ∃ m', standing path (notes ++ more) = some m' ∧ ((∀ m, .began path m ∉ more) → m' = m) := by
  rw [standing_append, h]
  clear h
  induction more generalizing m with
  | nil => exact ⟨m, rfl, fun _ => rfl⟩
  | cons n more ih =>
    have hn : n ≠ .failed path := fun he => hf (he ▸ List.mem_cons_self)
    obtain ⟨m₁, hm₁, hfirst⟩ := update_some hn m
    obtain ⟨m', hm', hrest⟩ := @ih m₁ fun hmem => hf (List.mem_cons_of_mem n hmem)
    refine ⟨m', by rw [List.foldl_cons, hm₁, hm'], fun hb => ?_⟩
    rw [hrest fun e hmem => hb e (List.mem_cons_of_mem n hmem),
      hfirst fun e he => hb e (he ▸ List.mem_cons_self)]

/-! ### What may happen when -/

/-- What has to have happened before something can, and what happens right after. -/
def Allowed (earlier : List (Note E)) (n : Note E) (later : List (Note E)) : Prop :=
  match n with
  | .asked path => ∀ m, standing path earlier = some m →
      ∃ x, later.head? = some (.answered path m x)
  | .answered path m _ => standing path earlier = some m
  | .began path _ => standing path earlier = none
  | _ => True

/-- A journal in which everything was allowed when it happened. -/
def Sound (journal : List (Note E)) : Prop :=
  ∀ earlier n later, journal = earlier ++ n :: later → Allowed earlier n later

theorem Allowed.more {earlier later : List (Note E)} {n : Note E} (h : Allowed earlier n later)
    (more : List (Note E)) : Allowed earlier n (later ++ more) := by
  cases n with
  | asked path =>
    intro m hm
    obtain ⟨x, hhead⟩ := h m hm
    cases later with
    | nil => cases hhead
    | cons first rest => exact ⟨x, hhead⟩
  | _ => exact h

theorem Sound.append {journal new : List (Note E)} (h : Sound journal)
    (hnew : ∀ earlier n later, new = earlier ++ n :: later →
      Allowed (journal ++ earlier) n later) : Sound (journal ++ new) := by
  intro earlier n later hcut
  rcases List.append_eq_append_iff.mp hcut with ⟨rest, rfl, hrest⟩ | ⟨rest, hjournal, hrest⟩
  · exact hnew rest n later hrest
  · cases rest with
    | nil =>
      rw [List.append_nil] at hjournal
      have hfirst := hnew [] n later hrest.symm
      rwa [List.append_nil, hjournal] at hfirst
    | cons first rest =>
      obtain ⟨rfl, rfl⟩ := List.cons.inj hrest
      exact (h earlier n rest hjournal).more new

/-- One by one, for the notes of a list. -/
theorem forall_cut_cons {P : List (Note E) → Note E → List (Note E) → Prop} {first : Note E}
    {rest : List (Note E)} (hfirst : P [] first rest)
    (hrest : ∀ earlier n later, rest = earlier ++ n :: later → P (first :: earlier) n later) :
    ∀ earlier n later, first :: rest = earlier ++ n :: later → P earlier n later := by
  intro earlier n later hcut
  cases earlier with
  | nil =>
    obtain ⟨rfl, rfl⟩ := List.cons.inj hcut
    exact hfirst
  | cons other earlier =>
    obtain ⟨rfl, hafter⟩ := List.cons.inj hcut
    exact hrest earlier n later hafter

theorem forall_cut_nil {P : List (Note E) → Note E → List (Note E) → Prop} :
    ∀ earlier n later, [] = earlier ++ n :: later → P earlier n later := by
  intro earlier n later hcut
  simp at hcut

/-! ### What follows for modules -/

/-- How modules come and go: a module runs again only after it threw, and until then
everyone who asks gets the same one, also while it is still running. -/
structure Orderly (journal : List (Note E)) : Prop where
  restarted : ∀ {earlier between later path m m'},
    journal = earlier ++ .began path m :: between ++ .began path m' :: later →
    .failed path ∈ between
  shared : ∀ {earlier between later path m x m' y},
    journal = earlier ++ .answered path m x :: between ++ .answered path m' y :: later →
    .failed path ∉ between → m' = m
  unfinished : ∀ {earlier since later path m},
    journal = earlier ++ .began path m :: since ++ .asked path :: later →
    .failed path ∉ since → ∃ x rest, later = .answered path m x :: rest

/-- A module that has not failed does not begin again. -/
theorem Sound.notMem_began {notes more rest : List (Note E)} {path : String} {m : E.Module}
    (h : Sound (notes ++ more ++ rest)) (hm : standing path notes = some m)
    (hf : .failed path ∉ more) : ∀ m', .began path m' ∉ more := by
  intro m' hmem
  obtain ⟨before, after, rfl⟩ := List.append_of_mem hmem
  have hbefore : .failed path ∉ before := fun hb => hf (List.mem_append_left _ hb)
  obtain ⟨m'', hm'', -⟩ := standing_of_notMem_failed hm hbefore
  have hnone : standing path (notes ++ before) = none :=
    h (notes ++ before) (.began path m') (after ++ rest) (by simp)
  rw [hnone] at hm''
  cases hm''

/-- So it is the one that is registered. -/
theorem Sound.standing_eq {notes more rest : List (Note E)} {path : String} {m : E.Module}
    (h : Sound (notes ++ more ++ rest)) (hm : standing path notes = some m)
    (hf : .failed path ∉ more) : standing path (notes ++ more) = some m := by
  obtain ⟨m', hm', hsame⟩ := standing_of_notMem_failed hm hf
  rw [hm', hsame (h.notMem_began hm hf)]

theorem standing_began (path : String) (earlier : List (Note E)) (m : E.Module) :
    standing path (earlier ++ [.began path m]) = some m := by
  simp [standing_append, Note.update]

theorem Sound.orderly {journal : List (Note E)} (h : Sound journal) : Orderly journal where
  restarted := by
    intro earlier between later path m m' hcut
    have hnone : standing path (earlier ++ .began path m :: between) = none := h _ _ _ hcut
    refine Classical.byContradiction fun hf => ?_
    obtain ⟨m'', hm'', -⟩ := standing_of_notMem_failed (standing_began path earlier m) hf
    rw [List.append_assoc, List.singleton_append, hnone] at hm''
    cases hm''
  shared := by
    intro earlier between later path m x m' y hcut hf
    have hm : standing path earlier = some m :=
      h earlier (.answered path m x) (between ++ .answered path m' y :: later)
        (by simpa using hcut)
    have hm' : standing path (earlier ++ .answered path m x :: between) = some m' := h _ _ _ hcut
    have hnoted : standing path (earlier ++ [.answered path m x]) = some m := by
      rw [standing_append, hm]
      rfl
    have hcut' : journal =
        earlier ++ [.answered path m x] ++ between ++ .answered path m' y :: later := by
      simpa using hcut
    have hkept := (hcut' ▸ h).standing_eq hnoted hf
    rw [List.append_assoc, List.singleton_append, hm'] at hkept
    exact Option.some.inj hkept
  unfinished := by
    intro earlier since later path m hcut hf
    have hbegan := standing_began path earlier m
    have hcut' : journal = earlier ++ [.began path m] ++ since ++ .asked path :: later := by
      simpa using hcut
    have hm := (hcut' ▸ h).standing_eq hbegan hf
    rw [List.append_assoc, List.singleton_append] at hm
    obtain ⟨x, hnext⟩ := h (earlier ++ .began path m :: since) (.asked path) later hcut m hm
    obtain ⟨rest, hrest⟩ := List.head?_eq_some_iff.mp hnext
    exact ⟨x, rest, hrest⟩

/-! ### The registry -/

namespace Realm
variable {r : Realm E}

@[simp] theorem journal_noteRead (p : OsString) : (r.noteRead p).journal = r.journal := by
  unfold noteRead
  split <;> rfl

theorem journal_reading (path : String) :
    (r.reading path).journal = r.journal ++ [.asked path, .opened path] := by
  simp [reading, opening, note]

theorem journal_starting (path : String) (m : E.Module) :
    (r.starting path m).journal = r.journal ++ [.asked path, .opened path, .began path m] := by
  simp [starting, note, register, journal_reading]

end Realm

/-- The registry is what the journal tells, and the journal is sound. The modules that run
are registered, each once. No paths are named but those that modules can have. -/
structure Accounted (K : String → Prop) (fs : List (Frame E)) (r : Realm E) : Prop where
  registry : ∀ path, r.module? path = standing path r.journal
  sound : Sound r.journal
  running : ∀ f ∈ fs, r.module? f.path = some f.module
  distinct : fs.Pairwise fun f g => f.path ≠ g.path
  known : ∀ path m, .began path m ∈ r.journal → K path

namespace Accounted
variable {K : String → Prop} {fs : List (Frame E)} {r : Realm E}

/-- More is written down, and the registry follows. -/
theorem extend (hr : Accounted K fs r) {fs' : List (Frame E)} {r' : Realm E}
    (new : List (Note E)) (hjournal : r'.journal = r.journal ++ new)
    (hregistry : ∀ path, r'.module? path =
      new.foldl (Note.update path) (r.module? path))
    (hallowed : ∀ earlier n later, new = earlier ++ n :: later →
      Allowed (r.journal ++ earlier) n later)
    (hrunning : ∀ f ∈ fs', r'.module? f.path = some f.module)
    (hdistinct : fs'.Pairwise fun f g => f.path ≠ g.path)
    (hknown : ∀ path m, .began path m ∈ new → K path) : Accounted K fs' r' where
  registry := by
    intro path
    rw [hjournal, standing_append, ← hr.registry path]
    exact hregistry path
  sound := by
    rw [hjournal]
    exact hr.sound.append hallowed
  running := hrunning
  distinct := hdistinct
  known := by
    intro path m hmem
    rw [hjournal] at hmem
    rcases List.mem_append.mp hmem with hmem | hmem
    · exact hr.known path m hmem
    · exact hknown path m hmem

/-- Nothing runs any more. -/
theorem idle (hr : Accounted K fs r) : Accounted K [] r where
  registry := hr.registry
  sound := hr.sound
  running _ hf := absurd hf List.not_mem_nil
  distinct := .nil
  known := hr.known

theorem raised (hr : Accounted K fs r) : Accounted K fs (r.note .raised) :=
  hr.extend [.raised] rfl (fun _ => rfl) (forall_cut_cons trivial forall_cut_nil)
    hr.running hr.distinct fun _ _ hmem => by simp at hmem

/-- A file is opened where no module is registered. -/
theorem opening (hr : Accounted K fs r) {path : String} (hnone : r.module? path = none)
    {r' : Realm E} (hmodules : ∀ q, r'.module? q = r.module? q)
    (hjournal : r'.journal = r.journal ++ [.asked path, .opened path]) : Accounted K fs r' := by
  refine hr.extend _ hjournal hmodules (forall_cut_cons ?_ (forall_cut_cons trivial forall_cut_nil))
    (fun f hf => (hmodules _).trans (hr.running f hf)) hr.distinct (fun q m hmem => ?_)
  · intro m hm
    rw [List.append_nil, ← hr.registry, hnone] at hm
    cases hm
  · simp at hmem

end Accounted

end Retouch.Script
