import Retouch.Proofs.LoweringRun
import Retouch.Proofs.ModuleLowering
import Retouch.Proofs.TokenPositions

/-! Which text lowering touches. The rewritten statements stand in order and apart,
each begins with an import or export keyword outside braces, and what lies between
them is kept. Braces inside a rewritten statement do not count, and neither do
closing braces too many. Nothing here asks the source to be well formed. -/

namespace Retouch.Lower
open Syntax Text

/-! ### Cuts of a text -/

/-- A byte offset that lies between two characters of a text. -/
def Cuts (text : List Char) (n : Nat) : Prop :=
  ∃ front back, text = front ++ back ∧ byteLength front = n

theorem eq_nil_of_byteLength {cs : List Char} (h : byteLength cs = 0) : cs = [] := by
  cases cs with
  | nil => rfl
  | cons c cs =>
    have := Char.utf8Size_pos c
    rw [byteLength_cons] at h
    omega

/-- A cut behind the front part of a text is a cut of what follows that part. -/
theorem Cuts.behind {front back : List Char} {n : Nat} (h : Cuts (front ++ back) n)
    (hn : byteLength front ≤ n) :
    ∃ kept rest, back = kept ++ rest ∧ n = byteLength front + byteLength kept := by
  obtain ⟨front', back', htext, rfl⟩ := h
  rcases List.append_eq_append_iff.mp htext with ⟨kept, rfl, rfl⟩ | ⟨more, rfl, rfl⟩
  · exact ⟨kept, back', rfl, by rw [byteLength_append]⟩
  · rw [byteLength_append] at hn
    obtain rfl : more = [] := eq_nil_of_byteLength (by omega)
    exact ⟨[], back, rfl, by simp⟩

/-- The text that begins at offset `n`, cut into what is kept and what is replaced:
the stretch of every edit is there, and begins no earlier than the one before it ends. -/
inductive Replaced : Nat → List Char → List Edit → List Char → Prop
  | rest {n : Nat} {text : List Char} : Replaced n text [] text
  | edit {n : Nat} {kept old text out : List Char} {e : Edit} {es : List Edit} :
      e.start = n + byteLength kept → e.stop = e.start + byteLength old →
      Replaced e.stop text es out →
      Replaced n (kept ++ (old ++ text)) (e :: es) (kept ++ (e.text.toList ++ out))

theorem Replaced.splice {n : Nat} {text out : List Char} {es : List Edit}
    (h : Replaced n text es out) : Lower.splice n text es = out := by
  induction h with
  | rest => rfl
  | @edit n kept old text out e es hstart hstop _ ih =>
    have htake : e.start - n = byteLength kept := by omega
    have hdrop : e.stop - n = byteLength (kept ++ old) := by
      rw [byteLength_append]
      omega
    rw [Lower.splice, htake, hdrop, takeBytes_byteLength, ← List.append_assoc kept old,
      dropBytes_byteLength, ih, List.append_assoc]

/-- Edits in order and apart, whose ends are cuts of the whole text, replace what they
say. -/
theorem exists_replaced {front text : List Char} {es : List Edit}
    (hcuts : ∀ e ∈ es, Cuts (front ++ text) e.start ∧ Cuts (front ++ text) e.stop)
    (hle : ∀ e ∈ es, byteLength front ≤ e.start ∧ e.start ≤ e.stop)
    (hapart : es.Pairwise fun a b => a.stop ≤ b.start) :
    ∃ out, Replaced (byteLength front) text es out := by
  induction es generalizing front text with
  | nil => exact ⟨text, .rest⟩
  | cons e es ih =>
    obtain ⟨hfirst, hrest⟩ := List.pairwise_cons.mp hapart
    obtain ⟨hstart, hstop⟩ := hle e (by simp)
    obtain ⟨kept, behind, rfl, hkept⟩ := (hcuts e (by simp)).1.behind hstart
    have hcut := (hcuts e (by simp)).2
    rw [← List.append_assoc] at hcut
    obtain ⟨old, text, rfl, hold⟩ := hcut.behind (by rw [byteLength_append]; omega)
    rw [byteLength_append] at hold
    -- the text behind the edit, after all that stands before it
    have hoffset : byteLength (front ++ kept ++ old) = e.stop := by
      rw [byteLength_append, byteLength_append]
      omega
    have hwhole : front ++ (kept ++ (old ++ text)) = (front ++ kept ++ old) ++ text := by simp
    obtain ⟨out, hout⟩ := @ih (front ++ kept ++ old) text
      (fun e' he' => hwhole ▸ hcuts e' (by simp [he']))
      (fun e' he' => ⟨by rw [hoffset]; exact hfirst e' he', (hle e' (by simp [he'])).2⟩) hrest
    rw [hoffset] at hout
    exact ⟨_, .edit hkept (by omega) hout⟩

end Retouch.Lower

namespace Retouch.Code
open Syntax Text Lower

variable {c : Code} {k depth count : Nat}

/-! ### Tokens in their text -/

/-- Tokens that are stretches of a text, in order and apart. -/
structure StandsIn (c : Code) (text : List Char) : Prop where
  cuts : ∀ {i : Nat} {t : Token}, c.tokens[i]? = some t →
    Cuts text t.start.offset ∧ Cuts text t.stop.offset
  nonempty : ∀ {i : Nat} {t : Token}, c.tokens[i]? = some t → t.start.offset < t.stop.offset
  apart : ∀ {i j : Nat} {t u : Token}, c.tokens[i]? = some t → c.tokens[j]? = some u → i < j →
    t.stop.offset ≤ u.start.offset

theorem le_start_of_placed {p : Place} {ls : List Lexeme} {t : Token} (h : t ∈ placed p ls) :
    p.offset ≤ t.start.offset := by
  induction ls generalizing p with
  | nil => simp [placed] at h
  | cons l ls ih =>
    simp only [placed, List.mem_cons] at h
    rcases h with rfl | h
    · exact Nat.le_refl _
    · have hle := ih h
      rw [Place.past_offset] at hle
      omega

theorem placed_apart (p : Place) (ls : List Lexeme) :
    (placed p ls).Pairwise fun t u => t.stop.offset ≤ u.start.offset := by
  induction ls generalizing p with
  | nil => exact .nil
  | cons l ls ih => exact .cons (fun u hu => le_start_of_placed hu) (ih _)

theorem mem_of_significant {ts : List Token} {i : Nat} {t : Token}
    (h : (Code.ofTokens (significant ts)).tokens[i]? = some t) : t ∈ ts := by
  rw [Code.ofTokens, List.getElem?_toArray] at h
  exact (List.mem_filter.mp (List.mem_of_getElem? h)).1

theorem standsIn_tokenize (d : Dialect) (source : String) :
    (Code.ofTokens (significant (tokenize d source))).StandsIn source.toList where
  cuts {i t} h := by
    have hm : t ∈ tokenize d source := mem_of_significant h
    obtain ⟨front, back, hsource, hstart, hstop⟩ := tokenize_ends hm
    refine ⟨⟨front, t.text.toList ++ back, by rw [hsource, List.append_assoc], ?_⟩,
      ⟨front ++ t.text.toList, back, hsource, ?_⟩⟩
    · rw [hstart, Place.past_offset, Place.origin, Nat.zero_add]
    · rw [hstop, Place.past_offset, Place.origin, Nat.zero_add]
  nonempty {i t} h := by
    have hm : t ∈ tokenize d source := mem_of_significant h
    obtain ⟨front, back, -, hstart, hstop⟩ := tokenize_ends hm
    have hpos : byteLength t.text.toList ≠ 0 := by
      intro h0
      have hnil := eq_nil_of_byteLength h0
      exact tokenize_nonempty d source t hm (String.toList_inj.mp hnil)
    rw [hstart, hstop, Place.past_offset, Place.past_offset, byteLength_append]
    omega
  apart {i j t u} ht hu hij := by
    have hpair : (significant (tokenize d source)).Pairwise
        fun t u => t.stop.offset ≤ u.start.offset :=
      (placed_apart .origin (lexemes d source)).filter _
    rw [Code.ofTokens, List.getElem?_toArray] at ht hu
    obtain ⟨hi, rfl⟩ := List.getElem?_eq_some_iff.mp ht
    obtain ⟨hj, rfl⟩ := List.getElem?_eq_some_iff.mp hu
    exact List.pairwise_iff_getElem.mp hpair i j hi hj hij

section
variable {text : List Char} {first next first' next' : Nat} {e e' : Edit}

theorem Covers.cuts (h : c.Covers first next e) (hc : c.StandsIn text) :
    Cuts text e.start ∧ Cuts text e.stop := by
  obtain ⟨a, ha, hstart⟩ := h.start
  rw [hstart]
  refine ⟨(hc.cuts ha).1, ?_⟩
  rcases h.stop with ⟨-, b, hb, hstop⟩ | ⟨-, b, hb, hstop⟩
  · rw [hstop]
    exact (hc.cuts hb).2
  · rw [hstop]
    exact (hc.cuts hb).1

/-- No edit is empty or turned round. -/
theorem Covers.start_lt_stop (h : c.Covers first next e) (hc : c.StandsIn text) :
    e.start < e.stop := by
  obtain ⟨a, ha, hstart⟩ := h.start
  have hlt := hc.nonempty ha
  rcases h.stop with ⟨hle, b, hb, hstop⟩ | ⟨rfl, b, hb, hstop⟩
  · rcases Nat.lt_or_eq_of_le (show first ≤ next - 1 by omega) with hlast | hlast
    · have happart := hc.apart ha hb hlast
      have hlt' := hc.nonempty hb
      omega
    · obtain rfl : a = b := Option.some.inj (ha.symm.trans (hlast ▸ hb))
      omega
  · have happart := hc.apart ha hb (Nat.lt_succ_self first)
    omega

/-- An edit ends before the statement after it begins. -/
theorem Covers.stop_le_start (h : c.Covers first next e) (h' : c.Covers first' next' e')
    (hc : c.StandsIn text) (hle : next ≤ first') : e.stop ≤ e'.start := by
  obtain ⟨a, ha, hstart⟩ := h'.start
  rcases h.stop with ⟨hlt, b, hb, hstop⟩ | ⟨-, b, hb, hstop⟩
  · have happart := hc.apart hb ha (by omega)
    omega
  · rcases Nat.lt_or_eq_of_le hle with hlt | rfl
    · have happart := hc.apart hb ha hlt
      have hlt' := hc.nonempty hb
      omega
    · obtain rfl : a = b := Option.some.inj (ha.symm.trans hb)
      omega

end

/-! ### Brace depth outside the rewritten statements -/

/-- Whether token `k` belongs to a rewritten statement. -/
def isRewritten (rs : List Rewrite) (k : Nat) : Bool := rs.any fun r => r.first ≤ k && k < r.next

/-- The brace depth before token `k`, counted over the tokens that belong to no
rewritten statement. -/
def depthBefore (c : Code) (rs : List Rewrite) : Nat → Nat
  | 0 => 0
  | k + 1 =>
    if isRewritten rs k then c.depthBefore rs k else c.depthAfter (c.depthBefore rs k) k

/-- Statements further right do not change the depth. -/
theorem depthBefore_append {rs : List Rewrite} {r : Rewrite} (h : k ≤ r.first) :
    c.depthBefore (rs ++ [r]) k = c.depthBefore rs k := by
  induction k with
  | zero => rfl
  | succ k ih =>
    have hr : isRewritten (rs ++ [r]) k = isRewritten rs k := by
      simp [isRewritten, show ¬ r.first ≤ k by omega]
    rw [depthBefore, depthBefore, hr, ih (by omega)]

/-- The tokens of a rewritten statement do not count. -/
theorem depthBefore_skip {rs : List Rewrite} {r : Rewrite} {n : Nat} (h : r ∈ rs)
    (hn : r.first + n ≤ r.next) :
    c.depthBefore rs (r.first + n) = c.depthBefore rs r.first := by
  induction n with
  | zero => rfl
  | succ n ih =>
    have hr : isRewritten rs (r.first + n) = true :=
      List.any_eq_true.mpr ⟨r, h, by simp; omega⟩
    rw [← Nat.add_assoc, depthBefore, hr, if_pos rfl, ih (by omega)]

theorem depthBefore_keep {rs : List Rewrite} (h : ∀ r ∈ rs, r.next ≤ k) :
    c.depthBefore rs (k + 1) = c.depthAfter (c.depthBefore rs k) k := by
  have hr : isRewritten rs k = false := by
    refine List.any_eq_false.mpr fun r hr => ?_
    have hle := h r hr
    simp
    omega
  rw [depthBefore, hr]
  rfl

theorem depthAfter_keyword (h : c.kind? k = some .keyword) : c.depthAfter depth k = depth := by
  simp [depthAfter, punct, h]

/-! ### What every state of the loop has -/

/-- A statement that lowering may rewrite: a keyword outside braces and no member of
anything, and the tokens that the edit speaks of. -/
structure Tops (c : Code) (rs : List Rewrite) (r : Rewrite) : Prop where
  keyword : ∃ t, c.tokens[r.first]? = some t ∧ t.kind = .keyword ∧ t.text ∈ ["import", "export"]
  member : 0 < r.first → c.text (r.first - 1) ∉ [".", "?."]
  outside : c.depthBefore rs r.first = 0
  covers : c.Covers r.first r.next r.edit

structure Orderly (c : Code) (p : Progress) : Prop where
  depth : p.depth = c.depthBefore p.rewrites p.next
  deferred : p.rewrites = [] → p.deferred = []
  lines : ∀ l ∈ p.deferred, IsDeferred l
  tops : ∀ r ∈ p.rewrites, c.Tops p.rewrites r
  bounds : ∀ r ∈ p.rewrites, r.first < r.next ∧ r.next ≤ p.next
  apart : p.rewrites.Pairwise fun a b => a.next ≤ b.first

theorem orderly_start (c : Code) : c.Orderly .start := by
  refine ⟨rfl, fun _ => rfl, ?_, ?_, ?_, .nil⟩
  · intro l hl
    cases hl
  · intro r hr
    cases hr
  · intro r hr
    cases hr

theorem tops_of_topLevel {rs : List Rewrite} {next : Nat} {e : Edit}
    (htop : c.topLevel depth k = true) (htext : c.text k ∈ ["import", "export"])
    (hdepth : c.depthBefore rs k = depth) (he : c.Covers k next e) : c.Tops rs ⟨k, next, e⟩ := by
  simp only [topLevel, Bool.and_eq_true, decide_eq_true_eq] at htop
  obtain ⟨⟨rfl, hkind⟩, hmember⟩ := htop
  obtain ⟨t, ht⟩ := exists_token (lt_size_of_kind? hkind)
  refine ⟨⟨t, ht, ?_, ?_⟩, ?_, hdepth, he⟩
  · simpa [kind?, ht] using hkind
  · simpa [text, ht] using htext
  · intro hpos hdot
    simp [hdot, show 0 < k from hpos] at hmember

theorem Tops.append {rs : List Rewrite} {r r' : Rewrite} (h : c.Tops rs r)
    (hle : r.first ≤ r'.first) : c.Tops (rs ++ [r']) r :=
  ⟨h.keyword, h.member, by rw [depthBefore_append hle]; exact h.outside, h.covers⟩

/-- A turn that only passes a token. -/
theorem Orderly.keep {p : Progress} {s : Step p.next} (h : c.Orderly p) (hedit : s.edit = none)
    (hdeferred : s.deferred = []) (hnext : s.next = p.next + 1) : c.Orderly (c.afterStep p s) := by
  have hrs : (c.afterStep p s).rewrites = p.rewrites := by
    simp [Code.afterStep, Step.rewrites, hedit]
  have hlines : (c.afterStep p s).deferred = p.deferred := by
    simp [Code.afterStep, hdeferred]
  have hlast : (c.afterStep p s).next = p.next + 1 := hnext
  refine ⟨?_, ?_, ?_, ?_, ?_, ?_⟩
  · rw [hrs, hlast, depthBefore_keep fun r hr => (h.bounds r hr).2, ← h.depth]
    rfl
  · rw [hrs, hlines]
    exact h.deferred
  · rw [hlines]
    exact h.lines
  · rw [hrs]
    exact h.tops
  · intro r hr
    rw [hrs] at hr
    have := h.bounds r hr
    omega
  · rw [hrs]
    exact h.apart

/-- A turn that rewrites a statement. -/
theorem Orderly.rewrite {p : Progress} {s : Step p.next} {e : Edit} (h : c.Orderly p)
    (htop : c.topLevel (c.depthAfter p.depth p.next) p.next = true)
    (htext : c.text p.next ∈ ["import", "export"]) (hedit : s.edit = some e)
    (he : c.Covers p.next s.next e) (hlines : ∀ l ∈ s.deferred, IsDeferred l) :
    c.Orderly (c.afterStep p s) := by
  have hkind : c.kind? p.next = some .keyword := by
    simp only [topLevel, Bool.and_eq_true, decide_eq_true_eq] at htop
    exact htop.1.2
  have hdepth : c.depthAfter p.depth p.next = p.depth := depthAfter_keyword hkind
  rw [hdepth] at htop
  have hrs : (c.afterStep p s).rewrites = p.rewrites ++ [⟨p.next, s.next, e⟩] := by
    simp [Code.afterStep, Step.rewrites, hedit]
  have hnext : (c.afterStep p s).next = s.next := rfl
  have hlt := s.lt_next
  -- the new statement begins behind all others, and at the depth the loop has counted
  have hbefore : c.depthBefore (p.rewrites ++ [⟨p.next, s.next, e⟩]) p.next = p.depth := by
    rw [depthBefore_append (Nat.le_refl _), ← h.depth]
  refine ⟨?_, ?_, ?_, ?_, ?_, ?_⟩
  · have hskip := @depthBefore_skip c (p.rewrites ++ [⟨p.next, s.next, e⟩])
      ⟨p.next, s.next, e⟩ (s.next - p.next) (by simp) (by dsimp only; omega)
    dsimp only at hskip
    rw [show p.next + (s.next - p.next) = s.next by omega, hbefore] at hskip
    rw [hrs, hnext, hskip]
    exact hdepth
  · intro hnil
    rw [hrs] at hnil
    simp at hnil
  · intro l hl
    rcases List.mem_append.mp hl with hl | hl
    · exact h.lines l hl
    · exact hlines l hl
  · intro r hr
    rw [hrs] at hr ⊢
    rcases List.mem_append.mp hr with hr | hr
    · have hb := h.bounds r hr
      exact (h.tops r hr).append (by dsimp only; omega)
    · obtain rfl := List.mem_singleton.mp hr
      exact tops_of_topLevel htop htext hbefore he
  · intro r hr
    rw [hrs] at hr
    rw [hnext]
    rcases List.mem_append.mp hr with hr | hr
    · have hb := h.bounds r hr
      omega
    · obtain rfl := List.mem_singleton.mp hr
      exact ⟨hlt, Nat.le_refl _⟩
  · rw [hrs]
    refine List.pairwise_append.mpr ⟨h.apart, List.pairwise_singleton _ _, ?_⟩
    intro a ha b hb
    obtain rfl := List.mem_singleton.mp hb
    exact (h.bounds a ha).2

/-- What one turn preserves. -/
theorem Orderly.afterStep {p : Progress} {s : Step p.next} (h : c.Orderly p)
    (hs : c.turn p = .ok s) : c.Orderly (c.afterStep p s) := by
  cases stepAt_turns c (c.depthAfter p.depth p.next) p.count p.next with
  | keeps hk =>
    obtain rfl : Step.keep p.next = s := Except.ok.inj (hk.symm.trans hs)
    exact h.keep rfl rfl rfl
  | fails he => cases he.symm.trans hs
  | @rewrites s' hs' hsound htop htext =>
    obtain rfl : s' = s := Except.ok.inj (hs'.symm.trans hs)
    rcases hsound.effect with ⟨hedit, hdeferred, hnext⟩ | ⟨e, hedit, he⟩
    · exact h.keep hedit hdeferred hnext
    · exact h.rewrite htop htext hedit he hsound.lines

/-- What every run preserves. -/
theorem Reached.orderly {p : Progress} (h : c.Reached p) : c.Orderly p := by
  induction h with
  | start => exact orderly_start c
  | turn _ _ hs ih => exact ih.afterStep hs

theorem Orderly.edits_apart {p : Progress} (h : c.Orderly p) {text : List Char}
    (hc : c.StandsIn text) : p.rewrites.Pairwise fun a b => a.edit.stop ≤ b.edit.start := by
  refine h.apart.imp_of_mem fun {a b} ha hb hle => ?_
  exact (h.tops a ha).covers.stop_le_start (h.tops b hb).covers hc hle

/-- The edits of a state can be carried out as they are. -/
theorem Orderly.replaced {p : Progress} (h : c.Orderly p) {text : List Char}
    (hc : c.StandsIn text) : ∃ out, Replaced 0 text p.edits out := by
  have hcovers : ∀ e ∈ p.edits, Cuts text e.start ∧ Cuts text e.stop ∧ e.start ≤ e.stop := by
    intro e he
    obtain ⟨r, hr, rfl⟩ := List.mem_map.mp he
    have hcov := (h.tops r hr).covers
    exact ⟨(hcov.cuts hc).1, (hcov.cuts hc).2, Nat.le_of_lt (hcov.start_lt_stop hc)⟩
  exact @exists_replaced [] text p.edits (fun e he => ⟨(hcovers e he).1, (hcovers e he).2.1⟩)
    (fun e he => ⟨Nat.zero_le _, (hcovers e he).2.2⟩)
    (List.pairwise_map.mpr (h.edits_apart hc))

end Retouch.Code

namespace Retouch.Lower
open Syntax Text Code

/-- The code that lowering looks at. -/
def codeOf (d : Dialect) (source : String) : Code :=
  Code.ofTokens (significant (tokenize d source))

theorem Cuts.le {text : List Char} {n : Nat} (h : Cuts text n) : n ≤ byteLength text := by
  obtain ⟨front, back, rfl, rfl⟩ := h
  rw [byteLength_append]
  exact Nat.le_add_right _ _

/-- A lowered program as its source with some statements replaced: the statements in
which the main loop has ended, all of them outside braces, in order and apart, and
the deferred lines behind the text. -/
structure Rewritten (d : Dialect) (source : String) (lowered : Lowered) (p : Progress)
    (out : List Char) : Prop where
  reached : (codeOf d source).Reached p
  ended : (codeOf d source).size ≤ p.next
  tops : ∀ r ∈ p.rewrites, (codeOf d source).Tops p.rewrites r
  inside : ∀ r ∈ p.rewrites, r.edit.start < r.edit.stop ∧ r.edit.stop ≤ source.utf8ByteSize
  apart : p.rewrites.Pairwise fun a b => a.next ≤ b.first ∧ a.edit.stop ≤ b.edit.start
  replaced : Replaced 0 source.toList p.edits out
  lines : ∀ l ∈ p.deferred, IsDeferred l
  code : lowered.code = withLines (String.ofList out) p.deferred
  isModule : lowered.isModule = true ↔ p.rewrites ≠ []
  untouched : lowered.isModule = false → lowered.code = source

/-- The outcome of lowering, by how the main loop ends. -/
theorem lower_cases (d : Dialect) (source : String) :
    (∃ p, (codeOf d source).Reached p ∧ (codeOf d source).size ≤ p.next ∧
      lower d source = .ok ⟨String.ofList (withTrailer (splice 0 source.toList p.edits) p.deferred),
        !p.edits.isEmpty || !p.deferred.isEmpty⟩) ∨
    ∃ p e, (codeOf d source).Reached p ∧ p.next < (codeOf d source).size ∧
      (codeOf d source).turn p = .error e ∧ lower d source = .error e := by
  obtain ⟨p, hp, hend⟩ := Reached.start (c := codeOf d source) |>.ends
  rcases hend with hend | ⟨hlt, e, he⟩
  · refine .inl ⟨p, hp, hend, ?_⟩
    have hrun := hp.lowerFrom_end hend
    rw [codeOf] at hrun
    rw [lower, hrun]
  · refine .inr ⟨p, e, hp, hlt, he, ?_⟩
    have hrun := hp.lowerFrom_error hlt he
    rw [codeOf] at hrun
    rw [lower, hrun]

theorem lower_rewritten {d : Dialect} {source : String} {lowered : Lowered}
    (h : lower d source = .ok lowered) : ∃ p out, Rewritten d source lowered p out := by
  have hc : (codeOf d source).StandsIn source.toList := standsIn_tokenize d source
  rcases lower_cases d source with ⟨p, hp, hend, hok⟩ | ⟨p, e, -, -, -, herror⟩
  · have horderly := hp.orderly
    obtain ⟨out, hout⟩ := horderly.replaced hc
    have hlowered : lowered = ⟨withLines (String.ofList out) p.deferred,
        !p.edits.isEmpty || !p.deferred.isEmpty⟩ := by
      rw [← Except.ok.inj (hok.symm.trans h), hout.splice, ← ofList_withTrailer,
        String.toList_ofList]
    have hmodule : lowered.isModule = true ↔ p.rewrites ≠ [] := by
      rw [hlowered]
      cases hrs : p.rewrites with
      | nil => simp [Progress.edits, hrs, horderly.deferred hrs]
      | cons r rs => simp [Progress.edits, hrs]
    refine ⟨p, out, hp, hend, horderly.tops, ?_, ?_, hout, horderly.lines, by rw [hlowered],
      hmodule, ?_⟩
    · intro r hr
      have hcov := (horderly.tops r hr).covers
      refine ⟨hcov.start_lt_stop hc, ?_⟩
      rw [← byteLength_toList]
      exact (hcov.cuts hc).2.le
    · exact horderly.apart.and (horderly.edits_apart hc)
    · intro hno
      have hnil : p.rewrites = [] := by
        refine Decidable.not_not.mp fun hne => ?_
        rw [hmodule.mpr hne] at hno
        cases hno
      have hkept : source.toList = out := by
        rw [← hout.splice, Progress.edits, hnil, List.map_nil, splice_nil]
      rw [hlowered, horderly.deferred hnil, withLines, if_pos rfl, ← hkept, String.ofList_toList]
  · cases herror.symm.trans h

/-- An import inside braces, a closing brace too many, an export without a name, and
a list of names that is never closed and in which an import stands. -/
def brokenModule : String :=
  "\x7b import \"a\"; \x7d\x7d export async f\nexport \x7bx as y, import z from 'é'"

def brokenLowered : Lowered :=
  ⟨"\x7b import \"a\"; \x7d\x7d async f\n" ++
    "x as y, const __import0 = require('é'), z = __codemod_importDefault(__import0)\n" ++
    "module.exports.export = export;\n", true⟩

theorem lower_rewritten_broken :
    lower .ts brokenModule = .ok brokenLowered ∧
      ∃ p out, Rewritten .ts brokenModule brokenLowered p out := by
  have h : lower .ts brokenModule = .ok brokenLowered := by decide +kernel
  exact ⟨h, lower_rewritten h⟩

/-! ### When lowering fails -/

/-- Lowering fails exactly when the main loop comes to an export that is cut off. All
tokens of all edits that the loop makes on its way are there, and so are the
stretches of text that the edits keep and replace. -/
theorem lower_fails_iff (d : Dialect) (source : String) :
    (lower d source = .error .cutShort ↔
      ∃ p, (codeOf d source).Reached p ∧ (codeOf d source).ExportsAt p.depth p.next ∧
        (codeOf d source).CutShort p.next) ∧
    ∀ p, (codeOf d source).Reached p →
      (∀ r ∈ p.rewrites, (codeOf d source).Covers r.first r.next r.edit) ∧
      ∃ out, Replaced 0 source.toList p.edits out := by
  have hdepth {p : Progress} {depth : Nat} (h : (codeOf d source).ExportsAt depth p.next) :
      (codeOf d source).depthAfter p.depth p.next = p.depth := by
    have htop := h.1
    simp only [topLevel, Bool.and_eq_true, decide_eq_true_eq] at htop
    exact depthAfter_keyword htop.1.2
  refine ⟨⟨fun h => ?_, ?_⟩, fun p hp => ⟨fun r hr => (hp.orderly.tops r hr).covers, ?_⟩⟩
  · rcases lower_cases d source with ⟨p, -, -, hok⟩ | ⟨p, e, hp, -, he, -⟩
    · cases hok.symm.trans h
    · obtain ⟨hexport, hcut⟩ := stepAt_error_iff.mp he
      rw [hdepth hexport] at hexport
      exact ⟨p, hp, hexport, hcut⟩
  · rintro ⟨p, hp, hexport, hcut⟩
    have herror : (codeOf d source).turn p = .error .cutShort := by
      refine stepAt_error_iff.mpr ⟨?_, hcut⟩
      rwa [hdepth hexport]
    have hrun := hp.lowerFrom_error (lt_size_of_topLevel hexport.1) herror
    rw [codeOf] at hrun
    rw [lower, hrun]
  · exact hp.orderly.replaced (standsIn_tokenize d source)

example : lower .ts "export * as x from 'm'; export \x7bfrom" = .error .cutShort := by
  decide +kernel

end Retouch.Lower
