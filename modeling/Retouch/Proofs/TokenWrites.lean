import Mathlib.Data.List.Infix
import Retouch.Proofs.ToolkitRuns

/-! What is written to the tokens of a document. What a token prints depends on the writes
that reached it. What an operation writes to a token is told by the collection it is
applied to and by what the functions answer that it calls back. -/

namespace Retouch.Toolkit
open Syntax
variable {M : Type}

/-! ### What one token prints -/

/-- The writes that reached a token. -/
def reaching (i : Nat) (ws : List (Nat × Write M)) : List (Write M) :=
  (ws.filter (·.1 = i)).map (·.2)

def Write.replacement? : Write M → Option (Thing M)
  | replaced t => some t
  | assigned .. => none

/-- The replacement that was stored last. -/
def lastReplacement (us : List (Write M)) : Option (Thing M) :=
  (us.filterMap Write.replacement?).getLast?

def Node.written (n : Node) : Write M → Node
  | .replaced _ => n
  | .assigned key v => n.put key v

/-- The node of a token after the assignments among some writes. -/
def currentNode (t : Token) (us : List (Write M)) : Node :=
  us.foldl Node.written (Node.ofToken t)

/-- Whether a node still says what its token says. Its type as it is now decides
whether it says it by name or by value. -/
def Node.stillSays (n : Node) (t : Token) : Bool :=
  if hasName (n.get "type") then (n.get "name").same (.text t.text)
  else (n.get "value").same (tokenValue t.kind t.text)

/-- What a token prints after the writes that reached it. -/
def printedToken (s : Scene M) (t : Token) (us : List (Write M)) : Except Fault Wide :=
  match lastReplacement us with
  | some r => r.render s
  | none =>
    if (currentNode t us).stillSays t then .ok (.text t.text)
    else renderRecord (currentNode t us).get

/-- A numeric literal that has no value. -/
def isVoidNumber (t : Token) : Bool := t.kind = .number && numberValue t.text = .nan

theorem write_eq (e : Entry M) (u : Write M) :
    e.write u = ⟨e.token, e.node.written u, u.replacement?.or e.replacement⟩ := by
  cases u <;> rfl

/-- Writes one after the other: the node takes every assignment, and the last
replacement stays. -/
theorem foldl_write (us : List (Write M)) (e : Entry M) :
    us.foldl Entry.write e =
      ⟨e.token, us.foldl Node.written e.node, (lastReplacement us).or e.replacement⟩ := by
  induction us generalizing e with
  | nil => rfl
  | cons u us ih =>
    rw [List.foldl_cons, ih, write_eq]
    simp only [List.foldl_cons, Entry.mk.injEq, true_and]
    unfold lastReplacement
    cases u with
    | assigned key v => rfl
    | replaced r =>
      simp only [Write.replacement?, List.filterMap_cons, List.getLast?_cons]
      cases (us.filterMap Write.replacement?).getLast? <;> rfl

theorem print_writes (s : Scene M) (t : Token) (us : List (Write M)) :
    (us.foldl Entry.write (.ofToken t)).print s = printedToken s t us := by
  rw [foldl_write]
  unfold Entry.print printedToken
  simp only [Entry.ofToken, Option.or_none, currentNode]
  cases lastReplacement us <;> rfl

/-! ### Tokens that nothing reached -/

theorem ofToken_type (t : Token) : (Node.ofToken t).get "type" = .text (nodeType t.kind) := rfl

theorem ofToken_name {t : Token} (h : hasName (.text (nodeType t.kind)) = true) :
    (Node.ofToken t).get "name" = .text t.text := by
  simp [Node.get, Node.read?, Node.ofToken, Value.lookup?, h, Member.value?]

theorem ofToken_value {t : Token} (h : hasName (.text (nodeType t.kind)) = false) :
    (Node.ofToken t).get "value" = tokenValue t.kind t.text := by
  simp [Node.get, Node.read?, Node.ofToken, Value.lookup?, h, Member.value?]

theorem stringValue_same (text : String) : (stringValue text).same (stringValue text) = true := by
  unfold stringValue
  split
  · simp [Value.same]
  · split
    · simp [Value.same]
    · cases Wide.ofUnits _ <;> simp [Value.ofWide, Value.same]

theorem number_same_self {n : Number} : n.same n = true ↔ n ≠ .nan := by
  cases n <;> simp [Number.same]

theorem tokenValue_same (t : Token) :
    (tokenValue t.kind t.text).same (tokenValue t.kind t.text) = !isVoidNumber t := by
  unfold tokenValue isVoidNumber
  cases t.kind with
  | string => simpa using stringValue_same t.text
  | number =>
    by_cases h : numberValue t.text = .nan
    · simp [Value.same, h, Number.same]
    · simp [Value.same, h, number_same_self.mpr h]
  | _ => simp [Value.same]

/-- What nothing reached prints as it was read; only a number without a value
cannot, because it is not even the same as itself. -/
theorem printedToken_nil (s : Scene M) (t : Token) :
    printedToken s t [] = .ok (.text (if isVoidNumber t then "NaN" else t.text)) := by
  have hc : currentNode t ([] : List (Write M)) = Node.ofToken t := rfl
  simp only [printedToken, lastReplacement, List.filterMap_nil, List.getLast?_nil, hc,
    Node.stillSays, ofToken_type]
  cases hn : hasName (.text (nodeType t.kind)) with
  | true =>
    have hv : isVoidNumber t = false := by
      cases hk : t.kind <;> simp [isVoidNumber, hk]
      simp [hk, nodeType, hasName] at hn
    simp [ofToken_name hn, Value.same, hv]
  | false =>
    simp only [Bool.false_eq_true, if_false, ofToken_value hn, tokenValue_same]
    cases hv : isVoidNumber t with
    | false => rfl
    | true =>
      simp only [isVoidNumber, Bool.and_eq_true, decide_eq_true_eq] at hv
      have hval : (Node.ofToken t).get "value" = .number .nan := by
        rw [ofToken_value hn, hv.1, tokenValue, hv.2]
      simp only [renderRecord, ofToken_type, hv.1, nodeType, hval]
      rfl

/-! ### The writes to a document, token by token -/

namespace Document

theorem write_getElem? (doc : Document M) (i j : Nat) (u : Write M) :
    (doc.write i u).entries[j]? = doc.entries[j]?.map fun e => if i = j then e.write u else e := by
  rcases Nat.lt_or_ge i doc.size with hi | hi
  · rw [write, if_pos hi, Array.getElem?_modify]
    by_cases h : i = j
    · simp [h]
    · simp [h]
  · rw [write_of_le hi]
    by_cases h : i = j
    · subst h
      have hnone : doc.entries[i]? = none := Array.getElem?_eq_none hi
      simp [hnone]
    · simp [h]

/-- An entry of a written document took the writes that reached it. -/
theorem written_getElem? (doc : Document M) (ws : List (Nat × Write M)) (i : Nat) :
    (doc.written ws).entries[i]? =
      doc.entries[i]?.map fun e => (reaching i ws).foldl Entry.write e := by
  induction ws generalizing doc with
  | nil => simp [reaching]
  | cons w ws ih =>
    have hfirst : doc.written (w :: ws) = (doc.write w.1 w.2).written ws := rfl
    rw [hfirst, ih, write_getElem?, Option.map_map]
    by_cases h : w.1 = i
    · simp [reaching, h, Function.comp_def]
    · simp [reaching, h, Function.comp_def]

theorem written_ofSource (d : Dialect) (source : String) (ws : List (Nat × Write M)) :
    ((ofSource d source).written ws).entries.toList =
      (tokenize d source).zipIdx.map fun t =>
        (reaching t.2 ws).foldl Entry.write (.ofToken t.1) := by
  apply List.ext_getElem?
  intro i
  rw [Array.getElem?_toList, written_getElem?]
  simp only [ofSource, List.getElem?_toArray, List.getElem?_map, List.getElem?_zipIdx]
  cases (tokenize d source)[i]? <;> simp

theorem print_written (d : Dialect) (source : String) (ws : List (Nat × Write M)) (s : Scene M) :
    ((ofSource d source).written ws).print s =
      ((tokenize d source).zipIdx.mapM fun t => printedToken s t.1 (reaching t.2 ws)).map
        Wide.join := by
  unfold print
  rw [written_ofSource, List.mapM_map]
  simp only [Function.comp_def, print_writes]

/-- A document prints what its source and its history say. -/
theorem IsOf.print {doc : Document M} {d : Dialect} {source : String} (h : doc.IsOf d source)
    (s : Scene M) :
    doc.print s = ((tokenize d source).zipIdx.mapM fun t =>
      printedToken s t.1 (reaching t.2 doc.history)).map Wide.join := by
  rw [← print_written, ← h]

end Document

/-! ### What the operations write -/

namespace Operation

/-- Whether an operation calls a function of the script. -/
def callsBack : Operation M → Bool
  | .findBy .. | .filter _ | .forEach _ | .replaceBy _ => true
  | _ => false

/-- What an operation that calls nobody back does to the tokens of its collection. One
that only chooses or only answers does nothing to them. -/
def writes (c : Collection) : Operation M → List (Nat × Write M)
  | .replace m =>
    match m.get with
    | .ok t => if t.isUndefined then [] else c.indices.map (·, .replaced t)
    | .error _ => []
  | .remove => c.indices.map (·, .replaced (.fixed .null))
  | .replaceFirst m =>
    match m.get with
    | .ok t => (c.indices.take 1).map (·, .replaced (if t.isUndefined then .fixed .null else t))
    | .error _ => []
  | .prune => (c.indices.take 1).map (·, .replaced (.fixed .null))
  | .assign key v =>
    match textOf key with
    | .ok k => c.indices.map (·, .assigned k.shown v)
    | .error _ => []
  | _ => []

/-- An operation that chooses or visits tokens by functions which look and answer, and do
nothing else. -/
def JustAsks : Operation M → Prop
  | .findBy _ test => ∀ s r, ∃ memory gives, test s r = .answer memory gives
  | .filter test => ∀ s r n, ∃ memory gives, test s r n = .answer memory gives
  | .forEach visit => ∀ s r n, ∃ memory gives, visit s r n = .answer memory gives
  | _ => False

end Operation

namespace Workbench
variable {keys : Bool} {v w : Workbench M} {c : Collection}

/-- A collection of tokens that are there. -/
def Covers (w : Workbench M) (c : Collection) : Prop :=
  ∃ doc, w.documents[c.document]? = some doc ∧ ∀ i ∈ c.indices, i < doc.size

theorem Covers.documentOf {doc : Document M} (hdoc : w.documents[c.document]? = some doc) :
    w.documentOf c = doc := by
  rw [Workbench.documentOf, hdoc]
  rfl

theorem Covers.reach (h : w.Covers c) (field : String) :
    (w.documentOf c).reach c.indices field = .ok () := by
  obtain ⟨doc, hdoc, hall⟩ := h
  rw [Covers.documentOf hdoc, Document.reach, if_pos (by simpa using hall)]

/-- A write to a token that is there goes to the end of the history. -/
theorem history_write {r : TokenRef} {doc : Document M}
    (hdoc : w.documents[r.document]? = some doc) (hr : r.index < doc.size) (u : Write M) :
    (w.write r u).history r.document = w.history r.document ++ [(r.index, u)] := by
  simp [history, write, Array.getElem?_modify, hdoc, Document.history_write hr]

theorem history_writeAll {document : Nat} {doc : Document M}
    (hdoc : w.documents[document]? = some doc) {indices : List Nat}
    (hall : ∀ i ∈ indices, i < doc.size) (u : Write M) :
    (w.writeAll document indices u).history document =
      w.history document ++ indices.map (·, u) := by
  induction indices generalizing w doc with
  | nil => simp [writeAll]
  | cons i rest ih =>
    have hi : i < doc.size := hall i List.mem_cons_self
    have hdoc' : (w.write ⟨document, i⟩ u).documents[document]? = some (doc.write i u) := by
      simp [write, Array.getElem?_modify, hdoc]
    have hrest : ∀ j ∈ rest, j < (doc.write i u).size := by
      intro j hj
      rw [Document.size_write]
      exact hall j (List.mem_cons_of_mem i hj)
    have hfirst : w.writeAll document (i :: rest) u =
        (w.write ⟨document, i⟩ u).writeAll document rest u := rfl
    rw [hfirst, ih hdoc' hrest, history_write (r := ⟨document, i⟩) hdoc hi, List.append_assoc]
    rfl

theorem history_keepFound (w : Workbench M) (c : Collection) (found : Except Fault (List Nat))
    (document : Nat) : (w.keepFound c found).1.history document = w.history document := by
  cases found <;> rfl

/-- Opening a source leaves the documents that are there as they are. -/
theorem history_openSource {document : Nat} (h : document < w.documents.size) (source : String) :
    (w.openSource source).1.history document = w.history document := by
  simp [history, openSource, Array.getElem?_push, Nat.ne_of_lt h]

theorem history_reopen {document : Nat} (h : document < w.documents.size) (doc : Document M) :
    (w.reopen doc).1.history document = w.history document := by
  unfold reopen
  cases (doc.print w.scene).bind properText with
  | ok source => exact history_openSource h source
  | error f => rfl

theorem first_of_covers (h : w.Covers c) :
    first (w.documentOf c) c = match c.indices with
      | [] => .error .noPath
      | i :: _ => .ok i := by
  obtain ⟨doc, hdoc, hall⟩ := h
  rw [Covers.documentOf hdoc]
  unfold first
  cases hc : c.indices with
  | nil => rfl
  | cons i rest =>
    have hi : i < doc.size := hall i (by simp [hc])
    simp [Document.reach, hi]

/-- What is done to the first token of a collection. -/
theorem history_writeIf_first (h : w.Covers c) (reply : Reply) (u : Write M) :
    (w.writeIf c reply (do
      let i ← first (w.documentOf c) c
      return ([i], u))).1.history c.document =
        w.history c.document ++ (c.indices.take 1).map (·, u) := by
  rw [first_of_covers h]
  obtain ⟨doc, hdoc, hall⟩ := h
  cases hc : c.indices with
  | nil => simp [writeIf, bind, Except.bind]
  | cons i rest =>
    exact history_writeAll hdoc (by simpa using hall i (by simp [hc])) u

/-- An operation that calls nobody back adds its writes to the history. -/
theorem history_apply (h : w.Covers c) {op : Operation M} (hop : op.callsBack = false) :
    (w.apply c op).1.history c.document = w.history c.document ++ op.writes c := by
  have hreach := h.reach "node"
  have hnone : w.history c.document = w.history c.document ++ [] := (List.append_nil _).symm
  obtain ⟨doc, hdoc, hall⟩ := h
  have hlt : c.document < w.documents.size := (Array.getElem?_eq_some_iff.mp hdoc).1
  cases op with
  | findBy | filter | forEach | replaceBy => cases hop
  | find | element | closest => exact (history_keepFound w c _ _).trans hnone
  | nodes | paths | first | source | build | tag =>
    simp only [apply, answer_fst]
    exact hnone
  | size | parser => exact hnone
  | call v => cases v <;> exact hnone
  | reparse parser =>
    cases parser with
    | none => exact (history_reopen hlt _).trans hnone
    | some name =>
      rw [apply]
      cases Kit.ofValue name with
      | error f => exact hnone
      | ok kit => exact (history_reopen (w := { w with kit }) hlt _).trans hnone
  | replace m =>
    simp only [apply, Operation.writes]
    cases hm : m.get with
    | error f => exact hnone
    | ok t =>
      simp only [bind, Except.bind, hreach]
      cases t.isUndefined with
      | true => exact hnone
      | false => exact history_writeAll hdoc hall _
  | remove =>
    simp only [apply, Operation.writes, bind, Except.bind, hreach]
    exact history_writeAll hdoc hall _
  | replaceFirst m =>
    simp only [apply, Operation.writes]
    cases hm : m.get with
    | error f =>
      simp only [first_of_covers ⟨doc, hdoc, hall⟩]
      cases c.indices <;> exact hnone
    | ok t => exact history_writeIf_first ⟨doc, hdoc, hall⟩ .done _
  | prune => exact history_writeIf_first ⟨doc, hdoc, hall⟩ .done _
  | assign key v =>
    simp only [apply, Operation.writes]
    by_cases hempty : c.indices.isEmpty = true
    · rw [if_pos hempty, List.isEmpty_iff.mp hempty]
      cases textOf key <;> exact hnone
    · rw [if_neg hempty]
      simp only [hreach, bind, Except.bind]
      cases textOf key with
      | error f => exact hnone
      | ok k => exact history_writeAll hdoc hall _

/-! ### What is written when functions are called back -/

/-- A change adds to the history of a document at its end, if at all, and keeps its
tokens. -/
theorem Change.history {document : Nat} {doc : Document M} (h : Change keys v w)
    (hdoc : v.documents[document]? = some doc) :
    ∃ doc', w.documents[document]? = some doc' ∧ doc'.size = doc.size ∧
      doc.history <+: doc'.history := by
  cases h with
  | remember | bind | derive => exact ⟨doc, hdoc, rfl, List.prefix_rfl⟩
  | enter source =>
    obtain ⟨hlt, -⟩ := Array.getElem?_eq_some_iff.mp hdoc
    refine ⟨doc, ?_, rfl, List.prefix_rfl⟩
    rw [← hdoc]
    simp [openSource, Array.getElem?_push, Nat.ne_of_lt hlt]
  | write r u =>
    by_cases hr : r.document = document
    · refine ⟨doc.write r.index u, by simp [Workbench.write, Array.getElem?_modify, hr, hdoc],
        Document.size_write .., ?_⟩
      rcases Nat.lt_or_ge r.index doc.size with hi | hi
      · rw [Document.history_write hi]
        exact List.prefix_append ..
      · rw [Document.write_of_le hi]
    · exact ⟨doc, by simp [Workbench.write, Array.getElem?_modify, hr, hdoc], rfl,
        List.prefix_rfl⟩

theorem Leads.history {document : Nat} {doc : Document M} (h : Leads keys v w)
    (hdoc : v.documents[document]? = some doc) :
    ∃ doc', w.documents[document]? = some doc' ∧ doc'.size = doc.size ∧
      doc.history <+: doc'.history := by
  induction h with
  | refl => exact ⟨doc, hdoc, rfl, List.prefix_rfl⟩
  | tail _ hchange ih =>
    obtain ⟨doc₁, hdoc₁, hsize₁, hprefix₁⟩ := ih
    obtain ⟨doc₂, hdoc₂, hsize₂, hprefix₂⟩ := hchange.history hdoc₁
    exact ⟨doc₂, hdoc₂, hsize₂.trans hsize₁, hprefix₁.trans hprefix₂⟩

/-- Every token that a sweep came to was asked about, somewhere on the way. -/
theorem sweep_visits {ask : Workbench M → Nat → Nat → Workbench M × Except Fault Bool}
    (h : ∀ w i n, Leads keys w (ask w i n).1) {n : Nat} {members found : List Nat}
    {w : Workbench M} (hfound : (sweep ask n members w).2 = .ok found) {k i : Nat}
    (hi : members[k]? = some i) :
    ∃ v kept, Leads keys w v ∧ (ask v i (n + k)).2 = .ok kept ∧
      Leads keys (ask v i (n + k)).1 (sweep ask n members w).1 := by
  induction members generalizing n w found k with
  | nil => cases hi
  | cons j rest ih =>
    have hask := h w j n
    rw [sweep] at hfound ⊢
    generalize hgave : ask w j n = gave at hask hfound ⊢
    obtain ⟨w', answer⟩ := gave
    cases answer with
    | error f => cases hfound
    | ok kept =>
      dsimp only at hfound hask ⊢
      have hrest := sweep_rel .refl .trans h (n + 1) rest w'
      have hvisit := @ih (n + 1)
      generalize hmore : sweep ask (n + 1) rest w' = more at hfound hrest ⊢
      obtain ⟨u, found'⟩ := more
      cases found' with
      | error f => cases hfound
      | ok found' =>
        cases k with
        | zero =>
          cases hi
          exact ⟨w, kept, .refl w, by rw [Nat.add_zero, hgave], by rwa [Nat.add_zero, hgave]⟩
        | succ k =>
          obtain ⟨v, kept', hv, hanswer, hafter⟩ := hvisit (w := w') (by rw [hmore]) hi
          rw [hmore] at hafter
          rw [Nat.add_right_comm, Nat.add_assoc] at hanswer hafter
          exact ⟨v, kept', hask.trans hv, hanswer, hafter⟩

theorem ask_visits {about : Workbench M → TokenRef → Nat → Workbench M × Except Fault Bool}
    (h : ∀ w r n, Leads keys w (about w r n).1) {found : List Nat}
    (hfound : (w.ask c about).2 = .ok found) {n i : Nat} (hi : c.indices[n]? = some i) :
    ∃ v kept, Leads keys w v ∧ v.has ⟨c.document, i⟩ = true ∧
      (about v ⟨c.document, i⟩ n).2 = .ok kept ∧
      Leads keys (about v ⟨c.document, i⟩ n).1 (w.ask c about).1 := by
  have hask (w : Workbench M) (i n : Nat) : Leads keys w
      (if w.has ⟨c.document, i⟩ then about w ⟨c.document, i⟩ n
        else (w, .error (.unreadable "node" false))).1 := by
    split
    · exact h w ⟨c.document, i⟩ n
    · exact .refl w
  obtain ⟨v, kept, hv, hkept, hafter⟩ := sweep_visits hask hfound hi
  rw [Nat.zero_add] at hkept hafter
  split at hkept
  · rename_i hhas
    rw [if_pos hhas] at hafter
    exact ⟨v, kept, hv, hhas, hkept, hafter⟩
  · cases hkept

/-- What the function gave for a token is stored for it, after all that the function did
itself. -/
theorem history_replaceBy {make : Scene M → TokenRef → Nat → Reaction M}
    (hsame : (w.apply c (.replaceBy make)).2 = .same) {n i : Nat}
    (hi : c.indices[n]? = some i) :
    ∃ v t, Leads true w v ∧ (v.react (make v.scene ⟨c.document, i⟩ n)).2 = .ok t ∧
      (t.isUndefined = false →
        (v.react (make v.scene ⟨c.document, i⟩ n)).1.history c.document ++ [(i, .replaced t)] <+:
          (w.apply c (.replaceBy make)).1.history c.document) := by
  have hall (reaction : Reaction M) : reaction.All (Allowed true) :=
    Reaction.all_of_forall (fun _ => .inl rfl) reaction
  have habout (w : Workbench M) (r : TokenRef) (n : Nat) :
      Leads true w (placed r (w.react (make w.scene r n))).1 :=
    leads_placed r (react_leads (hall _) w)
  simp only [apply, sameAfter, answer_fst] at hsame ⊢
  cases hgave : (w.ask c fun w r n => placed r (w.react (make w.scene r n))).2 with
  | error f =>
    rw [hgave] at hsame
    cases hsame
  | ok found =>
    obtain ⟨v, kept, hv, hhas, hkept, hafter⟩ := ask_visits habout hgave hi
    have hreact := react_leads (hall (make v.scene ⟨c.document, i⟩ n)) v
    generalize hr : v.react (make v.scene ⟨c.document, i⟩ n) = reacted at hkept hafter hreact
    obtain ⟨v', t⟩ := reacted
    cases t with
    | error f => cases hkept
    | ok t =>
      refine ⟨v, t, hv, by rw [hr], fun ht => ?_⟩
      -- the token was there when the function was called, so it still is
      obtain ⟨doc, hdoc, hlt⟩ : ∃ doc, v.documents[c.document]? = some doc ∧ i < doc.size := by
        simpa [has, Option.any_eq_true] using hhas
      obtain ⟨doc', hdoc', hsize, -⟩ := hreact.history hdoc
      have hplaced : v'.place ⟨c.document, i⟩ t = v'.write ⟨c.document, i⟩ (.replaced t) := by
        rw [place, if_neg (by simp [ht])]
      have hwritten : (v'.place ⟨c.document, i⟩ t).documents[c.document]? =
          some (doc'.write i (.replaced t)) := by
        simp [hplaced, write, Array.getElem?_modify, hdoc']
      obtain ⟨last, hlast, -, hprefix⟩ := hafter.history hwritten
      rw [Document.history_write (hsize ▸ hlt)] at hprefix
      rw [hr, history, hdoc', history, hlast]
      exact hprefix

theorem documents_keepFound (w : Workbench M) (c : Collection)
    (found : Except Fault (List Nat)) : (w.keepFound c found).1.documents = w.documents := by
  cases found <;> rfl

/-- Looking and answering writes nothing. -/
theorem documents_of_justAsks {op : Operation M} (hop : op.JustAsks) (w : Workbench M)
    (c : Collection) : (w.apply c op).1.documents = w.documents := by
  have hanswer (w : Workbench M) {reaction : Reaction M}
      (h : ∃ memory gives, reaction = .answer memory gives) :
      (w.react reaction).1.documents = w.documents := by
    obtain ⟨memory, gives, rfl⟩ := h
    rfl
  have hask {about : Workbench M → TokenRef → Nat → Workbench M × Except Fault Bool}
      (h : ∀ w r n, (about w r n).1.documents = w.documents) :
      (w.ask c about).1.documents = w.documents :=
    ask_rel (R := fun v w => w.documents = v.documents) (fun _ => rfl)
      (fun h h' => h'.trans h) h w c
  cases op with
  | findBy type test =>
    rw [apply, documents_keepFound]
    refine hask fun w r _ => ?_
    split
    · exact hanswer w (hop w.scene r)
    · rfl
  | filter test =>
    rw [apply, documents_keepFound]
    exact hask fun w r n => hanswer w (hop w.scene r n)
  | forEach visit =>
    rw [apply, sameAfter, answer_fst]
    exact hask fun w r n => hanswer w (hop w.scene r n)
  | _ => exact hop.elim

end Workbench

/-! ### Printing -/

/-- The reply that shows a printed text. -/
def Reply.ofPrinted : Except Fault Wide → Reply
  | .ok text => .source text
  | .error f => .failed f

theorem step_source {w : Workbench M} {register : Nat} {c : Collection}
    (hc : w.registers[register]? = some c) :
    (w.step register .source).2 = Reply.ofPrinted ((w.documentOf c).print w.scene) := by
  simp only [Workbench.step, hc, Workbench.apply]
  cases (w.documentOf c).print w.scene <;> rfl

/-- What the first document prints follows from its history alone. -/
theorem source_of_history (kit : Kit) (source : String) (memory : M)
    {steps : List (Nat × Operation M)} {register : Nat} {c : Collection}
    (hc : ((Workbench.start kit source memory).1.after steps).registers[register]? = some c)
    (hzero : c.document = 0) :
    (((Workbench.start kit source memory).1.after steps).step register .source).2 =
      Reply.ofPrinted (((Document.ofSource kit.dialect source).written
        (((Workbench.start kit source memory).1.after steps).history 0)).print
          ((Workbench.start kit source memory).1.after steps).scene) := by
  obtain ⟨d, s, hfirst, hof, hhistory⟩ :=
    (Workbench.after_began kit source memory steps).documentOf hc
  obtain ⟨rfl, rfl⟩ := hfirst hzero
  rw [hzero] at hhistory
  rw [step_source hc, hhistory, ← hof]

end Retouch.Toolkit
