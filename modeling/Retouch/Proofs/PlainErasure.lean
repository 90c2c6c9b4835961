import Retouch.Proofs.PlainReading
import Retouch.Proofs.ProgramErasure

/-! Type erasure leaves programs without types as they are. Expressions are known
to be harmless; here are the places where types could stand in a typed program:
parameters and their default values, bindings of declarations, lists of specifiers
in which `as` renames, and brackets before a body. -/

namespace Retouch.Code
open Syntax Erase Plain

variable {c : Code} {p close i : Nat} {t o z e k w f m : Token} {ts rest : List Token} {s : String}

/-! ### What the scanner says -/

/-- Code in which only marks have the texts of marks. -/
def Solid (c : Code) : Prop :=
  ∀ {i : Nat} {t : Token}, c.tokens[i]? = some t → ¬ t.kind.IsLoose → t.text ∉ codeMarks

theorem solid_tokenize (source : String) :
    (Code.ofTokens (significant (tokenize .ts source))).Solid := by
  intro i t ht hk
  have hm : t ∈ significant (tokenize .ts source) :=
    List.mem_of_getElem? (by simpa [Code.ofTokens] using ht)
  exact tokenize_solid (List.mem_of_mem_filter hm) hk

theorem From.notMem_codeMarks (hf : c.From p (t :: rest)) (hc : c.Solid)
    (ht : ¬ t.kind.IsLoose) : c.text p ∉ codeMarks := by
  rw [hf.text]
  exact hc hf.getElem? ht

/-! ### Default values -/

/-- In a default value only brackets and commas count. -/
theorem parameterSpans_default (hi : i < close) (ht : c.text i ∉ ["(", "[", "\x7b", ","]) :
    c.parameterSpans close i .default = c.parameterSpans close (i + 1) .default := by
  simp only [List.mem_cons, List.not_mem_nil, or_false, not_or] at ht
  rw [parameterSpans.eq_def, dif_pos hi]
  dsimp only
  split <;> simp_all

/-! ### Patterns in square brackets or braces -/

section
variable {b : Bracket}

/-- The pass jumps over such a pattern of a parameter. -/
theorem From.parameterSpans_bracketed (hf : c.From p (o :: (ts ++ [z]) ++ rest))
    (ho : o.IsPunct b.opening) (hts : Balanced ts) (hz : z.IsPunct b.closing)
    (hclose : p + (o :: (ts ++ [z])).length ≤ close) :
    c.parameterSpans close p .front =
      c.parameterSpans close (p + (o :: (ts ++ [z])).length) .name := by
  rw [List.cons_append, List.append_assoc] at hf
  have hlen : p + (o :: (ts ++ [z])).length = p + 1 + ts.length + 1 := by simp; omega
  have hpartner := hf.partner_closer (ho.opens b) hts (hz.closes b)
  have hword : c.text p ∉ "this" :: modifiers := by
    rw [hf.text, ho.2]
    cases b <;> decide
  have hopen : c.text p ∈ ["(", "[", "\x7b"] := by
    rw [hf.text, ho.2]
    cases b <;> decide
  rw [hlen] at hclose ⊢
  rw [parameterSpans_front (by omega) hword,
    parameterSpans_group (by omega) (by decide) hopen hpartner]

theorem From.bindingLast_bracketed (hf : c.From p (o :: (ts ++ [z]) ++ rest))
    (ho : o.IsPunct b.opening) (hb : b ≠ .round) (hts : Balanced ts) (hz : z.IsPunct b.closing) :
    ∃ last, c.bindingLast p = some last ∧ last + 1 = p + (o :: (ts ++ [z])).length := by
  rw [List.cons_append, List.append_assoc] at hf
  have hpartner := hf.partner_closer (ho.opens b) hts (hz.closes b)
  have hopen : c.text p ∈ ["\x7b", "["] := by
    rw [hf.text, ho.2]
    cases b with
    | round => exact absurd rfl hb
    | square => decide
    | curly => decide
  exact ⟨p + 1 + ts.length, by rw [bindingLast, if_pos hopen, hpartner], by simp; omega⟩

end

/-! ### Brackets before a body -/

/-- Brackets after a word that takes no parameters. -/
theorem From.visits_header (hf : c.From p (k :: o :: (ts ++ z :: rest))) (hk : k.IsKeyword s)
    (hs : s ∉ ["function", "catch", "get", "set"]) (ho : o.IsPunct "(") (hts : Balanced ts)
    (hz : z.IsPunct ")") (hnext : c.text (p + 1 + 1 + ts.length + 1) ∉ ["=>", ":"]) :
    c.Visits [] (p + 1) [] (p + 1 + 1) := by
  have hfun : c.declaresFunction [] (p + 1) = false := by
    simpa [declaresFunction, lastKept, hf.kind?, hf.text, hk.1, hk.2] using hs
  have hspans : c.punctSpans [] (p + 1) = [] := by
    have hpartner := hf.tail.partner_closer (ho.opens .round) hts (hz.closes .round)
    unfold punctSpans
    rw [hf.tail.text, ho.2]
    simp only [signatureSpans, hpartner]
    split <;> simp_all
  have hvisits := hf.tail.visits_punct ho []
  rwa [hspans] at hvisits

/-- Brackets around parameters without types. -/
theorem From.quiet_parameters (hf : c.From p (o :: (ts ++ z :: t :: rest))) (ho : o.IsPunct "(")
    (hts : Balanced ts) (hz : z.IsPunct ")") (ht : t.IsPunct "\x7b")
    (hspans : c.parameterSpans (p + 1 + ts.length) (p + 1) .front = []) : c.Quiet p := by
  intro e
  have hnone : c.punctSpans e p = [] := by
    have hpartner := hf.partner_closer (ho.opens .round) hts (hz.closes .round)
    have hbrace : c.text (p + 1 + ts.length + 1) = "\x7b" := by rw [hf.tail.append.tail.text, ht.2]
    unfold punctSpans
    rw [hf.text, ho.2]
    simp [signatureSpans, hpartner, hbrace, hspans]
  rw [← hnone]
  exact hf.visits_punct ho e

/-! ### Whole runs -/

/-- Visits without effect up to the end of the program erase nothing. -/
theorem QuietOn.erasureFrom (h : c.QuietOn p c.size) : c.erasureFrom [] p = some [] := by
  generalize hn : c.size - p = n
  induction n generalizing p with
  | zero => rw [Code.erasureFrom, dif_neg (by omega)]
  | succ n ih =>
    rw [(h p (Nat.le_refl p) (by omega)).erasureFrom (by omega) rfl]
    exact ih (fun k hk hk' => h k (by omega) hk') (by omega)

/-! ### Words -/

theorem declaratorSpans_eq_nil {last : Nat} (h : c.bindingLast (p + 1) = some last)
    (hs : c.text (last + 1) ∉ [":", "!"]) : c.declaratorSpans p = [] := by
  simp only [List.mem_cons, List.not_mem_nil, or_false, not_or] at hs
  simp [declaratorSpans, h, punct_eq_false hs.1, punct_eq_false hs.2]

theorem From.quiet_declarator (hf : c.From p (k :: rest)) (hk : k.IsDeclarator)
    (hs : c.declaratorSpans p = []) : c.Quiet p := by
  obtain ⟨s, hmem, hk⟩ := hk
  have hword : ∀ s ∈ ["const", "let", "var"], s ∉ "as" :: "satisfies" :: declarationWords := by
    decide
  have htext : c.text p ∉ "as" :: "satisfies" :: declarationWords := by
    rw [hf.text, hk.2]
    exact hword s hmem
  refine quiet_name (by simp [hf.isName, hk.1])
    (typeStatementLast_eq_none fun _ hm => htext (by simp [hm])) (fun hm => ?_) ?_
  · exact absurd (List.mem_append_left declarationWords hm) htext
  · simp only [List.mem_cons, List.not_mem_nil, or_false] at hmem
    rcases hmem with rfl | rfl | rfl <;> simp [wordSpans, hf.text, hk.2, hs]

/-- What follows `export` here declares no types. -/
theorem From.quiet_export (hf : c.From p (e :: t :: rest)) (he : e.IsKeyword "export")
    (ht : t.kind = .keyword → t.text ∉ declarationWords) : c.Quiet p := by
  have htext : c.text p = "export" := by rw [hf.text, he.2]
  have hnone : c.typeStatementLast p = none := by
    have hdeclaration : c.declarationLast (p + 1) = none := by
      rw [declarationLast, hf.tail.kind?, hf.tail.text]
      split
      · rename_i hk
        have hword := ht (Option.some.inj hk)
        split <;> simp_all [declarationWords]
      · rfl
    rw [typeStatementLast, hf.word, if_pos (by simp [he.1, he.2]), hdeclaration]
  refine quiet_name (by simp [hf.isName, he.1]) hnone (fun hm => ?_) ?_
  · rw [htext] at hm
    exact absurd hm (by decide)
  · simp [wordSpans, htext]

theorem From.quiet_as {s : String} (hf : c.From p (w :: rest)) (hw : w.IsWord s)
    (hs : s ∈ ["as", "satisfies"]) (h : c.isCast p = false) : c.Quiet p := by
  have htext : c.text p = s := by rw [hf.text, hw.2]
  have hname : c.isName p = true := by rcases hw.1 with hk | hk <;> simp [hf.isName, hk]
  have hdeclares : ∀ s ∈ ["as", "satisfies"], s ∉ declarationWords := by decide
  refine quiet_name hname (typeStatementLast_eq_none fun _ => by rw [htext]; exact hdeclares s hs)
    (fun _ => h) ?_
  simp only [List.mem_cons, List.not_mem_nil, or_false] at hs
  rcases hs with rfl | rfl <;> simp [wordSpans, htext]

/-- The module that an import or an export names. -/
theorem From.quietOn_source (hf : c.From p (f :: m :: rest)) (hfrom : f.IsWord "from")
    (hm : m.kind = .string) : c.QuietOn p (p + 2) := by
  have hname : c.isName p = true := by rcases hfrom.1 with hk | hk <;> simp [hf.isName, hk]
  have hword : c.Quiet p := quiet_word hname (by rw [hf.text, hfrom.2]; decide)
  exact hword.on.trans
    (hf.tail.quiet_solid (by simp [hm]) (by simp [hm]) (by simp [hm])).on

theorem inClause_of_partner {first : Nat} (ho : c.opensClause first = true)
    (hp : c.partner first = some close) (hi : first ≤ i) (hclose : i ≤ close) :
    c.inClause i = true := by
  simp only [inClause, List.any_eq_true, List.mem_range, Bool.and_eq_true, Option.any_eq_true,
    decide_eq_true_eq]
  exact ⟨first, by omega, ho, close, hp, hclose⟩

end Retouch.Code

namespace Retouch.Plain
open Syntax Code Erase

variable {c : Code} {p close : Nat} {part : Part} {xs ys ts rest : List Token}

/-- Tokens without a comma outside brackets. -/
inductive CommaFree : List Token → Prop
  | nil : CommaFree []
  | solid {t ts} : ¬ t.kind.IsLoose → CommaFree ts → CommaFree (t :: ts)
  | mark {t s ts} : t.IsPunct s → s ∉ ["(", "[", "\x7b", ","] → CommaFree ts → CommaFree (t :: ts)
  | group {b : Bracket} {o xs z ts} : o.IsPunct b.opening → Balanced xs → z.IsPunct b.closing →
      CommaFree ts → CommaFree (o :: (xs ++ z :: ts))

theorem CommaFree.append (hx : CommaFree xs) (hy : CommaFree ys) : CommaFree (xs ++ ys) := by
  induction hx with
  | nil => exact hy
  | solid ht _ ih => exact .solid ht ih
  | mark ht hs _ ih => exact .mark ht hs ih
  | @group b o xs z ts ho hb hz _ ih =>
    rw [List.cons_append, List.append_assoc]
    exact .group ho hb hz ih

theorem IsExpression.commaFree (h : IsExpression part ts) (hpart : ∀ b, part ≠ .items b) :
    CommaFree ts := by
  induction h with
  | atom ht => exact .solid ht.solid .nil
  | template ht _ ih => exact .solid ht.solid (ih nofun)
  | lastChunk _ hz ih => exact (ih nofun).append (.solid hz.solid .nil)
  | chunk _ hm _ ih ihu => exact (ih nofun).append (.solid hm.solid (ihu nofun))
  | group ho hts hz _ => exact .group (b := .round) ho hts.balanced hz .nil
  | array ho hts hz _ => exact .group (b := .square) ho hts.balanced hz .nil
  | object ho hts hz _ => exact .group (b := .curly) ho hts.balanced hz .nil
  | call _ ho hts hz ih _ =>
    exact (ih nofun).append (.group (b := .round) ho hts.balanced hz .nil)
  | member _ hd hn ih | chain _ hd hn ih =>
    exact (ih nofun).append (.mark hd (by decide) (.solid hn.solid .nil))
  | index _ ho hts hz ih _ =>
    exact (ih nofun).append (.group (b := .square) ho hts.balanced hz .nil)
  | binary _ ho _ ihx ihy =>
    refine (ihx nofun).append ?_
    rcases ho with ⟨s, hs, ho⟩ | ho | ho
    · have hmarks : ∀ s ∈ Token.binaryOperators, s ∉ ["(", "[", "\x7b", ","] := by decide
      exact .mark ho (hmarks s hs) (ihy nofun)
    · exact .solid ho.word.solid (ihy nofun)
    · exact .solid ho.word.solid (ihy nofun)
  | conditional _ hq _ hd _ ihx ihy ihz =>
    exact (ihx nofun).append (.mark hq (by decide)
      ((ihy nofun).append (.mark hd (by decide) (ihz nofun))))
  | not hb _ ih => exact .mark hb (by decide) (ih nofun)
  | value _ ih => exact ih nofun
  | property hk hd _ ih => exact .solid hk.solid (.mark hd (by decide) (ih nofun))
  | shorthand ht => exact .solid ht.solid .nil
  | none | last | more | hole => exact absurd rfl (hpart _)

/-- Nothing in a default value is taken for a type. -/
theorem CommaFree.parameterSpans (h : CommaFree ts) (hc : c.Solid) (hf : c.From p (ts ++ rest))
    (hclose : p + ts.length ≤ close) :
    c.parameterSpans close p .default = c.parameterSpans close (p + ts.length) .default := by
  have hsub : ∀ w ∈ ["(", "[", "\x7b", ","], w ∈ codeMarks := by decide
  induction h generalizing p with
  | nil => rfl
  | @solid t ts ht _ ih =>
    rw [List.length_cons] at hclose
    rw [parameterSpans_default (by omega) fun hm => hf.notMem_codeMarks hc ht (hsub _ hm),
      ih hf.tail (by omega), List.length_cons, Nat.add_right_comm, Nat.add_assoc]
  | @mark t s ts ht hs _ ih =>
    rw [List.length_cons] at hclose
    rw [parameterSpans_default (by omega) (by rwa [hf.text, ht.2]),
      ih hf.tail (by omega), List.length_cons, Nat.add_right_comm, Nat.add_assoc]
  | @group b o xs z ts ho hb hz _ ih =>
    have hf' : c.From p (o :: (xs ++ z :: (ts ++ rest))) := by simpa using hf
    have hopen : c.text p ∈ ["(", "[", "\x7b"] := by
      rw [hf'.text, ho.2]
      cases b <;> decide
    rw [end_cons, end_append, end_cons] at hclose ⊢
    rw [parameterSpans_group (by omega) (by decide) hopen
      (hf'.partner_closer (ho.opens b) hb (hz.closes b)), ih hf'.tail.append.tail hclose]

/-! ### Patterns as parameters -/

/-- The pass comes from the front of a parameter to the end of its pattern. -/
theorem IsPattern.parameterSpans_single (h : IsPattern .single ts) (hc : c.Solid)
    (hf : c.From p (ts ++ rest)) (hclose : p + ts.length ≤ close) :
    c.parameterSpans close p .front = c.parameterSpans close (p + ts.length) .name := by
  cases h with
  | name ht =>
    have hword : c.text p ∉ "this" :: modifiers := by
      rw [hf.text]
      exact ht.notMem (by decide)
    have hp : p < close := hclose
    rw [parameterSpans_front hp hword, parameterSpans_skip hp (by decide) fun hm =>
      hf.notMem_codeMarks hc ht.solid (List.mem_cons_of_mem _ hm)]
    rfl
  | array ho hts hz =>
    exact hf.parameterSpans_bracketed (b := .square) ho hts.balanced hz hclose
  | object ho hts hz =>
    exact hf.parameterSpans_bracketed (b := .curly) ho hts.balanced hz hclose

theorem IsPattern.parameterSpans_item (h : IsPattern (.item false) ts) (hc : c.Solid)
    (hf : c.From p (ts ++ rest)) (hclose : p + ts.length ≤ close) :
    ∃ state, state ≠ .front ∧
      c.parameterSpans close p .front = c.parameterSpans close (p + ts.length) state := by
  generalize hpart : Part.item false = part at h
  induction h generalizing p rest with
  | element h => exact ⟨.name, by decide, h.parameterSpans_single hc hf hclose⟩
  | @initialised b ts e es _ he hes ih =>
    rw [List.append_assoc] at hf
    rw [end_append, end_cons] at hclose ⊢
    obtain ⟨state, hstate, hspans⟩ := ih hf (by omega) hpart
    have hequals := hf.append
    have hvalue := (hes.commaFree nofun).parameterSpans hc hequals.tail hclose
    refine ⟨.default, by decide, ?_⟩
    rw [hspans, parameterSpans_equals (by omega) hstate (by rw [hequals.text, he.2]), hvalue]
  | name | array | object | property | shorthand | none | last | more => cases hpart

/-- Parameters without types. -/
theorem IsPattern.parameterSpans_items (h : IsPattern (.items false) ts) (hc : c.Solid)
    (hf : c.From p (ts ++ rest)) (hclose : p + ts.length = close) :
    c.parameterSpans close p .front = [] := by
  generalize hpart : Part.items false = part at h
  induction h generalizing p rest with
  | none => exact hclose ▸ parameterSpans_close
  | last h =>
    cases hpart
    obtain ⟨state, -, hspans⟩ := h.parameterSpans_item hc hf (Nat.le_of_eq hclose)
    rw [hspans, hclose, parameterSpans_close]
  | @more b ts d us h hd _ _ ihu =>
    cases hpart
    rw [List.append_assoc] at hf
    rw [end_append, end_cons] at hclose
    have hle : p + ts.length ≤ close := by omega
    obtain ⟨state, hstate, hspans⟩ := h.parameterSpans_item hc hf hle
    rw [hspans, parameterSpans_comma (by omega) hstate (by rw [hf.append.text, hd.2])]
    exact ihu hf.append.tail hclose rfl
  | name | array | object | element | property | shorthand | initialised => cases hpart

/-! ### Patterns as bindings -/

theorem IsPattern.quietOn (h : IsPattern part ts) (hf : c.From p (ts ++ rest))
    (hq : c.Follow (p + ts.length)) : c.QuietOn p (p + ts.length) := by
  induction h generalizing p rest with
  | name ht => exact (hf.quiet_plain ht).on
  | @array o ts z ho _ hz ih | @object o ts z ho _ hz ih =>
    rw [List.cons_append, List.append_assoc] at hf
    have hend := hf.tail.append
    exact .cons (hf.quiet_punct ho (by decide)) (.append
      (ih hf.tail (hend.follow_punct hz (by decide))) (hend.quiet_punct hz (by decide)).on)
  | element _ ih => exact ih hf hq
  | @property k d ts hk hd _ ih =>
    rw [end_cons, end_cons] at hq
    exact .cons (hf.quiet_key hk) (.cons (hf.tail.quiet_punct hd (by decide))
      (ih hf.tail.tail hq))
  | shorthand ht => exact (hf.quiet_plain ht).on
  | @initialised b ts e es _ he hes ih =>
    rw [List.append_assoc] at hf
    rw [end_append, end_cons] at hq
    have hequals := hf.append
    have hvalue := hes.harmless hequals.tail
      (bangFree_after (hequals.endsExpression_punct he (by decide))) hq
    exact .append (ih hf (hequals.follow_punct he (by decide)))
      (.cons (hequals.quiet_punct he (by decide)) hvalue.quiet)
  | none => exact quietOn_refl
  | last _ ih => exact ih hf hq
  | @more b ts d us _ hd _ ih ihu =>
    rw [List.append_assoc] at hf
    rw [end_append, end_cons] at hq
    have hcomma := hf.append
    exact .append (ih hf (hcomma.follow_punct hd (by decide)))
      (.cons (hcomma.quiet_punct hd (by decide)) (ihu hcomma.tail hq))

/-- The last token of a pattern. -/
theorem IsPattern.bindingLast (h : IsPattern .single ts) (hc : c.Solid)
    (hf : c.From p (ts ++ rest)) :
    ∃ last, c.bindingLast p = some last ∧ last + 1 = p + ts.length := by
  cases h with
  | name ht =>
    have hbracket : c.text p ∉ ["\x7b", "["] := fun hm => hf.notMem_codeMarks hc ht.solid
      ((by decide : ∀ w ∈ ["\x7b", "["], w ∈ codeMarks) _ hm)
    exact ⟨p, by rw [Code.bindingLast, if_neg hbracket, hf.kind?, ht.1]; rfl, rfl⟩
  | array ho hts hz => exact hf.bindingLast_bracketed (b := .square) ho (by decide) hts.balanced hz
  | object ho hts hz => exact hf.bindingLast_bracketed (b := .curly) ho (by decide) hts.balanced hz

/-- Behind the pattern of an item stands nothing, or its default value. -/
theorem IsPattern.first_item (h : IsPattern (.item false) ts) :
    ∃ us vs, ts = us ++ vs ∧ IsPattern .single us ∧ ∀ v ∈ vs.head?, v.IsPunct "=" := by
  generalize hpart : Part.item false = part at h
  induction h with
  | element h => exact ⟨_, [], (List.append_nil _).symm, h, nofun⟩
  | @initialised b ts e es _ he _ ih =>
    obtain ⟨us, vs, rfl, hus, hvs⟩ := ih hpart
    refine ⟨us, vs ++ e :: es, List.append_assoc .., hus, ?_⟩
    cases vs with
    | nil => simpa using he
    | cons v vs => exact hvs
  | property | shorthand | name | array | object | none | last | more => cases hpart

/-- A declaration without types: behind its first pattern stands its end, a value
or a comma. -/
theorem IsPattern.declaratorSpans (h : IsPattern (.items false) ts) (hne : ts ≠ []) (hc : c.Solid)
    (hf : c.From (p + 1) (ts ++ rest)) (hq : c.text (p + 1 + ts.length) ∉ [":", "!"]) :
    c.declaratorSpans p = [] := by
  obtain ⟨us, vs, rfl, hus, hvs⟩ : ∃ us vs, ts = us ++ vs ∧ IsPattern .single us ∧
      ∀ v ∈ vs.head?, v.IsPunct "=" ∨ v.IsPunct "," := by
    cases h with
    | none => exact absurd rfl hne
    | last h =>
      obtain ⟨us, vs, rfl, hus, hvs⟩ := h.first_item
      exact ⟨us, vs, rfl, hus, fun v hv => .inl (hvs v hv)⟩
    | @more _ ts d ws h hd _ =>
      obtain ⟨us, vs, rfl, hus, hvs⟩ := h.first_item
      refine ⟨us, vs ++ d :: ws, List.append_assoc .., hus, ?_⟩
      cases vs with
      | nil => simpa using .inr hd
      | cons v vs => exact fun v' hv => .inl (hvs v' hv)
  rw [List.append_assoc] at hf
  obtain ⟨last, hlast, hstop⟩ := hus.bindingLast hc hf
  refine declaratorSpans_eq_nil hlast ?_
  rw [hstop]
  cases vs with
  | nil => simpa using hq
  | cons v vs =>
    rw [hf.append.text]
    rcases hvs v rfl with hv | hv <;> rw [hv.2] <;> decide

/-! ### Specifiers -/

theorem IsExportName.solid {t : Token} (h : IsExportName t) : ¬ t.kind.IsLoose := by
  rcases h with h | h
  · exact h.solid
  · exact h.word.solid

theorem IsExportName.quiet {t : Token} (h : IsExportName t) (hf : c.From p (t :: rest)) :
    c.Quiet p := by
  rcases h with h | h
  · exact hf.quiet_plain h
  · exact hf.quiet_keyword h (by decide)

theorem IsSpecifier.balanced (h : IsSpecifier ts) : Balanced ts := by
  cases h with
  | same ha => exact balanced_solid ha.solid
  | renamed ha hw hb =>
    exact .cons (balanced_solid ha.solid)
      (.cons (balanced_solid hw.solid) (balanced_solid hb.solid))

theorem IsSpecifiers.balanced (h : IsSpecifiers ts) : Balanced ts := by
  induction h with
  | none => exact .nil
  | last h => exact h.balanced
  | more h hd _ ih => exact h.balanced.append (.cons (balanced_mark hd (by decide)) ih)

theorem IsSpecifier.quietOn (h : IsSpecifier ts) (hf : c.From p (ts ++ rest))
    (hin : ∀ k, p ≤ k → k < p + ts.length → c.inClause k = true) :
    c.QuietOn p (p + ts.length) := by
  cases h with
  | same ha => exact (ha.quiet hf).on
  | renamed ha hw hb =>
    have hcast : c.isCast (p + 1) = false := by
      simp [isCast, hin (p + 1) (by omega) (by simp)]
    exact .cons (ha.quiet hf)
      (.cons (hf.tail.quiet_as hw (by decide) hcast) (hb.quiet hf.tail.tail).on)

/-- In a list of specifiers `as` renames. -/
theorem IsSpecifiers.quietOn (h : IsSpecifiers ts) (hf : c.From p (ts ++ rest))
    (hin : ∀ k, p ≤ k → k < p + ts.length → c.inClause k = true) :
    c.QuietOn p (p + ts.length) := by
  induction h generalizing p with
  | none => exact quietOn_refl
  | last h => exact h.quietOn hf hin
  | @more ts d us h hd _ ih =>
    rw [List.append_assoc] at hf
    have hcomma := hf.append
    rw [end_append, end_cons] at hin
    exact .append (h.quietOn hf fun k hk hk' => hin k hk (by omega))
      (.cons (hcomma.quiet_punct hd (by decide))
        (ih hcomma.tail fun k hk hk' => hin k (by omega) hk'))

theorem IsNamespace.quietOn (h : IsNamespace ts) (hf : c.From p (ts ++ rest)) :
    c.QuietOn p (p + ts.length) := by
  cases h with
  | whole hm => exact (hf.quiet_punct hm (by decide)).on
  | named hm hw hn =>
    -- a star is no operand that could be cast
    have hcast : c.isCast (p + 1) = false := by
      simp [isCast, hf.endsExpression_punct hm (by decide)]
    exact .cons (hf.quiet_punct hm (by decide))
      (.cons (hf.tail.quiet_as hw (by decide) hcast) (hn.quiet hf.tail.tail).on)

/-- What is imported or exported, when its brace is known to open specifiers. -/
theorem IsClause.quietOn (h : IsClause ts) (hf : c.From p (ts ++ rest))
    (hopen : c.punct p "\x7b" = true → c.opensClause p = true) : c.QuietOn p (p + ts.length) := by
  cases h with
  | @named o ts z ho hts hz =>
    rw [List.cons_append, List.append_assoc] at hf
    have hclause := hopen (by simp [hf.punct, ho.1, ho.2])
    have hpartner := hf.partner_closer (ho.opens .curly) hts.balanced (hz.closes .curly)
    have hnames := hts.quietOn hf.tail fun k hk hk' =>
      inClause_of_partner hclause hpartner (by omega) (by omega)
    exact .cons (hf.quiet_punct ho (by decide))
      (.append hnames (hf.tail.append.quiet_punct hz (by decide)).on)
  | star h => exact h.quietOn hf

theorem IsClause.quietOn_export {e : Token} (h : IsClause ts) (he : e.IsKeyword "export")
    (hf : c.From p (e :: (ts ++ rest))) : c.QuietOn p (p + (e :: ts).length) := by
  obtain ⟨t, us, rfl, ht⟩ : ∃ t us, ts = t :: us ∧ t.kind = .punctuator := by
    rcases h with ⟨ho, _, _⟩ | ⟨hm⟩ | ⟨hm, _, _⟩
    · exact ⟨_, _, rfl, ho.1⟩
    · exact ⟨_, _, rfl, hm.1⟩
    · exact ⟨_, _, rfl, hm.1⟩
  have hexport : c.Quiet p := hf.quiet_export he fun hk => by cases ht.symm.trans hk
  refine .cons hexport (h.quietOn hf.tail fun hbrace => ?_)
  simp [opensClause, hbrace, hf.word, he.1, he.2]

/-! ### Statements -/

/-- What ends a statement: its semicolon, the brace of its block or the end of the
program. -/
def EndsStatement (c : Code) (q : Nat) : Prop := c.text q ∈ [";", "\x7d", ""]

theorem EndsStatement.follow (h : EndsStatement c p) : c.Follow p :=
  follow_of_text ((by decide : ∀ w ∈ [";", "\x7d", ""], w ∉ followJoints) _ h)

theorem IsSimple.quietOn (h : IsSimple ts) (hc : c.Solid) (hf : c.From p (ts ++ rest))
    (hq : EndsStatement c (p + ts.length)) : c.QuietOn p (p + ts.length) := by
  cases h with
  | expression h hb => exact (h.harmless hf (bangFree_of_not hb) hq.follow).quiet
  | @declaration k ts hk h hne =>
    have hend : ∀ w ∈ [";", "\x7d", ""], w ∉ [":", "!"] := by decide
    rw [end_cons] at hq
    have hspans := h.declaratorSpans hne hc hf.tail (hend _ hq)
    exact .cons (hf.quiet_declarator hk hspans) (h.quietOn hf.tail hq.follow)
  | giveBack hr => exact (hf.quiet_keyword hr (by decide)).on
  | @giveBackValue r ts hr h =>
    rw [end_cons] at hq
    have hvalue := h.harmless hf.tail
      (bangFree_after (hf.endsExpression_keyword hr (by decide))) hq.follow
    exact .cons (hf.quiet_keyword hr (by decide)) hvalue.quiet
  | importEffects hi hm =>
    exact .cons (hf.quiet_keyword hi (by decide))
      (hf.tail.quiet_solid (by simp [hm]) (by simp [hm]) (by simp [hm])).on
  | importDefault hi hd hfrom hm =>
    exact .cons (hf.quiet_keyword hi (by decide))
      (.cons (hf.tail.quiet_plain hd) (hf.tail.tail.quietOn_source hfrom hm))
  | importClause hi h hfrom hm =>
    rw [List.cons_append, List.append_assoc] at hf
    refine .cons (hf.quiet_keyword hi (by decide)) (.append (h.quietOn hf.tail fun hbrace => ?_)
      (hf.tail.append.quietOn_source hfrom hm))
    simp [opensClause, hbrace, hf.word, hi.1, hi.2]
  | importBoth hi hd hs h hfrom hm =>
    simp only [List.cons_append, List.append_assoc] at hf
    have hclause := hf.tail.tail.tail
    refine .cons (hf.quiet_keyword hi (by decide)) (.cons (hf.tail.quiet_plain hd)
      (.cons (hf.tail.tail.quiet_punct hs (by decide)) (.append (h.quietOn hclause fun hbrace => ?_)
        (hclause.append.quietOn_source hfrom hm))))
    simp [opensClause, hbrace, hf.word, hi.1, hi.2, hf.tail.tail.punct, hs.1, hs.2]
  | exportClause he h => exact h.quietOn_export he hf
  | @exportFrom e ts f m he h hfrom hm =>
    have hf' : c.From p (e :: ts ++ ([f, m] ++ rest)) := by simpa using hf
    exact .append (h.quietOn_export he hf') (hf'.append.quietOn_source hfrom hm)
  | @exportDefault e d ts he hd h =>
    rw [end_cons, end_cons] at hq
    have hvalue := h.harmless hf.tail.tail
      (bangFree_after (hf.tail.endsExpression_keyword hd (by decide))) hq.follow
    exact .cons (hf.quiet_export he fun _ => by rw [hd.2]; decide)
      (.cons (hf.tail.quiet_keyword hd (by decide)) hvalue.quiet)

theorem IsSimple.begins (h : IsSimple ts) : ∃ t us, ts = t :: us ∧ Begins t := by
  cases h with
  | expression h _ => exact h.begins
  | declaration hk _ _ =>
    obtain ⟨s, -, hk⟩ := hk
    exact ⟨_, _, rfl, .inl hk.word.solid⟩
  | giveBack h | giveBackValue h _ | importEffects h _ | importDefault h _ _ _
  | importClause h _ _ _ | importBoth h _ _ _ _ _ | exportClause h _ | exportFrom h _ _ _
  | exportDefault h _ _ => exact ⟨_, _, rfl, .inl h.word.solid⟩

theorem IsStatement.begins (h : IsStatement .one ts) : ∃ t us, ts = t :: us ∧ Begins t := by
  cases h with
  | simple h _ =>
    obtain ⟨t, us, rfl, ht⟩ := h.begins
    exact ⟨t, _, rfl, ht⟩
  | block ho _ _ => exact ⟨_, _, rfl, .inr ⟨_, by simp, ho⟩⟩
  | function h _ _ _ _ _ _ _ | exported h _ _ | exportedDefault h _ _ _ | ifThen h _ _ _ _
  | ifElse h _ _ _ _ _ _ | loop h _ _ _ _ | forOf h _ _ _ _ _ _ _ =>
    exact ⟨_, _, rfl, .inl h.word.solid⟩
  | labelled h _ _ => exact ⟨_, _, rfl, .inl h.solid⟩

/-- No arrow and no return type stands before a statement. -/
theorem IsStatement.text_first (h : IsStatement .one ts) (hc : c.Solid)
    (hf : c.From p (ts ++ rest)) : c.text p ∉ ["=>", ":"] := by
  obtain ⟨t, us, rfl, ht⟩ := h.begins
  rcases ht with ht | ⟨s, hs, ht⟩
  · intro hm
    exact hf.notMem_codeMarks hc ht ((by decide : ∀ w ∈ ["=>", ":"], w ∈ codeMarks) _ hm)
  · rw [hf.text, ht.2]
    exact (by decide : ∀ s ∈ ["(", "[", "\x7b", "!"], s ∉ ["=>", ":"]) s hs

/-- A word, the brackets after it and the statement that they govern. -/
theorem quietOn_governed {k o z : Token} {s : String} {us : List Token}
    (hf : c.From p (k :: o :: (ts ++ z :: (us ++ rest)))) (hk : k.IsKeyword s)
    (hs : s ∈ ["if", "while", "for"]) (ho : o.IsPunct "(") (hts : Balanced ts) (hz : z.IsPunct ")")
    (hus : IsStatement .one us) (hc : c.Solid)
    (hin : c.QuietOn (p + 1 + 1) (p + 1 + 1 + ts.length))
    (hbody : c.QuietOn (p + 1 + 1 + ts.length + 1) (p + 1 + 1 + ts.length + 1 + us.length)) :
    c.QuietOn p (p + (k :: o :: (ts ++ z :: us)).length) := by
  have hwords : ∀ s ∈ ["if", "while", "for"],
      s ∉ activeWords ∧ s ∉ ["function", "catch", "get", "set"] := by decide
  have hround := hf.tail.tail.append
  have hopen : c.QuietOn (p + 1) (p + 1 + 1) := by
    intro i hi hi'
    obtain rfl : i = p + 1 := by omega
    exact hf.visits_header hk (hwords s hs).2 ho hts hz (hus.text_first hc hround.tail)
  have hheader : c.QuietOn p (p + [k, o].length) :=
    (hf.quiet_keyword hk (hwords s hs).1).on.trans hopen
  exact .append hheader (.append hin (.cons (hround.quiet_punct hz (by decide)) hbody))

/-- A condition in brackets. -/
theorem quietOn_condition {o z : Token} (hf : c.From p (o :: (ts ++ z :: rest)))
    (ho : o.IsPunct "(") (h : IsExpression .single ts) (hz : z.IsPunct ")") :
    c.QuietOn (p + 1) (p + 1 + ts.length) :=
  (h.harmless hf.tail (bangFree_after (hf.endsExpression_punct ho (by decide)))
    (hf.tail.append.follow_punct hz (by decide))).quiet

theorem IsTarget.balanced (h : IsTarget ts) : Balanced ts := by
  cases h with
  | declared hk h =>
    obtain ⟨s, -, hk⟩ := hk
    exact .cons (balanced_solid hk.word.solid) h.balanced
  | place h => exact h.balanced

theorem IsTarget.quietOn (h : IsTarget ts) (hc : c.Solid) (hf : c.From p (ts ++ rest))
    (hbang : c.BangFree p ts) (hq : c.text (p + ts.length) = "of") :
    c.QuietOn p (p + ts.length) := by
  have hfollow : c.Follow (p + ts.length) := follow_of_text (by rw [hq]; decide)
  cases h with
  | @declared k ts hk h =>
    rw [end_cons] at hq hfollow
    obtain ⟨last, hlast, hstop⟩ := h.bindingLast hc hf.tail
    have hspans : c.declaratorSpans p = [] :=
      declaratorSpans_eq_nil hlast (by rw [hstop, hq]; decide)
    exact .cons (hf.quiet_declarator hk hspans) (h.quietOn hf.tail hfollow)
  | place h => exact (h.harmless hf hbang hfollow).quiet

theorem IsStatement.quietOn {part : StatementPart} (h : IsStatement part ts) (hc : c.Solid)
    (hf : c.From p (ts ++ rest)) (hq : part = .many → EndsStatement c (p + ts.length)) :
    c.QuietOn p (p + ts.length) := by
  induction h generalizing p rest with
  | simple h hs =>
    rw [List.append_assoc] at hf
    have hend := hf.append
    exact .append (h.quietOn hc hf (by simp [EndsStatement, hend.text, hs.2]))
      (hend.quiet_punct hs (by decide)).on
  | block ho _ hz ih =>
    rw [List.cons_append, List.append_assoc] at hf
    have hend := hf.tail.append
    exact .cons (hf.quiet_punct ho (by decide)) (.append
      (ih hf.tail fun _ => by simp [EndsStatement, hend.text, hz.2])
      (hend.quiet_punct hz (by decide)).on)
  | function hkey hn ho hps hz hb _ he ih =>
    simp only [List.cons_append, List.append_assoc] at hf
    have hopen := hf.tail.tail
    have hround := hopen.tail.append
    have hend := hround.tail.tail.append
    have hparameters := hopen.quiet_parameters ho hps.balanced hz hb
      (hps.parameterSpans_items hc hopen.tail rfl)
    have hbody := ih hround.tail.tail fun _ => by simp [EndsStatement, hend.text, he.2]
    exact .cons (hf.quiet_keyword hkey (by decide)) (.cons (hf.tail.quiet_plain hn)
      (.cons hparameters (.append (hps.quietOn hopen.tail (hround.follow_punct hz (by decide)))
        (.cons (hround.quiet_punct hz (by decide))
          (.cons (hround.tail.quiet_punct hb (by decide))
            (.append hbody (hend.quiet_punct he (by decide)).on))))))
  | exported he hk _ ih =>
    refine .cons (hf.quiet_export he fun _ => ?_) (ih hf.tail nofun)
    rcases hk with ⟨s, hs, hk⟩ | hk
    · rw [hk.2]
      exact (by decide : ∀ s ∈ ["const", "let", "var"], s ∉ declarationWords) s hs
    · rw [hk.2]
      decide
  | exportedDefault he hd _ _ ih =>
    exact .cons (hf.quiet_export he fun _ => by rw [hd.2]; decide)
      (.cons (hf.tail.quiet_keyword hd (by decide)) (ih hf.tail.tail nofun))
  | ifThen hk ho hes hz h ih | loop hk ho hes hz h ih =>
    simp only [List.cons_append, List.append_assoc] at hf
    exact quietOn_governed hf hk (by decide) ho hes.balanced hz h hc
      (quietOn_condition hf.tail ho hes hz) (ih hf.tail.tail.append.tail nofun)
  | @ifElse i o es z ts e us hi ho hes hz h he _ ih ihu =>
    have hf' : c.From p (i :: o :: (es ++ z :: ts) ++ e :: (us ++ rest)) := by simpa using hf
    have helse := hf'.append
    simp only [List.cons_append, List.append_assoc] at hf
    have hthen := quietOn_governed hf hi (by decide) ho hes.balanced hz h hc
      (quietOn_condition hf.tail ho hes hz) (ih hf.tail.tail.append.tail nofun)
    have hboth := hthen.append (.cons (t := e) (helse.quiet_keyword he (by decide))
      (ihu helse.tail nofun))
    simpa using hboth
  | @forOf f o xs w t es z ts hkey ho hxs hw hes hbang hz h ih =>
    have hf' : c.From p (f :: o :: ((xs ++ w :: t :: es) ++ z :: (ts ++ rest))) := by
      simpa using hf
    have hhead : c.From (p + 1 + 1) (xs ++ (w :: t :: es ++ z :: (ts ++ rest))) := by
      simpa using hf'.tail.tail
    have hof := hhead.append
    have hname : c.isName (p + 1 + 1 + xs.length) = true := by
      rcases hw.1 with hk | hk <;> simp [hof.isName, hk]
    have htarget := hxs.quietOn hc hhead
      (bangFree_after (hf'.tail.endsExpression_punct ho (by decide))) (by rw [hof.text, hw.2])
    have hword : c.Quiet (p + 1 + 1 + xs.length) :=
      quiet_word hname (by rw [hof.text, hw.2]; decide)
    have hvalue := hes.harmless hof.tail (bangFree_of_not hbang)
      (hof.tail.append.follow_punct hz (by decide))
    have hbal : Balanced (xs ++ w :: t :: es) :=
      hxs.balanced.append (.cons (balanced_solid hw.solid) hes.balanced)
    have hloop := quietOn_governed hf' hkey (by decide) ho hbal hz h hc
      (htarget.append (.cons hword hvalue.quiet)) (ih hf'.tail.tail.append.tail nofun)
    simpa using hloop
  | labelled hl hd _ ih =>
    exact .cons (hf.quiet_plain hl)
      (.cons (hf.tail.quiet_punct hd (by decide)) (ih hf.tail.tail nofun))
  | none => exact quietOn_refl
  | more _ _ ih ihu =>
    rw [List.append_assoc] at hf
    rw [List.length_append, ← Nat.add_assoc] at hq
    exact .append (ih hf nofun) (ihu hf.append hq)
  | last h => exact h.quietOn hc hf (hq rfl)

/-! ### Programs -/

theorem laidOut_kept (k : Nat) (ts : List Token) :
    laidOut (fun _ => false) k ts = ts.flatMap fun t => t.text.toList := by
  induction ts generalizing k with
  | nil => rfl
  | cons t ts ih =>
    unfold laidOut
    split <;> simp [shown, ih]

/-- The tokens of a program without types are all kept. -/
theorem IsStatement.erasure (h : IsStatement .many ts) (hc : (Code.ofTokens ts).Solid) :
    (Code.ofTokens ts).erasure = some [] := by
  have hf : (Code.ofTokens ts).From 0 (ts ++ []) := by simp [From, Code.ofTokens]
  have hend : EndsStatement (Code.ofTokens ts) (0 + ts.length) := by
    simp [EndsStatement, Code.text, Code.ofTokens]
  have hquiet := h.quietOn hc hf fun _ => hend
  have hsize : 0 + ts.length = (Code.ofTokens ts).size := by simp [Code.size, Code.ofTokens]
  exact (hsize ▸ hquiet).erasureFrom

/-- Erasure of types leaves a program without types as it is. -/
theorem eraseTypes_plain {source : String}
    (h : IsStatement .many (significant (tokenize .ts source))) :
    eraseTypes .ts source = some source := by
  have herasure := h.erasure (solid_tokenize source)
  have hkept : (Code.ofTokens (significant (tokenize .ts source))).isErased [] =
      fun _ => false := by
    funext k
    simp [Code.isErased]
  rw [eraseTypes_eq rfl, herasure, Option.map_some, hkept, laidOut_kept, tokenize_texts,
    String.ofList_toList]

def defaultedFunction : String :=
  "import \x7b a as b \x7d from \"m\"; " ++
    "function f(x = b ? a(1) : \x7b k: !b \x7d) \x7b return x; \x7d"

def defaultedTokens : List Token :=
  [onFirstLine .keyword "import" 0, onFirstLine .punctuator "\x7b" 7,
    onFirstLine .identifier "a" 9, onFirstLine .keyword "as" 11, onFirstLine .identifier "b" 14,
    onFirstLine .punctuator "\x7d" 16, onFirstLine .keyword "from" 18,
    onFirstLine .string "\"m\"" 23, onFirstLine .punctuator ";" 26,
    onFirstLine .keyword "function" 28, onFirstLine .identifier "f" 37,
    onFirstLine .punctuator "(" 38, onFirstLine .identifier "x" 39, onFirstLine .punctuator "=" 41,
    onFirstLine .identifier "b" 43, onFirstLine .punctuator "?" 45, onFirstLine .identifier "a" 47,
    onFirstLine .punctuator "(" 48, onFirstLine .number "1" 49, onFirstLine .punctuator ")" 50,
    onFirstLine .punctuator ":" 52, onFirstLine .punctuator "\x7b" 54,
    onFirstLine .identifier "k" 56, onFirstLine .punctuator ":" 57, onFirstLine .punctuator "!" 59,
    onFirstLine .identifier "b" 60, onFirstLine .punctuator "\x7d" 62,
    onFirstLine .punctuator ")" 63, onFirstLine .punctuator "\x7b" 65,
    onFirstLine .keyword "return" 67, onFirstLine .identifier "x" 74,
    onFirstLine .punctuator ";" 75, onFirstLine .punctuator "\x7d" 77]

theorem significant_defaultedFunction :
    significant (tokenize .ts defaultedFunction) = defaultedTokens := by
  decide +kernel

theorem isStatement_defaultedTokens : IsStatement .many defaultedTokens := by
  have punct : ∀ s n, (onFirstLine .punctuator s n).IsPunct s := fun _ _ => ⟨rfl, rfl⟩
  have keyword : ∀ s n, (onFirstLine .keyword s n).IsKeyword s := fun _ _ => ⟨rfl, rfl⟩
  have plain : ∀ s n, (onFirstLine .identifier s 0).IsPlain →
      (onFirstLine .identifier s n).IsPlain := fun _ _ h => h
  have ha := fun n => plain "a" n (by decide)
  have hb := fun n => plain "b" n (by decide)
  have hx := fun n => plain "x" n (by decide)
  have himport := IsSimple.importClause (keyword "import" 0) (.named (punct "\x7b" 7)
    (.last (.renamed (.inl (ha 9)) (keyword "as" 11).word (.inl (hb 14)))) (punct "\x7d" 16))
    (keyword "from" 18).word (m := onFirstLine .string "\"m\"" 23) rfl
  have hone : IsExpression .single [onFirstLine .number "1" 49] := .atom (.inr (.inr (.inl rfl)))
  have hcall := IsExpression.call (.atom (.inl (ha 47))) (punct "(" 48) (.last (.value hone))
    (punct ")" 50)
  have hobject := IsExpression.object (punct "\x7b" 54) (.last (.property
    (.inl (plain "k" 56 (by decide))) (punct ":" 57) (.not (punct "!" 59) (.atom (.inl (hb 60))))))
    (punct "\x7d" 62)
  have hvalue := IsExpression.conditional (.atom (.inl (hb 43))) (punct "?" 45) hcall
    (punct ":" 52) hobject
  have hreturn := IsStatement.simple (.giveBackValue (keyword "return" 67) (.atom (.inl (hx 74))))
    (punct ";" 75)
  have hfunction := IsStatement.function (keyword "function" 28) (plain "f" 37 (by decide))
    (punct "(" 38) (.last (.initialised (.element (.name (hx 39))) (punct "=" 41) hvalue))
    (punct ")" 63) (punct "\x7b" 65) (.more hreturn .none) (punct "\x7d" 77)
  have h := IsStatement.more (.simple himport (punct ";" 26)) (.more hfunction .none)
  exact h

/-- A renamed import, and a default value in which brackets, a colon and a brace
follow each other. -/
theorem eraseTypes_plain_function :
    IsStatement .many (significant (tokenize .ts defaultedFunction)) ∧
    eraseTypes .ts defaultedFunction = some defaultedFunction := by
  have h : IsStatement .many (significant (tokenize .ts defaultedFunction)) := by
    rw [significant_defaultedFunction]
    exact isStatement_defaultedTokens
  exact ⟨h, eraseTypes_plain h⟩

def regexAfterBlock : String := "if (a) \x7b\x7d /x!/.test(b);"

/-- After the brace of a block a slash divides. So the exclamation mark in this
regular expression follows a name, and is taken for an assertion. -/
theorem eraseTypes_regex_after_block :
    eraseTypes .ts regexAfterBlock = some "if (a) \x7b\x7d /x /.test(b);" ∧
    eraseTypes .ts regexAfterBlock ≠ some regexAfterBlock := by
  have h : eraseTypes .ts regexAfterBlock = some "if (a) \x7b\x7d /x /.test(b);" := by
    decide +kernel
  exact ⟨h, by rw [h]; decide⟩

end Retouch.Plain
