import Retouch.Proofs.ErasurePass

/-! Erasing a typed program keeps the program without its types. Expressions,
parameters and statements are crossed by the pass as their grammar says, and a
program is a list of statements. -/

namespace Retouch.Erase
open Retouch.Syntax Code

variable {c : Code} {p : Nat} {rest : List Token}

/-! ### Expressions -/

theorem IsExpression.crosses {part : ExpressionPart} {ps : List Piece} (h : IsExpression part ps)
    (hf : c.From p (tokensOf ps ++ rest)) (hclear : c.Clear p)
    (hstop : c.text (p + ps.length) ∉ ["=>", ":", "\x7b"]) : c.Crosses p ps fun _ => false := by
  induction h generalizing p rest with
  | name ht => exact hf.crosses_keep rfl (hf.quiet_plain ht)
  | literal ht => exact hf.crosses_keep rfl (hf.quiet_literal ht)
  | @call f o as z hfun ho has hz ih =>
    have hf' : c.From p (f :: o :: (tokensOf as ++ z :: rest)) := by simpa using hf
    have hend := hf'.tail.tail.append
    have hclear₁ := (hclear.cons hf' hfun.inert.balanced).punct hf'.tail ho (by decide)
    have hgroup : c.Quiet (p + 1) := by
      refine hf'.tail.quiet_group ho has.balanced hz ?_
      rwa [List.length_map, show p + 1 + 1 + as.length + 1 =
        p + (keep f :: keep o :: (as ++ [keep z])).length by simp; omega]
    rw [List.length_map] at hend
    refine .cons (hf'.crosses_keep rfl (hf'.quiet_plain hfun))
      (.cons (hf'.tail.crosses_keep rfl hgroup)
        (.append (ih hf'.tail.tail hclear₁ ?_)
          (hend.crosses_keep rfl (hend.quiet_punct hz (by decide)))))
    rw [hend.text, hz.2]
    decide
  | @cast o es a ts z ho hes ha ht hz ih =>
    have hf' : c.From p (o :: (tokensOf es ++ a :: (ts ++ z :: rest))) := by simpa using hf
    have hcast := hf'.tail.append
    have hend := hcast.tail.append
    have hclear₁ := hclear.punct hf' ho (by decide)
    have hclear₂ := hclear₁.append hf'.tail hes.balanced
    have hgroup : c.Quiet p := by
      have hbal : Balanced (tokensOf es ++ a :: ts) :=
        hes.balanced.append (.cons ha.inert.balanced ht.scanned.balanced)
      refine From.quiet_group (by simpa using hf) ho hbal hz ?_
      rwa [show p + 1 + (tokensOf es ++ a :: ts).length + 1 =
        p + (keep o :: (es ++ (hide (a :: ts) ++ [keep z]))).length by simp; omega]
    obtain ⟨t, hlast, hexp⟩ := hes.getLast?
    have hl := hf'.tail.getLast? hlast
    rw [List.length_map] at hcast hend hclear₂ hl
    refine .cons (hf'.crosses_keep rfl hgroup) (.append (ih hf'.tail hclear₁ ?_) (.append ?_ ?_))
    · rw [hcast.text, ha.2]
      decide
    · refine hcast.crosses_cast ha (by decide) (hcast.tail.typeEnd ht ?_) ht.length_pos hclear₂
        (by omega) (hl.endsExpression hexp) rfl
      rw [hend.text, hz.2]
      decide
    · rw [length_hide, List.length_cons,
        show p + 1 + es.length + (ts.length + 1) = p + 1 + es.length + 1 + ts.length by omega]
      exact hend.crosses_keep rfl (hend.quiet_punct hz (by decide))
  | none => exact .nil
  | last _ ih => exact ih hf hclear hstop
  | @more es d as hes hd _ ihe iha =>
    have hf' : c.From p (tokensOf es ++ d :: (tokensOf as ++ rest)) := by simpa using hf
    have hcomma := hf'.append
    have hclear₁ := hclear.append hf' hes.balanced
    rw [List.length_map] at hcomma hclear₁
    refine .append (ihe hf' hclear ?_)
      (.cons (hcomma.crosses_keep rfl (hcomma.quiet_punct hd (by decide)))
        (iha hcomma.tail (hclear₁.punct hcomma hd (by decide)) ?_))
    · rw [hcomma.text, hd.2]
      decide
    · rwa [show p + es.length + 1 + as.length = p + (es ++ keep d :: as).length by simp; omega]

/-- In a default value nothing is an annotation. -/
theorem IsExpression.parameterSpans {es : List Piece} (h : IsExpression .single es)
    (hlex : c.Lexed) (hf : c.From p (tokensOf es ++ rest)) {close : Nat}
    (hp : p + es.length ≤ close) :
    c.parameterSpans close p .default = c.parameterSpans close (p + es.length) .default := by
  cases h with
  | name ht =>
    simp only [List.length_cons, List.length_nil] at hp ⊢
    exact parameterSpans_skip (by omega) (by decide) (hf.notMem_listMarks hlex (Or.inl ht.1))
  | literal ht =>
    simp only [List.length_cons, List.length_nil] at hp ⊢
    exact parameterSpans_skip (by omega) (by decide)
      (hf.notMem_listMarks hlex (Or.inr (Or.inr ht)))
  | @call f o as z hfun ho has hz =>
    have hf' : c.From p (f :: o :: (tokensOf as ++ z :: rest)) := by simpa using hf
    have hpartner := hf'.tail.partner_closer (ho.opens .round) has.balanced (hz.closes .round)
    simp only [List.length_cons, List.length_append, List.length_nil] at hp ⊢
    rw [parameterSpans_skip (by omega) (by decide) (hf'.notMem_listMarks hlex (Or.inl hfun.1)),
      parameterSpans_group (by omega) (by decide) (by simp [hf'.tail.text, ho.2]) hpartner,
      List.length_map]
    congr 1
    omega
  | @cast o es a ts z ho hes ha ht hz =>
    have hbal : Balanced (tokensOf es ++ a :: ts) :=
      hes.balanced.append (.cons ha.inert.balanced ht.scanned.balanced)
    have hf' : c.From p (o :: ((tokensOf es ++ a :: ts) ++ z :: rest)) := by simpa using hf
    have hpartner := hf'.partner_closer (ho.opens .round) hbal (hz.closes .round)
    simp only [List.length_cons, List.length_append, List.length_nil, length_hide] at hp ⊢
    rw [parameterSpans_group (by omega) (by decide) (by simp [hf'.text, ho.2]) hpartner,
      List.length_append, List.length_map, List.length_cons]
    congr 1
    omega

/-! ### Parameters -/

/-- The scan of a parameter list erases `spans` of these pieces ahead, and the pass
does the rest. -/
structure Announced (c : Code) (p : Nat) (ps : List Piece) (spans : Erasure) : Prop where
  hidden : ∀ {k : Nat}, spans.covers k = true → hides ps p k = true
  crosses : c.Crosses p ps spans.covers

theorem Announced.covers_eq_false {ps : List Piece} {spans : Erasure}
    (h : Announced c p ps spans) {k : Nat} (hk : k < p ∨ p + ps.length ≤ k) :
    spans.covers k = false := by
  refine Bool.eq_false_iff.mpr fun hc => ?_
  have := hides_bounds (h.hidden hc)
  omega

theorem Announced.none {ps : List Piece} (h : c.Crosses p ps fun _ => false) :
    Announced c p ps [] where
  hidden hk := by cases hk
  crosses := h

theorem Announced.append {xs ys : List Piece} {spans spans' : Erasure}
    (hx : Announced c p xs spans) (hy : Announced c (p + xs.length) ys spans') :
    Announced c p (xs ++ ys) (spans ++ spans') where
  hidden {k} hk := by
    rw [Erasure.covers_append, Bool.or_eq_true] at hk
    rw [hides_append, Bool.or_eq_true]
    exact hk.imp hx.hidden hy.hidden
  crosses := by
    refine .append (hx.crosses.congr fun k _ hk => ?_) (hy.crosses.congr fun k hk _ => ?_)
    · rw [Erasure.covers_append, hy.covers_eq_false (Or.inl hk), Bool.or_false]
    · rw [Erasure.covers_append, hx.covers_eq_false (Or.inr hk), Bool.false_or]

theorem Announced.keep_cons {t : Token} {ys : List Piece} {spans : Erasure}
    (hf : c.From p (t :: rest)) (hq : c.Quiet p) (hy : Announced c (p + 1) ys spans) :
    Announced c p (keep t :: ys) spans :=
  (Announced.none (hf.crosses_keep rfl hq)).append hy

/-- A kept name and the annotation behind it. -/
theorem announced_name {x : Token} {as : List Token} {spans : Erasure}
    (hf : c.From p (x :: (as ++ rest))) (hx : x.IsPlain)
    (hs : ∀ k, spans.covers k = (p + 1 ≤ k && k < p + 1 + as.length)) :
    Announced c p (keep x :: hide as) spans where
  hidden {k} hk := by rwa [hides_keep, hides_hide, ← hs]
  crosses := by
    refine .cons (hf.crosses_keep ?_ (hf.quiet_plain hx))
      (hf.tail.crosses_hidden fun k hk hk' => ?_)
    · simp [hs, show ¬ p + 1 ≤ p by omega]
    · simp [hs, hk, hk']

theorem IsParameter.announced {ps : List Piece} (h : IsParameter ps) (hlex : c.Lexed)
    (hf : c.From p (tokensOf ps ++ rest)) (hclear : c.Clear p) (close : Nat)
    (hp : p + ps.length ≤ close) (hstop : c.text (p + ps.length) ∈ [",", ")"]) :
    ∃ spans state, state ≠ ParameterState.front ∧
      c.parameterSpans close p .front =
        spans ++ c.parameterSpans close (p + ps.length) state ∧ Announced c p ps spans := by
  have hjoint : c.text (p + ps.length) ∉ typeJoints := by
    simp only [List.mem_cons, List.not_mem_nil, or_false] at hstop
    rcases hstop with h | h <;> rw [h] <;> decide
  cases h with
  | @annotated x d ts hx hd ht =>
    replace hf : c.From p (x :: d :: (ts ++ rest)) := by simpa using hf
    simp only [List.length_cons, length_hide] at hp hjoint ⊢
    have hlen : p + (ts.length + 1 + 1) = p + 1 + 1 + ts.length := by omega
    rw [hlen] at hjoint ⊢
    refine ⟨[.upTo (p + 1) (p + 1 + 1 + ts.length)], .name, by decide, ?_, ?_⟩
    · rw [hf.parameterSpans_name hx hlex (by omega),
        parameterSpans_colon (by omega) (by rw [hf.tail.text, hd.2]),
        hf.tail.tail.typeEnd ht hjoint]
      rfl
    · refine announced_name hf hx fun k => ?_
      rw [covers_upTo (by omega), List.length_cons,
        show p + 1 + 1 + ts.length = p + 1 + (ts.length + 1) by omega]
  | @optional x q d ts hx hq hd ht =>
    replace hf : c.From p (x :: q :: d :: (ts ++ rest)) := by simpa using hf
    simp only [List.length_cons, length_hide] at hp hjoint ⊢
    have hlen : p + (ts.length + 1 + 1 + 1) = p + 1 + 1 + 1 + ts.length := by omega
    rw [hlen] at hjoint ⊢
    refine ⟨[.single (p + 1), .upTo (p + 1 + 1) (p + 1 + 1 + 1 + ts.length)], .name, by decide,
      ?_, ?_⟩
    · rw [hf.parameterSpans_name hx hlex (by omega),
        parameterSpans_question (by omega) (by rw [hf.tail.text, hq.2])
          (by rw [hf.tail.tail.text, hd.2]),
        parameterSpans_colon (by omega) (by rw [hf.tail.tail.text, hd.2]),
        hf.tail.tail.tail.typeEnd ht hjoint]
      rfl
    · refine announced_name hf hx fun k => ?_
      rw [covers_single_upTo (by omega), List.length_cons, List.length_cons,
        show p + 1 + 1 + 1 + ts.length = p + 1 + (ts.length + 1 + 1) by omega]
  | @defaulted x d ts e es hx hd ht he hes =>
    replace hf : c.From p (x :: d :: (ts ++ e :: (tokensOf es ++ rest))) := by simpa using hf
    simp only [List.length_cons, List.length_append, length_hide] at hp hstop ⊢
    have hequals := hf.tail.tail.append
    have htype := hf.tail.tail.typeEnd ht (by rw [hequals.text, he.2]; decide)
    have hann : Announced c p (keep x :: hide (d :: ts))
        [.upTo (p + 1) (p + 1 + 1 + ts.length)] := by
      refine announced_name hf hx fun k => ?_
      rw [covers_upTo (by omega), List.length_cons,
        show p + 1 + 1 + ts.length = p + 1 + (ts.length + 1) by omega]
    have hbal := Balanced.cons hx.inert.balanced (.cons hd.balanced ht.scanned.balanced)
    have hf' : c.From p ((x :: d :: ts) ++ e :: (tokensOf es ++ rest)) := hf
    have hclear₁ := hclear.append hf' hbal
    have hlen : p + (x :: d :: ts).length = p + 1 + 1 + ts.length := by simp; omega
    have hlen' : p + (keep x :: hide (d :: ts)).length = p + 1 + 1 + ts.length := by simp; omega
    rw [hlen] at hclear₁
    have hvalue : c.Crosses (p + 1 + 1 + ts.length) (keep e :: es) fun _ => false := by
      refine .cons (hequals.crosses_keep rfl (hequals.quiet_punct he (by decide)))
        (hes.crosses hequals.tail (hclear₁.punct hequals he (by decide)) ?_)
      rw [show p + 1 + 1 + ts.length + 1 + es.length =
        p + (ts.length + 1 + (es.length + 1) + 1) by omega]
      simp only [List.mem_cons, List.not_mem_nil, or_false] at hstop
      rcases hstop with h | h <;> rw [h] <;> decide
    refine ⟨_, .default, by decide, ?_, hann.append (.none (hlen' ▸ hvalue))⟩
    rw [hf.parameterSpans_name hx hlex (by omega),
      parameterSpans_colon (by omega) (by rw [hf.tail.text, hd.2]), htype,
      parameterSpans_equals (by omega) (by decide) (by rw [hequals.text, he.2]),
      hes.parameterSpans hlex hequals.tail (by omega),
      show p + 1 + 1 + ts.length + 1 + es.length =
        p + (ts.length + 1 + (es.length + 1) + 1) by omega]
    rfl

theorem IsParameters.announced {ps : List Piece} (h : IsParameters ps) (hlex : c.Lexed)
    (hf : c.From p (tokensOf ps ++ rest)) (hclear : c.Clear p) {close : Nat}
    (hp : p + ps.length = close) (hstop : c.text close = ")") :
    Announced c p ps (c.parameterSpans close p .front) := by
  induction h generalizing p with
  | none =>
    obtain rfl : p = close := hp
    rw [parameterSpans_close]
    exact .none .nil
  | last h =>
    obtain ⟨spans, state, -, he, ha⟩ := h.announced hlex hf hclear close (by omega)
      (by rw [hp, hstop]; decide)
    rw [hp, parameterSpans_close, List.append_nil] at he
    rwa [he]
  | @more ps d qs h hd _ ih =>
    replace hf : c.From p (tokensOf ps ++ d :: (tokensOf qs ++ rest)) := by simpa using hf
    simp only [List.length_cons, List.length_append] at hp
    have hcomma := hf.append
    have hclear₁ := hclear.append hf h.balanced
    rw [List.length_map] at hcomma hclear₁
    obtain ⟨spans, state, hs, he, ha⟩ := h.announced hlex hf hclear close (by omega)
      (by rw [hcomma.text, hd.2]; decide)
    have hrest := ih hcomma.tail (hclear₁.punct hcomma hd (by decide)) (by omega)
    rw [he, parameterSpans_comma (by omega) hs (by rw [hcomma.text, hd.2])]
    exact ha.append (Announced.append (.none (hcomma.crosses_keep rfl
      (hcomma.quiet_punct hd (by decide)))) hrest)

/-! ### Functions -/

/-- A visit that knows what is erased before it, and announces what goes behind it. -/
theorem Announced.crosses_visit {xs ys : List Piece} {o : Token} {spans : Erasure}
    (hx : c.Crosses p xs fun _ => false) (hf : c.From (p + xs.length) (o :: rest))
    (hv : ∀ e : Erasure, (∀ k, p ≤ k → k < p + xs.length → e.covers k = hides xs p k) →
      c.Visits e (p + xs.length) spans (p + xs.length + 1))
    (hy : Announced c (p + xs.length + 1) ys spans) :
    c.Crosses p (xs ++ keep o :: ys) fun _ => false := by
  intro e he
  rw [List.length_append, List.length_cons] at he ⊢
  obtain ⟨e₁, h₁, hc₁⟩ := hx e fun k hk hk' => he k hk (by omega)
  have hfree : ∀ k, p + xs.length ≤ k → k < p + (xs.length + (ys.length + 1)) →
      e₁.covers k = false := by
    intro k hk hk'
    rw [hc₁, he k (by omega) hk', hides_eq_false (Or.inr hk)]
    rfl
  have hvisit := hv e₁ fun k hk hk' => by rw [hc₁, he k hk (by omega), Bool.false_or]
  obtain ⟨e₂, h₂, hc₂⟩ := hy.crosses (spans ++ e₁) fun k hk hk' => by
    rw [Erasure.covers_append, hfree k (by omega) (by omega), Bool.or_false]
  refine ⟨e₂, ?_, fun k => ?_⟩
  · rw [h₁, hvisit.erasureFrom hf.lt_size (hfree _ (by omega) (by omega)), h₂]
    congr 1
    omega
  · rw [hc₂, Erasure.covers_append, hc₁, hides_append, hides_keep]
    -- what the visit announces is hidden behind it anyway
    by_cases hs : spans.covers k = true
    · simp [hy.hidden hs]
    · simp [hs, Bool.or_assoc]

theorem Announced.crosses_front {ys : List Piece} {o : Token} {spans : Erasure}
    (hf : c.From p (o :: rest)) (hv : ∀ e, c.Visits e p spans (p + 1))
    (hy : Announced c (p + 1) ys spans) : c.Crosses p (keep o :: ys) fun _ => false := by
  have h := Announced.crosses_visit Crosses.nil hf (fun e _ => hv e) hy
  exact h

theorem IsGenerics.crosses {gs : List Token} (h : IsGenerics gs) {f o : Token}
    (hf : c.From p (f :: (gs ++ o :: rest))) (hk : f.kind = .identifier) (ho : o.IsPunct "(") :
    c.Crosses (p + 1) (hide gs) fun _ => false := by
  cases h with
  | none => exact .nil
  | declared hl hg => exact hf.crosses_generics hk hl hg.scanned ho rfl

/-- An annotation that is erased as a whole. -/
theorem announced_hidden {ts : List Token} {stop : Nat} (hf : c.From p (ts ++ rest))
    (hts : 0 < ts.length) (hs : stop = p + ts.length) :
    Announced c p (hide ts) [.upTo p stop] := by
  have hcov := fun k => covers_upTo (show p < stop by omega) k
  subst hs
  refine ⟨fun {k} hk => ?_, hf.crosses_hidden fun k hk hk' => ?_⟩
  · rwa [hides_hide, ← hcov]
  · simp [hcov, hk, hk']

/-- Before the parameter list the name of the function is the last kept token. -/
theorem declaresFunction_header {k f : Token} {gs : List Token} {e : Erasure}
    (hf : c.From (p + 1) (f :: rest)) (hname : f.IsPlain)
    (he : ∀ i, p ≤ i → i < p + (keep k :: keep f :: hide gs).length →
      e.covers i = hides (keep k :: keep f :: hide gs) p i) :
    c.declaresFunction e (p + 1 + 1 + gs.length) = true := by
  rw [show p + (keep k :: keep f :: hide gs).length = p + 1 + 1 + gs.length by simp; omega] at he
  have hkept : lastKept e (p + 1 + 1 + gs.length) = some (p + 1) := by
    refine lastKept_eq (by omega) ?_ fun i hi hi' => ?_
    · rw [he (p + 1) (by omega) (by omega), hides_keep, hides_keep, hides_eq_false]
      omega
    · rw [he i (by omega) hi', hides_keep, hides_keep, hides_hide]
      simp [show p + 1 + 1 ≤ i by omega, hi']
  simp [declaresFunction, hkept, hf.kind?, hname.1]

/-- The brace of a body opens no list of specifiers, because a type stands before
it. -/
theorem clear_body {o z d b : Token} {us ts : List Token} (hclear : c.Clear p)
    (hf : c.From p (o :: (us ++ z :: d :: (ts ++ b :: rest)))) (ho : o.IsPunct "(")
    (hu : Balanced us) (hz : z.IsPunct ")") (hd : d.IsPunct ":") (ht : IsType .whole 0 ts) :
    c.Clear (p + 1 + us.length + 1 + 1 + ts.length + 1) := by
  have hbal : Balanced ((o :: (us ++ [z])) ++ d :: ts) :=
    (Balanced.bracketed (ho.opens .round) (hz.closes .round) hu).append
      (.cons hd.balanced ht.scanned.balanced)
  have hf' : c.From p (((o :: (us ++ [z])) ++ d :: ts) ++ b :: rest) := by simpa using hf
  have hclear' := hclear.append hf' hbal
  rw [show p + ((o :: (us ++ [z])) ++ d :: ts).length = p + 1 + us.length + 1 + 1 + ts.length by
    simp; omega] at hclear'
  obtain ⟨t, hlast, hend⟩ := ht.getLast?
  have hpos := ht.length_pos
  have hopen := (hf.tail.append.tail.tail.getLast? hlast).opensClause_eq_false hend
  rw [show p + 1 + us.length + 1 + 1 + ts.length - 1 + 1 =
    p + 1 + us.length + 1 + 1 + ts.length by omega] at hopen
  exact hclear'.succ hopen

/-- The visit of the bracket announces the annotations and the return type. -/
theorem announced_signature {o z d b : Token} {ts : List Token} {ps body : List Piece}
    (hlex : c.Lexed) (hclear : c.Clear p)
    (hf : c.From p (o :: (tokensOf ps ++ z :: d :: (ts ++ b :: (tokensOf body ++ rest)))))
    (ho : o.IsPunct "(") (hps : IsParameters ps) (hz : z.IsPunct ")") (hb : b.IsPunct "\x7b")
    (hbody : c.Crosses (p + 1 + ps.length + 1 + 1 + ts.length + 1) body fun _ => false) :
    Announced c (p + 1) (ps ++ ([keep z] ++ (hide (d :: ts) ++ keep b :: body)))
      (c.parameterSpans (p + 1 + ps.length) (p + 1) .front ++
        [.upTo (p + 1 + ps.length + 1) (p + 1 + ps.length + 2 + ts.length)]) := by
  have hround := hf.tail.append
  rw [List.length_map] at hround
  have hbrace := hround.tail.tail.append
  have hparams := hps.announced hlex hf.tail (hclear.punct hf ho (by decide)) rfl
    (by rw [hround.text, hz.2])
  have hround' : Announced c (p + 1 + ps.length) [keep z] [] :=
    .none (hround.crosses_keep rfl (hround.quiet_punct hz (by decide)))
  have hreturn : Announced c (p + 1 + ps.length + 1) (hide (d :: ts))
      [.upTo (p + 1 + ps.length + 1) (p + 1 + ps.length + 2 + ts.length)] :=
    announced_hidden hround.tail (by simp) (by simp; omega)
  have hrest : Announced c (p + 1 + ps.length + 1 + (hide (d :: ts)).length) (keep b :: body)
      [] := by
    rw [show p + 1 + ps.length + 1 + (hide (d :: ts)).length =
      p + 1 + ps.length + 1 + 1 + ts.length by simp; omega]
    exact .none (.cons (hbrace.crosses_keep rfl (hbrace.quiet_punct hb (by decide))) hbody)
  simpa using hparams.append (hround'.append (hreturn.append hrest))

theorem crosses_function {k f o z d b : Token} {gs ts : List Token}
    {ps body : List Piece} (hlex : c.Lexed) (hclear : c.Clear p)
    (hf : c.From p (k :: f :: (gs ++ o :: (tokensOf ps ++ z :: d :: (ts ++ b ::
      (tokensOf body ++ rest))))))
    (hk : k.IsKeyword "function") (hname : f.IsPlain) (hg : IsGenerics gs) (ho : o.IsPunct "(")
    (hps : IsParameters ps) (hz : z.IsPunct ")") (hd : d.IsPunct ":") (ht : IsType .whole 0 ts)
    (hb : b.IsPunct "\x7b")
    (hbody : ∀ q, c.From q (tokensOf body ++ rest) → c.Clear q → c.text (q - 1) = "\x7b" →
      c.Crosses q body fun _ => false) :
    c.Crosses p ((keep k :: keep f :: hide gs) ++ keep o :: (ps ++ ([keep z] ++
      (hide (d :: ts) ++ keep b :: body)))) fun _ => false := by
  have hheader : c.Crosses p (keep k :: keep f :: hide gs) fun _ => false :=
    .cons (hf.crosses_keep rfl (hf.quiet_keyword hk (by decide)))
      (.cons (hf.tail.crosses_keep rfl (hf.tail.quiet_plain hname))
        (hg.crosses hf.tail hname.1 ho))
  have hclear₁ : c.Clear (p + (k :: f :: gs).length) :=
    hclear.append hf (.cons hk.inert.balanced (.cons hname.inert.balanced hg.balanced))
  have hparen := hf.tail.tail.append
  have hlen : p + (keep k :: keep f :: hide gs).length = p + 1 + 1 + gs.length := by simp; omega
  have hfun := fun e => @declaresFunction_header c p _ k f gs e hf.tail hname
  rw [show p + (k :: f :: gs).length = p + 1 + 1 + gs.length by simp; omega] at hclear₁
  generalize p + 1 + 1 + gs.length = q at hparen hclear₁ hlen hfun
  have hclear₂ := clear_body hclear₁ hparen ho hps.balanced hz hd ht
  have hbrace := hparen.tail.append.tail.tail.append
  rw [List.length_map] at hclear₂ hbrace
  have hann := announced_signature hlex hclear₁ hparen ho hps hz hb
    (hbody _ hbrace.tail hclear₂ (by rw [Nat.add_sub_cancel, hbrace.text, hb.2]))
  refine Announced.crosses_visit hheader (by rwa [hlen]) (fun e he => ?_) (by rwa [hlen])
  rw [hlen]
  have hv := hparen.visits_signature ho hps.balanced hz hd ht hb (hfun e he)
  rwa [List.length_map] at hv

/-! ### Statements -/

/-- Where a statement can begin on any line. -/
def AtStatement (c : Code) (p : Nat) : Prop := p = 0 ∨ c.text (p - 1) ∈ [";", "\x7b", "\x7d"]

theorem AtStatement.startsStatement (h : AtStatement c p) : c.startsStatement p = true := by
  rcases h with h | h
  · simp [Code.startsStatement, h]
  · simp [Code.startsStatement, h]

theorem IsStatement.crosses {part : StatementPart} {ps : List Piece} (h : IsStatement part ps)
    (hlex : c.Lexed) (hf : c.From p (tokensOf ps ++ rest)) (hclear : c.Clear p)
    (hstart : AtStatement c p) : c.Crosses p ps fun _ => false := by
  induction h generalizing p rest with
  | @declared k x d ts s hk hx hd ht hs =>
    replace hf : c.From p (k :: x :: d :: (ts ++ s :: rest)) := by simpa using hf
    have hend := hf.tail.tail.tail.append
    refine .append (hf.crosses_binding hlex hk hx hd ht (by rw [hend.text, hs.2]; decide)) ?_
    rw [show p + (keep k :: keep x :: hide (d :: ts)).length = p + 1 + 1 + 1 + ts.length by
      simp; omega]
    exact hend.crosses_keep rfl (hend.quiet_punct hs (by decide))
  | @initialised k x d ts a es s hk hx hd ht ha hes hs =>
    replace hf : c.From p (k :: x :: d :: (ts ++ a :: (tokensOf es ++ s :: rest))) := by
      simpa using hf
    have hequals := hf.tail.tail.tail.append
    have hend := hequals.tail.append
    rw [List.length_map] at hend
    have hclear₁ : c.Clear (p + (k :: x :: d :: ts).length) :=
      hclear.append hf (.cons (hk.elim (·.inert.balanced) (·.inert.balanced))
        (.cons hx.inert.balanced (.cons hd.balanced ht.scanned.balanced)))
    rw [show p + (k :: x :: d :: ts).length = p + 1 + 1 + 1 + ts.length by simp; omega] at hclear₁
    refine .append (hf.crosses_binding hlex hk hx hd ht (by rw [hequals.text, ha.2]; decide)) ?_
    rw [show p + (keep k :: keep x :: hide (d :: ts)).length = p + 1 + 1 + 1 + ts.length by
      simp; omega]
    refine .cons (hequals.crosses_keep rfl (hequals.quiet_punct ha (by decide)))
      (.append (hes.crosses hequals.tail (hclear₁.punct hequals ha (by decide)) ?_)
        (hend.crosses_keep rfl (hend.quiet_punct hs (by decide))))
    rw [hend.text, hs.2]
    decide
  | @synonym k x a ts s hk hx ha ht hs =>
    rw [tokensOf_hide] at hf
    have hkeyword : k.IsKeyword "type" := by
      refine ⟨hlex.keyword hf.getElem? hf.tail.getElem? hk hx.1 (hstart.imp id fun hm => ?_), hk.2⟩
      simp only [List.mem_cons, List.not_mem_nil, or_false] at hm
      rcases hm with h | h | h <;> rw [h] <;> decide
    have hf' : c.From p (k :: x :: a :: (ts ++ s :: rest)) := by simpa using hf
    refine hf.crosses_statement hstart.startsStatement ?_ rfl
    rw [hf'.typeStatementLast_synonym hkeyword hx.1 ha ht hs]
    simp
    omega
  | @interface k x o ms z hk hx ho hm hz =>
    rw [tokensOf_hide] at hf
    have hf' : c.From p (k :: x :: o :: (ms ++ z :: rest)) := by simpa using hf
    refine hf.crosses_statement hstart.startsStatement ?_ rfl
    rw [hf'.typeStatementLast_interface hk hx.1 ho hm.balanced hz]
    simp
    omega
  | @function k f gs o ps z d ts b ss r es s e hk hname hg ho hps hz hd ht hb hss hr hes hs he ih =>
    have hf' : c.From p (k :: f :: (gs ++ o :: (tokensOf ps ++ z :: d :: (ts ++ b ::
        (tokensOf (ss ++ keep r :: (es ++ [keep s, keep e])) ++ rest))))) := by simpa using hf
    refine crosses_function hlex hclear hf' hk hname hg ho hps hz hd ht hb ?_
    intro q hq hclear₁ hopen
    replace hq : c.From q (tokensOf ss ++ r :: (tokensOf es ++ s :: e :: rest)) := by
      simpa using hq
    have hreturn := hq.append
    have hclear₂ := hclear₁.append hq hss.balanced
    rw [List.length_map] at hreturn hclear₂
    have hend := hreturn.tail.append
    rw [List.length_map] at hend
    refine .append (ih hq hclear₁ (Or.inr (by rw [hopen]; decide)))
      (.cons (hreturn.crosses_keep rfl (hreturn.quiet_keyword hr (by decide))) (.append ?_
        (.cons (hend.crosses_keep rfl (hend.quiet_punct hs (by decide)))
          (hend.tail.crosses_keep rfl (hend.tail.quiet_punct he (by decide))))))
    refine hes.crosses hreturn.tail (hclear₂.cons hreturn hr.inert.balanced) ?_
    rw [hend.text, hs.2]
    decide
  | none => exact .nil
  | @more xs ys hx hy ihx ihy =>
    replace hf : c.From p (tokensOf xs ++ (tokensOf ys ++ rest)) := by simpa using hf
    have hrest := hf.append
    have hclear₁ := hclear.append hf hx.balanced
    obtain ⟨t, hlast, hend⟩ := hx.getLast?
    have hl := hf.getLast? hlast
    rw [List.length_map] at hrest hclear₁ hl
    refine .append (ihx hf hclear hstart) (ihy hrest hclear₁ (Or.inr ?_))
    rw [hl.text]
    rcases hend with h | h <;> rw [h.2] <;> decide

/-! ### Programs -/

theorem hides_zero (ps : List Piece) (k : Nat) : hides ps 0 k = ps[k]?.any Piece.hidden := by
  simp [hides]

/-- The pass over a typed program erases its hidden tokens. -/
theorem IsStatement.erasure {ps : List Piece} (h : IsStatement .body ps) (hlex : c.Lexed)
    (hf : c.From 0 (tokensOf ps)) :
    ∃ e : Erasure, c.erasure = some e ∧ ∀ k, e.covers k = ps[k]?.any Piece.hidden := by
  have hclear : c.Clear 0 := fun o _ ho => absurd ho (Nat.not_lt_zero o)
  have hf' : c.From 0 (tokensOf ps ++ []) := by rwa [List.append_nil]
  obtain ⟨e, he, hc⟩ := h.crosses hlex hf' hclear (Or.inl rfl) [] fun k _ _ => rfl
  have hsize : c.size = ps.length := by
    have hl := congrArg List.length hf
    simpa [Code.size, tokensOf] using hl
  refine ⟨e, ?_, fun k => by rw [hc, Erasure.covers_nil, Bool.false_or, hides_zero]⟩
  rw [Code.erasure, he, Nat.zero_add, ← hsize, erasureFrom, dif_neg (Nat.lt_irrefl _)]

theorem pieces_ext {xs ys : List Piece} (ht : xs.map Piece.token = ys.map Piece.token)
    (hh : xs.map Piece.hidden = ys.map Piece.hidden) : xs = ys := by
  induction xs generalizing ys with
  | nil => exact (List.map_eq_nil_iff.mp ht.symm).symm
  | cons x xs ih =>
    cases ys with
    | nil => cases ht
    | cons y ys =>
      simp only [List.map_cons, List.cons.injEq] at ht hh
      obtain ⟨t, hid⟩ := x
      obtain ⟨t', hid'⟩ := y
      obtain rfl : t = t' := ht.1
      obtain rfl : hid = hid' := hh.1
      rw [ih ht.2 hh.2]

/-- Pieces whose indices are hidden as `ps` says are `ps` and the trivia between. -/
theorem significantPieces_pieces {erased : Nat → Bool} {ts : List Token} {ps : List Piece}
    (hs : significant ts = tokensOf ps)
    (he : ∀ k, k < ps.length → erased k = ps[k]?.any Piece.hidden) :
    significantPieces (pieces erased 0 ts) = ps := by
  have hlen : (significant ts).length = ps.length := by rw [hs, List.length_map]
  refine pieces_ext (Eq.trans ?_ hs) ?_
  · rw [significant, ← congrArg (List.filter _) (pieces_tokens erased 0 ts), List.filter_map]
    rfl
  · rw [hidden_significantPieces, hlen]
    refine List.ext_getElem (by simp) fun k hk _ => ?_
    have hk' : k < ps.length := by simpa using hk
    simp [he k hk', hk']

/-- A typed program loses its types and nothing else: of its significant tokens
exactly the hidden ones are blanked out, and trivia goes where both its neighbours
go. -/
theorem eraseTypes_program {source : String} {ps : List Piece} (h : IsStatement .body ps)
    (hs : significant (tokenize .ts source) = tokensOf ps) :
    ∃ qs : List Piece, qs.map Piece.token = tokenize .ts source ∧ significantPieces qs = ps ∧
      (∀ xs q ys, qs = xs ++ q :: ys → q.token.isTrivia = true →
        q.hidden = (lastHidden xs && firstHidden ys)) ∧
      eraseTypes .ts source = some (String.ofList (qs.flatMap Piece.text)) := by
  have hf : (Code.ofTokens (significant (tokenize .ts source))).From 0 (tokensOf ps) := by
    simp [From, Code.ofTokens, hs]
  obtain ⟨e, he, hc⟩ := h.erasure (lexed_tokenize source) hf
  let erased := (Code.ofTokens (significant (tokenize .ts source))).isErased e
  have hlen : (significant (tokenize .ts source)).length = ps.length := by
    rw [hs, List.length_map]
  refine ⟨pieces erased 0 (tokenize .ts source), pieces_tokens _ _ _,
    significantPieces_pieces hs fun k hk => ?_,
    fun xs q ys hq ht => hidden_trivia (isErased_size _ e) hq ht, ?_⟩
  · rw [← hc]
    simp [erased, Code.isErased, Code.size, Code.ofTokens, hlen, hk]
  · rw [pieces_texts]
    rw [eraseTypes_eq rfl, he, Option.map_some]

/-- A token of the first line, of ASCII characters, that starts at `column`. -/
def onFirstLine (kind : Kind) (text : String) (column : Nat) : Token :=
  ⟨kind, text, ⟨column, 1, column⟩, ⟨column + text.length, 1, column + text.length⟩⟩

def identityFunction : String := "function f<X>(x?: X): A<B<X>> \x7b return (x as T); \x7d"

/-- The tokens of `identityFunction`, with its types hidden. -/
def identityPieces : List Piece :=
  [keep (onFirstLine .keyword "function" 0), keep (onFirstLine .identifier "f" 9)] ++
  hide [onFirstLine .punctuator "<" 10, onFirstLine .identifier "X" 11,
    onFirstLine .punctuator ">" 12] ++
  [keep (onFirstLine .punctuator "(" 13), keep (onFirstLine .identifier "x" 14)] ++
  hide [onFirstLine .punctuator "?" 15, onFirstLine .punctuator ":" 16,
    onFirstLine .identifier "X" 18] ++
  [keep (onFirstLine .punctuator ")" 19)] ++
  hide [onFirstLine .punctuator ":" 20, onFirstLine .identifier "A" 22,
    onFirstLine .punctuator "<" 23, onFirstLine .identifier "B" 24,
    onFirstLine .punctuator "<" 25, onFirstLine .identifier "X" 26,
    onFirstLine .punctuator ">>" 27] ++
  [keep (onFirstLine .punctuator "\x7b" 30), keep (onFirstLine .keyword "return" 32),
    keep (onFirstLine .punctuator "(" 39), keep (onFirstLine .identifier "x" 40)] ++
  hide [onFirstLine .keyword "as" 42, onFirstLine .identifier "T" 45] ++
  [keep (onFirstLine .punctuator ")" 46), keep (onFirstLine .punctuator ";" 47),
    keep (onFirstLine .punctuator "\x7d" 49)]

theorem significant_identityFunction :
    significant (tokenize .ts identityFunction) = tokensOf identityPieces := by
  cbv

theorem isStatement_identityPieces : IsStatement .body identityPieces := by
  have punct : ∀ s n, (onFirstLine .punctuator s n).IsPunct s := fun _ _ => ⟨rfl, rfl⟩
  have keyword : ∀ s n, (onFirstLine .keyword s n).IsKeyword s := fun _ _ => ⟨rfl, rfl⟩
  have plain : ∀ s n, (onFirstLine .identifier s 0).IsPlain →
      (onFirstLine .identifier s n).IsPlain := fun _ _ h => h
  have hgenerics := IsGenerics.declared (punct "<" 10)
    (.close (.parameter (plain "X" 11 (by decide))) ⟨">", by simp, punct ">" 12⟩)
  have hparameters := IsParameters.last (.optional (plain "x" 14 (by decide)) (punct "?" 15)
    (punct ":" 16) (.ofName (plain "X" 18 (by decide))))
  -- one bracket closes both lists of the return type
  have hargument := IsType.close (n := 2) (.argument (.ofName
    (plain "X" 26 (by decide)))) ⟨">>", by simp, punct ">>" 27⟩
  have hinner := IsType.generic (.name (Or.inl (plain "B" 24 (by decide)))) (punct "<" 25) hargument
  have hreturn := IsType.ofPrimary (.generic (.name (Or.inl (plain "A" 22 (by decide))))
    (punct "<" 23) (.fused (.argument (.ofPrimary hinner))))
  have hvalue := IsExpression.cast (punct "(" 39) (.name (plain "x" 40 (by decide)))
    (keyword "as" 42).word (.ofName (plain "T" 45 (by decide))) (punct ")" 46)
  have h := IsStatement.more (.function (keyword "function" 0) (plain "f" 9 (by decide)) hgenerics
    (punct "(" 13) hparameters (punct ")" 19) (punct ":" 20) hreturn (punct "\x7b" 30) .none
    (keyword "return" 32) hvalue (punct ";" 47) (punct "\x7d" 49)) .none
  exact h

/-- Type parameters, an optional parameter, a return type with fused brackets and a
cast, in one function. -/
theorem eraseTypes_program_function :
    IsStatement .body identityPieces ∧
    significant (tokenize .ts identityFunction) = tokensOf identityPieces ∧
    ∃ qs : List Piece, qs.map Piece.token = tokenize .ts identityFunction ∧
      significantPieces qs = identityPieces ∧
      (∀ xs q ys, qs = xs ++ q :: ys → q.token.isTrivia = true →
        q.hidden = (lastHidden xs && firstHidden ys)) ∧
      eraseTypes .ts identityFunction = some (String.ofList (qs.flatMap Piece.text)) :=
  ⟨isStatement_identityPieces, significant_identityFunction,
    eraseTypes_program isStatement_identityPieces significant_identityFunction⟩

end Retouch.Erase
