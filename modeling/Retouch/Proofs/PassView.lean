import Retouch.Proofs.ErasureTermination

/-! What the erasing pass looks at. It reads a program through the kinds and texts
of its tokens, the partners of brackets, and three facts about neighbours: whether
they stand on one line, on different lines, and next to each other. Two programs
that agree in these are erased alike, wherever their tokens are placed. -/

namespace Retouch.Code
open Syntax Erase

/-- Two programs that the pass cannot tell apart. -/
structure Alike (c c' : Code) : Prop where
  size : c'.size = c.size
  kind? : c'.kind? = c.kind?
  text : c'.text = c.text
  partner : c'.partner = c.partner
  freshLine : c'.freshLine = c.freshLine
  sameLine : c'.sameLine = c.sameLine
  adjacent : c'.adjacent = c.adjacent

namespace Alike
variable {c c' : Code} (h : Alike c c')
include h

/-! ### Tokens -/

theorem punct : c'.punct = c.punct := by
  funext k s
  rw [Code.punct, Code.punct, h.kind?, h.text]

theorem isName : c'.isName = c.isName := by
  funext k
  rw [Code.isName, Code.isName, h.kind?]

theorem word : c'.word = c.word := by
  funext k s
  rw [Code.word, Code.word, h.isName, h.text]

theorem startsStatement : c'.startsStatement = c.startsStatement := by
  funext k
  rw [Code.startsStatement, Code.startsStatement, h.text, h.freshLine]

theorem endsExpression : c'.endsExpression = c.endsExpression := by
  funext k
  rw [Code.endsExpression, Code.endsExpression, h.kind?, h.text]

theorem afterGroup : c'.afterGroup = c.afterGroup := by
  funext i
  rw [Code.afterGroup, Code.afterGroup, h.partner]

theorem findPunct : c'.findPunct = c.findPunct := by
  funext k s
  fun_induction Code.findPunct c k s with
  | case1 k hk hp => rw [Code.findPunct, dif_pos (h.size ▸ hk), h.punct, if_pos hp]
  | case2 k hk hp ih => rw [Code.findPunct, dif_pos (h.size ▸ hk), h.punct, if_neg hp, ih]
  | case3 k hk => rw [Code.findPunct, dif_neg (h.size ▸ hk)]

/-! ### Types -/

theorem isBar : c'.isBar = c.isBar := by
  funext p
  rw [Code.isBar, Code.isBar, h.punct]

theorem angleItem : c'.angleItem = c.angleItem := by
  funext i depth
  rw [Code.angleItem, Code.angleItem, h.kind?, h.text, h.partner]

theorem templateEnd? : c'.templateEnd? = c.templateEnd? := by
  funext i
  fun_induction Code.templateEnd? c i with
  | case1 i hi ht => rw [Code.templateEnd?, dif_pos (h.size ▸ hi), h.kind?, h.text, if_pos ht]
  | case2 i hi ht ih =>
    rw [Code.templateEnd?, dif_pos (h.size ▸ hi), h.kind?, h.text, if_neg ht, ih]
  | case3 i hi => rw [Code.templateEnd?, dif_neg (h.size ▸ hi)]

theorem anglesFrom : c'.anglesFrom = c.anglesFrom := by
  funext i depth
  refine Option.some.inj ((angleLoop_eq c' i depth).symm.trans ?_)
  fun_induction Code.anglesFrom c i depth with
  | case1 i depth hi =>
    rw [angleLoop, h.angleItem, hi]
    simp
  | case2 i depth last hi =>
    have := angleItem_bounds hi
    rw [angleLoop, h.size, if_pos (by omega), h.angleItem, hi]
    simp
  | case3 i depth last d hi hd hn =>
    have := angleItem_bounds hi
    rw [angleLoop, h.size, if_pos (by omega), h.angleItem, hi]
    simp [hd, hn]
  | case4 i depth last d hi hd hn ih =>
    have := angleItem_bounds hi
    rw [angleLoop, h.size, if_pos (by omega), h.angleItem, hi]
    simp [hd, hn, ih]

theorem angleLoop : c'.angleLoop = c.angleLoop := by
  funext i depth
  rw [angleLoop_eq, angleLoop_eq, h.anglesFrom]

theorem suffixLoop : c'.suffixLoop = c.suffixLoop := by
  funext q
  rw [suffixLoop_eq c]
  fun_induction Code.suffixesEnd c q with
  | case1 q close hp hb ih =>
    rw [Code.suffixLoop, h.punct, h.sameLine, if_pos hb, h.partner, hp, ← ih]
  | case2 q close hp hb => rw [Code.suffixLoop, h.punct, h.sameLine, if_neg hb]
  | case3 q hp =>
    rw [Code.suffixLoop, h.partner, hp]
    simp

theorem dotLoop : c'.dotLoop = c.dotLoop := by
  funext q
  rw [dotLoop_eq c]
  fun_induction Code.dottedEnd c q with
  | case1 q hd ih => rw [Code.dotLoop, h.punct, h.isName, if_pos hd, ih]
  | case2 q hd => rw [Code.dotLoop, h.punct, h.isName, if_neg hd]

theorem argumentScan : c'.argumentScan = c.argumentScan := by
  funext q
  rw [Code.argumentScan, Code.argumentScan, h.punct, h.angleLoop]

end Alike

/-- The scans of a type agree from `p` on. -/
structure ScansAlike (c c' : Code) (p : Nat) : Prop where
  type : c'.typeScan p = c.typeScan p
  union : c'.unionScan p = c.unionScan p
  members : ∀ start, start ≤ p → c'.unionLoop start p = c.unionLoop start p
  primary : c'.primaryScan p = c.primaryScan p

section
variable {c c' : Code} {p : Nat}

theorem nameScan_alike (h : Alike c c') (ih : ∀ r, p < r → p < c.size → ScansAlike c c' r) :
    c'.nameScan p = c.nameScan p := by
  have hp : p + 1 ≤ c.argumentsEnd (c.dottedEnd (p + 1)) :=
    Nat.le_trans (le_dottedEnd c (p + 1)) (le_argumentsEnd c _)
  have harguments : (if c.punct (c.dottedEnd (p + 1)) "<" then c.angleEnd (c.dottedEnd (p + 1))
      else none).getD (c.dottedEnd (p + 1)) = c.argumentsEnd (c.dottedEnd (p + 1)) := by
    rw [argumentsEnd]
    split <;> rfl
  rw [nameScan, nameScan, h.dotLoop, h.argumentScan, h.word, dotLoop_eq]
  simp only [Option.bind_eq_bind, Option.bind_some, argumentScan_eq, harguments]
  split
  · rename_i hw
    have := lt_size_of_word hw
    exact (ih _ (by omega) (by omega)).type
  · rfl

theorem postfixScan_alike (h : Alike c c') (hp : c'.primaryScan p = c.primaryScan p) :
    c'.postfixScan p = c.postfixScan p := by
  rw [postfixScan, postfixScan, hp, h.suffixLoop]

theorem namedScan_alike (h : Alike c c') (hn : c.isName p = true)
    (ih : ∀ r, p < r → p < c.size → ScansAlike c c' r) : c'.namedScan p = c.namedScan p := by
  have hp := (ih (p + 1) (by omega) (lt_size_of_isName hn)).primary
  rw [namedScan, namedScan, h.text, hp, postfixScan_alike h hp, nameScan_alike h ih]

theorem primaryScan_alike (h : Alike c c') (ih : ∀ r, p < r → p < c.size → ScansAlike c c' r) :
    c'.primaryScan p = c.primaryScan p := by
  rw [primaryScan, primaryScan, h.kind?, h.text, h.partner, h.punct, h.angleLoop, h.templateEnd?]
  split
  · rename_i hk
    have hs := lt_size_of_kind? hk
    split
    · split
      · rename_i close hc
        have := partner_bounds hc
        rw [(ih (close + 2) (by omega) hs).type]
      · rfl
    · rfl
    · rfl
    · rw [angleLoop_eq]
      simp only [Option.bind_eq_bind, Option.bind_some]
      split
      · rename_i q hq
        exact (ih q (angleEnd_bounds hq).1 hs).primary
      · rfl
    · rfl
    · rfl
  · rfl
  · rfl
  · rfl
  · rename_i hk
    exact namedScan_alike h (by simp [isName, hk]) ih
  · rename_i hk
    exact namedScan_alike h (by simp [isName, hk]) ih
  · rfl

theorem unionLoop_alike (h : Alike c c') (hp : c'.primaryScan p = c.primaryScan p)
    (ih : ∀ r, p < r → p < c.size → ScansAlike c c' r) (start : Nat) (hs : start ≤ p) :
    c'.unionLoop start p = c.unionLoop start p := by
  rw [unionLoop, unionLoop, postfixScan_alike h hp, h.isBar,
    postfixScan_eq (c.agrees p).primary]
  simp only [Option.bind_eq_bind, Option.bind_some]
  by_cases hm : (c.primaryFrom p).1 = p
  · simp [hm]
  · have hle := le_suffixesEnd c (c.primaryFrom p).1
    have hge := (c.primaryFrom p).2
    have hq : ¬ c.suffixesEnd (c.primaryFrom p).1 = p := by omega
    rw [if_neg hm, if_neg hq, if_neg hq]
    split
    · rename_i hb
      have := lt_size_of_isBar hb
      exact (ih _ (by omega) (by omega)).members start (by omega)
    · rfl

theorem unionScan_alike (h : Alike c c')
    (hm : ∀ start, start ≤ p → c'.unionLoop start p = c.unionLoop start p)
    (ih : ∀ r, p < r → p < c.size → ScansAlike c c' r) : c'.unionScan p = c.unionScan p := by
  rw [unionScan, unionScan, h.isBar]
  split
  · rename_i hb
    exact (ih (p + 1) (by omega) (lt_size_of_isBar hb)).members p (by omega)
  · exact hm p (Nat.le_refl p)

theorem typeScan_alike (h : Alike c c') (hu : c'.unionScan p = c.unionScan p)
    (ih : ∀ r, p < r → p < c.size → ScansAlike c c' r) : c'.typeScan p = c.typeScan p := by
  rw [typeScan, typeScan, hu, h.word, h.punct, (c.agrees p).union]
  simp only [Option.bind_eq_bind, Option.bind_some]
  split
  · rfl
  · rename_i hw
    have hq := (c.unionFrom p).2
    have hs := lt_size_of_word (c := c) (k := (c.unionFrom p).1) (s := "extends") (by simp_all)
    rw [(ih _ (by omega) (by omega)).union, (c.agrees _).union]
    simp only [Option.bind_some]
    have hr := (c.unionFrom ((c.unionFrom p).1 + 1)).2
    rw [(ih ((c.unionFrom ((c.unionFrom p).1 + 1)).1 + 1) (by omega) (by omega)).type,
      (c.agrees _).type]
    simp only [Option.bind_some]
    have ht := (c.typeFrom ((c.unionFrom ((c.unionFrom p).1 + 1)).1 + 1)).2
    rw [(ih ((c.typeFrom ((c.unionFrom ((c.unionFrom p).1 + 1)).1 + 1)).1 + 1) (by omega)
      (by omega)).type]

theorem scansAlike (h : Alike c c') (p : Nat) : ScansAlike c c' p := by
  induction hn : c.size - p using Nat.strongRecOn generalizing p with
  | ind n ih =>
    have hlater : ∀ r, p < r → p < c.size → ScansAlike c c' r := by
      intro r hr hp
      exact ih (c.size - r) (by omega) r rfl
    have hprimary := primaryScan_alike h hlater
    have hmembers := unionLoop_alike h hprimary hlater
    have hunion := unionScan_alike h hmembers hlater
    exact ⟨typeScan_alike h hunion hlater, hunion, hmembers, hprimary⟩

end

namespace Alike
variable {c c' : Code} (h : Alike c c')
include h

theorem typeEnd : c'.typeEnd = c.typeEnd := by
  funext p
  have hs := (scansAlike h p).type
  rw [typeScan_eq, typeScan_eq] at hs
  exact Option.some.inj hs

theorem angleEnd : c'.angleEnd = c.angleEnd := by
  funext k
  rw [Code.angleEnd, Code.angleEnd, h.anglesFrom]

/-! ### Signatures -/

theorem declaresFunction : c'.declaresFunction = c.declaresFunction := by
  funext erased k
  rw [Code.declaresFunction, Code.declaresFunction, h.kind?, h.text]

theorem modifiersEnd : c'.modifiersEnd = c.modifiersEnd := by
  funext i
  fun_induction Code.modifiersEnd c i with
  | case1 i hm ih => rw [Code.modifiersEnd, h.isName, h.text, dif_pos hm, ih]
  | case2 i hm => rw [Code.modifiersEnd, h.isName, h.text, dif_neg hm]

theorem afterThis : c'.afterThis = c.afterThis := by
  funext i
  rw [Code.afterThis, Code.afterThis, h.typeEnd, h.punct]

theorem parameterSpans : c'.parameterSpans = c.parameterSpans := by
  funext close i state
  fun_induction Code.parameterSpans c close i state with
  | case1 i hi _ erasedModifiers hthis _ ih =>
    rw [Code.parameterSpans.eq_def, dif_pos hi]
    simp only [h.modifiersEnd, h.word, h.punct, h.afterThis]
    rw [if_pos hthis, ih]
    simp only [erasedModifiers, dite_eq_ite]
  | case2 i hi _ erasedModifiers hthis ih =>
    rw [Code.parameterSpans.eq_def, dif_pos hi]
    simp only [h.modifiersEnd, h.word, h.punct, h.afterThis]
    rw [if_neg hthis, ih]
    simp only [erasedModifiers, dite_eq_ite]
  | _ =>
    rw [Code.parameterSpans.eq_def]
    simp_all [h.afterGroup, h.typeEnd, h.text]

theorem signatureSpans : c'.signatureSpans = c.signatureSpans := by
  funext erased k
  rw [Code.signatureSpans, Code.signatureSpans, h.partner, h.text, h.parameterSpans, h.typeEnd,
    h.punct, h.declaresFunction]

/-! ### Classes -/

theorem nameFollows : c'.nameFollows = c.nameFollows := by
  funext k
  rw [Code.nameFollows, Code.nameFollows, h.isName, h.kind?, h.text]

theorem memberLead : c'.memberLead = c.memberLead := by
  funext i
  refine Option.some.inj ((leadLoop_eq c' i).symm.trans ?_)
  fun_induction Code.memberLead c i with
  | case1 i hi hm spans j hj ih =>
    rw [leadLoop, h.isName, h.text, h.nameFollows, if_pos hm, ih, hj]
    rfl
  | case2 i hi hm hw ih =>
    rw [leadLoop, h.isName, h.text, h.nameFollows, if_neg hm, if_pos hw, ih]
  | case3 i hi hm hw hs ih =>
    rw [leadLoop, h.isName, h.text, h.nameFollows, h.punct, if_neg hm, if_neg hw, if_pos hs, ih]
  | case4 i hi hm hw hs =>
    rw [leadLoop, h.isName, h.text, h.nameFollows, h.punct, if_neg hm, if_neg hw, if_neg hs]
  | case5 i hi =>
    rw [leadLoop_eq, Code.memberLead, dif_neg (h.size ▸ hi)]

theorem memberName : c'.memberName = c.memberName := by
  funext i
  rw [Code.memberName, Code.memberName, h.text, h.partner, h.isName, h.kind?]

theorem memberTail : c'.memberTail = c.memberTail := by
  funext after
  rw [Code.memberTail, Code.memberTail, h.punct, h.text, h.typeEnd]

theorem member : c'.member = c.member := by
  funext i
  rw [Code.member, Code.member, h.memberLead, h.memberName, h.memberTail]

theorem memberSpans : c'.memberSpans = c.memberSpans := by
  funext close i start
  fun_induction Code.memberSpans c close i start
  all_goals
    rw [Code.memberSpans.eq_def]
    simp_all [h.freshLine, h.endsExpression, h.member, h.afterGroup, h.text]

theorem heritage : c'.heritage = c.heritage := by
  funext n
  refine Option.some.inj ((heritageLoop_eq c' n).symm.trans ?_)
  fun_induction Code.heritage c n with
  | case1 n hn hs => rw [heritageLoop, h.punct, h.word, if_neg (by simp [hs])]
  | case2 n hn hs hg stop ha spans m hm ih =>
    rw [dite_eq_ite] at ha
    rw [heritageLoop, h.size, h.punct, h.word, if_pos (by simp [hs, hn]), h.argumentScan,
      argumentScan_eq, ha]
    simp [ih, hm]
  | case3 n hn hs hg ha ht ih =>
    rw [dite_eq_ite] at ha
    rw [heritageLoop, h.size, h.punct, h.word, if_pos (by simp [hs, hn]), h.argumentScan,
      argumentScan_eq, ha, h.text, h.afterGroup]
    simp only [Option.bind_eq_bind, Option.bind_some]
    rw [if_pos ht, ih]
  | case4 n hn hs hg ha ht ih =>
    rw [dite_eq_ite] at ha
    rw [heritageLoop, h.size, h.punct, h.word, if_pos (by simp [hs, hn]), h.argumentScan,
      argumentScan_eq, ha, h.text]
    simp only [Option.bind_eq_bind, Option.bind_some]
    rw [if_neg ht, ih]
  | case5 n hn => rw [heritageLoop, h.size, if_neg (by simp [hn])]

theorem classSpans : c'.classSpans = c.classSpans := by
  funext k
  simp only [Code.classSpans, Code.classParameters, Code.implementsClause, Code.classBody, h.kind?,
    h.punct, h.angleEnd, h.word, h.heritage, h.findPunct, h.partner, h.memberSpans]

/-! ### The pass -/

theorem statementLast : c'.statementLast = c.statementLast := by
  funext stop
  rw [Code.statementLast, Code.statementLast, h.punct]

theorem ambientLast : c'.ambientLast = c.ambientLast := by
  funext i
  refine Option.some.inj ((ambientLoop_eq c' i).symm.trans ?_)
  fun_induction Code.ambientLast c i
  all_goals
    rw [ambientLoop, h.size, h.text, h.partner]
    simp_all [typeScan_eq, h.typeEnd, h.statementLast]

theorem typeStatementLast : c'.typeStatementLast = c.typeStatementLast := by
  funext k
  simp only [Code.typeStatementLast, Code.declarationLast, Code.aliasLast, h.word, h.kind?, h.text,
    h.findPunct, h.partner, h.punct, h.angleEnd, h.typeEnd, h.statementLast, h.ambientLast]

theorem isCast : c'.isCast = c.isCast := by
  funext k
  simp only [Code.isCast, Code.inClause, Code.opensClause, h.punct, h.word, h.partner,
    h.endsExpression, h.typeEnd]

theorem wordSpans : c'.wordSpans = c.wordSpans := by
  funext k
  simp only [Code.wordSpans, Code.declaratorSpans, Code.bindingLast, h.kind?, h.text, h.word,
    h.punct, h.partner, h.typeEnd, h.classSpans]

theorem punctSpans : c'.punctSpans = c.punctSpans := by
  funext erased k
  simp only [Code.punctSpans, Code.typeArgumentSpans, h.text, h.endsExpression, h.adjacent,
    h.signatureSpans, h.kind?, h.angleEnd, h.punct]

theorem visit : c'.visit = c.visit := by
  funext erased k
  have hstatement : (if c'.startsStatement k then c'.typeStatementLast k else none) =
      if c.startsStatement k then c.typeStatementLast k else none := by
    rw [h.startsStatement, h.typeStatementLast]
  simp only [Code.visit, h.isName, h.text, h.isCast, h.typeEnd, h.wordSpans, h.kind?,
    h.punctSpans]
  split
  · rename_i last hl
    rw [hstatement] at hl
    split
    · rename_i last' hl'
      obtain rfl := Option.some.inj (hl.symm.trans hl')
      rfl
    · rename_i hl'
      cases hl.symm.trans hl'
  · rename_i hl
    rw [hstatement] at hl
    symm
    split
    · rename_i last hl'
      cases hl.symm.trans hl'
    · rfl

theorem erasureFrom : c'.erasureFrom = c.erasureFrom := by
  funext erased k
  fun_induction Code.erasureFrom c erased k with
  | case1 erased k hk hc ih => rw [Code.erasureFrom, dif_pos (h.size ▸ hk), if_pos hc, ih]
  | case2 erased k hk hc hv =>
    rw [Code.erasureFrom, dif_pos (h.size ▸ hk), if_neg hc, h.visit, hv]
  | case3 erased k hk hc spans next hn hv ih =>
    rw [Code.erasureFrom, dif_pos (h.size ▸ hk), if_neg hc, h.visit, hv]
    exact ih
  | case4 erased k hk => rw [Code.erasureFrom, dif_neg (h.size ▸ hk)]

theorem erasure : c'.erasure = c.erasure := by
  rw [Code.erasure, Code.erasure, h.erasureFrom]

end Alike

end Retouch.Code
