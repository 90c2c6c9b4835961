import Retouch.Proofs.StatementLowering

/-! Programs are lowered statement by statement: the text of each becomes its own,
modules are numbered in order, and the lines left for the end follow in order. -/

namespace Retouch.Lower
open Syntax Text

theorem endsOpen_append {us vs : List Word} (hu : endsOpen us = false) (hv : endsOpen vs = false) :
    endsOpen (us ++ vs) = false := by
  rw [endsOpen, List.getLast?_append]
  cases hl : vs.getLast? with
  | none => exact hu
  | some w =>
    rw [endsOpen, hl] at hv
    exact hv

theorem endsOpen_name (us : List Word) (a : Name) : endsOpen (us ++ [a.word]) = false := by
  have hdot : a.text ∉ [".", "?."] := notMem_of_isPlainName a.plain (by decide)
  rw [List.mem_cons, List.mem_singleton, not_or] at hdot
  simp [endsOpen, hdot]

theorem Head.closed (head : Head) : endsOpen head.words = false := by
  cases head with
  | ofFunction async gap star f =>
    rw [Head.words, ← List.cons_append, ← List.append_assoc]
    exact endsOpen_name _ f
  | ofClass gap c => exact endsOpen_name [.keyword "class" gap] c

/-- No statement leaves a member name to come. -/
theorem Statement.closed (s : Statement) : endsOpen s.words = false := by
  cases s with
  | exportDefault gap default head body =>
    exact @endsOpen_append [.keyword "export" gap, .keyword "default" default] _ rfl
      (endsOpen_append head.closed body.closed)
  | exportDeclaration gap head body =>
    exact @endsOpen_append [.keyword "export" gap] _ rfl
      (endsOpen_append head.closed body.closed)
  | other body => exact body.closed
  | _ => simp [Statement.words, Origin.words, endsOpen, List.getLast?_cons]

/-- A program without import and export statements leaves no lines for its end. -/
theorem deferred_eq_nil {p : List Statement} (h : p.any Statement.isModule = false) :
    p.flatMap Statement.deferred = [] := by
  rw [List.flatMap_eq_nil_iff]
  intro s hs
  rw [List.any_eq_false] at h
  cases s with
  | other body => rfl
  | _ => exact absurd rfl (h _ hs)

/-- The whole run over some statements, by induction on them. Each begins where a
statement may begin because the one before it is closed. -/
theorem lowerFrom_statements {c : Code} (p : List Statement) {count k n : Nat}
    (h : c.Reads k n (p.flatMap Statement.words)) (hk : c.Starts k) :
    ∃ edits, c.lowerFrom 0 count k = .ok (edits, p.flatMap Statement.deferred) ∧
      edits.isEmpty = !p.any Statement.isModule ∧
      Yields n (spelling (p.flatMap Statement.words)).toList edits
        (loweredFrom count p).toList := by
  induction p generalizing count k n with
  | nil => exact ⟨[], Code.lowerFrom_end h, rfl, Yields.nil n _⟩
  | cons s p ih =>
    rw [List.flatMap_cons] at h
    obtain ⟨edits, hedits, hrun, hyield⟩ := Code.lowers s count k n _ h hk
    obtain ⟨es, hrest, hes, hy⟩ := @ih (if s.isNumbered then count + 1 else count) _ _ h.append
      (h.starts hk s.closed)
    refine ⟨edits ++ es, ?_, ?_, ?_⟩
    · rw [List.flatMap_cons]
      exact hrun es _ hrest
    · rw [List.any_cons, Bool.not_or, ← hedits, ← hes]
      cases edits <;> rfl
    · rw [List.flatMap_cons, spelling_append, loweredFrom, String.toList_append,
        String.toList_append]
      exact hyield _ es _ hy

theorem ofList_withTrailer (code : String) (lines : List String) :
    String.ofList (withTrailer code.toList lines) = withLines code lines := by
  have hjoin : String.ofList (lines.flatMap fun l => l.toList ++ ['\n']) =
      String.join (lines.map (· ++ "\n")) := by
    induction lines with
    | nil => rfl
    | cons l lines ih => simp [String.join_cons, String.ofList_append, ih, String.append_assoc]
  rw [withTrailer, withLines]
  cases lines with
  | nil => simp
  | cons l lines =>
    rw [List.isEmpty_cons, if_neg Bool.false_ne_true, if_neg (List.cons_ne_nil l lines),
      String.ofList_append, hjoin]
    split
    · rw [String.ofList_toList]
    · rw [String.ofList_append, String.ofList_toList]

/-- A text whose words are those of some statements becomes what the statements
become, with the lines they leave behind it. -/
theorem lower_statements (d : Dialect) (source : String) (p : List Statement)
    (h : (wordsOf (tokenize d source)).2 = p.flatMap Statement.words) :
    lower d source = .ok
      ⟨withLines ((wordsOf (tokenize d source)).1 ++ loweredFrom 0 p)
        (p.flatMap Statement.deferred), p.any Statement.isModule⟩ := by
  have hlaid : Laid (byteLength (wordsOf (tokenize d source)).1.toList)
      (wordsOf (tokenize d source)).2 (significant (tokenize d source)) := by
    have horigin := laid_wordsOf .origin (lexemes d source)
    rwa [show Place.origin.offset = 0 from rfl, Nat.zero_add] at horigin
  have hread : (Code.ofTokens (significant (tokenize d source))).Reads 0
      (byteLength (wordsOf (tokenize d source)).1.toList) (p.flatMap Statement.words) := by
    rw [← h]
    exact ⟨significant (tokenize d source), rfl, hlaid⟩
  obtain ⟨edits, hrun, hedits, hyield⟩ := @lowerFrom_statements _ p 0 0 _ hread rfl
  have htext : source.toList =
      (wordsOf (tokenize d source)).1.toList ++ (spelling (p.flatMap Statement.words)).toList := by
    rw [← String.toList_append, ← h, spelling_wordsOf, tokenize_joined]
  have hsplice : splice 0 source.toList edits =
      ((wordsOf (tokenize d source)).1 ++ loweredFrom 0 p).toList := by
    rw [htext, String.toList_append]
    exact hyield 0 _ (Nat.zero_add _)
  rw [lower, hrun]
  dsimp only
  rw [hsplice, ofList_withTrailer, hedits, Bool.not_not]
  cases hmodule : p.any Statement.isModule with
  | true => rfl
  | false => rw [deferred_eq_nil hmodule]; rfl

/-- A module with a numbered import, a block, a default class and a list of names. -/
def sampleModule : List Statement :=
  [.importBindings " "
      (.singleListed ⟨"d", "", by decide⟩ " "
        ⟨"", [(.renamed ⟨"a", " ", by decide⟩ ⟨.keyword, " ", by decide⟩
          ⟨"b", "", by decide⟩, " ")],
          some (.ofType ⟨.keyword, " ", by decide⟩ ⟨"T", "", by decide⟩), " "⟩)
      ⟨⟨.keyword, " ", by decide⟩, ⟨"\"m\"", "", by decide⟩, "\n"⟩,
    .other ⟨[.keyword "if" " ", .mark "(" "", ⟨.identifier, "d", ""⟩, .mark ")" " ",
      .mark "\x7b" "", ⟨.identifier, "b", ""⟩, .mark "(" "", .mark ")" "", .mark ";" "",
      .mark "\x7d" "\n"], by decide, by decide⟩,
    .exportDefault " " " " (.ofClass " " ⟨"K", " ", by decide⟩)
      ⟨[.mark "\x7b" "", .mark "\x7d" "\n"], by decide, by decide⟩,
    .exportNames " "
      ⟨"", [], some (.renamed ⟨"b", " ", by decide⟩ ⟨.keyword, " ", by decide⟩
        ⟨"y", "", by decide⟩), ""⟩ ""]

def sampleModuleText : String :=
  "import d, \x7ba as b, type T\x7d from \"m\";\nif (d) \x7bb();\x7d\n" ++
    "export default class K \x7b\x7d\nexport \x7bb as y\x7d;"

theorem lower_sampleModule :
    (wordsOf (tokenize .ts sampleModuleText)).2 = sampleModule.flatMap Statement.words ∧
      lower .ts sampleModuleText = .ok ⟨"const __import0 = require(\"m\"), " ++
        "d = __codemod_importDefault(__import0), \x7b a: b \x7d = __import0;\n" ++
        "if (d) \x7bb();\x7d\n class K \x7b\x7d\n" ++
        "module.exports.default = K;\nmodule.exports.y = b;\n", true⟩ := by
  have hwords : (wordsOf (tokenize .ts sampleModuleText)).2 =
      sampleModule.flatMap Statement.words := by decide +kernel
  refine ⟨hwords, ?_⟩
  rw [lower_statements .ts sampleModuleText sampleModule hwords]
  exact congrArg Except.ok (by decide +kernel)

end Retouch.Lower
