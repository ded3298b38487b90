import ActionReprint.Proofs.Frame
import ActionReprint.Proofs.Gaps

/-!
Annotations in a language that has none. They are kept in a block comment, as they are given.
What a compiler makes of that is read off a lexer of comments: lines are joined at a backslash
that ends them, then comments and literals are told from the rest. The comment ends at the
first closing mark, which need not be the one behind the annotation. Main statement:
`annotation_inert_iff`.

Not covered: raw string literals and quotes between digits, which are read as the ordinary
literals they look like. Neither is met inside of a comment.
-/

namespace ActionReprint

namespace Cpp

/-- The text with its lines joined where a backslash is the last character of a line. -/
def logical : List Char → List Char
  | '\\' :: '\n' :: rest => logical rest
  | '\\' :: '\r' :: '\n' :: rest => logical rest
  | c :: rest => c :: logical rest
  | [] => []

inductive Piece where
  | blockComment (inside : List Char)
  | lineComment (inside : List Char)
  | compiled (c : Char)
  deriving DecidableEq, Repr

/-- What the reader is in. Inside a comment it remembers what it has passed, backwards. -/
inductive Mode where
  | code
  | literal (quote : Char)
  | lineComment (passed : List Char)
  | blockComment (passed : List Char)
  deriving DecidableEq, Repr

def read : Mode → List Char → Option (List Piece)
  | .code, [] => some []
  | .code, '/' :: '/' :: rest => read (.lineComment []) rest
  | .code, '/' :: '*' :: rest => read (.blockComment []) rest
  | .code, c :: rest =>
      (read (if c = '"' ∨ c = '\'' then .literal c else .code) rest).map (.compiled c :: ·)
  | .literal _, [] => some []
  | .literal quote, '\\' :: c :: rest =>
      (read (.literal quote) rest).map (.compiled '\\' :: .compiled c :: ·)
  | .literal quote, c :: rest =>
      -- a literal that is not closed ends with its line
      (read (if c = quote ∨ c = '\n' then .code else .literal quote) rest).map (.compiled c :: ·)
  | .lineComment passed, [] => some [.lineComment passed.reverse]
  | .lineComment passed, '\n' :: rest =>
      (read .code rest).map (.lineComment passed.reverse :: .compiled '\n' :: ·)
  | .lineComment passed, c :: rest => read (.lineComment (c :: passed)) rest
  | .blockComment _, [] => none
  | .blockComment passed, '*' :: '/' :: rest =>
      (read .code rest).map (.blockComment passed.reverse :: ·)
  | .blockComment passed, c :: rest => read (.blockComment (c :: passed)) rest

def lex (text : List Char) : Option (List Piece) :=
  read .code (logical text)

theorem logical_append (text rest : List Char) {c : Char} (notFeed : c ≠ '\n')
    (notReturn : c ≠ '\r') : logical (text ++ c :: rest) = logical text ++ logical (c :: rest) := by
  fun_induction logical text with
  | case1 more ih => exact ih
  | case2 more ih => exact ih
  | case3 first more oneFeed returned ih =>
      -- A line end behind the text would be `c`, or `c` would be inside of it.
      have notJoined : ∀ tail, first = '\\' → more ++ c :: rest = '\n' :: tail → False := by
        intro tail joins shape
        rcases List.append_eq_cons_iff.mp shape with ⟨rfl, same⟩ | ⟨behind, rfl, _⟩
        · exact notFeed (List.cons.inj same).1
        · exact oneFeed behind joins rfl
      have notReturned : ∀ tail, first = '\\' → more ++ c :: rest = '\r' :: '\n' :: tail →
          False := by
        intro tail joins shape
        rcases List.append_eq_cons_iff.mp shape with ⟨rfl, same⟩ | ⟨behind, rfl, onward⟩
        · exact notReturn (List.cons.inj same).1
        · rcases List.append_eq_cons_iff.mp onward.symm with ⟨rfl, same⟩ | ⟨further, rfl, _⟩
          · exact notFeed (List.cons.inj same).1
          · exact returned further joins rfl
      rw [List.cons_append, List.cons_append, logical, ih]
      · exact notJoined
      · exact notReturned
  | case4 => rfl

theorem logical_comment (text rest : List Char) :
    logical ('/' :: '*' :: (text ++ '*' :: '/' :: rest)) =
      '/' :: '*' :: (logical text ++ '*' :: '/' :: logical rest) := by
  have opened : ∀ more, logical ('/' :: '*' :: more) = '/' :: '*' :: logical more := by
    intro more
    rw [logical, logical] <;> simp
  have closed : logical ('*' :: '/' :: rest) = '*' :: '/' :: logical rest := by
    rw [logical, logical] <;> simp
  rw [opened, logical_append text ('/' :: rest) (by decide) (by decide), closed]

theorem read_open {passed : List Char} {c : Char} {rest : List Char}
    (open' : ∀ more, c = '*' → rest = '/' :: more → False) :
    read (.blockComment passed) (c :: rest) = read (.blockComment (c :: passed)) rest := by
  rw [read]
  exact open'

/-- A comment ends at the first closing mark behind the mark that opens it. -/
theorem read_blockComment {inside : List Char} (unclosed : ¬ ['*', '/'] <:+: inside)
    (passed rest : List Char) :
    read (.blockComment passed) (inside ++ '*' :: '/' :: rest) =
      (read .code rest).map (.blockComment (passed.reverse ++ inside) :: ·) := by
  induction inside generalizing passed with
  | nil => rw [List.nil_append, List.append_nil, read]
  | cons c tail ih =>
      have within : ¬ ['*', '/'] <:+: tail := fun closed => unclosed (List.infix_cons closed)
      have notYet : ∀ more, c = '*' → tail ++ '*' :: '/' :: rest = '/' :: more → False := by
        rintro more rfl shape
        rcases List.append_eq_cons_iff.mp shape with ⟨rfl, same⟩ | ⟨behind, rfl, _⟩
        · cases same
        · exact unclosed (List.IsPrefix.isInfix ⟨behind, rfl⟩)
      rw [List.cons_append, read_open notYet, ih within, List.reverse_cons, List.append_assoc,
        List.singleton_append]

end Cpp

namespace Session

theorem annotate_split {session : Session} (split : session.language.isSplit = true)
    (name : String) : session.annotate name = session.write ("/*" ++ name ++ "*/") := by
  cases language : session.language with
  | java =>
      rw [language] at split
      cases split
  | cpp => rw [annotate, language]; rfl

end Session

theorem lex_annotated {name inside behind : List Char}
    (first : Cpp.logical name ++ ['*', '/'] = inside ++ '*' :: '/' :: behind)
    (unclosed : ¬ ['*', '/'] <:+: inside) (code : List Char) :
    Cpp.lex ('/' :: '*' :: (name ++ '*' :: '/' :: code)) =
      (Cpp.read .code (behind ++ Cpp.logical code)).map (.blockComment inside :: ·) := by
  have whole : Cpp.logical name ++ '*' :: '/' :: Cpp.logical code =
      inside ++ '*' :: '/' :: (behind ++ Cpp.logical code) := by
    simpa using congrArg (· ++ Cpp.logical code) first
  rw [Cpp.lex, Cpp.logical_comment, Cpp.read, whole, Cpp.read_blockComment unclosed]
  rfl

theorem toList_annotated (name code : String) :
    ("/*" ++ name ++ "*/" ++ code).toList =
      '/' :: '*' :: (name.toList ++ '*' :: '/' :: code.toList) := by
  simp

/-- A split layout keeps an annotation in a comment. Whatever code follows, a compiler reads
exactly one block comment and then that code if there is no closing mark in the annotation,
its lines joined. If there is one, the comment ends there, and what follows the first mark in
the annotation is compiled. -/
theorem annotation_inert_iff {session : Session} (split : session.language.isSplit = true)
    (name : String) :
    ∃ text, session.annotate name = session.write text ∧
      ((∀ code : String, Cpp.lex (text ++ code).toList =
          (Cpp.lex code.toList).map (.blockComment (Cpp.logical name.toList) :: ·)) ↔
        ¬ ['*', '/'] <:+: Cpp.logical name.toList) ∧
      ∀ inside behind, Cpp.logical name.toList = inside ++ '*' :: '/' :: behind →
        ¬ ['*', '/'] <:+: inside → ∀ code : String, Cpp.lex (text ++ code).toList =
          (Cpp.read .code (behind ++ '*' :: '/' :: Cpp.logical code.toList)).map
            (.blockComment inside :: ·) := by
  have early : ∀ inside behind, Cpp.logical name.toList = inside ++ '*' :: '/' :: behind →
      ¬ ['*', '/'] <:+: inside → ∀ code : String, Cpp.lex ("/*" ++ name ++ "*/" ++ code).toList =
        (Cpp.read .code (behind ++ '*' :: '/' :: Cpp.logical code.toList)).map
          (.blockComment inside :: ·) := by
    intro inside behind shape unclosed code
    have first : Cpp.logical name.toList ++ ['*', '/'] =
        inside ++ '*' :: '/' :: (behind ++ ['*', '/']) := by
      rw [shape, List.append_assoc]
      rfl
    rw [toList_annotated, lex_annotated first unclosed, List.append_assoc]
    rfl
  refine ⟨"/*" ++ name ++ "*/", Session.annotate_split split name, ?_, early⟩
  constructor
  · intro inert closed
    obtain ⟨inside, behind, shape, unclosed⟩ := Jsonc.exists_close closed
    have comment := (inert "").symm.trans (early inside behind shape unclosed "")
    have same : Cpp.logical name.toList = inside := by
      cases read : Cpp.read .code (behind ++ '*' :: '/' :: Cpp.logical "".toList) with
      | none =>
          rw [read] at comment
          cases comment
      | some pieces =>
          rw [read] at comment
          exact Cpp.Piece.blockComment.inj (List.cons.inj (Option.some.inj comment)).1
    have longer := congrArg List.length (shape.symm.trans same)
    rw [List.length_append, List.length_cons] at longer
    omega
  · intro unclosed code
    rw [toList_annotated, lex_annotated (rfl : _ = Cpp.logical name.toList ++ _) unclosed]
    rfl

theorem annotation_inert_iff_paths :
    ∃ text, (Session.fresh ⟨.cpp, .ignore⟩).annotate "Path(\"/a\")" =
        (Session.fresh ⟨.cpp, .ignore⟩).write text ∧
      Cpp.lex (text ++ "int x;").toList =
        (Cpp.lex "int x;".toList).map
          (.blockComment (Cpp.logical "Path(\"/a\")".toList) :: ·) := by
  have split : (Session.fresh ⟨.cpp, .ignore⟩).language.isSplit = true := rfl
  obtain ⟨text, kept, inert, _⟩ := annotation_inert_iff split "Path(\"/a\")"
  have unclosed : ¬ ['*', '/'] <:+: Cpp.logical "Path(\"/a\")".toList := by decide +kernel
  exact ⟨text, kept, inert.mpr unclosed "int x;"⟩

theorem annotation_compiled : ¬ ∀ (session : Session) (name text : String),
    session.language.isSplit = true → session.annotate name = session.write text →
      ∃ inside, Cpp.lex text.toList = some [.blockComment inside] := by
  intro inert
  obtain ⟨inside, comment⟩ := inert (Session.fresh ⟨.cpp, .ignore⟩) "Path(\"/**/a\")"
    "/*Path(\"/**/a\")*/" rfl (Session.annotate_split rfl "Path(\"/**/a\")")
  have pieces : Cpp.lex "/*Path(\"/**/a\")*/".toList =
      some (.blockComment "Path(\"/*".toList :: "a\")*/".toList.map .compiled) := by
    decide +kernel
  rw [pieces] at comment
  have nothingElse := (List.cons.inj (Option.some.inj comment)).2
  cases nothingElse

end ActionReprint
