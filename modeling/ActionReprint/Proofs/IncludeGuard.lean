import ActionReprint.Proofs.Fragments
import ActionReprint.Proofs.Reprinting
import ActionReprint.Proofs.Survival

/-!
The lines around the declarations of a header. The guard opens with two whole lines, for
its name has no character that could break them, and the declarations stand behind them as
they are. The line that closes the guard is written right behind the declarations, so it is
a line of its own only where they do not end in the middle of one. Main statement:
`endif_begins_line_iff`.
-/

namespace ActionReprint

namespace Path

theorem guardChar_of_isLower {c : Char} (small : c.isLower = true) :
    (guardChar c).isUpper = true := by
  have letter : c.isAlpha = true := Bool.or_eq_true_iff.mpr (Or.inr small)
  have word : c.isAlphanum = true := Bool.or_eq_true_iff.mpr (Or.inl letter)
  obtain ⟨low, high⟩ := Bool.and_eq_true_iff.mp small
  have range : 'a'.val ≤ c.val ∧ c.val ≤ 'z'.val :=
    ⟨of_decide_eq_true low, of_decide_eq_true high⟩
  have moved : c.toUpper.val = c.val + ('A'.val - 'a'.val) := by
    delta Char.toUpper
    rw [dif_pos range]
  have inside : 'A'.val ≤ c.toUpper.val ∧ c.toUpper.val ≤ 'Z'.val := by
    simp only [moved, UInt32.le_iff_toNat_le, UInt32.toNat_add, Char.reduceVal,
      UInt32.reduceSub, UInt32.reduceToNat] at range ⊢
    omega
  rw [guardChar, if_pos word]
  exact decide_eq_true inside

theorem guardChar_of_isAlphanum {c : Char} (word : c.isAlphanum = true)
    (notSmall : c.isLower = false) : guardChar c = c := by
  rw [guardChar, if_pos word]
  refine dif_neg fun range => ?_
  have small : c.isLower = true :=
    Bool.and_eq_true_iff.mpr ⟨decide_eq_true range.1, decide_eq_true range.2⟩
  rw [notSmall] at small
  cases small

theorem guardChar_cases (c : Char) :
    (guardChar c).isUpper = true ∨ (guardChar c).isDigit = true ∨ guardChar c = '_' := by
  cases small : c.isLower with
  | true => exact Or.inl (guardChar_of_isLower small)
  | false =>
      by_cases word : c.isAlphanum = true
      · rw [guardChar_of_isAlphanum word small]
        rcases Bool.or_eq_true_iff.mp word with letter | digit
        · rcases Bool.or_eq_true_iff.mp letter with large | small'
          · exact Or.inl large
          · rw [small] at small'
            cases small'
        · exact Or.inr (Or.inl digit)
      · exact Or.inr (Or.inr (if_neg word))

theorem guardChar_of_mem_guardName {path : Path} {c : Char} (member : c ∈ path.guardName.toList) :
    ∃ original, c = guardChar original := by
  rw [guardName, String.toList_map] at member
  obtain ⟨original, _, rfl⟩ := List.mem_map.mp member
  exact ⟨original, rfl⟩

end Path

def IsLineEnd (c : Char) : Prop :=
  c = '\n' ∨ c = '\r'

instance (c : Char) : Decidable (IsLineEnd c) :=
  inferInstanceAs (Decidable (_ ∨ _))

/-- What is written behind this text begins a line. -/
def AtLineStart (text : String) : Prop :=
  ∀ c ∈ text.toList.getLast?, IsLineEnd c

instance (text : String) : Decidable (AtLineStart text) :=
  Option.decidableForallMem text.toList.getLast?

theorem atLineStart_empty : AtLineStart "" := by
  decide

theorem atLineStart_append {front text : String} (fresh : AtLineStart front) :
    AtLineStart (front ++ text) ↔ AtLineStart text := by
  unfold AtLineStart at fresh ⊢
  rw [String.toList_append, List.getLast?_append]
  cases text.toList.getLast? with
  | none => simpa using fresh
  | some last => simp

theorem Path.not_isLineEnd_of_mem_guardName {path : Path} {c : Char}
    (member : c ∈ path.guardName.toList) : ¬ IsLineEnd c := by
  obtain ⟨original, rfl⟩ := guardChar_of_mem_guardName member
  intro ended
  have word := guardChar_cases original
  rcases ended with feed | back
  · rw [feed] at word
    exact absurd word (by decide)
  · rw [back] at word
    exact absurd word (by decide)

namespace Output

def opening (guardName : String) : String :=
  "#ifndef " ++ guardName ++ "\n#define " ++ guardName ++ "\n"

theorem atLineStart_opening (guardName : String) : AtLineStart (opening guardName) := by
  intro c last
  rw [opening, String.toList_append, List.getLast?_append] at last
  exact Or.inl (Option.some.inj last).symm

end Output

/-- The header of a split layout after any run: its guard opens with two whole lines, then
come the declarations as the run has directed them to the header buffer. The line that closes
the guard begins a line exactly if there are none or the last of them has ended its line. -/
theorem endif_begins_line_iff {options : SessionOptions} (split : options.language.isSplit = true)
    (calls : List Call) (path : Path) :
    ∃ last, (Session.fresh options).Leaves calls last ∧
      last.buffer .header =
        Fragment.received .header (Control.start.fragments options.language calls) ∧
      last.assemble path =
        [⟨path.withExtension "h", Output.opening (path.withExtension "h").guardName ++
            last.buffer .header ++ "#endif\n"⟩,
          last.bodyFile path] ∧
      (∀ c ∈ (path.withExtension "h").guardName.toList, ¬ IsLineEnd c) ∧
      (AtLineStart (Output.opening (path.withExtension "h").guardName ++ last.buffer .header) ↔
        AtLineStart (last.buffer .header)) := by
  have received := (Session.fresh options).buffer_afterAll calls .header
  have language := (Session.fresh options).language_afterAll calls
  have files := Session.assemble_split
    ((congrArg TargetLanguage.isSplit language).trans split) path
  refine ⟨(Session.fresh options).afterAll calls, Session.leaves_afterAll _ _,
    received.trans String.empty_append, files, ?_, ?_⟩
  · intro c member
    exact Path.not_isLineEnd_of_mem_guardName member
  · exact atLineStart_append (Output.atLineStart_opening _)

theorem endif_begins_line_iff_endedDeclaration :
    ∃ last, (Session.fresh ⟨.cpp, .warn⟩).Leaves
        [.switchTo .header, .writeLine "int count;"] last ∧
      (last.assemble ⟨"out/a.cc"⟩).head? =
        some ⟨⟨"out/a.h"⟩, "#ifndef A_H\n#define A_H\nint count;\n#endif\n"⟩ ∧
      AtLineStart "#ifndef A_H\n#define A_H\nint count;\n" := by
  have split : (⟨.cpp, .warn⟩ : SessionOptions).language.isSplit = true := by decide
  obtain ⟨last, leaves, received, files, _, begins⟩ :=
    endif_begins_line_iff split [.switchTo .header, .writeLine "int count;"] ⟨"out/a.cc"⟩
  have guard : ((⟨"out/a.cc"⟩ : Path).withExtension "h").guardName = "A_H" := by decide +kernel
  have declared : last.buffer .header = "int count;\n" := received.trans (by decide +kernel)
  rw [guard, declared] at files begins
  refine ⟨last, leaves, ?_, begins.mpr (by decide)⟩
  rw [files, List.head?_cons]
  decide +kernel

theorem endif_behind_declaration :
    ¬ ∀ (options : SessionOptions) (calls : List Call) (path : Path) (last : Session),
        options.language.isSplit = true → (Session.fresh options).Leaves calls last →
        (∀ name ∈ path.fileName?, '\n' ∉ name.toList ∧ '\r' ∉ name.toList) →
        ∀ front, (last.assemble path).head?.map OutputFile.contents = some (front ++ "#endif\n") →
          AtLineStart front := by
  intro closed
  have begins := closed ⟨.cpp, .ignore⟩ [.switchTo .header, .write "int count;"] ⟨"a.cc"⟩
    _ (by decide) (Session.leaves_afterAll _ _) (by decide +kernel)
    "#ifndef A_H\n#define A_H\nint count;" (by decide +kernel)
  exact absurd begins (by decide)

theorem TargetLanguage.atLineStart_enclose (language : TargetLanguage) (name text : String) :
    AtLineStart (language.enclose (some name) text) := by
  intro c last
  rw [enclose, String.toList_append, List.getLast?_append] at last
  exact Or.inl (Option.some.inj last).symm

/-- The guard around what is generated for a dump is always closed by a line of its own: it
holds nothing or a whole class. -/
theorem atLineStart_ofDump (dump : TokenDump) (options : SessionOptions)
    (className : Option String) :
    AtLineStart ((Session.ofDump dump options className).buffer .header) := by
  obtain ⟨cursor, same⟩ := Session.ofDump_eq dump options className
  rw [same, Session.buffer, Buffers.around]
  cases className with
  | none =>
      rw [if_neg (by simp)]
      exact atLineStart_empty
  | some name =>
      split
      · exact options.language.atLineStart_enclose name _
      · exact atLineStart_empty

end ActionReprint
