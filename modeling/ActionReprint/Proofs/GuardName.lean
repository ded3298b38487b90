import ActionReprint.Proofs.IncludeGuard

/-!
The name of an include guard. It is the name of the header spelt in capitals, digits and
underscores, so it is a name of a macro unless it begins with a digit, and that is decided by
the first character of the body's name. A header has a name wherever slashes or single dots
follow the body's, and else unless the body's stem is one dot. Main statement:
`guard_usable_iff`.
-/

namespace ActionReprint

namespace Path

/-- Nothing follows the name of the file, and the stem of the name is one dot. -/
def LosesName (path : Path) : Prop :=
  ∃ name ∈ fileNameOf? path.text.toList,
    (components path.text.toList).getLast? = some name ∧ (splitExtension name).1 = ['.']

instance (path : Path) : Decidable path.LosesName :=
  inferInstanceAs (Decidable (∃ name ∈ fileNameOf? path.text.toList, _ ∧ _))

theorem isName_append {stem extension : List Char} (stemmed : stem ≠ []) (some : extension ≠ []) :
    IsName (stem ++ '.' :: extension) := by
  refine ⟨by simp, ?_, ?_⟩
  · intro same
    have lengths := congrArg List.length same
    have counted := List.length_pos_iff.mpr stemmed
    simp only [List.length_append, List.length_cons, List.length_nil] at lengths
    omega
  · intro same
    exact some ((eq_parent_iff stemmed).mp same).2

section
variable {path : Path} {name : List Char} {extension : String}
  (named : fileNameOf? path.text.toList = some name)
  (some : extension.toList ≠ [])
include named some

theorem fileNameOf?_withExtension (clean : '/' ∉ extension.toList) (kept : ¬ path.LosesName) :
    fileNameOf? (path.withExtension extension).text.toList =
      Option.some ((splitExtension name).1 ++ '.' :: extension.toList) := by
  obtain ⟨parents, tail, shape, trailing, cleanParts, isName, nothing⟩ := exists_trailing named
  have notLost : ¬ ((splitExtension name).1 = ['.'] ∧ tail = []) := by
    rintro ⟨dot, ended⟩
    exact kept ⟨name, named, nothing.mp ended, dot⟩
  obtain ⟨stemmed, _⟩ := splitExtension_shape isName.some
  have cleanName :=
    slash_notMem_renamed isName.some (cleanParts name List.mem_concat_self) clean
  rw [withExtension_of_trailing trailing shape cleanParts isName some, if_neg notLost]
  exact fileNameOf?_of_components
    (components_joined (by simp) (clean_concat cleanParts cleanName)) (isName_append stemmed some)

theorem withExtension_of_losesName (lost : path.LosesName) :
    fileNameOf? (path.withExtension extension).text.toList = none ∧
      (path.withExtension extension).text.toList ≠ [] ∧
      (path.withExtension extension).text.toList <+: path.text.toList := by
  obtain ⟨parents, tail, shape, trailing, cleanParts, isName, nothing⟩ := exists_trailing named
  obtain ⟨same, named', last, dot⟩ := lost
  obtain rfl : same = name := Option.some.inj (named'.symm.trans named)
  obtain rfl := nothing.mpr last
  have parts := components_joined (by simp)
    (clean_concat cleanParts (by decide : '/' ∉ ['.', '.']))
  rw [withExtension_of_trailing trailing shape cleanParts isName some, if_pos ⟨dot, rfl⟩, shape]
  refine ⟨?_, ?_, ?_⟩
  · rw [fileNameOf?, spine_of_components parts rfl]
    exact if_pos rfl
  · intro empty
    rw [empty] at parts
    have ends := congrArg List.getLast? parts
    rw [List.getLast?_concat] at ends
    cases ends
  · rcases splitExtension_cases same with whole | ⟨stem, old, stemmed, undotted, rfl⟩
    · rw [whole] at dot
      exact absurd dot isName.notHere
    · rw [splitExtension_append stemmed undotted] at dot
      obtain rfl : stem = ['.'] := dot
      rw [List.append_nil]
      exact ⟨old, joined_concat_append parents ['.', '.'] old⟩

end

theorem isDigit_of_isAlpha {c : Char} (letter : c.isAlpha = true) : c.isDigit = false := by
  have beyond : '9'.val < c.val := by
    rcases Bool.or_eq_true_iff.mp letter with large | small
    · exact UInt32.lt_of_lt_of_le (by decide) (of_decide_eq_true large).1
    · exact UInt32.lt_of_lt_of_le (by decide)
        (of_decide_eq_true (Bool.and_eq_true_iff.mp small).1)
  exact Bool.and_eq_false_iff.mpr (Or.inr (decide_eq_false (UInt32.not_le.mpr beyond)))

theorem isDigit_guardChar (c : Char) : (guardChar c).isDigit = c.isDigit := by
  cases small : c.isLower with
  | true =>
      have letter : c.isAlpha = true := Bool.or_eq_true_iff.mpr (Or.inr small)
      have large : (guardChar c).isAlpha = true :=
        Bool.or_eq_true_iff.mpr (Or.inl (guardChar_of_isLower small))
      rw [isDigit_of_isAlpha large, isDigit_of_isAlpha letter]
  | false =>
      by_cases word : c.isAlphanum = true
      · rw [guardChar_of_isAlphanum word small]
      · have notDigit : c.isDigit = false :=
          Bool.eq_false_iff.mpr fun digit => word (Bool.or_eq_true_iff.mpr (Or.inr digit))
        rw [guardChar, if_neg word, notDigit]
        rfl

end Path

/-- A name that a macro can have. -/
structure IsIdentifier (name : String) : Prop where
  some : name ≠ ""
  word : ∀ c ∈ name.toList, c.isAlphanum = true ∨ c = '_'
  begins : ∀ c ∈ name.toList.head?, c.isDigit = false

def BeginsWithDigit (text : List Char) : Prop :=
  text.head?.any Char.isDigit = true

instance (text : List Char) : Decidable (BeginsWithDigit text) :=
  inferInstanceAs (Decidable (_ = true))

theorem BeginsWithDigit.of_prefix {front text : List Char} (some : front ≠ [])
    (front_text : front <+: text) : BeginsWithDigit front ↔ BeginsWithDigit text := by
  obtain ⟨rest, rfl⟩ := front_text
  rw [BeginsWithDigit, BeginsWithDigit, List.head?_append_of_ne_nil _ some]

namespace Path

theorem displayName_of_some {path : Path} {name : String} (named : path.fileName? = some name) :
    path.displayName = name := by
  rw [displayName, named]
  rfl

theorem displayName_of_none {path : Path} (unnamed : path.fileName? = none) :
    path.displayName = path.text := by
  rw [displayName, unnamed]
  rfl

theorem isWord_of_mem_guardName {path : Path} {c : Char} (member : c ∈ path.guardName.toList) :
    c.isAlphanum = true ∨ c = '_' := by
  obtain ⟨original, rfl⟩ := guardChar_of_mem_guardName member
  rcases guardChar_cases original with upper | digit | low
  · exact Or.inl (Bool.or_eq_true_iff.mpr (Or.inl (Bool.or_eq_true_iff.mpr (Or.inl upper))))
  · exact Or.inl (Bool.or_eq_true_iff.mpr (Or.inr digit))
  · exact Or.inr low

theorem isIdentifier_guardName {path : Path} (some : path.displayName.toList ≠ []) :
    IsIdentifier path.guardName ↔ ¬ BeginsWithDigit path.displayName.toList := by
  obtain ⟨first, rest, shape⟩ := List.exists_cons_of_ne_nil some
  have spelt : path.guardName.toList = guardChar first :: rest.map guardChar := by
    rw [guardName, String.toList_map, shape, List.map_cons]
  have begins : BeginsWithDigit path.displayName.toList ↔ (guardChar first).isDigit = true := by
    rw [shape, isDigit_guardChar]
    simp [BeginsWithDigit]
  rw [begins]
  constructor
  · intro identifier
    have starts := identifier.begins (guardChar first) (by rw [spelt]; rfl)
    exact Bool.eq_false_iff.mp starts
  · intro notDigit
    refine ⟨?_, fun c => isWord_of_mem_guardName, ?_⟩
    · rintro empty
      rw [empty] at spelt
      cases spelt
    · intro c head
      rw [spelt] at head
      obtain rfl := Option.some.inj head
      exact Bool.eq_false_iff.mpr notDigit

theorem fileNameOf?_of_fileName? {path : Path} {name : String}
    (named : path.fileName? = some name) : fileNameOf? path.text.toList = some name.toList := by
  obtain ⟨characters, found, rfl⟩ := Option.map_eq_some_iff.mp named
  rw [found, String.toList_ofList]

theorem guardName_ne_empty {path : Path} (some : path.displayName.toList ≠ []) :
    path.guardName ≠ "" := by
  intro empty
  rw [← String.toList_inj, guardName, String.toList_map, String.toList_empty,
    List.map_eq_nil_iff] at empty
  exact some empty

section
variable {path : Path} {name : String} (named : path.fileName? = some name)
include named

theorem header_of_kept (kept : ¬ path.LosesName) :
    ∃ base : String, (path.withExtension "h").fileName? = some base ∧
      base.toList = (splitExtension name.toList).1 ++ ['.', 'h'] ∧ base.toList ≠ [] ∧
      (BeginsWithDigit base.toList ↔ BeginsWithDigit name.toList) := by
  have named' := fileNameOf?_of_fileName? named
  obtain ⟨_, _, isName⟩ := spine_of_fileNameOf? named'
  obtain ⟨stemmed, front⟩ := splitExtension_shape isName.some
  have found : fileNameOf? (path.withExtension "h").text.toList =
      some ((splitExtension name.toList).1 ++ ['.', 'h']) :=
    fileNameOf?_withExtension named' (by decide) (by decide) kept
  refine ⟨String.ofList ((splitExtension name.toList).1 ++ ['.', 'h']), ?_, ?_, ?_, ?_⟩
  · rw [fileName?, found]
    rfl
  · exact String.toList_ofList
  · rw [String.toList_ofList]
    simp
  · rw [String.toList_ofList, ← BeginsWithDigit.of_prefix stemmed (List.prefix_append _ _)]
    exact BeginsWithDigit.of_prefix stemmed front

theorem header_of_lost (lost : path.LosesName) :
    (path.withExtension "h").fileName? = none ∧
      (path.withExtension "h").text.toList ≠ [] ∧
      (BeginsWithDigit (path.withExtension "h").text.toList ↔
        BeginsWithDigit path.text.toList) := by
  have named' := fileNameOf?_of_fileName? named
  have extended : "h".toList ≠ [] := by decide
  obtain ⟨unnamed, some, front⟩ := withExtension_of_losesName named' extended lost
  refine ⟨?_, some, BeginsWithDigit.of_prefix some front⟩
  rw [fileName?, unnamed]
  rfl

end

end Path

/-- The header of a split layout. Its guard is the same word in both lines, of capitals, digits
and underscores, and a name of a macro exactly if it does not begin with a digit. It is the
name of the header spelt so, whatever the directories are, and begins as the body's name does.
Only where the body's name is lost, because nothing follows it and its stem is one dot, the
header has no name, and the guard is the whole path spelt so. -/
theorem guard_usable_iff {session : Session} (split : session.language.isSplit = true)
    {path : Path} {name : String} (named : path.fileName? = some name) :
    ∃ header guard,
      (session.assemble path).head? =
        some ⟨header, Output.opening guard ++ session.buffer .header ++ "#endif\n"⟩ ∧
      guard ≠ "" ∧ (∀ c ∈ guard.toList, c.isAlphanum = true ∨ c = '_') ∧
      (¬ path.LosesName →
        (∃ base : String, header.fileName? = some base ∧
          base.toList = (Path.splitExtension name.toList).1 ++ ['.', 'h'] ∧
          guard = base.map Path.guardChar) ∧
        (IsIdentifier guard ↔ ¬ BeginsWithDigit name.toList)) ∧
      (path.LosesName →
        header.fileName? = none ∧ guard = header.text.map Path.guardChar ∧
        (IsIdentifier guard ↔ ¬ BeginsWithDigit path.text.toList)) := by
  have opens : (session.assemble path).head? = some ⟨path.withExtension "h",
      Output.opening (path.withExtension "h").guardName ++ session.buffer .header ++
        "#endif\n"⟩ := by
    rw [session.assemble_split split]
    rfl
  refine ⟨path.withExtension "h", (path.withExtension "h").guardName, opens, ?_,
    fun c => Path.isWord_of_mem_guardName, ?_, ?_⟩
  · apply Path.guardName_ne_empty
    by_cases lost : path.LosesName
    · obtain ⟨unnamed, some, _⟩ := Path.header_of_lost named lost
      rwa [Path.displayName_of_none unnamed]
    · obtain ⟨base, found, _, some, _⟩ := Path.header_of_kept named lost
      rwa [Path.displayName_of_some found]
  · intro kept
    obtain ⟨base, found, spelt, some, begins⟩ := Path.header_of_kept named kept
    have shown := Path.displayName_of_some found
    refine ⟨⟨base, found, spelt, by rw [Path.guardName, shown]⟩, ?_⟩
    rw [← begins, ← shown]
    exact Path.isIdentifier_guardName (by rwa [shown])
  · intro lost
    obtain ⟨unnamed, some, begins⟩ := Path.header_of_lost named lost
    have shown := Path.displayName_of_none unnamed
    refine ⟨unnamed, by rw [Path.guardName, shown], ?_⟩
    rw [← begins, ← shown]
    exact Path.isIdentifier_guardName (by rwa [shown])

theorem guard_usable_iff_accentedName :
    (⟨"1/été.cc/"⟩ : Path).fileName? = some "été.cc" ∧
      ∃ header, (declaring.assemble ⟨"1/été.cc/"⟩).head? =
          some ⟨header, "#ifndef _T__H\n#define _T__H\nint count;\n#endif\n"⟩ ∧
        header.fileName? = some "été.h" ∧ IsIdentifier "_T__H" := by
  have named : (⟨"1/été.cc/"⟩ : Path).fileName? = some "été.cc" := by decide +kernel
  have split : declaring.language.isSplit = true := by decide
  obtain ⟨header, guard, opens, _, _, whenKept, _⟩ := guard_usable_iff split named
  obtain ⟨⟨base, found, spelt, rfl⟩, identifier⟩ := whenKept (by decide +kernel)
  obtain rfl : base = "été.h" := String.toList_inj.mp (spelt.trans (by decide +kernel))
  have spelling : "été.h".map Path.guardChar = "_T__H" := by decide +kernel
  rw [spelling] at opens identifier
  exact ⟨named, header, opens, found, identifier.mpr (by decide)⟩

-- The directory gets into the guard of a header without a name.
example : (⟨"out/..a"⟩ : Path).LosesName ∧
    ((⟨"out/..a"⟩ : Path).withExtension "h").guardName = "OUT___" := by
  decide +kernel

theorem guard_begins_with_digit :
    ¬ ∀ (session : Session) (path : Path), session.language.isSplit = true →
        path.fileName?.isSome = true → ∀ guard rest : String,
        (session.assemble path).head?.map OutputFile.contents =
          some (Output.opening guard ++ rest) → IsIdentifier guard := by
  intro usable
  have identifier := usable declaring ⟨"1.cc"⟩ (by decide) (by decide +kernel) "1_H"
    "int count;\n#endif\n" (by decide +kernel)
  exact absurd (identifier.begins '1' rfl) (by decide)

end ActionReprint
