import ActionReprint.FileTree
import ActionReprint.Proofs.Accounting
import ActionReprint.Proofs.Extension

/-!
Whether the files a session assembles are all there after they were written. A file is
where its path leads, and to write one moves no directory, so a file is lost only to a later
one at the same place. In a split layout this happens to the header if the body has the
header's extension. Main statement: `survive_iff`.
-/

namespace ActionReprint

namespace FileTree

theorem lookup_put_same (tree : FileTree) {place : Place} (inside : place ≠ []) (entry : Entry) :
    (tree.put place entry).lookup place = some entry := by
  rw [lookup, if_neg inside, put]
  exact List.lookup_cons_self

theorem lookup_filter (entries : List (Place × Entry)) {place other : Place}
    (apart : other ≠ place) :
    (entries.filter fun old => old.1 != place).lookup other = entries.lookup other := by
  induction entries with
  | nil => rfl
  | cons old rest ih =>
      obtain ⟨key, entry⟩ := old
      by_cases same : key = place
      · have missed : (other == key) = false := by
          rw [same]
          exact beq_eq_false_iff_ne.mpr apart
        rw [List.filter_cons_of_neg (by simpa using same), List.lookup_cons, missed, ih]
      · rw [List.filter_cons_of_pos (by simpa using same), List.lookup_cons, List.lookup_cons, ih]

theorem lookup_put_other (tree : FileTree) {place other : Place} (apart : other ≠ place)
    (entry : Entry) : (tree.put place entry).lookup other = tree.lookup other := by
  have missed : (other == place) = false := beq_eq_false_iff_ne.mpr apart
  rw [lookup, lookup, put, List.lookup_cons, missed]
  simp only [lookup_filter tree.entries apart]

theorem isDirectory_put (tree : FileTree) {place : Place} (free : tree.isDirectory place = false)
    (content : ByteArray) : (tree.put place (.file content)).isDirectory = tree.isDirectory := by
  have inside : place ≠ [] := by
    rintro rfl
    cases free
  funext other
  by_cases same : other = place
  · rw [same, free, isDirectory, lookup_put_same tree inside]
  · rw [isDirectory, isDirectory, lookup_put_other tree same]

theorem locate_congr {tree other : FileTree} (directories : tree.isDirectory = other.isDirectory)
    (current : tree.current = other.current) : tree.locate = other.locate := by
  have entered : tree.enter = other.enter := by
    funext place component
    rw [enter, enter, directories]
  funext path
  simp only [locate, enterAll, entered, current]

theorem locate_put (tree : FileTree) {place : Place} (free : tree.isDirectory place = false)
    (content : ByteArray) : (tree.put place (.file content)).locate = tree.locate :=
  locate_congr (tree.isDirectory_put free content) rfl

theorem name_of_locate {tree : FileTree} {path : Path} {place : Place}
    {parents : List (List Char)} {name : List Char} (located : tree.locate path = some place)
    (parts : Path.components path.text.toList = parents ++ [name]) :
    Path.IsName name ∧ place.getLast? = some (String.ofList name) := by
  have last : ((Path.components path.text.toList).map String.ofList).getLast?.getD "" =
      String.ofList name := by simp [parts]
  simp only [locate, last] at located
  split at located
  next valid =>
    obtain ⟨_, _, some, notHere, notParent, _⟩ := valid
    obtain ⟨directory, _, rfl⟩ := Option.map_eq_some_iff.mp located
    refine ⟨?_, List.getLast?_concat⟩
    constructor
    case some =>
      rintro rfl
      exact some rfl
    case notHere =>
      rintro rfl
      exact notHere rfl
    case notParent =>
      rintro rfl
      exact notParent rfl
  next => cases located

/-- A path that names a file and still does so with another extension names the same file
only if it had that extension, and then it is the same path. -/
theorem locate_withExtension {tree : FileTree} {path : Path} {extension : String}
    {place renamed : Place} (located : tree.locate path = some place)
    (again : tree.locate (path.withExtension extension) = some renamed)
    (some : extension.toList ≠ []) (clean : '/' ∉ extension.toList) :
    (renamed = place → path.extension? = Option.some extension) ∧
      (path.extension? = Option.some extension → path.withExtension extension = path) := by
  obtain ⟨parents, name, parts⟩ : ∃ parents name,
      Path.components path.text.toList = parents ++ [name] :=
    ⟨_, _, (List.dropLast_append_getLast (Path.components_ne_nil _)).symm⟩
  obtain ⟨named, last⟩ := name_of_locate located parts
  have parts' := Path.components_withExtension parts named some clean
  obtain ⟨named', last'⟩ := name_of_locate again parts'
  have unchanged := Path.renamed_eq_iff named named'
  have extension?_eq : path.extension? = Option.some extension ↔
      (Path.splitExtension name).2 = Option.some extension.toList := by
    rw [Path.extension?, Path.fileNameOf?_of_components parts named, Option.bind_some,
      Option.map_eq_some_iff]
    constructor
    · rintro ⟨characters, found, rfl⟩
      rw [found, String.toList_ofList]
    · intro found
      exact ⟨_, found, String.ofList_toList⟩
  rw [extension?_eq, ← unchanged]
  constructor
  · intro same
    rw [same, last, Option.some_inj, String.ofList_inj] at last'
    exact last'.symm
  · intro same
    rw [same, ← parts] at parts'
    have texts := congrArg Path.joined parts'
    rw [Path.joined_components, Path.joined_components, String.toList_inj] at texts
    exact congrArg Path.mk texts

theorem write?_eq_some {tree after : FileTree} {path : Path} {text : String}
    (wrote : tree.write? path text = some after) :
    ∃ place, tree.locate path = some place ∧ tree.isDirectory place = false ∧
      after = tree.put place (.file text.toUTF8) := by
  cases located : tree.locate path with
  | none =>
      rw [write?, located] at wrote
      cases wrote
  | some place =>
      rw [write?, located] at wrote
      simp only at wrote
      cases free : tree.isDirectory place with
      | true =>
          rw [if_pos free] at wrote
          cases wrote
      | false =>
          rw [if_neg (Bool.eq_false_iff.mp free)] at wrote
          exact ⟨place, rfl, free, (Option.some.inj wrote).symm⟩

section
variable {tree after : FileTree} {path : Path} {text : String}
  (wrote : tree.write? path text = some after)
include wrote

theorem locate_written : after.locate = tree.locate := by
  obtain ⟨place, _, free, rfl⟩ := write?_eq_some wrote
  exact tree.locate_put free _

theorem entry_written :
    (after.locate path).bind after.lookup = some (.file text.toUTF8) := by
  have kept := locate_written wrote
  obtain ⟨place, located, free, rfl⟩ := write?_eq_some wrote
  have inside : place ≠ [] := by
    rintro rfl
    cases free
  rw [kept, located]
  exact tree.lookup_put_same inside _

theorem entry_elsewhere {other : Path} (apart : tree.locate other ≠ tree.locate path) :
    (after.locate other).bind after.lookup = (tree.locate other).bind tree.lookup := by
  have kept := locate_written wrote
  obtain ⟨place, located, free, rfl⟩ := write?_eq_some wrote
  rw [located] at apart
  rw [kept]
  cases there : tree.locate other with
  | none => rfl
  | some elsewhere =>
      rw [there] at apart
      exact tree.lookup_put_other (fun same => apart (congrArg some same)) _

theorem read_written : after.read path = some text := by
  rw [read, entry_written wrote]
  exact dif_pos text.isValidUTF8

theorem read_elsewhere {other : Path} (apart : tree.locate other ≠ tree.locate path) :
    after.read other = tree.read other := by
  rw [read, read, entry_elsewhere wrote apart]

end

theorem write?_of_answer {before after : FileTree} {path : Path} {text : String}
    (answered : (Storage.write path text : StateM FileTree Bool) before = (true, after)) :
    before.write? path text = some after := by
  simp only [Storage.write] at answered
  cases wrote : before.write? path text with
  | none =>
      rw [wrote] at answered
      cases answered
  | some written =>
      rw [wrote] at answered
      cases answered
      rfl

theorem write?_of_attempts {first second : OutputFile} {outcomes : List (OutputFile × Bool)}
    {before after : FileTree} (attempts : Attempts before outcomes after)
    (files : outcomes.map Prod.fst = [first, second])
    (all : ∀ outcome ∈ outcomes, outcome.2 = true) :
    ∃ between, before.write? first.path first.contents = some between ∧
      between.write? second.path second.contents = some after := by
  cases attempts with
  | done => cases files
  | @write _ _ _ between _ _ answered onward =>
      cases onward with
      | done => cases files
      | write answered' onward =>
          cases onward with
          | write _ _ => cases files
          | done =>
              simp only [List.map_cons, List.map_nil, List.cons.injEq, and_true] at files
              simp only [List.forall_mem_cons] at all
              obtain ⟨rfl, rfl⟩ := files
              obtain ⟨rfl, rfl, _⟩ := all
              exact ⟨between, write?_of_answer answered, write?_of_answer answered'⟩

end FileTree

namespace Output

theorem all_of_written {outcomes : List (OutputFile × Bool)}
    (all : written outcomes = (outcomes.map Prod.fst).map OutputFile.path) :
    ∀ outcome ∈ outcomes, outcome.2 = true := by
  have lengths := congrArg List.length all
  rw [written, List.length_map, List.length_map, List.length_map] at lengths
  exact List.length_filter_eq_length_iff.mp lengths

end Output

def Session.bodyFile (session : Session) (path : Path) : OutputFile :=
  ⟨path, Output.identity path ++ Output.inclusion (path.withExtension "h") ++
    session.buffer .statics ++ session.buffer .body⟩

theorem Session.header_ne_body (session : Session) (path header : Path) :
    (Output.headerFile session header).contents ≠ (session.bodyFile path).contents := by
  intro same
  have first := congrArg (fun text => text.toList.head?) same
  simp [Output.headerFile, bodyFile, Output.guarded, Output.identity] at first

theorem Session.assemble_split {session : Session} (split : session.language.isSplit = true)
    (path : Path) :
    session.assemble path =
      [Output.headerFile session (path.withExtension "h"), session.bodyFile path] := by
  have header : session.language.headerExtension? = some "h" := by
    cases language : session.language with
    | java =>
        rw [language] at split
        cases split
    | cpp => rfl
  rw [assemble, header]
  rfl

theorem Session.finalize_split {session : Session} (split : session.language.isSplit = true)
    {path : Path} {bag : DiagnosticBag} {before : FileTree}
    (succeeded : ((session.finalize path bag : StateM FileTree _) before).1.written =
      (session.assemble path).map OutputFile.path) :
    ∃ between, before.write? (path.withExtension "h")
        (Output.headerFile session (path.withExtension "h")).contents = some between ∧
      between.write? path (session.bodyFile path).contents =
        some ((session.finalize path bag : StateM FileTree _) before).2 := by
  obtain ⟨outcomes, after, files, attempts, finalized⟩ :=
    session.finalize_attempts path bag before
  rw [finalized, ← files] at succeeded
  have all := Output.all_of_written succeeded
  rw [session.assemble_split split] at files
  rw [finalized]
  obtain ⟨between, wroteHeader, wroteBody⟩ := FileTree.write?_of_attempts attempts files all
  exact ⟨between, wroteHeader, wroteBody⟩

/-- A split layout whose files could all be written: they are all there with their contents
exactly if the body has not the extension of a header, and only then they are two files. -/
theorem survive_iff {session : Session} (split : session.language.isSplit = true)
    {path : Path} {bag : DiagnosticBag} {before : FileTree}
    (succeeded : ((session.finalize path bag : StateM FileTree _) before).1.written =
      (session.assemble path).map OutputFile.path) :
    ((∀ file ∈ session.assemble path,
        ((session.finalize path bag : StateM FileTree _) before).2.read file.path =
          some file.contents) ↔ path.extension? ≠ some "h") ∧
      (((session.assemble path).map OutputFile.path).Nodup ↔ path.extension? ≠ some "h") := by
  obtain ⟨between, wroteHeader, wroteBody⟩ := session.finalize_split split succeeded
  generalize ((session.finalize path bag : StateM FileTree _) before).2 = after at wroteBody ⊢
  have kept := FileTree.locate_written wroteHeader
  obtain ⟨headerPlace, locatedHeader, _, _⟩ := FileTree.write?_eq_some wroteHeader
  obtain ⟨bodyPlace, locatedBody, _, _⟩ := FileTree.write?_eq_some wroteBody
  rw [kept] at locatedBody
  obtain ⟨shared, collides⟩ :=
    FileTree.locate_withExtension locatedBody locatedHeader (by decide) (by decide)
  have readBody := FileTree.read_written wroteBody
  rw [session.assemble_split split]
  constructor
  · constructor
    · intro survive extension
      have readHeader := survive _ List.mem_cons_self
      change after.read (path.withExtension "h") = _ at readHeader
      rw [collides extension, readBody, Option.some_inj] at readHeader
      exact session.header_ne_body path _ readHeader.symm
    · intro extension file member
      have apart : before.locate (path.withExtension "h") ≠ before.locate path := by
        rw [locatedHeader, locatedBody]
        exact fun same => extension (shared (Option.some.inj same))
      rw [← kept] at apart
      rcases List.mem_cons.mp member with rfl | member
      · exact (FileTree.read_elsewhere wroteBody apart).trans (FileTree.read_written wroteHeader)
      · rw [List.mem_singleton.mp member]
        exact readBody
  · change [path.withExtension "h", path].Nodup ↔ _
    rw [List.nodup_cons, List.mem_singleton, and_iff_left (by simp)]
    constructor
    · exact fun apart extension => apart (collides extension)
    · intro extension same
      rw [same, locatedBody] at locatedHeader
      exact extension (shared (Option.some.inj locatedHeader).symm)

def declaring : Session :=
  ⟨⟨.cpp, .ignore⟩, .start, ⟨"", "int count;\n", "", .body⟩, #[]⟩

theorem survive_iff_ownExtension :
    ((declaring.finalize ⟨"a.cc"⟩ .empty : StateM FileTree _) ⟨[], []⟩).1.written =
        [⟨"a.h"⟩, ⟨"a.cc"⟩] ∧
      ∀ file ∈ declaring.assemble ⟨"a.cc"⟩,
        ((declaring.finalize ⟨"a.cc"⟩ .empty : StateM FileTree _) ⟨[], []⟩).2.read file.path =
          some file.contents := by
  constructor
  · decide +kernel
  · exact (survive_iff (by decide) (by decide +kernel)).1.mpr (by decide +kernel)

/-- A body with the extension of a header takes the header's place, and nothing is said. -/
theorem header_overwritten :
    ¬ ∀ (session : Session) (path : Path) (before : FileTree), session.language.isSplit = true →
        ((session.finalize path .empty : StateM FileTree _) before).1.written =
          (session.assemble path).map OutputFile.path →
        ∀ file ∈ session.assemble path,
          ((session.finalize path .empty : StateM FileTree _) before).2.read file.path =
            some file.contents := by
  intro survive
  have readHeader := survive declaring ⟨"a.h"⟩ ⟨[], []⟩ (by decide) (by decide +kernel)
    ⟨⟨"a.h"⟩, "#ifndef A_H\n#define A_H\nint count;\n#endif\n"⟩ (by decide +kernel)
  have readBody :
      ((declaring.finalize ⟨"a.h"⟩ .empty : StateM FileTree _) ⟨[], []⟩).2.read ⟨"a.h"⟩ =
        some "/* a.h */\n#include \"a.h\"\n" := by decide +kernel
  rw [readBody] at readHeader
  exact absurd readHeader (by decide)

end ActionReprint
