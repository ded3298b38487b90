import ActionReprint.Path
import Mathlib.Data.List.TakeWhile

/-!
Paths that name a file, and what another extension makes of them: the directories stay,
and of the name the stem stays. What follows the name, slashes and single dots, is given up.
Only a stem of one dot that nothing follows is lost, because a dot more turns it into the
parent directory. Main statements: `withExtension_of_trailing`, and `components_withExtension`
for paths that end with their name.
-/

namespace ActionReprint.Path

theorem slash_notMem_components {text component : List Char}
    (member : component ∈ components text) : '/' ∉ component := by
  induction text generalizing component with
  | nil =>
      rw [List.mem_singleton.mp member]
      exact List.not_mem_nil
  | cons c rest ih =>
      by_cases slash : c = '/'
      · rw [components, if_pos slash] at member
        rcases List.mem_cons.mp member with rfl | inside
        · exact List.not_mem_nil
        · exact ih inside
      · obtain ⟨first, others, parts⟩ := List.exists_cons_of_ne_nil (components_ne_nil rest)
        rw [components, if_neg slash, parts] at member
        rw [parts] at ih
        rcases List.mem_cons.mp member with rfl | inside
        · rw [List.mem_cons, not_or]
          exact ⟨Ne.symm slash, ih List.mem_cons_self⟩
        · exact ih (List.mem_cons_of_mem _ inside)

theorem components_of_notMem {component : List Char} (clean : '/' ∉ component) :
    components component = [component] := by
  induction component with
  | nil => rfl
  | cons c rest ih =>
      rw [List.mem_cons, not_or] at clean
      rw [components, if_neg (Ne.symm clean.1), ih clean.2]

theorem components_append (text rest : List Char) :
    components (text ++ '/' :: rest) = components text ++ components rest := by
  induction text with
  | nil => exact if_pos rfl
  | cons c more ih =>
      rw [List.cons_append, components, components, ih]
      by_cases slash : c = '/'
      · rw [if_pos slash, if_pos slash, List.cons_append]
      · obtain ⟨first, others, parts⟩ := List.exists_cons_of_ne_nil (components_ne_nil more)
        rw [if_neg slash, if_neg slash, parts]
        rfl

theorem joined_cons (first : List Char) {others : List (List Char)} (more : others ≠ []) :
    joined (first :: others) = first ++ '/' :: joined others := by
  cases others with
  | nil => exact absurd rfl more
  | cons second rest => rfl

theorem components_joined {parts : List (List Char)} (some : parts ≠ [])
    (clean : ∀ component ∈ parts, '/' ∉ component) : components (joined parts) = parts := by
  induction parts with
  | nil => exact absurd rfl some
  | cons first others ih =>
      have cleanFirst := clean first List.mem_cons_self
      by_cases more : others = []
      · subst more
        exact components_of_notMem cleanFirst
      · have onward := ih more fun component inside =>
          clean component (List.mem_cons_of_mem _ inside)
        rw [joined_cons first more, components_append, components_of_notMem cleanFirst, onward]
        rfl

theorem joined_concat_append (parents : List (List Char)) (last more : List Char) :
    joined (parents ++ [last]) ++ more = joined (parents ++ [last ++ more]) := by
  induction parents with
  | nil => rfl
  | cons first others ih =>
      rw [List.cons_append, List.cons_append, joined_cons first (by simp),
        joined_cons first (by simp), List.append_assoc, List.cons_append, ih]

theorem joined_eq (first : List Char) (others : List (List Char)) :
    joined (first :: others) = first ++ others.flatMap ('/' :: ·) := by
  induction others generalizing first with
  | nil => exact (List.append_nil first).symm
  | cons second rest ih =>
      rw [joined_cons first (List.cons_ne_nil second rest), ih]
      rfl

theorem joined_append {parts : List (List Char)} (some : parts ≠ []) (more : List (List Char)) :
    joined (parts ++ more) = joined parts ++ more.flatMap ('/' :: ·) := by
  obtain ⟨first, others, rfl⟩ := List.exists_cons_of_ne_nil some
  rw [List.cons_append, joined_eq, joined_eq, List.flatMap_append, List.append_assoc]

theorem clean_concat {parents : List (List Char)} {name last : List Char}
    (clean : ∀ component ∈ parents ++ [name], '/' ∉ component) (cleanLast : '/' ∉ last) :
    ∀ component ∈ parents ++ [last], '/' ∉ component :=
  List.forall_mem_append.mpr
    ⟨(List.forall_mem_append.mp clean).1, List.forall_mem_singleton.mpr cleanLast⟩

/-- A component that names an entry of its directory. -/
structure IsName (component : List Char) : Prop where
  some : component ≠ []
  notHere : component ≠ ['.']
  notParent : component ≠ ['.', '.']

theorem IsName.not_idle {name : List Char} (named : IsName name) : isIdle name = false := by
  rw [isIdle, Bool.or_eq_false_iff]
  exact ⟨List.isEmpty_eq_false_iff.mpr named.some, beq_eq_false_iff_ne.mpr named.notHere⟩

theorem spine_of_components {text name : List Char} {parents : List (List Char)}
    (parts : components text = parents ++ [name]) (kept : isIdle name = false) :
    spine text = name :: parents.reverse := by
  rw [spine, parts, List.reverse_append, List.reverse_singleton, List.singleton_append,
    List.dropWhile_cons_of_neg]
  rw [kept]
  exact Bool.false_ne_true

theorem fileNameOf?_of_components {text name : List Char} {parents : List (List Char)}
    (parts : components text = parents ++ [name]) (named : IsName name) :
    fileNameOf? text = some name := by
  rw [fileNameOf?, spine_of_components parts named.not_idle]
  exact if_neg named.notParent

/-- Slashes, and single dots behind them. -/
inductive Trailing : List Char → Prop where
  | nil : Trailing []
  | slash {rest : List Char} (onward : Trailing rest) : Trailing ('/' :: rest)
  | dot {rest : List Char} (onward : Trailing rest) : Trailing ('/' :: '.' :: rest)

theorem Trailing.take {tail : List Char} (trailing : Trailing tail) (count : Nat) :
    Trailing (tail.take count) := by
  induction trailing generalizing count with
  | nil =>
      rw [List.take_nil]
      exact .nil
  | slash _ ih =>
      cases count with
      | zero => exact .nil
      | succ count => exact .slash (ih count)
  | dot _ ih =>
      rcases count with _ | _ | count
      · exact .nil
      · exact .slash .nil
      · exact .dot (ih count)

theorem spine_append_idle (text : List Char) {last : List Char} (clean : '/' ∉ last)
    (idle : isIdle last = true) : spine (text ++ '/' :: last) = spine text := by
  rw [spine, components_append, components_of_notMem clean, List.reverse_append,
    List.reverse_singleton, List.singleton_append, List.dropWhile_cons_of_pos idle]
  rfl

theorem Trailing.spine_append {tail : List Char} (trailing : Trailing tail) (text : List Char) :
    spine (text ++ tail) = spine text := by
  induction trailing generalizing text with
  | nil => rw [List.append_nil]
  | slash _ ih =>
      rw [List.append_cons, ih]
      exact spine_append_idle text List.not_mem_nil rfl
  | dot _ ih =>
      rw [List.append_cons, List.append_cons, ih, List.append_assoc]
      exact spine_append_idle text (by decide) rfl

theorem trailing_of_idle {parts : List (List Char)}
    (idle : ∀ component ∈ parts, isIdle component = true) :
    Trailing (parts.flatMap ('/' :: ·)) := by
  induction parts with
  | nil => exact .nil
  | cons first rest ih =>
      obtain ⟨isIdle, others⟩ := List.forall_mem_cons.mp idle
      rw [List.flatMap_cons]
      rcases Bool.or_eq_true_iff.mp isIdle with empty | dot
      · rw [List.isEmpty_iff.mp empty]
        exact .slash (ih others)
      · rw [eq_of_beq dot]
        exact .dot (ih others)

theorem spine_of_fileNameOf? {text name : List Char} (named : fileNameOf? text = some name) :
    ∃ parents, spine text = name :: parents ∧ IsName name := by
  unfold fileNameOf? at named
  split at named
  next last parents shape =>
    split at named
    next => cases named
    next notParent =>
      obtain rfl := Option.some.inj named
      have kept : isIdle last = false := by
        have stopped := List.head?_dropWhile_not isIdle (components text).reverse
        rw [← spine, shape] at stopped
        simpa using stopped
      rw [isIdle, Bool.or_eq_false_iff] at kept
      exact ⟨parents, shape, List.isEmpty_eq_false_iff.mp kept.1,
        beq_eq_false_iff_ne.mp kept.2, notParent⟩
  next => cases named

theorem exists_trailing {text name : List Char} (named : fileNameOf? text = some name) :
    ∃ parents tail, text = joined (parents ++ [name]) ++ tail ∧ Trailing tail ∧
      (∀ component ∈ parents ++ [name], '/' ∉ component) ∧ IsName name ∧
      (tail = [] ↔ (components text).getLast? = some name) := by
  obtain ⟨parents, shape, isName⟩ := spine_of_fileNameOf? named
  obtain ⟨others, idle, parts⟩ : ∃ others, (∀ component ∈ others, isIdle component = true) ∧
      components text = parents.reverse ++ [name] ++ others := by
    have cut := List.takeWhile_append_dropWhile (p := isIdle) (l := (components text).reverse)
    rw [← spine, shape] at cut
    refine ⟨((components text).reverse.takeWhile isIdle).reverse, ?_, ?_⟩
    · intro component member
      exact List.mem_takeWhile_imp (List.mem_reverse.mp member)
    · rw [← List.reverse_cons, ← List.reverse_append, cut, List.reverse_reverse]
  have whole := joined_components text
  rw [parts, joined_append (by simp)] at whole
  refine ⟨parents.reverse, _, whole.symm, trailing_of_idle idle, ?_, isName, ?_⟩
  · intro component member
    have inside : component ∈ components text := by
      rw [parts]
      exact List.mem_append_left _ member
    exact slash_notMem_components inside
  · rw [parts]
    rcases List.eq_nil_or_concat others with rfl | ⟨front, last, rfl⟩
    · simp
    · -- The last component is idle then, and a name is not.
      rw [List.concat_eq_append, ← List.append_assoc, List.getLast?_concat]
      have differs : last ≠ name := by
        rintro rfl
        exact absurd (idle last (by simp)) (by rw [isName.not_idle]; exact Bool.false_ne_true)
      simp [differs]

/-- The characters after the last dot of the file name, unless no other character of the
name is in front of that dot. -/
def extension? (path : Path) : Option String :=
  ((fileNameOf? path.text.toList).bind fun name => (splitExtension name).2).map String.ofList

theorem splitExtension_append {stem extension : List Char} (some : stem ≠ [])
    (undotted : '.' ∉ extension) :
    splitExtension (stem ++ '.' :: extension) = (stem, Option.some extension) := by
  have others : ∀ c ∈ extension.reverse, (c != '.') = true := by
    intro c member
    apply bne_iff_ne.mpr
    rintro rfl
    exact undotted (List.mem_reverse.mp member)
  have before : (stem ++ '.' :: extension).reverse =
      extension.reverse ++ '.' :: stem.reverse := by simp
  have dropped : (extension.reverse ++ '.' :: stem.reverse).dropWhile (· != '.') =
      '.' :: stem.reverse := by
    rw [List.dropWhile_append_of_pos others]
    rfl
  have taken : (extension.reverse ++ '.' :: stem.reverse).takeWhile (· != '.') =
      extension.reverse := by
    rw [List.takeWhile_append_of_pos others]
    exact List.append_nil _
  rw [splitExtension, before, dropped, taken]
  simp [some]

theorem splitExtension_cases (name : List Char) :
    splitExtension name = (name, none) ∨
      ∃ stem extension, stem ≠ [] ∧ '.' ∉ extension ∧ name = stem ++ '.' :: extension := by
  cases rest : name.reverse.dropWhile (· != '.') with
  | nil =>
      left
      rw [splitExtension, rest]
      rfl
  | cons dot stem =>
      by_cases none : stem = []
      · left
        rw [splitExtension, rest, none]
        rfl
      · right
        have cut := List.takeWhile_append_dropWhile (p := (· != '.')) (l := name.reverse)
        have isDot : dot = '.' := by
          have stopped := List.head?_dropWhile_not (· != '.') name.reverse
          rw [rest] at stopped
          exact bne_eq_false_iff_eq.mp (by simpa using stopped)
        refine ⟨stem.reverse, (name.reverse.takeWhile (· != '.')).reverse,
          by simpa using none, ?_, ?_⟩
        · intro member
          have passed := List.mem_takeWhile_imp (List.mem_reverse.mp member)
          exact absurd passed (by decide)
        · rw [rest, isDot] at cut
          calc name = (name.reverse.takeWhile (· != '.') ++ '.' :: stem).reverse := by
                rw [cut, List.reverse_reverse]
            _ = stem.reverse ++ '.' :: (name.reverse.takeWhile (· != '.')).reverse := by simp

theorem splitExtension_shape {name : List Char} (some : name ≠ []) :
    (splitExtension name).1 ≠ [] ∧ (splitExtension name).1 <+: name := by
  rcases splitExtension_cases name with whole | ⟨stem, old, stemmed, undotted, rfl⟩
  · rw [whole]
    exact ⟨some, List.prefix_refl name⟩
  · rw [splitExtension_append stemmed undotted]
    exact ⟨stemmed, List.prefix_append stem _⟩

def renamed (name extension : List Char) : List Char :=
  if (splitExtension name).1 = ['.'] then ['.', '.']
  else (splitExtension name).1 ++ '.' :: extension

theorem eq_parent_iff {stem old : List Char} (some : stem ≠ []) :
    stem ++ '.' :: old = ['.', '.'] ↔ stem = ['.'] ∧ old = [] := by
  obtain ⟨c, rest, rfl⟩ := List.exists_cons_of_ne_nil some
  cases rest <;> simp

theorem setExtension_of_spine {text name extension : List Char} {parents : List (List Char)}
    (shape : spine text = name :: parents) (notParent : name ≠ ['.', '.'])
    (some : extension ≠ []) :
    setExtension text extension =
      joined (parents.reverse ++ [(splitExtension name).1 ++ '.' :: extension]) := by
  rw [setExtension, shape]
  simp only [if_neg notParent]
  rw [if_neg (by simpa using some), joined_concat_append]

theorem setExtension_of_parent {text : List Char} {parents : List (List Char)}
    (shape : spine text = ['.', '.'] :: parents) (extension : List Char) :
    setExtension text extension = text := by
  rw [setExtension, shape]
  exact if_pos rfl

section
variable {parents : List (List Char)} {tail : List Char} (trailing : Trailing tail)
include trailing

theorem spine_of_trailing {name : List Char}
    (clean : ∀ component ∈ parents ++ [name], '/' ∉ component) (kept : isIdle name = false) :
    spine (joined (parents ++ [name]) ++ tail) = name :: parents.reverse := by
  rw [trailing.spine_append]
  exact spine_of_components (components_joined (by simp) clean) kept

theorem fileNameOf?_of_trailing {name : List Char}
    (clean : ∀ component ∈ parents ++ [name], '/' ∉ component) (named : IsName name) :
    fileNameOf? (joined (parents ++ [name]) ++ tail) = some name := by
  rw [fileNameOf?, spine_of_trailing trailing clean named.not_idle]
  exact if_neg named.notParent

/-- As many characters as the old extension has come off the end: what follows the name,
and then the extension, as far as that is not enough. -/
theorem dropExtension_of_trailing {stem old : List Char}
    (clean : ∀ component ∈ parents ++ [stem ++ '.' :: old], '/' ∉ component)
    (named : IsName (stem ++ '.' :: old)) (some : stem ≠ []) (undotted : '.' ∉ old) :
    dropExtension (joined (parents ++ [stem ++ '.' :: old]) ++ tail) =
      joined (parents ++ [stem ++ '.' :: old.take tail.length]) ++
        tail.take (tail.length - old.length) := by
  have split : ∀ more, joined (parents ++ [stem ++ '.' :: more]) =
      joined (parents ++ [stem ++ ['.']]) ++ more := by
    intro more
    rw [joined_concat_append, List.append_assoc, List.singleton_append]
  rw [dropExtension, fileNameOf?_of_trailing trailing clean named, Option.bind_some,
    splitExtension_append some undotted]
  simp only
  rw [split old, split (old.take tail.length), List.append_assoc, List.append_assoc,
    ← List.take_append, List.length_append, List.length_append, ← Nat.add_assoc,
    Nat.add_right_comm, Nat.add_sub_cancel, List.take_length_add_append]

/-- With another extension a path ends behind its name. Only a stem of one dot that nothing
follows turns into the parent directory. -/
theorem withExtension_of_trailing {path : Path} {name : List Char} {extension : String}
    (shape : path.text.toList = joined (parents ++ [name]) ++ tail)
    (clean : ∀ component ∈ parents ++ [name], '/' ∉ component) (named : IsName name)
    (some : extension.toList ≠ []) :
    (path.withExtension extension).text.toList =
      if (splitExtension name).1 = ['.'] ∧ tail = [] then joined (parents ++ [['.', '.']])
      else joined (parents ++ [(splitExtension name).1 ++ '.' :: extension.toList]) := by
  rw [withExtension, String.toList_ofList, shape]
  rcases splitExtension_cases name with whole | ⟨stem, old, stemmed, undotted, rfl⟩
  · have kept : dropExtension (joined (parents ++ [name]) ++ tail) =
        joined (parents ++ [name]) ++ tail := by
      rw [dropExtension, fileNameOf?_of_trailing trailing clean named, Option.bind_some, whole]
    have notDot : ¬ ((splitExtension name).1 = ['.'] ∧ tail = []) := by
      rw [whole]
      exact fun both => named.notHere both.1
    rw [kept, if_neg notDot, setExtension_of_spine
      (spine_of_trailing trailing clean named.not_idle) named.notParent some, List.reverse_reverse]
  · rw [dropExtension_of_trailing trailing clean named stemmed undotted,
      splitExtension_append stemmed undotted]
    have cleanLast : '/' ∉ stem ++ '.' :: old.take tail.length := by
      have cleanName := clean _ List.mem_concat_self
      simp only [List.mem_append, List.mem_cons, not_or] at cleanName ⊢
      exact ⟨cleanName.1, cleanName.2.1, fun member => cleanName.2.2 (List.mem_of_mem_take member)⟩
    have kept : isIdle (stem ++ '.' :: old.take tail.length) = false := by
      cases stem with
      | nil => exact absurd rfl stemmed
      | cons c rest => simp [isIdle]
    have shape := spine_of_trailing (trailing.take (tail.length - old.length))
      (clean_concat clean cleanLast) kept
    by_cases lost : stem = ['.'] ∧ tail = []
    · obtain ⟨rfl, rfl⟩ := lost
      rw [if_pos ⟨rfl, rfl⟩, setExtension_of_parent shape, List.take_nil, List.append_nil]
      rfl
    · have notParent : stem ++ '.' :: old.take tail.length ≠ ['.', '.'] := by
        intro same
        obtain ⟨rfl, nothing⟩ := (eq_parent_iff stemmed).mp same
        rcases List.take_eq_nil_iff.mp nothing with ended | empty
        · exact lost ⟨rfl, List.length_eq_zero_iff.mp ended⟩
        · subst empty
          exact named.notParent rfl
      rw [if_neg lost, setExtension_of_spine shape notParent some, List.reverse_reverse,
        splitExtension_append stemmed fun member => undotted (List.mem_of_mem_take member)]

end

theorem slash_notMem_renamed {name extension : List Char} (some : name ≠ [])
    (cleanName : '/' ∉ name) (clean : '/' ∉ extension) :
    '/' ∉ (splitExtension name).1 ++ '.' :: extension := by
  obtain ⟨_, front⟩ := splitExtension_shape some
  rw [List.mem_append, List.mem_cons, not_or, not_or]
  exact ⟨fun member => cleanName (front.subset member), by decide, clean⟩

theorem components_withExtension {parents : List (List Char)} {path : Path} {name : List Char}
    {extension : String} (parts : components path.text.toList = parents ++ [name])
    (named : IsName name) (some : extension.toList ≠ []) (clean : '/' ∉ extension.toList) :
    components (path.withExtension extension).text.toList =
      parents ++ [renamed name extension.toList] := by
  have shape : path.text.toList = joined (parents ++ [name]) ++ [] := by
    rw [List.append_nil, ← parts, joined_components]
  have cleanParts : ∀ component ∈ parents ++ [name], '/' ∉ component := by
    intro component member
    rw [← parts] at member
    exact slash_notMem_components member
  rw [withExtension_of_trailing .nil shape cleanParts named some, renamed]
  by_cases dot : (splitExtension name).1 = ['.']
  · rw [if_pos ⟨dot, rfl⟩, if_pos dot]
    exact components_joined (by simp) (clean_concat cleanParts (by decide))
  · have cleanName := slash_notMem_renamed named.some (cleanParts name List.mem_concat_self) clean
    rw [if_neg fun lost => dot lost.1, if_neg dot]
    exact components_joined (by simp) (clean_concat cleanParts cleanName)

theorem renamed_eq_iff {name extension : List Char} (named : IsName name)
    (kept : IsName (renamed name extension)) :
    renamed name extension = name ↔ (splitExtension name).2 = some extension := by
  rw [renamed] at kept ⊢
  rcases splitExtension_cases name with whole | ⟨stem, old, stemmed, undotted, rfl⟩
  · rw [whole, if_neg named.notHere]
    simp
  · rw [splitExtension_append stemmed undotted] at kept ⊢
    by_cases lone : stem = ['.']
    · rw [if_pos lone] at kept
      exact absurd rfl kept.notParent
    · rw [if_neg lone, List.append_cancel_left_eq, List.cons_inj_right, Option.some_inj, eq_comm]

end ActionReprint.Path
