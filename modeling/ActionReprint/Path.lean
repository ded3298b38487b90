/-!
Paths as text. A path is cut at slashes; empty components and single dots stay where
they are and name nothing, so the file a path names is given by its last other
component. Nothing here looks at a file system.
-/

namespace ActionReprint

structure Path where
  text : String
  deriving DecidableEq, Repr

namespace Path

def components : List Char → List (List Char)
  | [] => [[]]
  | c :: rest =>
      if c = '/' then [] :: components rest
      else match components rest with
        | first :: others => (c :: first) :: others
        | [] => [[c]]

def joined : List (List Char) → List Char
  | [] => []
  | [last] => last
  | first :: others => first ++ '/' :: joined others

theorem components_ne_nil (text : List Char) : components text ≠ [] := by
  cases text with
  | nil => simp [components]
  | cons c rest =>
      unfold components
      split
      · simp
      · split <;> simp

theorem joined_components (text : List Char) : joined (components text) = text := by
  induction text with
  | nil => rfl
  | cons c rest ih =>
      unfold components
      split
      · next slash =>
          obtain ⟨first, others, parts⟩ := List.exists_cons_of_ne_nil (components_ne_nil rest)
          rw [parts] at ih ⊢
          simp [joined, ih, slash]
      · split
        · next first others parts =>
            rw [parts] at ih
            cases others <;> simp_all [joined]
        · next none => exact absurd none (components_ne_nil rest)

/-- Components that name no entry of their directory. -/
def isIdle (component : List Char) : Bool :=
  component.isEmpty || component == ['.']

/-- The components up to the last one that is not idle, that one first. -/
def spine (text : List Char) : List (List Char) :=
  (components text).reverse.dropWhile isIdle

/-- The name of the file; none if the path leads to a parent or nowhere. -/
def fileNameOf? (text : List Char) : Option (List Char) :=
  match spine text with
  | last :: _ => if last = ['.', '.'] then none else some last
  | [] => none

def fileName? (path : Path) : Option String :=
  (fileNameOf? path.text.toList).map String.ofList

def displayName (path : Path) : String :=
  path.fileName?.getD path.text

/-- The stem and the extension of a file name: the last dot is between them. A dot in
front of everything does not begin an extension. -/
def splitExtension (name : List Char) : List Char × Option (List Char) :=
  let before := ((name.reverse.dropWhile (· != '.')).drop 1).reverse
  if before.isEmpty then (name, none)
  else (before, some (name.reverse.takeWhile (· != '.')).reverse)

def setExtension (text extension : List Char) : List Char :=
  match spine text with
  | last :: parents =>
      if last = ['.', '.'] then text
      else
        joined (parents.reverse ++ [(splitExtension last).1]) ++
          (if extension.isEmpty then [] else '.' :: extension)
  | [] => text

/-- Takes as many characters off the end as the extension has. They are the extension
unless slashes follow the file name. -/
def dropExtension (text : List Char) : List Char :=
  match (fileNameOf? text).bind fun name => (splitExtension name).2 with
  | some extension => text.take (text.length - extension.length)
  | none => text

/-- The path with another extension. The old one is taken off first, so that a name
of two dots and an extension turns into the parent directory and then stays. -/
def withExtension (path : Path) (extension : String) : Path :=
  ⟨String.ofList (setExtension (dropExtension path.text.toList) extension.toList)⟩

def isAbsolute (path : Path) : Bool :=
  path.text.toList.head? == some '/'

/-- The second path seen from the first: an absolute one replaces it, and otherwise one
slash stands between the two unless the first is empty. -/
def join (base path : Path) : Path :=
  if path.isAbsolute then path
  else if base.text.isEmpty || base.text.toList.getLast? == some '/' then
    ⟨base.text ++ path.text⟩
  else ⟨base.text ++ "/" ++ path.text⟩

def guardChar (c : Char) : Char :=
  if c.isAlphanum then c.toUpper else '_'

def guardName (header : Path) : String :=
  header.displayName.map guardChar

end Path

end ActionReprint
