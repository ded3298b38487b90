import ActionReprint.Storage

/-!
A file system in memory, with the rules of Linux for which path names a file. Entries
are kept under the names that lead to them from the root. There are no links and no
permissions, so a write fails only because of the shape of its path, a missing
directory, a file where a directory should be, or a directory in the file's place.
-/

namespace ActionReprint

/-- The names that lead from the root to an entry. -/
abbrev Place := List String

inductive Entry where
  | directory
  | file (content : ByteArray)

/-- All entries but the root, which is a directory. `current` is the directory from
which relative paths are read. -/
structure FileTree where
  entries : List (Place × Entry)
  current : Place

namespace FileTree

def lookup (tree : FileTree) (place : Place) : Option Entry :=
  if place = [] then some .directory else tree.entries.lookup place

def isDirectory (tree : FileTree) (place : Place) : Bool :=
  match tree.lookup place with
  | some .directory => true
  | _ => false

def put (tree : FileTree) (place : Place) (entry : Entry) : FileTree :=
  { tree with entries := (place, entry) :: tree.entries.filter fun old => old.1 != place }

/-- The longest name of an entry, in bytes. -/
def nameLimit : Nat := 255

def pathLimit : Nat := 4096

def enter (tree : FileTree) (place : Place) (component : String) : Option Place :=
  if component = "" ∨ component = "." then some place
  else if component = ".." then some place.dropLast
  else if component.utf8ByteSize ≤ nameLimit ∧ tree.isDirectory (place ++ [component]) then
    some (place ++ [component])
  else none

def enterAll (tree : FileTree) (place : Place) (components : List String) : Option Place :=
  components.foldlM tree.enter place

/-- Where a file of this path is or would be. None if the path cannot name a file:
its directory has to exist, and its last component has to be a name. -/
def locate (tree : FileTree) (path : Path) : Option Place :=
  let components := (Path.components path.text.toList).map String.ofList
  let name := components.getLast?.getD ""
  if path.text.utf8ByteSize < pathLimit ∧ '\x00' ∉ path.text.toList ∧
      name ≠ "" ∧ name ≠ "." ∧ name ≠ ".." ∧ name.utf8ByteSize ≤ nameLimit then
    (tree.enterAll (if path.isAbsolute then [] else tree.current) components.dropLast).map
      (· ++ [name])
  else none

def read (tree : FileTree) (path : Path) : Option String :=
  match (tree.locate path).bind tree.lookup with
  | some (.file content) => String.fromUTF8? content
  | _ => none

def isFile (tree : FileTree) (path : Path) : Bool :=
  match (tree.locate path).bind tree.lookup with
  | some (.file _) => true
  | _ => false

def write? (tree : FileTree) (path : Path) (text : String) : Option FileTree :=
  match tree.locate path with
  | some place =>
      if tree.isDirectory place then none else some (tree.put place (.file text.toUTF8))
  | none => none

def addDirectory (tree : FileTree) (place : Place) : FileTree :=
  (List.range place.length).foldl
    (fun grown depth => grown.put (place.take (depth + 1)) .directory) tree

def addFile (tree : FileTree) (place : Place) (content : ByteArray) : FileTree :=
  (tree.addDirectory place.dropLast).put place (.file content)

instance : Storage (StateM FileTree) where
  read path := fun tree => (tree.read path, tree)
  isFile path := fun tree => (tree.isFile path, tree)
  write path text := fun tree => match tree.write? path text with
    | some written => (true, written)
    | none => (false, tree)

end FileTree

end ActionReprint
