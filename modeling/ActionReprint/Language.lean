import ActionReprint.Text.Blank

/-!
The languages a generated source can be written in and how each lays out its
files. A name given by a person is compared without blanks around it and without
case; the name in a stored value has to be exact.
-/

namespace ActionReprint

/-- Where declarations go: into the one file, or into a header beside the body. -/
inductive Layout where
  | primary
  | split
  deriving DecidableEq, Repr

inductive TargetLanguage where
  | java
  | cpp
  deriving DecidableEq, Repr

/-- The language of a source for which nobody names one. -/
instance : Inhabited TargetLanguage := ⟨.java⟩

structure UnknownLanguage where
  name : String
  deriving DecidableEq, Repr

def UnknownLanguage.message (unknown : UnknownLanguage) : String :=
  "unknown output language '" ++ unknown.name ++ "'. Expected 'java' or 'c++'"

namespace TargetLanguage

def all : List TargetLanguage := [.java, .cpp]

def identifier : TargetLanguage → String
  | .java => "java"
  | .cpp => "c++"

def layout : TargetLanguage → Layout
  | .java => .primary
  | .cpp => .split

def isSplit (language : TargetLanguage) : Bool :=
  language.layout == .split

/-- The language with exactly this name; `cpp` is a second name of `c++`. -/
def ofIdentifier? (name : String) : Option TargetLanguage :=
  if name = "java" then some .java
  else if name = "c++" ∨ name = "cpp" then some .cpp
  else none

def named (name : String) : Except UnknownLanguage TargetLanguage :=
  match ofIdentifier? (Text.fold name) with
  | some language => .ok language
  | none => .error ⟨name⟩

end TargetLanguage

end ActionReprint
