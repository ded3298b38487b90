import ActionReprint.Buffers
import ActionReprint.Language
import ActionReprint.Literal

/-!
How each language writes what is not copied from the grammar file: annotations,
access modifiers, class headers, method headers, and the file extensions. A text
given by the caller is never looked into, so a text that closes a comment closes it.
-/

namespace ActionReprint

structure ClassHeader where
  modifier : Option String
  name : String
  superclasses : List String
  interfaces : List String
  deriving DecidableEq, Repr

/-- A method header; `specifiers` are its modifiers and return type, `declarator` its
name and parameters, `owner` the class that a definition outside it belongs to. -/
structure MethodHeader where
  specifiers : String
  owner : Option String
  declarator : String
  exceptions : Option String
  deriving DecidableEq, Repr

def ownerQualifier : Option String → String
  | some name => name ++ "::"
  | none => ""

namespace ClassHeader

/-- Only the first superclass can be named. -/
def java (header : ClassHeader) : String :=
  (match header.modifier with
    | some modifier => modifier ++ " "
    | none => "") ++
  "class " ++ header.name ++
  (match header.superclasses with
    | first :: _ => " extends " ++ first
    | [] => "") ++
  (if header.interfaces.isEmpty then ""
    else " implements " ++ ", ".intercalate header.interfaces) ++
  " \x7b\n"

/-- Superclasses and interfaces are bases alike; a modifier has no place. -/
def cpp (header : ClassHeader) : String :=
  let bases := header.superclasses ++ header.interfaces
  "class " ++ header.name ++
  (if bases.isEmpty then "" else " : " ++ ", ".intercalate bases) ++
  " \x7b\n   public:\n"

end ClassHeader

namespace MethodHeader

def throwsClause (header : MethodHeader) : String :=
  match header.exceptions with
  | some exceptions => " throws " ++ exceptions
  | none => ""

def throwSpecification (header : MethodHeader) : String :=
  match header.exceptions with
  | some exceptions => " throw(" ++ exceptions ++ ")"
  | none => ""

def inPlace (header : MethodHeader) : String :=
  header.specifiers ++ " " ++ header.declarator ++ header.throwsClause ++ "\n"

def signature (header : MethodHeader) (qualifier : String) : String :=
  "\n" ++ header.specifiers ++ " " ++ qualifier ++ header.declarator ++ header.throwSpecification

def prototype (header : MethodHeader) : String :=
  header.signature "" ++ ";\n"

def definition (header : MethodHeader) : String :=
  header.signature (ownerQualifier header.owner)

end MethodHeader

namespace TargetLanguage

def bodyExtension : TargetLanguage → String
  | .java => "java"
  | .cpp => "cc"

def headerExtension? : TargetLanguage → Option String
  | .java => none
  | .cpp => some "h"

def escapeStyle : TargetLanguage → Literal.EscapeStyle
  | .java => .surrogates
  | .cpp => .long

def annotated (name : String) : TargetLanguage → String
  | .java => "@" ++ name
  | .cpp => "/*" ++ name ++ "*/"

def modifier? (name : String) : TargetLanguage → Option String
  | .java => some name
  | .cpp =>
      let small := name.map Char.toLower
      if small = "public" ∨ small = "private" then some (small ++ ": ") else none

def classHeader (header : ClassHeader) : TargetLanguage → String
  | .java => header.java
  | .cpp => header.cpp

/-- A split layout takes the prototype into the header buffer and the definition into
the body buffer, which is active afterwards. -/
def writeMethodHeader (header : MethodHeader) (buffers : Buffers) : TargetLanguage → Buffers
  | .java => buffers.write header.inPlace
  | .cpp => ((buffers.append .header header.prototype).append .body header.definition).select .body

end TargetLanguage

end ActionReprint
