import ActionReprint.CommandLine
import ActionReprint.Json.Shape
import ActionReprint.Jsonc
import ActionReprint.Session

/-!
The options file, JSON with comments, and the options that hold once the command line
has been laid over it.
-/

namespace ActionReprint

/-- What an options file sets. A null sets nothing. -/
structure OptionsFile where
  outputLanguage : Option String
  warnUnsupported : Option Bool
  outDir : Option String
  deriving DecidableEq, Repr

namespace OptionsFile

def empty : OptionsFile := ⟨none, none, none⟩

def ofJson? (value : Json.Value) : Option OptionsFile := do
  match ← Json.fields? ["outputLanguage", "warnUnsupported", "outDir"] value with
  | [outputLanguage, warnUnsupported, outDir] =>
      some ⟨← Json.optional? none (Json.nullable? Json.text?) outputLanguage,
        ← Json.optional? none (Json.nullable? Json.bool?) warnUnsupported,
        ← Json.optional? none (Json.nullable? Json.text?) outDir⟩
  | _ => none

def parse? (text : String) : Option OptionsFile :=
  (Json.parse? (Jsonc.normalize text)).bind ofJson?

end OptionsFile

structure ResolvedOptions where
  session : SessionOptions
  outDir : Option Path
  deriving DecidableEq, Repr

namespace ResolvedOptions

/-- The command line wins over the file, and the default language over nothing. -/
def language (file : OptionsFile) (arguments : Arguments) :
    Except UnknownLanguage TargetLanguage :=
  match arguments.language, file.outputLanguage with
  | some language, _ => .ok language
  | none, some name => TargetLanguage.named name
  | none, none => .ok default

def leniency (file : OptionsFile) (arguments : Arguments) : Leniency :=
  if arguments.warnUnsupported || file.warnUnsupported.getD false then .warn else .ignore

def resolve (file : OptionsFile) (arguments : Arguments) :
    Except UnknownLanguage ResolvedOptions := do
  let language ← language file arguments
  .ok ⟨⟨language, leniency file arguments⟩, arguments.outDir.or (file.outDir.map Path.mk)⟩

/-- Where the body file goes: a relative path is read from the output directory, if
there is one, and that from the working directory. -/
def outputPath (options : ResolvedOptions) (output workingDirectory : Path) : Path :=
  if output.isAbsolute then output
  else match options.outDir with
    | some directory =>
        if directory.isAbsolute then directory.join output
        else (workingDirectory.join directory).join output
    | none => workingDirectory.join output

end ResolvedOptions

end ActionReprint
