import ActionReprint.Session
import ActionReprint.Storage

/-!
The files a session turns into, and writing them. A primary layout has one file: a
comment with the file's name and the body buffer. A split layout has a header in
front of it, the header buffer inside an include guard; its body file includes the
header and has the statics before the definitions.
-/

namespace ActionReprint

structure OutputFile where
  path : Path
  contents : String
  deriving DecidableEq, Repr

namespace Output

def identity (path : Path) : String :=
  "/* " ++ path.displayName ++ " */\n"

def guarded (guardName declarations : String) : String :=
  "#ifndef " ++ guardName ++ "\n#define " ++ guardName ++ "\n" ++ declarations ++ "#endif\n"

def headerFile (session : Session) (header : Path) : OutputFile :=
  ⟨header, guarded header.guardName (session.buffer .header)⟩

def inclusion (header : Path) : String :=
  "#include \"" ++ header.displayName ++ "\"\n"

end Output

def Session.assemble (session : Session) (path : Path) : List OutputFile :=
  match session.language.headerExtension? with
  | none => [⟨path, Output.identity path ++ session.buffer .body⟩]
  | some extension =>
      let header := path.withExtension extension
      [Output.headerFile session header,
        ⟨path, Output.identity path ++ Output.inclusion header ++
          session.buffer .statics ++ session.buffer .body⟩]

namespace Output

/-- Attempts every file once and in order, whatever became of those before it, and
says of each whether it was written. -/
def writeAll {m : Type → Type} [Monad m] [Storage m] :
    List OutputFile → m (List (OutputFile × Bool))
  | [] => pure []
  | output :: rest => do
      let done ← Storage.write output.path output.contents
      let others ← writeAll rest
      pure ((output, done) :: others)

def written (outcomes : List (OutputFile × Bool)) : List Path :=
  (outcomes.filter fun outcome => outcome.2).map fun outcome => outcome.1.path

def failure (path : Path) : Diagnostic :=
  ⟨path.text, "Could not create output file: " ++ path.text, .error⟩

def failures (outcomes : List (OutputFile × Bool)) : List Diagnostic :=
  (outcomes.filter fun outcome => !outcome.2).map fun outcome => failure outcome.1.path

end Output

structure Finalized where
  session : Session
  written : List Path
  bag : DiagnosticBag
  deriving DecidableEq, Repr

/-- Reports the pending warnings, writes the output files and reports each one that
could not be written. -/
def Session.finalize {m : Type → Type} [Monad m] [Storage m] (session : Session) (path : Path)
    (bag : DiagnosticBag) : m Finalized := do
  let (flushed, warned) := session.flushWarnings bag
  let outcomes ← Output.writeAll (flushed.assemble path)
  pure ⟨flushed, Output.written outcomes, warned.addAll (Output.failures outcomes)⟩

end ActionReprint
