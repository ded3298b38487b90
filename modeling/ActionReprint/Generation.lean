import ActionReprint.Dump
import ActionReprint.Options
import ActionReprint.Output

/-!
From a token dump to output files, and a whole run: options file, options, token
dump, output. A run ends with an error at the first of these that fails, and until
the output nothing is written.
-/

namespace ActionReprint

structure Outcome where
  bag : DiagnosticBag
  emitted : List Path
  deriving DecidableEq, Repr

namespace Session

def replayDump (session : Session) (dump : TokenDump) : Session :=
  match dump.effectiveSequence with
  | [] => session
  | first :: rest =>
      (session.enter dump.arena first).replaySequence dump.arena (first :: rest)

def wrapper (language : TargetLanguage) (name : String) : ClassHeader :=
  ⟨if language.isSplit then none else some "public", name, [], []⟩

def wrapperEnd (language : TargetLanguage) : String :=
  if language.isSplit then "\x7d;" else "\x7d"

/-- The session after a dump has been replayed, inside a class if one is named. In a
split layout the class goes to the header, since its members are defined inline. -/
def ofDump (dump : TokenDump) (options : SessionOptions) (className : Option String) : Session :=
  let fresh := Session.fresh options
  match className with
  | none => fresh.replayDump dump
  | some name =>
      let opened := (fresh.switchTo .header).beginClass (wrapper options.language name)
      (((opened.replayDump dump).writeLine "").writeLine (wrapperEnd options.language)).switchTo .body

end Session

section
variable {m : Type → Type} [Monad m] [Storage m]

def generate (dump : TokenDump) (options : SessionOptions) (output : Path)
    (className : Option String) : m Outcome := do
  let result ← (Session.ofDump dump options className).finalize output .empty
  pure ⟨result.bag, result.written⟩

end

inductive RunError where
  | optionsUnreadable (path : Path)
  | optionsMalformed (path : Path)
  | unknownLanguage (unknown : UnknownLanguage)
  | dumpUnreadable (path : Path)
  | dumpMalformed (path : Path)
  deriving DecidableEq, Repr

def OptionsFile.malformed : String := "failed to parse options JSON"

def TokenDump.malformed : String := "failed to parse token dump JSON"

namespace RunError

def account : RunError → List String
  | .optionsUnreadable path => ["failed to read options file: " ++ path.text]
  | .optionsMalformed path =>
      ["failed to parse options file: " ++ path.text, OptionsFile.malformed]
  | .unknownLanguage unknown => [unknown.message]
  | .dumpUnreadable path => ["failed to read token dump: " ++ path.text]
  | .dumpMalformed path => ["invalid token dump: " ++ path.text, TokenDump.malformed]

def message (error : RunError) : String :=
  ": ".intercalate error.account

end RunError

def defaultOptionsPath : Path := ⟨"gramc.json"⟩

section
variable {m : Type → Type} [Monad m] [Storage m]

def loadOptions (path : Path) : m (Except RunError OptionsFile) := do
  match ← Storage.read path with
  | none => pure (.error (.optionsUnreadable path))
  | some text => match OptionsFile.parse? text with
    | none => pure (.error (.optionsMalformed path))
    | some file => pure (.ok file)

def findOptions (explicit : Option Path) (workingDirectory : Path) :
    m (Except RunError OptionsFile) := do
  match explicit with
  | some path => loadOptions path
  | none =>
      let path := workingDirectory.join defaultOptionsPath
      if ← Storage.isFile path then loadOptions path else pure (.ok .empty)

def loadDump (path : Path) : m (Except RunError TokenDump) := do
  match ← Storage.read path with
  | none => pure (.error (.dumpUnreadable path))
  | some text => match TokenDump.parse? text with
    | none => pure (.error (.dumpMalformed path))
    | some dump => pure (.ok dump)

structure Plan where
  options : ResolvedOptions
  dump : TokenDump
  deriving DecidableEq, Repr

/-- Everything a run reads, in the order in which it can fail. -/
def prepare (arguments : Arguments) (workingDirectory : Path) : m (Except RunError Plan) := do
  match ← findOptions arguments.config workingDirectory with
  | .error error => pure (.error error)
  | .ok file => match ResolvedOptions.resolve file arguments with
    | .error unknown => pure (.error (.unknownLanguage unknown))
    | .ok options => match ← loadDump (workingDirectory.join arguments.tokens) with
      | .error error => pure (.error error)
      | .ok dump => pure (.ok ⟨options, dump⟩)

def run (arguments : Arguments) (workingDirectory : Path) : m (Except RunError Outcome) := do
  match ← prepare arguments workingDirectory with
  | .error error => pure (.error error)
  | .ok plan =>
      let output := plan.options.outputPath arguments.output workingDirectory
      let outcome ← generate plan.dump plan.options.session output arguments.className
      pure (.ok outcome)

end

end ActionReprint
