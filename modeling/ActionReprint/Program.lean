import ActionReprint.Generation
import ActionReprint.Report

/-!
The program as its caller sees it: an exit code and two texts. The exit code is 0 for
success, 1 for a run that failed or could not write a file, 2 for a command line that
is not taken.
-/

namespace ActionReprint.Program

structure Result where
  exitCode : Nat
  stdout : String
  stderr : String
  deriving DecidableEq, Repr

structure Display where
  isTerminal : Bool
  takesColor : Bool
  deriving DecidableEq, Repr

def versionLine : String := "gramc 0.1.0\n"

def usageLine : String :=
  "Usage: gramc [OPTIONS] <TOKENS> <OUTPUT>\n"

def helpText : String :=
  "Reprint grammar action tokens into generated Java or C++ sources\n\n" ++ usageLine

def usageMessage : UsageError → String
  | .missingRequired => "a required argument is missing"
  | .unknownArgument => "there is no such argument"
  | .invalidValue => "a value is missing or not valid"
  | .conflict => "an argument is given twice"
  | .tooManyValues => "an argument takes no value"
  | .helpRequested => ""
  | .versionRequested => ""

def ofUsageError : UsageError → Result
  | .helpRequested => ⟨0, helpText, ""⟩
  | .versionRequested => ⟨0, versionLine, ""⟩
  | error => ⟨2, "", "error: " ++ usageMessage error ++ "\n\n" ++ usageLine⟩

def errorText (error : RunError) : String :=
  match error.account with
  | outermost :: cause :: _ => "Error: " ++ outermost ++ "\n\nCaused by:\n    " ++ cause ++ "\n"
  | outermost :: [] => "Error: " ++ outermost ++ "\n"
  | [] => "Error\n"

def ofOutcome (display : Display) (arguments : Arguments) (outcome : Outcome) : Result :=
  let colored := (arguments.pretty || display.isTerminal) && display.takesColor
  let shown :=
    if outcome.bag.isEmpty then "" else Report.render colored outcome.bag.toList ++ "\n"
  ⟨if outcome.bag.hasErrors then 1 else 0, "", shown⟩

def execute {m : Type → Type} [Monad m] [Storage m] (display : Display) (workingDirectory : Path)
    (argv : List String) : m Result := do
  match CommandLine.parse argv with
  | .error error => pure (ofUsageError error)
  | .ok arguments => match ← run arguments workingDirectory with
    | .error error => pure ⟨1, "", errorText error⟩
    | .ok outcome => pure (ofOutcome display arguments outcome)

end ActionReprint.Program
