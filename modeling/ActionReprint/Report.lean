import ActionReprint.Diagnostic

/-!
The text in which a person reads diagnostics: one after another, each with its file
in front if it has one, the severity bold and coloured on request.
-/

namespace ActionReprint.Report

def colorCode : Severity → String
  | .error => "1;31"
  | .warning => "1;33"

def label (colored : Bool) (severity : Severity) : String :=
  if colored then
    "\x1b[" ++ colorCode severity ++ "m" ++ severity.identifier ++ "\x1b[0m"
  else severity.identifier

def line (colored : Bool) (diagnostic : Diagnostic) : String :=
  (if diagnostic.file.isEmpty then "" else diagnostic.file ++ " - ") ++
    label colored diagnostic.severity ++ ": " ++ diagnostic.message

def render (colored : Bool) (diagnostics : List Diagnostic) : String :=
  "\n".intercalate (diagnostics.map (line colored))

end ActionReprint.Report
