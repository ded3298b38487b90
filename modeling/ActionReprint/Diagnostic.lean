/-!
What a generation run reports: output files that could not be written, and input
that had to be dropped. Generating text itself cannot fail.
-/

namespace ActionReprint

inductive Severity where
  | error
  | warning
  deriving DecidableEq, Repr

namespace Severity

def all : List Severity := [.error, .warning]

def identifier : Severity → String
  | .error => "error"
  | .warning => "warning"

def ofIdentifier? (name : String) : Option Severity :=
  all.find? fun severity => severity.identifier == name

theorem ofIdentifier?_identifier (severity : Severity) :
    ofIdentifier? severity.identifier = some severity := by
  cases severity <;> decide

end Severity

/-- A message, and the file it is about; `file` is empty when it is about none. -/
structure Diagnostic where
  file : String
  message : String
  severity : Severity
  deriving DecidableEq, Repr

namespace Diagnostic

def isError (diagnostic : Diagnostic) : Bool :=
  diagnostic.severity == .error

def isWarning (diagnostic : Diagnostic) : Bool :=
  diagnostic.severity == .warning

def summary (diagnostic : Diagnostic) : String :=
  diagnostic.severity.identifier ++ ": " ++ diagnostic.message

end Diagnostic

structure DiagnosticBag where
  entries : Array Diagnostic
  errorCount : Nat
  deriving DecidableEq, Repr

namespace DiagnosticBag

def empty : DiagnosticBag := ⟨#[], 0⟩

def add (bag : DiagnosticBag) (diagnostic : Diagnostic) : DiagnosticBag :=
  ⟨bag.entries.push diagnostic, if diagnostic.isError then bag.errorCount + 1 else bag.errorCount⟩

def fatal (bag : DiagnosticBag) (file message : String) : DiagnosticBag :=
  bag.add ⟨file, message, .error⟩

def warning (bag : DiagnosticBag) (message : String) : DiagnosticBag :=
  bag.add ⟨"", message, .warning⟩

def addAll (bag : DiagnosticBag) (diagnostics : List Diagnostic) : DiagnosticBag :=
  diagnostics.foldl add bag

def toList (bag : DiagnosticBag) : List Diagnostic :=
  bag.entries.toList

def hasErrors (bag : DiagnosticBag) : Bool :=
  bag.errorCount > 0

def isEmpty (bag : DiagnosticBag) : Bool :=
  bag.entries.isEmpty

def errors (bag : DiagnosticBag) : List Diagnostic :=
  bag.toList.filter Diagnostic.isError

def warnings (bag : DiagnosticBag) : List Diagnostic :=
  bag.toList.filter Diagnostic.isWarning

@[simp] theorem toList_empty : empty.toList = [] := rfl

@[simp] theorem toList_add (bag : DiagnosticBag) (diagnostic : Diagnostic) :
    (bag.add diagnostic).toList = bag.toList ++ [diagnostic] := by
  simp [add, toList]

@[simp] theorem toList_addAll (bag : DiagnosticBag) (diagnostics : List Diagnostic) :
    (bag.addAll diagnostics).toList = bag.toList ++ diagnostics := by
  induction diagnostics generalizing bag with
  | nil => simp [addAll]
  | cons first rest ih =>
      have tail := ih (bag.add first)
      simp only [addAll, List.foldl_cons] at tail ⊢
      simp [tail]

theorem errorCount_add (bag : DiagnosticBag) (diagnostic : Diagnostic) :
    (bag.add diagnostic).errorCount =
      bag.errorCount + (if diagnostic.isError then 1 else 0) := by
  unfold add
  split <;> rfl

end DiagnosticBag

end ActionReprint
