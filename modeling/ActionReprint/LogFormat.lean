import ActionReprint.Text.Blank

/-!
The form in which log lines are written. A name that is not known means plain text.
-/

namespace ActionReprint

inductive LogFormat where
  | text
  | tree
  | json
  deriving DecidableEq, Repr

namespace LogFormat

def identifier : LogFormat → String
  | .text => "text"
  | .tree => "tree"
  | .json => "json"

def named (name : String) : LogFormat :=
  let folded := Text.fold name
  if folded = "tree" then .tree
  else if folded = "json" then .json
  else .text

end LogFormat

end ActionReprint
