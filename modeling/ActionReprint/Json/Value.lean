import ActionReprint.Json.Lexeme

/-!
JSON values and the machine that builds one from lexemes. The machine keeps the
containers that are still open on a stack, so a text may be nested as deep as it
likes. Members of an object keep their order and their repetitions; what a repeated
key means is for the reader of the object to say.
-/

namespace ActionReprint.Json

/-- Numbers and strings are kept as they were written. -/
inductive Value where
  | null
  | bool (value : Bool)
  | number (written : List Char)
  | quoted (inside : List Char)
  | array (items : List Value)
  | object (members : List (List Char × Value))
  deriving Repr

namespace Value

mutual

def lexemes : Value → List Lexeme
  | .null => [.null]
  | .bool value => [.bool value]
  | .number written => [.number written]
  | .quoted inside => [.quoted inside]
  | .array items => .openArray :: itemLexemes items ++ [.closeArray]
  | .object members => .openObject :: memberLexemes members ++ [.closeObject]

def itemLexemes : List Value → List Lexeme
  | [] => []
  | [last] => lexemes last
  | first :: second :: rest => lexemes first ++ .comma :: itemLexemes (second :: rest)

def memberLexemes : List (List Char × Value) → List Lexeme
  | [] => []
  | [(key, value)] => .quoted key :: .colon :: lexemes value
  | (key, value) :: second :: rest =>
      .quoted key :: .colon :: lexemes value ++ .comma :: memberLexemes (second :: rest)

end

def render (value : Value) : String :=
  String.ofList (value.lexemes.flatMap Lexeme.text)

end Value

/-- A container that waits for a value in it to be finished. What it has already is
kept last first. -/
inductive Frame where
  | array (items : List Value)
  | object (members : List (List Char × Value)) (key : List Char)
  deriving Repr

/-- What may come next, and the containers around it, innermost first. -/
inductive State where
  | needValue (stack : List Frame)
  | firstItem (stack : List Frame)
  | firstKey (stack : List Frame)
  | needKey (members : List (List Char × Value)) (stack : List Frame)
  | needColon (members : List (List Char × Value)) (key : List Char) (stack : List Frame)
  | afterItem (items : List Value) (stack : List Frame)
  | afterMember (members : List (List Char × Value)) (stack : List Frame)
  | done (value : Value)
  deriving Repr

namespace State

def start : State := .needValue []

def deliver (value : Value) : List Frame → State
  | [] => .done value
  | .array items :: stack => .afterItem (value :: items) stack
  | .object members key :: stack => .afterMember ((key, value) :: members) stack

def beginValue (stack : List Frame) : Lexeme → Option State
  | .null => some (deliver .null stack)
  | .bool value => some (deliver (.bool value) stack)
  | .number written => some (deliver (.number written) stack)
  | .quoted inside => some (deliver (.quoted inside) stack)
  | .openArray => some (.firstItem stack)
  | .openObject => some (.firstKey stack)
  | _ => none

def step : State → Lexeme → Option State
  | .needValue stack, lexeme => beginValue stack lexeme
  | .firstItem stack, .closeArray => some (deliver (.array []) stack)
  | .firstItem stack, lexeme => beginValue (.array [] :: stack) lexeme
  | .firstKey stack, .closeObject => some (deliver (.object []) stack)
  | .firstKey stack, .quoted key => some (.needColon [] key stack)
  | .needKey members stack, .quoted key => some (.needColon members key stack)
  | .needColon members key stack, .colon => some (.needValue (.object members key :: stack))
  | .afterItem items stack, .comma => some (.needValue (.array items :: stack))
  | .afterItem items stack, .closeArray => some (deliver (.array items.reverse) stack)
  | .afterMember members stack, .comma => some (.needKey members stack)
  | .afterMember members stack, .closeObject => some (deliver (.object members.reverse) stack)
  | _, _ => none

def run (state : State) (lexemes : List Lexeme) : Option State :=
  lexemes.foldlM step state

def value? : State → Option Value
  | .done value => some value
  | _ => none

end State

def ofLexemes? (lexemes : List Lexeme) : Option Value :=
  (State.start.run lexemes).bind State.value?

def parse? (text : String) : Option Value :=
  (lex text.toList).bind ofLexemes?

end ActionReprint.Json
