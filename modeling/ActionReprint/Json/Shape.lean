import ActionReprint.Json.Value

/-!
Reading typed values out of JSON. A record is an object, or an array of its fields in
their order, of which the last ones may be missing. Unknown keys of an object are
passed over, but their text has to exist; a known key stands at most once. A missing
field and a null are different things.
-/

namespace ActionReprint.Json

def text? : Value → Option String
  | .quoted inside => (Quoted.decode? inside).map String.ofList
  | _ => none

def bool? : Value → Option Bool
  | .bool value => some value
  | _ => none

def wordLimit : Nat := 4294967296

/-- A number below the limit that is written with digits alone. -/
def natural? : Value → Option Nat
  | .number written =>
      (Text.readDecimal? written).bind fun value => if value < wordLimit then some value else none
  | _ => none

def word? (value : Value) : Option UInt32 :=
  (natural? value).map UInt32.ofNat

/-- The name of a choice: a string, or an object with the name as its only key and null
as the value. -/
def choice? : Value → Option String
  | .object [(key, .null)] => text? (.quoted key)
  | .object _ => none
  | value => text? value

def nullable? {α : Type} (read : Value → Option α) : Value → Option (Option α)
  | .null => some none
  | value => (read value).map some

def list? {α : Type} (read : Value → Option α) : Value → Option (List α)
  | .array items => items.mapM read
  | _ => none

def keyed? (members : List (List Char × Value)) : Option (List (String × Value)) :=
  members.mapM fun member => (Quoted.decode? member.1).map fun key => (String.ofList key, member.2)

/-- The value of a key that stands at most once; the outer option fails if it stands
more often. -/
def unique? (members : List (String × Value)) (name : String) : Option (Option Value) :=
  match members.filter fun member => member.1 == name with
  | [] => some none
  | [member] => some (some member.2)
  | _ => none

def fields? (names : List String) : Value → Option (List (Option Value))
  | .object members => (keyed? members).bind fun read => names.mapM (unique? read)
  | .array items =>
      if items.length ≤ names.length then
        some (items.map some ++ List.replicate (names.length - items.length) none)
      else none
  | _ => none

def required? {α : Type} (read : Value → Option α) (field : Option Value) : Option α :=
  field.bind read

def optional? {α : Type} (fallback : α) (read : Value → Option α) : Option Value → Option α
  | none => some fallback
  | some value => read value

def ofText (text : String) : Value :=
  .quoted (Quoted.encode text.toList)

def ofNat (value : Nat) : Value :=
  .number (Text.decimal value)

def ofOption {α : Type} (write : α → Value) : Option α → Value
  | none => .null
  | some value => write value

def record (fields : List (String × Value)) : Value :=
  .object (fields.map fun field => (Quoted.encode field.1.toList, field.2))

end ActionReprint.Json
