import ActionReprint.Text.Blank

/-!
JSON with comments, made plain in one pass. A comment leaves nothing but its line
feeds, so that lines keep their numbers. A comma is held back together with the
blanks after it until it is known what follows: before a closing bracket or brace it
is dropped. Nothing is checked; text that is no JSON is stripped all the same, and a
comment that is not closed lasts to the end. The two sides of a comment are joined.
-/

namespace ActionReprint.Jsonc

/-- A comma that has not been written yet, with the blanks after it, last first. -/
abbrev Held := Option (List Char)

inductive Mode where
  | code (held : Held)
  | string (escaped : Bool)
  | lineComment (held : Held)
  | blockComment (held : Held)
  deriving DecidableEq, Repr

def kept : Held → List Char
  | none => []
  | some blanks => ',' :: blanks.reverse

def dropped : Held → List Char
  | none => []
  | some blanks => blanks.reverse

def now (held : Held) (blank : Char) : List Char :=
  match held with
  | none => [blank]
  | some _ => []

def later (held : Held) (blank : Char) : Held :=
  held.map (blank :: ·)

def isClosing (c : Char) : Bool :=
  c == '\x7d' || c == ']'

def afterStringChar (escaped : Bool) (c : Char) : Mode :=
  if escaped then .string false
  else if c = '\\' then .string true
  else if c = '"' then .code none
  else .string false

def strip : Mode → List Char → List Char
  | .code held, [] => kept held
  | .code held, '/' :: '/' :: rest => strip (.lineComment held) rest
  | .code held, '/' :: '*' :: rest => strip (.blockComment held) rest
  | .code held, c :: rest =>
      if c = ',' then kept held ++ strip (.code (some [])) rest
      else if isClosing c then dropped held ++ c :: strip (.code none) rest
      else if Text.isBlank c then now held c ++ strip (.code (later held c)) rest
      else if c = '"' then kept held ++ c :: strip (.string false) rest
      else kept held ++ c :: strip (.code none) rest
  | .string _, [] => []
  | .string escaped, c :: rest => c :: strip (afterStringChar escaped c) rest
  | .lineComment held, [] => kept held
  | .lineComment held, c :: rest =>
      if c = '\n' then now held c ++ strip (.code (later held c)) rest
      else strip (.lineComment held) rest
  | .blockComment held, [] => kept held
  | .blockComment held, '*' :: '/' :: rest => strip (.code held) rest
  | .blockComment held, c :: rest =>
      if c = '\n' then now held c ++ strip (.blockComment (later held c)) rest
      else strip (.blockComment held) rest

def normalize (text : String) : String :=
  String.ofList (strip (.code none) text.toList)

end ActionReprint.Jsonc
