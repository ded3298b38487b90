import ActionReprint.Position

/-!
Tokens of a grammar file as the front end classified, placed and linked them.
-/

namespace ActionReprint

inductive TokenKind where
  | stringLiteral
  | characterLiteral
  | singleLineComment
  | multiLineComment
  | other
  deriving DecidableEq, Repr

namespace TokenKind

def isLiteral : TokenKind → Bool
  | .stringLiteral | .characterLiteral => true
  | _ => false

def all : List TokenKind :=
  [.stringLiteral, .characterLiteral, .singleLineComment, .multiLineComment, .other]

def identifier : TokenKind → String
  | .stringLiteral => "stringLiteral"
  | .characterLiteral => "characterLiteral"
  | .singleLineComment => "singleLineComment"
  | .multiLineComment => "multiLineComment"
  | .other => "other"

def ofIdentifier? (name : String) : Option TokenKind :=
  all.find? fun kind => kind.identifier == name

theorem ofIdentifier?_identifier (kind : TokenKind) :
    ofIdentifier? kind.identifier = some kind := by
  cases kind <;> decide

end TokenKind

/-- The index of a token in the arena that holds it, for arenas of at most `2 ^ 32` tokens:
a front end keeps ids in words of 32 bits, which cut off any index past those. -/
abbrev TokenId := Nat

/-- A lexical unit. `final` is the place of the last character of the image, not
the place past it. -/
structure Token where
  kind : TokenKind
  image : String
  origin : Position
  final : Position
  /-- The nearest token attached in front of this one, most often a comment. -/
  special : Option TokenId
  next : Option TokenId
  deriving DecidableEq, Repr

namespace Token

/-- Comments up to the end of the line hold the character that ends it. -/
def endsLine (token : Token) : Bool :=
  match token.image.toList.getLast? with
  | some c => c == '\n' || c == '\r'
  | none => false

def past (token : Token) : Position :=
  if token.endsLine then ⟨bump token.final.line, 1⟩
  else ⟨token.final.line, bump token.final.column⟩

end Token

end ActionReprint
