import ActionReprint.Arena
import ActionReprint.Literal

/-!
Replaying tokens at the lines and columns they had in the grammar file. What is
rendered depends on the tokens, the escape style and the cursor, and on nothing
else: not on the text generated so far, nor on the buffer it will go to. Attached
tokens are rendered in source order in front of their owner.
-/

namespace ActionReprint

structure Rendered where
  text : String
  cursor : Position
  deriving DecidableEq, Repr

namespace Rendered

def nothing (cursor : Position) : Rendered := ⟨"", cursor⟩

def andThen (piece : Rendered) (continuation : Position → Rendered) : Rendered :=
  let following := continuation piece.cursor
  ⟨piece.text ++ following.text, following.cursor⟩

end Rendered

namespace Replay
variable (style : Literal.EscapeStyle) (arena : TokenArena)

def image (token : Token) : String :=
  if token.kind.isLiteral then Literal.escape style token.image else token.image

def bare (token : Token) (cursor : Position) : Rendered :=
  ⟨cursor.padding token.origin ++ image style token, token.past⟩

def bares : List Token → Position → Rendered
  | [], cursor => .nothing cursor
  | token :: rest, cursor => (bare style token cursor).andThen (bares rest)

/-- The tokens attached to `id`; links to tokens that do not exist are passed over. -/
def attached (id : TokenId) : List Token :=
  (arena.specialChain id).filterMap arena.get?

/-- A token after its attached tokens. A token that does not exist renders nothing,
and neither does what such an id would be the owner of. -/
def token (id : TokenId) (cursor : Position) : Rendered :=
  match arena.get? id with
  | some owner => bares style (attached arena id ++ [owner]) cursor
  | none => .nothing cursor

/-- The tokens attached to `id` without the token itself. If they leave the cursor in
the middle of a line on which the token does not begin, one line feed follows. -/
def leadingComments (id : TokenId) (cursor : Position) : Rendered :=
  match arena.get? id with
  | none => .nothing cursor
  | some owner =>
      if owner.special.isNone then .nothing cursor
      else (bares style (attached arena id) cursor).andThen fun reached =>
        if reached.dangles owner.origin.line then ⟨"\n", reached.nextLine⟩ else .nothing reached

/-- The comments after a token are those attached to the token that follows it. -/
def trailingComments (id : TokenId) (cursor : Position) : Rendered :=
  match arena.next? id with
  | some following => leadingComments style arena following cursor
  | none => .nothing cursor

def eachToken : List TokenId → Position → Rendered
  | [], cursor => .nothing cursor
  | id :: rest, cursor => (token style arena id cursor).andThen (eachToken rest)

def sequence (ids : List TokenId) (cursor : Position) : Rendered :=
  (eachToken style arena ids cursor).andThen fun reached =>
    match ids.getLast? with
    | some last => trailingComments style arena last reached
    | none => .nothing reached

/-- Where the cursor has to stand for the first token rendered for `id` to take no
padding; none if that token does not exist. -/
def entry? (id : TokenId) : Option Position :=
  (arena.get? ((arena.earliestSpecial id).getD id)).map Token.origin

end Replay

end ActionReprint
