import ActionReprint.Declaration
import ActionReprint.Diagnostic
import ActionReprint.Replay
import ActionReprint.Text.Numeral

/-!
The state of generating one source: the options, the cursor in the grammar file, the
three buffers, and the notes on dropped input that have not been reported yet.
Replay moves the cursor, all else leaves it alone. No operation takes text back.
-/

namespace ActionReprint

/-- Whether input that the language cannot express is dropped in silence or with a
warning. The generated text is the same. -/
inductive Leniency where
  | ignore
  | warn
  deriving DecidableEq, Repr

structure SessionOptions where
  language : TargetLanguage
  leniency : Leniency
  deriving DecidableEq, Repr

inductive Dropped where
  | modifier (text : String) (language : TargetLanguage)
  | classModifier (text : String) (language : TargetLanguage)
  | superclasses (className : String) (count : Nat) (kept : String)
  deriving DecidableEq, Repr

namespace Dropped

def message : Dropped → String
  | .modifier text language =>
      "modifier '" ++ text ++ "' has no " ++ language.identifier ++
        " equivalent and was dropped"
  | .classModifier text language =>
      "class modifier '" ++ text ++ "' has no " ++ language.identifier ++
        " equivalent and was dropped"
  | .superclasses className count kept =>
      "class '" ++ className ++ "' lists " ++ String.ofList (Text.decimal count) ++
        " superclasses; only '" ++ kept ++ "' is used"

def warning (dropped : Dropped) : Diagnostic :=
  ⟨"", dropped.message, .warning⟩

end Dropped

structure Session where
  options : SessionOptions
  cursor : Position
  buffers : Buffers
  pending : Array Dropped
  deriving DecidableEq, Repr

namespace Session

def fresh (options : SessionOptions) : Session :=
  ⟨options, Position.start, Buffers.empty, #[]⟩

def language (session : Session) : TargetLanguage :=
  session.options.language

def setCursor (session : Session) (cursor : Position) : Session :=
  { session with cursor }

def write (session : Session) (text : String) : Session :=
  { session with buffers := session.buffers.write text }

def writeLine (session : Session) (text : String) : Session :=
  (session.write text).write "\n"

def writeAll (session : Session) (texts : List String) : Session :=
  texts.foldl write session

def buffer (session : Session) (kind : BufferKind) : String :=
  session.buffers.get kind

/-- A primary layout has no file for headers and statics, so there only the body
buffer can be chosen. -/
def switchTo (session : Session) (kind : BufferKind) : Session :=
  if kind = .body ∨ session.language.isSplit then
    { session with buffers := session.buffers.select kind }
  else session

def generatedCode (session : Session) : String :=
  session.buffers.activeText ++ "\n"

def note (session : Session) (dropped : Dropped) : Session :=
  match session.options.leniency with
  | .ignore => session
  | .warn => { session with pending := session.pending.push dropped }

def pendingWarnings (session : Session) : List Diagnostic :=
  session.pending.toList.map Dropped.warning

def flushWarnings (session : Session) (bag : DiagnosticBag) : Session × DiagnosticBag :=
  ({ session with pending := #[] }, bag.addAll session.pendingWarnings)

def annotate (session : Session) (name : String) : Session :=
  session.write (session.language.annotated name)

def writeModifier (session : Session) (name : String) : Session :=
  match session.language.modifier? name with
  | some text => session.write text
  | none => session.note (.modifier name session.language)

/-- What of a class header the language has no use for: the modifier in a split
layout, every superclass but the first. -/
def droppedFrom (language : TargetLanguage) (header : ClassHeader) : List Dropped :=
  (match header.modifier with
    | some modifier => if language.isSplit then [.classModifier modifier language] else []
    | none => []) ++
  (match header.superclasses with
    | first :: _ :: _ => [.superclasses header.name header.superclasses.length first]
    | _ => [])

def beginClass (session : Session) (header : ClassHeader) : Session :=
  let noted := (droppedFrom session.language header).foldl note session
  noted.write (session.language.classHeader
    { header with superclasses := header.superclasses.take 1 })

def writeMethodHeader (session : Session) (header : MethodHeader) : Session :=
  { session with buffers := session.language.writeMethodHeader header session.buffers }

def render (session : Session) (piece : Position → Rendered) : String × Session :=
  let rendered := piece session.cursor
  (rendered.text, session.setCursor rendered.cursor)

def replay (session : Session) (piece : Position → Rendered) : Session :=
  let (text, moved) := session.render piece
  moved.write text

def enter (session : Session) (arena : TokenArena) (id : TokenId) : Session :=
  match Replay.entry? arena id with
  | some position => session.setCursor position
  | none => session

def escapeStyle (session : Session) : Literal.EscapeStyle :=
  session.language.escapeStyle

def replayBare (session : Session) (token : Token) : Session :=
  session.replay (Replay.bare session.escapeStyle token)

def replayToken (session : Session) (arena : TokenArena) (id : TokenId) : Session :=
  session.replay (Replay.token session.escapeStyle arena id)

def replaySequence (session : Session) (arena : TokenArena) (ids : List TokenId) : Session :=
  session.replay (Replay.sequence session.escapeStyle arena ids)

def replayLeadingComments (session : Session) (arena : TokenArena) (id : TokenId) : Session :=
  session.replay (Replay.leadingComments session.escapeStyle arena id)

def replayTrailingComments (session : Session) (arena : TokenArena) (id : TokenId) : Session :=
  session.replay (Replay.trailingComments session.escapeStyle arena id)

end Session

end ActionReprint
