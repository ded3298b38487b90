import ActionReprint.Output

/-!
The operations of a session as data, so that a whole run is a list. Each call is
answered by what its caller sees; the calls that replay carry the arena they read.
-/

namespace ActionReprint

inductive Call where
  | setCursor (cursor : Position)
  | write (text : String)
  | writeLine (text : String)
  | writeAll (texts : List String)
  | switchTo (kind : BufferKind)
  | buffer (kind : BufferKind)
  | generatedCode
  | pendingWarnings
  | flushWarnings
  | annotate (name : String)
  | writeModifier (name : String)
  | beginClass (header : ClassHeader)
  | writeMethodHeader (header : MethodHeader)
  | enter (arena : TokenArena) (id : TokenId)
  | renderBare (token : Token)
  | replayBare (token : Token)
  | renderToken (arena : TokenArena) (id : TokenId)
  | replayToken (arena : TokenArena) (id : TokenId)
  | replaySequence (arena : TokenArena) (ids : List TokenId)
  | renderLeadingComments (arena : TokenArena) (id : TokenId)
  | replayLeadingComments (arena : TokenArena) (id : TokenId)
  | renderTrailingComments (arena : TokenArena) (id : TokenId)
  | replayTrailingComments (arena : TokenArena) (id : TokenId)
  | assemble (path : Path)
  | finalize (path : Path)
  deriving DecidableEq, Repr

inductive Reply where
  | done
  | text (text : String)
  | pending (warnings : List Diagnostic)
  | flushed (warnings : List Diagnostic)
  | assembled (files : List OutputFile)
  | finalized (written : List Path) (reported : List Diagnostic)
  deriving DecidableEq, Repr

def Reply.reported : Reply → List Diagnostic
  | .flushed warnings => warnings
  | .finalized _ reported => reported
  | _ => []

namespace Session

def answer (session : Session) (piece : Position → Rendered) : Reply × Session :=
  let (text, moved) := session.render piece
  (.text text, moved)

/-- One operation. A report is taken by a bag of its own. -/
def perform {m : Type → Type} [Monad m] [Storage m] (session : Session) :
    Call → m (Reply × Session)
  | .setCursor cursor => pure (.done, session.setCursor cursor)
  | .write text => pure (.done, session.write text)
  | .writeLine text => pure (.done, session.writeLine text)
  | .writeAll texts => pure (.done, session.writeAll texts)
  | .switchTo kind => pure (.done, session.switchTo kind)
  | .buffer kind => pure (.text (session.buffer kind), session)
  | .generatedCode => pure (.text session.generatedCode, session)
  | .pendingWarnings => pure (.pending session.pendingWarnings, session)
  | .flushWarnings =>
      let (flushed, bag) := session.flushWarnings .empty
      pure (.flushed bag.toList, flushed)
  | .annotate name => pure (.done, session.annotate name)
  | .writeModifier name => pure (.done, session.writeModifier name)
  | .beginClass header => pure (.done, session.beginClass header)
  | .writeMethodHeader header => pure (.done, session.writeMethodHeader header)
  | .enter arena id => pure (.done, session.enter arena id)
  | .renderBare token => pure (session.answer (Replay.bare session.escapeStyle token))
  | .replayBare token => pure (.done, session.replayBare token)
  | .renderToken arena id => pure (session.answer (Replay.token session.escapeStyle arena id))
  | .replayToken arena id => pure (.done, session.replayToken arena id)
  | .replaySequence arena ids => pure (.done, session.replaySequence arena ids)
  | .renderLeadingComments arena id =>
      pure (session.answer (Replay.leadingComments session.escapeStyle arena id))
  | .replayLeadingComments arena id => pure (.done, session.replayLeadingComments arena id)
  | .renderTrailingComments arena id =>
      pure (session.answer (Replay.trailingComments session.escapeStyle arena id))
  | .replayTrailingComments arena id => pure (.done, session.replayTrailingComments arena id)
  | .assemble path => pure (.assembled (session.assemble path), session)
  | .finalize path => do
      let result ← session.finalize path .empty
      pure (.finalized result.written result.bag.toList, result.session)

def performAll {m : Type → Type} [Monad m] [Storage m] (session : Session) :
    List Call → m (List Reply × Session)
  | [] => pure ([], session)
  | call :: rest => do
      let (reply, next) ← session.perform call
      let (replies, last) ← next.performAll rest
      pure (reply :: replies, last)

end Session

end ActionReprint
