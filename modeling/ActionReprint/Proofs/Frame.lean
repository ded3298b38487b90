import ActionReprint.Session

/-!
What each operation of a session changes and what it leaves alone. No operation changes
the options; only replay and moves of the cursor change the cursor; only dropped input
changes what is pending. What the buffers receive is said operation by operation.
-/

namespace ActionReprint

namespace Buffers

@[simp] theorem write_empty (buffers : Buffers) : buffers.write "" = buffers := by
  obtain ⟨body, header, statics, active⟩ := buffers
  cases active <;> simp [write, append]

theorem write_write (buffers : Buffers) (text more : String) :
    (buffers.write text).write more = buffers.write (text ++ more) := by
  obtain ⟨body, header, statics, active⟩ := buffers
  cases active <;> simp [write, append, String.append_assoc]

end Buffers

def Replay.entered (arena : TokenArena) (id : TokenId) (cursor : Position) : Position :=
  match Replay.entry? arena id with
  | some position => position
  | none => cursor

theorem join_singleton (text : String) : String.join [text] = text := by
  simp

namespace Session

@[simp] theorem options_write (session : Session) (text : String) :
    (session.write text).options = session.options := rfl

@[simp] theorem cursor_write (session : Session) (text : String) :
    (session.write text).cursor = session.cursor := rfl

@[simp] theorem pending_write (session : Session) (text : String) :
    (session.write text).pending = session.pending := rfl

@[simp] theorem buffers_write (session : Session) (text : String) :
    (session.write text).buffers = session.buffers.write text := rfl

theorem writeLine_eq (session : Session) (text : String) :
    session.writeLine text = session.write (text ++ "\n") := by
  simp [writeLine, write, Buffers.write_write]

theorem writeAll_eq (session : Session) (texts : List String) :
    session.writeAll texts = session.write (String.join texts) := by
  induction texts generalizing session with
  | nil => simp [writeAll, write]
  | cons text rest ih =>
      have tail := ih (session.write text)
      simp only [writeAll, List.foldl_cons] at tail ⊢
      rw [tail]
      simp [write, Buffers.write_write]

@[simp] theorem options_setCursor (session : Session) (cursor : Position) :
    (session.setCursor cursor).options = session.options := rfl

@[simp] theorem cursor_setCursor (session : Session) (cursor : Position) :
    (session.setCursor cursor).cursor = cursor := rfl

@[simp] theorem pending_setCursor (session : Session) (cursor : Position) :
    (session.setCursor cursor).pending = session.pending := rfl

@[simp] theorem buffers_setCursor (session : Session) (cursor : Position) :
    (session.setCursor cursor).buffers = session.buffers := rfl

theorem switchTo_eq (session : Session) (kind : BufferKind) :
    session.switchTo kind =
      { session with
        buffers := if kind = .body ∨ session.language.isSplit then session.buffers.select kind
          else session.buffers } := by
  unfold switchTo
  split <;> rfl

@[simp] theorem options_switchTo (session : Session) (kind : BufferKind) :
    (session.switchTo kind).options = session.options := by
  rw [switchTo_eq]

@[simp] theorem cursor_switchTo (session : Session) (kind : BufferKind) :
    (session.switchTo kind).cursor = session.cursor := by
  rw [switchTo_eq]

@[simp] theorem pending_switchTo (session : Session) (kind : BufferKind) :
    (session.switchTo kind).pending = session.pending := by
  rw [switchTo_eq]

@[simp] theorem options_note (session : Session) (dropped : Dropped) :
    (session.note dropped).options = session.options := by
  unfold note
  split <;> rfl

@[simp] theorem cursor_note (session : Session) (dropped : Dropped) :
    (session.note dropped).cursor = session.cursor := by
  unfold note
  split <;> rfl

@[simp] theorem buffers_note (session : Session) (dropped : Dropped) :
    (session.note dropped).buffers = session.buffers := by
  unfold note
  split <;> rfl

section
variable (session : Session) (dropped : List Dropped)

@[simp] theorem options_foldl_note :
    (dropped.foldl note session).options = session.options := by
  induction dropped generalizing session with
  | nil => rfl
  | cons first rest ih => rw [List.foldl_cons, ih, options_note]

@[simp] theorem cursor_foldl_note : (dropped.foldl note session).cursor = session.cursor := by
  induction dropped generalizing session with
  | nil => rfl
  | cons first rest ih => rw [List.foldl_cons, ih, cursor_note]

@[simp] theorem buffers_foldl_note : (dropped.foldl note session).buffers = session.buffers := by
  induction dropped generalizing session with
  | nil => rfl
  | cons first rest ih => rw [List.foldl_cons, ih, buffers_note]

end

def classText (language : TargetLanguage) (header : ClassHeader) : String :=
  language.classHeader { header with superclasses := header.superclasses.take 1 }

@[simp] theorem options_beginClass (session : Session) (header : ClassHeader) :
    (session.beginClass header).options = session.options := by
  simp [beginClass]

@[simp] theorem cursor_beginClass (session : Session) (header : ClassHeader) :
    (session.beginClass header).cursor = session.cursor := by
  simp [beginClass]

@[simp] theorem buffers_beginClass (session : Session) (header : ClassHeader) :
    (session.beginClass header).buffers =
      session.buffers.write (classText session.language header) := by
  simp [beginClass, classText]

@[simp] theorem options_writeModifier (session : Session) (name : String) :
    (session.writeModifier name).options = session.options := by
  unfold writeModifier
  cases session.language.modifier? name with
  | none => exact session.options_note _
  | some text => rfl

@[simp] theorem cursor_writeModifier (session : Session) (name : String) :
    (session.writeModifier name).cursor = session.cursor := by
  unfold writeModifier
  cases session.language.modifier? name with
  | none => exact session.cursor_note _
  | some text => rfl

theorem buffers_writeModifier (session : Session) (name : String) :
    (session.writeModifier name).buffers =
      session.buffers.write (String.join (session.language.modifier? name).toList) := by
  unfold writeModifier
  cases session.language.modifier? name with
  | none =>
      -- A modifier that the language does not have is noted and not written.
      rw [buffers_note]
      exact session.buffers.write_empty.symm
  | some text => exact congrArg session.buffers.write (join_singleton text).symm

theorem writeMethodHeader_of_primary (session : Session) (header : MethodHeader)
    (primary : session.language.isSplit = false) :
    session.writeMethodHeader header = session.write header.inPlace := by
  obtain ⟨⟨language, leniency⟩, cursor, buffers, pending⟩ := session
  cases language with
  | java => rfl
  | cpp => cases primary

theorem buffers_writeMethodHeader_of_split (session : Session) (header : MethodHeader)
    (split : session.language.isSplit = true) :
    (session.writeMethodHeader header).buffers =
      ((session.buffers.append .header header.prototype).append .body header.definition).select
        .body := by
  obtain ⟨⟨language, leniency⟩, cursor, buffers, pending⟩ := session
  cases language with
  | java => cases split
  | cpp => rfl

@[simp] theorem options_replay (session : Session) (piece : Position → Rendered) :
    (session.replay piece).options = session.options := rfl

@[simp] theorem cursor_replay (session : Session) (piece : Position → Rendered) :
    (session.replay piece).cursor = (piece session.cursor).cursor := rfl

@[simp] theorem pending_replay (session : Session) (piece : Position → Rendered) :
    (session.replay piece).pending = session.pending := rfl

@[simp] theorem buffers_replay (session : Session) (piece : Position → Rendered) :
    (session.replay piece).buffers = session.buffers.write (piece session.cursor).text := rfl

theorem enter_eq (session : Session) (arena : TokenArena) (id : TokenId) :
    session.enter arena id =
      session.setCursor (Replay.entered arena id session.cursor) := by
  unfold enter Replay.entered
  cases Replay.entry? arena id <;> rfl

end Session

end ActionReprint
