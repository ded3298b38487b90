import ActionReprint.Proofs.Runs

/-!
Which text goes to which buffer. A call directs fragments to buffers, nearly always to
the active one; which buffer is active, and where the cursor stands, follows from the
calls alone. Every buffer is what was directed to it, in the order of the calls. Main
statement: `buffers_of_run`.
-/

namespace ActionReprint

structure Fragment where
  target : BufferKind
  text : String
  deriving DecidableEq, Repr

namespace Fragment

def received (kind : BufferKind) : List Fragment → String
  | [] => ""
  | fragment :: rest => (if fragment.target = kind then fragment.text else "") ++ received kind rest

theorem received_append (kind : BufferKind) (fragments more : List Fragment) :
    received kind (fragments ++ more) = received kind fragments ++ received kind more := by
  induction fragments with
  | nil => simp [received]
  | cons fragment rest ih => simp [received, ih, String.append_assoc]

theorem received_map (kind target : BufferKind) (texts : List String) :
    received kind (texts.map (Fragment.mk target)) =
      if target = kind then String.join texts else "" := by
  induction texts with
  | nil => simp [received]
  | cons text rest ih =>
      rw [List.map_cons, received, ih]
      split <;> simp

theorem received_of_elsewhere {kind : BufferKind} {fragments : List Fragment}
    (elsewhere : ∀ fragment ∈ fragments, fragment.target ≠ kind) : received kind fragments = "" := by
  induction fragments with
  | nil => rfl
  | cons fragment rest ih =>
      have others := ih fun other later => elsewhere other (List.mem_cons_of_mem fragment later)
      rw [received, if_neg (elsewhere fragment List.mem_cons_self), others]
      rfl

end Fragment

/-- What the calls of a run decide, apart from texts: the cursor and the active buffer. -/
structure Control where
  cursor : Position
  active : BufferKind
  deriving DecidableEq, Repr

def Session.control (session : Session) : Control :=
  ⟨session.cursor, session.buffers.active⟩

namespace Call

def piece? (style : Literal.EscapeStyle) : Call → Option (Position → Rendered)
  | .renderBare token => some (Replay.bare style token)
  | .replayBare token => some (Replay.bare style token)
  | .renderToken arena id => some (Replay.token style arena id)
  | .replayToken arena id => some (Replay.token style arena id)
  | .replaySequence arena ids => some (Replay.sequence style arena ids)
  | .renderLeadingComments arena id => some (Replay.leadingComments style arena id)
  | .replayLeadingComments arena id => some (Replay.leadingComments style arena id)
  | .renderTrailingComments arena id => some (Replay.trailingComments style arena id)
  | .replayTrailingComments arena id => some (Replay.trailingComments style arena id)
  | _ => none

def handsBack : Call → Bool
  | .renderBare _ => true
  | .renderToken _ _ => true
  | .renderLeadingComments _ _ => true
  | .renderTrailingComments _ _ => true
  | _ => false

/-- A call that adds to the active buffer, if it adds anything, and leaves it active. -/
def isPlain (language : TargetLanguage) : Call → Bool
  | .switchTo _ => false
  | .writeMethodHeader _ => !language.isSplit
  | _ => true

def texts (language : TargetLanguage) (cursor : Position) : Call → List String
  | .write text => [text]
  | .writeLine text => [text ++ "\n"]
  | .writeAll texts => texts
  | .annotate name => [language.annotated name]
  | .writeModifier name => (language.modifier? name).toList
  | .beginClass header => [Session.classText language header]
  | .writeMethodHeader header => [header.inPlace]
  | call =>
      if call.handsBack then []
      else (call.piece? language.escapeStyle).toList.map fun piece => (piece cursor).text

def fragments (language : TargetLanguage) (control : Control) : Call → List Fragment
  | .writeMethodHeader header =>
      if language.isSplit then
        -- A prototype, and the same text with the class in front of the declarator.
        let front := "\n" ++ header.specifiers ++ " "
        let back := header.declarator ++ header.throwSpecification
        [⟨.header, front ++ back ++ ";\n"⟩, ⟨.body, front ++ ownerQualifier header.owner ++ back⟩]
      else [⟨control.active, header.inPlace⟩]
  | call => (call.texts language control.cursor).map (Fragment.mk control.active)

theorem isPlain_writeMethodHeader (language : TargetLanguage) (header : MethodHeader) :
    (writeMethodHeader header).isPlain language = true ↔ language.isSplit = false := by
  simp [isPlain]

theorem fragments_of_plain {language : TargetLanguage} {call : Call}
    (plain : call.isPlain language = true) (control : Control) :
    call.fragments language control =
      (call.texts language control.cursor).map (Fragment.mk control.active) := by
  cases call with
  | writeMethodHeader header =>
      have primary := (isPlain_writeMethodHeader language header).mp plain
      simp [fragments, texts, primary]
  | _ => rfl

end Call

namespace Control

def start : Control := ⟨Position.start, .body⟩

def cursorAfter (language : TargetLanguage) (control : Control) : Call → Position
  | .setCursor cursor => cursor
  | .enter arena id => Replay.entered arena id control.cursor
  | call => match call.piece? language.escapeStyle with
    | some piece => (piece control.cursor).cursor
    | none => control.cursor

def activeAfter (language : TargetLanguage) (control : Control) : Call → BufferKind
  | .switchTo kind => if kind = .body ∨ language.isSplit then kind else control.active
  | .writeMethodHeader _ => if language.isSplit then .body else control.active
  | _ => control.active

theorem activeAfter_of_plain {language : TargetLanguage} {call : Call}
    (plain : call.isPlain language = true) (control : Control) :
    control.activeAfter language call = control.active := by
  cases call with
  | switchTo kind => cases plain
  | writeMethodHeader header =>
      have primary := (Call.isPlain_writeMethodHeader language header).mp plain
      simp [activeAfter, primary]
  | _ => rfl

def after (language : TargetLanguage) (control : Control) (call : Call) : Control :=
  ⟨control.cursorAfter language call, control.activeAfter language call⟩

def afterAll (language : TargetLanguage) (control : Control) (calls : List Call) : Control :=
  calls.foldl (after language) control

def fragments (language : TargetLanguage) : Control → List Call → List Fragment
  | _, [] => []
  | control, call :: rest =>
      call.fragments language control ++ fragments language (control.after language call) rest

end Control

namespace Session

theorem options_after (session : Session) (call : Call) :
    (session.after call).options = session.options := by
  cases call with
  | writeAll texts => exact (congrArg options (session.writeAll_eq texts)).trans rfl
  | switchTo kind => exact session.options_switchTo kind
  | writeModifier name => exact session.options_writeModifier name
  | beginClass header => exact session.options_beginClass header
  | enter arena id => exact (congrArg options (session.enter_eq arena id)).trans rfl
  | _ => rfl

theorem cursor_after (session : Session) (call : Call) :
    (session.after call).cursor = session.control.cursorAfter session.language call := by
  cases call with
  | writeAll texts => exact (congrArg cursor (session.writeAll_eq texts)).trans rfl
  | switchTo kind => exact session.cursor_switchTo kind
  | writeModifier name => exact session.cursor_writeModifier name
  | beginClass header => exact session.cursor_beginClass header
  | enter arena id => exact congrArg cursor (session.enter_eq arena id)
  | _ => rfl

theorem buffers_after {session : Session} {call : Call}
    (plain : call.isPlain session.language = true) :
    (session.after call).buffers =
      session.buffers.write (String.join (call.texts session.language session.cursor)) := by
  -- A call writes nothing, or one text, or texts whose concatenation is written.
  have nothing : session.buffers = session.buffers.write (String.join []) :=
    session.buffers.write_empty.symm
  have one : ∀ text, session.buffers.write text = session.buffers.write (String.join [text]) :=
    fun text => congrArg session.buffers.write (join_singleton text).symm
  cases call with
  | write text => exact one text
  | writeLine text => exact (congrArg buffers (session.writeLine_eq text)).trans (one _)
  | writeAll texts => exact congrArg buffers (session.writeAll_eq texts)
  | switchTo kind => cases plain
  | annotate name => exact one _
  | writeModifier name => exact session.buffers_writeModifier name
  | beginClass header => exact (session.buffers_beginClass header).trans (one _)
  | writeMethodHeader header =>
      have primary := (Call.isPlain_writeMethodHeader session.language header).mp plain
      exact (congrArg buffers (session.writeMethodHeader_of_primary header primary)).trans (one _)
  | enter arena id => exact (congrArg buffers (session.enter_eq arena id)).trans nothing
  | replayBare token => exact one _
  | replayToken arena id => exact one _
  | replaySequence arena ids => exact one _
  | replayLeadingComments arena id => exact one _
  | replayTrailingComments arena id => exact one _
  | _ => exact nothing

theorem control_after (session : Session) (call : Call) :
    (session.after call).control = session.control.after session.language call := by
  have cursor := session.cursor_after call
  have active : (session.after call).buffers.active =
      session.control.activeAfter session.language call := by
    -- Only a switch and the header of a method in a split layout change what is active.
    by_cases plain : call.isPlain session.language = true
    · rw [buffers_after plain, Buffers.active_write, Control.activeAfter_of_plain plain]
      rfl
    · cases call with
      | switchTo kind =>
          have chosen := congrArg (fun later => later.buffers.active) (session.switchTo_eq kind)
          exact chosen.trans (apply_ite Buffers.active _ _ _)
      | writeMethodHeader header =>
          have split : session.language.isSplit = true := by simpa [Call.isPlain] using plain
          have written := session.buffers_writeMethodHeader_of_split header split
          rw [Control.activeAfter, if_pos split]
          exact congrArg Buffers.active written
      | _ => exact absurd rfl plain
  rw [control, cursor, active]
  rfl

theorem buffer_after (session : Session) (call : Call) (kind : BufferKind) :
    (session.after call).buffer kind =
      session.buffer kind ++
        Fragment.received kind (call.fragments session.language session.control) := by
  by_cases plain : call.isPlain session.language = true
  · rw [Call.fragments_of_plain plain, Fragment.received_map, buffer, buffers_after plain,
      Buffers.get_write]
    rfl
  · cases call with
    | switchTo kind' =>
        have same : ((session.after (.switchTo kind')).buffers).get kind =
            session.buffers.get kind := by
          have chosen := congrArg (fun later => later.buffers.get kind) (session.switchTo_eq kind')
          refine chosen.trans ?_
          simp only
          split
          · exact Buffers.get_select _ _ _
          · rfl
        rw [buffer, same]
        simp [Call.fragments, Call.texts, Call.handsBack, Call.piece?, Fragment.received, buffer]
    | writeMethodHeader header =>
        have split : session.language.isSplit = true := by simpa [Call.isPlain] using plain
        have written := session.buffers_writeMethodHeader_of_split header split
        have same : (session.after (.writeMethodHeader header)).buffers = _ := written
        rw [buffer, same, Buffers.get_select, Buffers.get_append, Buffers.get_append]
        simp [Call.fragments, split, Fragment.received, buffer, MethodHeader.prototype,
          MethodHeader.definition, MethodHeader.signature, String.append_assoc]
    | _ => exact absurd rfl plain

theorem language_after (session : Session) (call : Call) :
    (session.after call).language = session.language :=
  congrArg SessionOptions.language (session.options_after call)

theorem language_afterAll (session : Session) (calls : List Call) :
    (session.afterAll calls).language = session.language := by
  induction calls generalizing session with
  | nil => rfl
  | cons call rest ih => exact (ih (session.after call)).trans (session.language_after call)

theorem control_afterAll (session : Session) (calls : List Call) :
    (session.afterAll calls).control = session.control.afterAll session.language calls := by
  induction calls generalizing session with
  | nil => rfl
  | cons call rest ih =>
      have onward := ih (session.after call)
      rw [language_after, control_after] at onward
      exact onward

theorem buffer_afterAll (session : Session) (calls : List Call) (kind : BufferKind) :
    (session.afterAll calls).buffer kind =
      session.buffer kind ++
        Fragment.received kind (session.control.fragments session.language calls) := by
  induction calls generalizing session with
  | nil => exact (String.append_empty).symm
  | cons call rest ih =>
      have onward := ih (session.after call)
      rw [language_after, control_after, buffer_after] at onward
      rw [Control.fragments, Fragment.received_append, ← String.append_assoc]
      exact onward

end Session

section
variable {language : TargetLanguage}

theorem Control.active_after_of_primary (primary : language.isSplit = false) {control : Control}
    (atBody : control.active = .body) (call : Call) :
    (control.after language call).active = .body := by
  by_cases plain : call.isPlain language = true
  · exact (activeAfter_of_plain plain control).trans atBody
  · cases call with
    | switchTo kind =>
        simp only [after, activeAfter, primary]
        split
        · next allowed => exact allowed.resolve_right (by decide)
        · exact atBody
    | writeMethodHeader header =>
        exact absurd ((Call.isPlain_writeMethodHeader language header).mpr primary) plain
    | _ => exact absurd rfl plain

theorem Control.active_afterAll_of_primary (primary : language.isSplit = false)
    {control : Control} (atBody : control.active = .body) (calls : List Call) :
    (control.afterAll language calls).active = .body := by
  induction calls generalizing control with
  | nil => exact atBody
  | cons call rest ih => exact ih (active_after_of_primary primary atBody call)

theorem Call.target_of_primary (primary : language.isSplit = false) (control : Control)
    (call : Call) : ∀ fragment ∈ call.fragments language control,
      fragment.target = control.active := by
  have mapped : ∀ texts : List String, ∀ fragment ∈ texts.map (Fragment.mk control.active),
      fragment.target = control.active := by
    intro texts fragment member
    obtain ⟨text, _, rfl⟩ := List.mem_map.mp member
    rfl
  cases call with
  | writeMethodHeader header =>
      rw [fragments, primary]
      exact mapped [header.inPlace]
  | _ => exact mapped _

theorem Control.target_of_primary (primary : language.isSplit = false) {control : Control}
    (atBody : control.active = .body) (calls : List Call) :
    ∀ fragment ∈ control.fragments language calls, fragment.target = .body := by
  induction calls generalizing control with
  | nil =>
      intro fragment member
      cases member
  | cons call rest ih =>
      intro fragment member
      rcases List.mem_append.mp member with here | later
      · exact (call.target_of_primary primary control fragment here).trans atBody
      · exact ih (active_after_of_primary primary atBody call) fragment later

end

/-- In a run from a fresh session every buffer is what the calls have directed to it, and
which buffer is active follows from the calls. More calls only add text. In a primary
layout all text is in the body buffer, which is the one output file behind the comment
that names it. -/
theorem buffers_of_run (options : SessionOptions) (calls : List Call) :
    ∃ last, (Session.fresh options).Leaves calls last ∧
      last.control = Control.start.afterAll options.language calls ∧
      (∀ kind, last.buffer kind =
        Fragment.received kind (Control.start.fragments options.language calls)) ∧
      (∀ more, ∃ later, (Session.fresh options).Leaves (calls ++ more) later ∧
        last.Leaves more later ∧
        ∀ kind, ∃ added, later.buffer kind = last.buffer kind ++ added) ∧
      (options.language.isSplit = false →
        last.buffers.active = .body ∧ last.buffer .header = "" ∧ last.buffer .statics = "" ∧
          ∀ path, last.assemble path = [⟨path, Output.identity path ++ last.buffer .body⟩]) := by
  have received : ∀ kind, ((Session.fresh options).afterAll calls).buffer kind =
      Fragment.received kind (Control.start.fragments options.language calls) := by
    intro kind
    rw [Session.buffer_afterAll]
    cases kind <;> exact String.empty_append
  have controlled := (Session.fresh options).control_afterAll calls
  refine ⟨(Session.fresh options).afterAll calls, Session.leaves_afterAll _ _, controlled, received,
    ?_, ?_⟩
  · intro more
    refine ⟨((Session.fresh options).afterAll calls).afterAll more, ?_,
      Session.leaves_afterAll _ _, ?_⟩
    · rw [← Session.afterAll_append]
      exact Session.leaves_afterAll _ _
    · intro kind
      exact ⟨_, Session.buffer_afterAll _ more kind⟩
  · intro primary
    -- Every fragment goes to the body, so the other two buffers have received nothing.
    have targets : ∀ fragment ∈ Control.start.fragments options.language calls,
        fragment.target = .body := Control.target_of_primary primary rfl calls
    have active := (congrArg Control.active controlled).trans
      (Control.active_afterAll_of_primary primary rfl calls)
    have empty : ∀ kind, kind ≠ .body → ((Session.fresh options).afterAll calls).buffer kind = "" := by
      intro kind other
      rw [received]
      apply Fragment.received_of_elsewhere
      intro fragment member
      rw [targets fragment member]
      exact Ne.symm other
    refine ⟨active, empty .header (by decide), empty .statics (by decide), ?_⟩
    intro path
    have language := (Session.fresh options).language_afterAll calls
    have single : ((Session.fresh options).afterAll calls).language.headerExtension? = none := by
      rw [language]
      obtain ⟨target, leniency⟩ := options
      cases target with
      | java => rfl
      | cpp => cases primary
    rw [Session.assemble, single]

end ActionReprint
