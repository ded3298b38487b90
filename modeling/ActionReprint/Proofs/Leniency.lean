import ActionReprint.Proofs.Accounting
import ActionReprint.Proofs.Fragments

/-!
Input that a language cannot express. Which input is dropped follows from the calls and
the language; whether somebody is told of it is for the options to say. Every warning is
delivered once, by a flush or by writing the files, and the rest of a session does not
depend on it. Main statement: `leniency_invisible`.
-/

namespace ActionReprint

def Leniency.told : Leniency → List Dropped → List Dropped
  | .ignore, _ => []
  | .warn, dropped => dropped

@[simp] theorem Leniency.told_nil (leniency : Leniency) : leniency.told [] = [] := by
  cases leniency <;> rfl

theorem Leniency.told_append (leniency : Leniency) (dropped more : List Dropped) :
    leniency.told (dropped ++ more) = leniency.told dropped ++ leniency.told more := by
  cases leniency <;> rfl

namespace Call

/-- What a call asks for that the language cannot express: in a split layout a modifier
that is neither public nor private and the modifier of a class, and in any language a
second superclass and those after it, which are one thing dropped. -/
def drops (language : TargetLanguage) : Call → List Dropped
  | .writeModifier name =>
      if language.isSplit ∧ name.map Char.toLower ≠ "public" ∧
          name.map Char.toLower ≠ "private" then
        [.modifier name language]
      else []
  | .beginClass header =>
      (if language.isSplit then
        header.modifier.toList.map fun modifier => .classModifier modifier language
      else []) ++
      (if 1 < header.superclasses.length then
        header.superclasses.head?.toList.map fun kept =>
          .superclasses header.name header.superclasses.length kept
      else [])
  | _ => []

theorem drops_beginClass (language : TargetLanguage) (header : ClassHeader) :
    (beginClass header).drops language = Session.droppedFrom language header := by
  obtain ⟨modifier, name, superclasses, interfaces⟩ := header
  rw [drops, Session.droppedFrom]
  congr 1
  · cases modifier <;> simp
  · rcases superclasses with _ | ⟨first, _ | ⟨second, rest⟩⟩ <;> simp

theorem drops_writeModifier (language : TargetLanguage) (name : String) :
    (writeModifier name).drops language =
      match language.modifier? name with
      | some _ => []
      | none => [.modifier name language] := by
  cases language with
  | java => rfl
  | cpp =>
      by_cases known : name.map Char.toLower = "public" ∨ name.map Char.toLower = "private"
      · have kept : TargetLanguage.cpp.modifier? name = some (name.map Char.toLower ++ ": ") :=
          if_pos known
        rw [kept, drops, if_neg]
        rintro ⟨_, notPublic, notPrivate⟩
        exact known.elim notPublic notPrivate
      · have missing : TargetLanguage.cpp.modifier? name = none := if_neg known
        rw [missing, drops, if_pos]
        exact ⟨rfl, not_or.mp known⟩

def isReport : Call → Bool
  | .flushWarnings => true
  | .finalize _ => true
  | _ => false

end Call

namespace Session

theorem pending_note (session : Session) (dropped : Dropped) :
    (session.note dropped).pending.toList =
      session.pending.toList ++ session.options.leniency.told [dropped] := by
  unfold note
  cases session.options.leniency with
  | ignore => exact (List.append_nil _).symm
  | warn => exact Array.toList_push

theorem pending_foldl_note (session : Session) (dropped : List Dropped) :
    (dropped.foldl note session).pending.toList =
      session.pending.toList ++ session.options.leniency.told dropped := by
  induction dropped generalizing session with
  | nil => simp
  | cons first rest ih =>
      rw [List.foldl_cons, ih, options_note, pending_note, List.append_assoc,
        ← Leniency.told_append]
      rfl

theorem pending_after {session : Session} {call : Call} (quiet : call.isReport = false) :
    (session.after call).pending.toList =
      session.pending.toList ++
        session.options.leniency.told (call.drops session.language) := by
  have nothing : session.pending.toList =
      session.pending.toList ++ session.options.leniency.told [] := by simp
  cases call with
  | flushWarnings => cases quiet
  | finalize path => cases quiet
  | beginClass header =>
      rw [Call.drops_beginClass]
      exact session.pending_foldl_note (droppedFrom session.language header)
  | writeModifier name =>
      rw [Call.drops_writeModifier]
      cases known : session.language.modifier? name with
      | some text =>
          have written : session.after (.writeModifier name) = session.write text := by
            change session.writeModifier name = session.write text
            rw [writeModifier, known]
          rw [written]
          exact nothing
      | none =>
          have noted : session.after (.writeModifier name) =
              session.note (.modifier name session.language) := by
            change session.writeModifier name = _
            rw [writeModifier, known]
          rw [noted]
          exact session.pending_note _
  | switchTo kind =>
      have same : (session.after (.switchTo kind)).pending = session.pending :=
        session.pending_switchTo kind
      rw [same]
      exact nothing
  | writeAll texts =>
      have same : session.after (.writeAll texts) = session.write (String.join texts) :=
        session.writeAll_eq texts
      rw [same]
      exact nothing
  | enter arena id =>
      have same : session.after (.enter arena id) =
          session.setCursor (Replay.entered arena id session.cursor) := session.enter_eq arena id
      rw [same]
      exact nothing
  | _ => exact nothing

theorem filter_pendingWarnings (session : Session) :
    session.pendingWarnings.filter Diagnostic.isWarning = session.pendingWarnings := by
  apply List.filter_eq_self.mpr
  intro diagnostic member
  obtain ⟨dropped, _, rfl⟩ := List.mem_map.mp member
  rfl

theorem filter_failures (outcomes : List (OutputFile × Bool)) :
    (Output.failures outcomes).filter Diagnostic.isWarning = [] := by
  apply List.filter_eq_nil_iff.mpr
  intro diagnostic member
  obtain ⟨outcome, _, rfl⟩ := List.mem_map.mp member
  exact Bool.false_ne_true

section
variable {σ : Type} [Storage (StateM σ)]

theorem perform_of_quiet {call : Call} (quiet : call.isReport = false) (session : Session)
    (before : σ) :
    ∃ reply, (session.perform call : StateM σ _) before = ((reply, session.after call), before) ∧
      reply.reported = [] := by
  cases call with
  | flushWarnings => cases quiet
  | finalize path => cases quiet
  | _ => exact ⟨_, rfl, rfl⟩

/-- What was pending is delivered or pending still, and behind it comes what the call has
noted. -/
theorem perform_delivers (session : Session) (call : Call) (before : σ) :
    ∃ reply after,
      (session.perform call : StateM σ _) before = ((reply, session.after call), after) ∧
      reply.reported.filter Diagnostic.isWarning ++ (session.after call).pendingWarnings =
        session.pendingWarnings ++
          (session.options.leniency.told (call.drops session.language)).map Dropped.warning := by
  by_cases quiet : call.isReport = false
  · obtain ⟨reply, performed, nothing⟩ := perform_of_quiet quiet session before
    refine ⟨reply, before, performed, ?_⟩
    rw [nothing, pendingWarnings, pending_after quiet, List.map_append]
    rfl
  · -- A report drops nothing itself, and behind it nothing is pending.
    have emptied : session.pendingWarnings ++ ({ session with pending := #[] }).pendingWarnings =
        session.pendingWarnings ++ (session.options.leniency.told []).map Dropped.warning := by
      rw [Leniency.told_nil]
      rfl
    cases call with
    | flushWarnings =>
        refine ⟨.flushed (DiagnosticBag.empty.addAll session.pendingWarnings).toList, before,
          rfl, ?_⟩
        rw [Reply.reported, DiagnosticBag.toList_addAll, DiagnosticBag.toList_empty,
          List.nil_append, filter_pendingWarnings]
        exact emptied
    | finalize path =>
        obtain ⟨outcomes, after, _, _, finalized⟩ :=
          session.finalize_attempts path .empty before
        refine ⟨.finalized (Output.written outcomes) ((DiagnosticBag.empty.addAll
          session.pendingWarnings).addAll (Output.failures outcomes)).toList, after, ?_, ?_⟩
        · exact run_bind finalized
        · rw [Reply.reported, DiagnosticBag.toList_addAll, DiagnosticBag.toList_addAll,
            DiagnosticBag.toList_empty, List.nil_append, List.filter_append,
            filter_pendingWarnings, filter_failures, List.append_nil]
          exact emptied
    | _ => exact absurd rfl quiet

theorem performAll_cons {session next last : Session} {call : Call} {rest : List Call}
    {reply : Reply} {replies : List Reply} {before between after : σ}
    (performed : (session.perform call : StateM σ _) before = ((reply, next), between))
    (onward : (next.performAll rest : StateM σ _) between = ((replies, last), after)) :
    (session.performAll (call :: rest) : StateM σ _) before = ((reply :: replies, last), after) :=
  (run_bind performed).trans (run_bind onward)

theorem performAll_delivers (session : Session) (calls : List Call) (before : σ) :
    ∃ replies after,
      (session.performAll calls : StateM σ _) before = ((replies, session.afterAll calls), after) ∧
      (replies.flatMap Reply.reported).filter Diagnostic.isWarning ++
          (session.afterAll calls).pendingWarnings =
        session.pendingWarnings ++
          (session.options.leniency.told (calls.flatMap (Call.drops session.language))).map
            Dropped.warning := by
  induction calls generalizing session before with
  | nil => exact ⟨[], before, rfl, by simp [afterAll]⟩
  | cons call rest ih =>
      obtain ⟨reply, between, performed, delivered⟩ := session.perform_delivers call before
      obtain ⟨replies, after, onward, others⟩ := ih (session.after call) between
      refine ⟨reply :: replies, after, performAll_cons performed onward, ?_⟩
      rw [options_after, language_after] at others
      rw [List.flatMap_cons, List.filter_append, List.append_assoc, List.flatMap_cons,
        Leniency.told_append, List.map_append, ← List.append_assoc session.pendingWarnings,
        ← delivered, List.append_assoc]
      exact congrArg _ others

end

structure Alike (session other : Session) : Prop where
  language : session.language = other.language
  cursor : session.cursor = other.cursor
  buffers : session.buffers = other.buffers

end Session

theorem Buffers.eq_of_get {buffers other : Buffers}
    (same : ∀ kind, buffers.get kind = other.get kind)
    (active : buffers.active = other.active) : buffers = other := by
  obtain ⟨body, header, statics, kind⟩ := buffers
  obtain ⟨otherBody, otherHeader, otherStatics, otherKind⟩ := other
  obtain rfl : body = otherBody := same .body
  obtain rfl : header = otherHeader := same .header
  obtain rfl : statics = otherStatics := same .statics
  obtain rfl : kind = otherKind := active
  rfl

namespace Session

theorem Alike.control {session other : Session} (alike : Alike session other) :
    session.control = other.control := by
  rw [Session.control, Session.control, alike.cursor, alike.buffers]

theorem Alike.after {session other : Session} (alike : Alike session other) (call : Call) :
    Alike (session.after call) (other.after call) := by
  have control : (session.after call).control = (other.after call).control := by
    rw [control_after, control_after, alike.control, alike.language]
  constructor
  · rw [language_after, language_after, alike.language]
  · exact congrArg Control.cursor control
  · apply Buffers.eq_of_get
    · intro kind
      have written := buffer_after session call kind
      rw [alike.control, alike.language, buffer, buffer, alike.buffers] at written
      exact written.trans (buffer_after other call kind).symm
    · exact congrArg Control.active control

theorem Alike.assemble {session other : Session} (alike : Alike session other) (path : Path) :
    session.assemble path = other.assemble path := by
  rw [Session.assemble, Session.assemble, alike.language]
  simp only [Output.headerFile, buffer, alike.buffers]

theorem Alike.afterAll {session other : Session} (alike : Alike session other)
    (calls : List Call) : Alike (session.afterAll calls) (other.afterAll calls) := by
  induction calls generalizing session other with
  | nil => exact alike
  | cons call rest ih => exact ih (alike.after call)

section
variable {σ : Type} [Storage (StateM σ)]

theorem Alike.storage_perform {session other : Session} (alike : Alike session other) (call : Call)
    (before : σ) :
    ((session.perform call : StateM σ _) before).2 =
      ((other.perform call : StateM σ _) before).2 := by
  by_cases quiet : call.isReport = false
  · obtain ⟨_, performed, _⟩ := perform_of_quiet quiet session before
    obtain ⟨_, otherwise, _⟩ := perform_of_quiet quiet other before
    rw [performed, otherwise]
  · cases call with
    | flushWarnings => rfl
    | finalize path =>
        -- All that a finalize does to storage is to write the assembled files.
        have unfolded : ∀ session : Session,
            ((session.perform (.finalize path) : StateM σ _) before).2 =
              ((Output.writeAll (session.assemble path) : StateM σ _) before).2 := fun _ => rfl
        rw [unfolded, unfolded, alike.assemble path]
    | _ => exact absurd rfl quiet

theorem Alike.storage_performAll {session other : Session} (alike : Alike session other)
    (calls : List Call) (before : σ) :
    ((session.performAll calls : StateM σ _) before).2 =
      ((other.performAll calls : StateM σ _) before).2 := by
  induction calls generalizing session other before with
  | nil => rfl
  | cons call rest ih =>
      obtain ⟨reply, between, performed, _⟩ := session.perform_delivers call before
      obtain ⟨otherReply, otherBetween, otherwise, _⟩ := other.perform_delivers call before
      have same := alike.storage_perform call before
      rw [performed, otherwise] at same
      obtain rfl : between = otherBetween := same
      obtain ⟨_, after, onward, _⟩ := (session.after call).performAll_delivers rest between
      obtain ⟨_, otherAfter, otherOnward, _⟩ := (other.after call).performAll_delivers rest between
      have later := ih (alike.after call) between
      rw [onward, otherOnward] at later
      rw [performAll_cons performed onward, performAll_cons otherwise otherOnward]
      exact later

end

end Session

/-- Two sessions that differ in leniency only, after any calls: their texts, their cursors,
the files they assemble and what they left in storage are the same. The one that ignores
has told nothing and has nothing to tell. What the other has told, and then what is pending,
is one warning for everything dropped, in the order of the calls. -/
theorem leniency_invisible {σ : Type} [Storage (StateM σ)] (language : TargetLanguage)
    (cursor : Position) (buffers : Buffers) (calls : List Call) (before : σ) :
    ∃ silent told ignoring warning after,
      ((⟨⟨language, .ignore⟩, cursor, buffers, #[]⟩ : Session).performAll calls : StateM σ _)
          before = ((silent, ignoring), after) ∧
      ((⟨⟨language, .warn⟩, cursor, buffers, #[]⟩ : Session).performAll calls : StateM σ _)
          before = ((told, warning), after) ∧
      ignoring.buffers = warning.buffers ∧ ignoring.cursor = warning.cursor ∧
      (∀ path, ignoring.assemble path = warning.assemble path) ∧
      ignoring.pendingWarnings = [] ∧
      (silent.flatMap Reply.reported).filter Diagnostic.isWarning = [] ∧
      (told.flatMap Reply.reported).filter Diagnostic.isWarning ++ warning.pendingWarnings =
        (calls.flatMap (Call.drops language)).map Dropped.warning := by
  obtain ⟨silent, after, ran, nothing⟩ :=
    (⟨⟨language, .ignore⟩, cursor, buffers, #[]⟩ : Session).performAll_delivers calls before
  obtain ⟨told, after', ran', delivered⟩ :=
    (⟨⟨language, .warn⟩, cursor, buffers, #[]⟩ : Session).performAll_delivers calls before
  have alike : Session.Alike ⟨⟨language, .ignore⟩, cursor, buffers, #[]⟩
      ⟨⟨language, .warn⟩, cursor, buffers, #[]⟩ := ⟨rfl, rfl, rfl⟩
  have storage := alike.storage_performAll calls before
  rw [ran, ran'] at storage
  obtain rfl : after = after' := storage
  obtain ⟨unreported, unpending⟩ := List.append_eq_nil_iff.mp nothing
  have same := alike.afterAll calls
  exact ⟨silent, told, _, _, after, ran, ran', same.buffers, same.cursor, same.assemble,
    unpending, unreported, delivered⟩

end ActionReprint
