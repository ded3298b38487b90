import ActionReprint.Proofs.Fragments
import ActionReprint.Proofs.Pieces

/-!
What a replay depends on. Of a session a replay reads the cursor and the language, and of
the language only how it escapes what is above U+FFFF. So two runs with the same replay
calls show the same, whatever else they write between them and wherever to. Main
statement: `replay_independent`.
-/

namespace ActionReprint

/-- A character that is written alike in all languages, or a supplementary one of a literal,
for which a language has its own escape. -/
inductive Glyph where
  | fixed (c : Char)
  | supplementary (c : Char)
  deriving DecidableEq, Repr

namespace Glyph

def text (style : Literal.EscapeStyle) : Glyph → List Char
  | .fixed c => [c]
  | .supplementary c => Literal.escapeChar style c

def texts (style : Literal.EscapeStyle) (glyphs : List Glyph) : List Char :=
  glyphs.flatMap (text style)

@[simp] theorem texts_append (style : Literal.EscapeStyle) (glyphs more : List Glyph) :
    texts style (glyphs ++ more) = texts style glyphs ++ texts style more :=
  List.flatMap_append

@[simp] theorem texts_fixed (style : Literal.EscapeStyle) (text : List Char) :
    texts style (text.map fixed) = text := by
  simp [texts, List.flatMap_map, Glyph.text]

def ofLiteral (c : Char) : List Glyph :=
  if Literal.isPlain c then [.fixed c]
  else if c.toNat ≤ 0xFFFF then (Literal.escapeUnit c.toNat).map .fixed
  else [.supplementary c]

theorem texts_ofLiteral (style : Literal.EscapeStyle) (c : Char) :
    texts style (ofLiteral c) = Literal.escapeChar style c := by
  unfold ofLiteral
  by_cases plain : Literal.isPlain c = true
  · simp [plain, texts, text, Literal.escapeChar]
  · by_cases low : c.toNat ≤ 0xFFFF
    · simp [plain, low, Literal.escapeChar]
    · simp [plain, low, texts, text]

end Glyph

def Token.glyphs (token : Token) : List Glyph :=
  if token.kind.isLiteral then token.plain.flatMap Glyph.ofLiteral
  else token.plain.map .fixed

theorem Token.texts_glyphs (style : Literal.EscapeStyle) (token : Token) :
    Glyph.texts style token.glyphs = token.written style := by
  unfold glyphs written Replay.image
  split
  · have each := funext (Glyph.texts_ofLiteral style)
    rw [Literal.toList_escape, Literal.escapeChars, ← each, Glyph.texts, List.flatMap_assoc]
    rfl
  · exact Glyph.texts_fixed style token.plain

def Piece.glyphs (piece : Piece) : List Glyph :=
  piece.gap.map .fixed ++ piece.token.glyphs

theorem Piece.texts_glyphs (style : Literal.EscapeStyle) (pieces : List Piece) :
    Glyph.texts style (pieces.flatMap Piece.glyphs) = Piece.texts (Token.written style) pieces := by
  induction pieces with
  | nil => rfl
  | cons piece rest ih =>
      simp [Piece.texts, Piece.text, Piece.glyphs, Token.texts_glyphs] at ih ⊢
      exact ih

namespace Call

def isReplay : Call → Bool
  | .setCursor _ | .enter _ _ => true
  | .renderBare _ | .replayBare _ => true
  | .renderToken _ _ | .replayToken _ _ => true
  | .replaySequence _ _ => true
  | .renderLeadingComments _ _ | .replayLeadingComments _ _ => true
  | .renderTrailingComments _ _ | .replayTrailingComments _ _ => true
  | _ => false

def tokens : Call → List Token
  | .renderBare token | .replayBare token => [token]
  | .renderToken arena id | .replayToken arena id => Replay.named arena (Replay.cluster arena id)
  | .replaySequence arena ids => Replay.named arena (Replay.order arena ids)
  | .renderLeadingComments arena id | .replayLeadingComments arena id =>
      Replay.named arena (arena.specialChain id)
  | .renderTrailingComments arena id | .replayTrailingComments arena id =>
      Replay.named arena ((arena.next? id).toList.flatMap arena.specialChain)
  | _ => []

def ending : Call → Position → Rendered
  | .replaySequence arena ids => Replay.lineEnd arena (Replay.follower arena ids)
  | .renderLeadingComments arena id | .replayLeadingComments arena id =>
      Replay.lineEnd arena (some id)
  | .renderTrailingComments arena id | .replayTrailingComments arena id =>
      Replay.lineEnd arena (arena.next? id)
  | _ => .nothing

def pieces (cursor : Position) (call : Call) : List Piece :=
  Replay.pieces cursor call.tokens

def ended (cursor : Position) (call : Call) : Rendered :=
  call.ending (Replay.reached cursor call.tokens)

def glyphs (cursor : Position) (call : Call) : List Glyph :=
  (call.pieces cursor).flatMap Piece.glyphs ++ (call.ended cursor).text.toList.map .fixed

def moved (cursor : Position) : Call → Position
  | .setCursor target => target
  | .enter arena id => Replay.entered arena id cursor
  | call => (call.ended cursor).cursor

theorem bares_ended (style : Literal.EscapeStyle) (call : Call) (cursor : Position) :
    (Replay.bares style call.tokens cursor).andThen call.ending =
      ⟨String.ofList (Glyph.texts style (call.glyphs cursor)), (call.ended cursor).cursor⟩ := by
  rw [Replay.bares_eq]
  simp [Rendered.andThen, glyphs, pieces, ended, Piece.texts_glyphs, String.ofList_append]

/-- All that a language has to do with what a call renders is the spelling of its glyphs. -/
theorem piece?_eq {style : Literal.EscapeStyle} {call : Call} {piece : Position → Rendered}
    (found : call.piece? style = some piece) (cursor : Position) :
    piece cursor =
      ⟨String.ofList (Glyph.texts style (call.glyphs cursor)), call.moved cursor⟩ := by
  have ended := bares_ended style call cursor
  cases call with
  | renderBare token | replayBare token =>
      cases found
      refine Eq.trans ?_ ended
      simp [tokens, ending, Replay.bares]
  | renderToken arena id | replayToken arena id =>
      cases found
      refine Eq.trans ?_ ended
      simp [tokens, ending, Replay.token_eq]
  | replaySequence arena ids =>
      cases found
      exact (Replay.sequence_eq style arena ids cursor).trans ended
  | renderLeadingComments arena id | replayLeadingComments arena id =>
      cases found
      exact (Replay.leadingComments_eq style arena id cursor).trans ended
  | renderTrailingComments arena id | replayTrailingComments arena id =>
      cases found
      exact (Replay.trailingComments_eq style arena id cursor).trans ended
  | _ => cases found

theorem moved_aside {call : Call} (aside : call.isReplay = false) (cursor : Position) :
    call.moved cursor = cursor := by
  cases call <;> first | rfl | cases aside

theorem cursorAfter_eq (language : TargetLanguage) (control : Control) (call : Call) :
    control.cursorAfter language call = call.moved control.cursor := by
  cases found : call.piece? language.escapeStyle with
  | some piece =>
      have rendered := congrArg Rendered.cursor (piece?_eq found control.cursor)
      cases call <;> cases found <;> exact rendered
  | none => cases call <;> first | rfl | cases found

end Call

structure ReplayStep where
  before : Session
  call : Call
  after : Session

/-- The text was handed back, and no buffer has changed; or the active buffer has received
it, and nothing was handed back. -/
def ReplayStep.Shows (step : ReplayStep) (text : String) : Prop :=
  ∀ (m : Type → Type) [Monad m] [Storage m], ∃ reply,
    (step.before.perform step.call : m (Reply × Session)) = pure (reply, step.after) ∧
      if step.call.handsBack then
        reply = .text text ∧ step.after.buffers = step.before.buffers
      else
        reply = .done ∧ step.after.buffers = step.before.buffers.write text

/-- The calls of a run, of which the replay calls are the steps. -/
inductive Session.Tracks : Session → List Call → List ReplayStep → Session → Prop where
  | done (session : Session) : Tracks session [] [] session
  | aside {session next last : Session} {call : Call} {rest : List Call} {steps : List ReplayStep}
      (other : call.isReplay = false) (left : session.Leaves [call] next)
      (onward : Tracks next rest steps last) : Tracks session (call :: rest) steps last
  | replay {session next last : Session} {call : Call} {rest : List Call}
      {steps : List ReplayStep} (replays : call.isReplay = true)
      (left : session.Leaves [call] next) (onward : Tracks next rest steps last) :
      Tracks session (call :: rest) (⟨session, call, next⟩ :: steps) last

def ReplayStep.Spells (step : ReplayStep) (glyphs : List Glyph) : Prop :=
  step.Shows (String.ofList (Glyph.texts step.before.escapeStyle glyphs))

/-- Steps of two runs that do the same from the same cursor to the same cursor. -/
structure ReplayStep.Agrees (step other : ReplayStep) : Prop where
  call : other.call = step.call
  found : other.before.cursor = step.before.cursor
  left : other.after.cursor = step.after.cursor
  spells : step.Spells (step.call.glyphs step.before.cursor)
  alike : other.Spells (step.call.glyphs step.before.cursor)

namespace Session

theorem cursor_after_eq (session : Session) (call : Call) :
    (session.after call).cursor = call.moved session.cursor :=
  (session.cursor_after call).trans (Call.cursorAfter_eq _ _ call)

theorem shows_piece {session : Session} {call : Call} {piece : Position → Rendered}
    (found : call.piece? session.escapeStyle = some piece) :
    (ReplayStep.mk session call (session.after call)).Shows (piece session.cursor).text := by
  intro m _ _
  cases call <;> cases found <;> exact ⟨_, rfl, rfl, rfl⟩

theorem shows_empty {session : Session} {call : Call} (replays : call.isReplay = true)
    (silent : call.piece? session.escapeStyle = none) :
    (ReplayStep.mk session call (session.after call)).Shows "" := by
  intro m _ _
  have unchanged := session.buffers.write_empty.symm
  cases call with
  | setCursor cursor => exact ⟨_, rfl, rfl, unchanged⟩
  | enter arena id =>
      have moved := congrArg buffers (session.enter_eq arena id)
      exact ⟨_, rfl, rfl, moved.trans unchanged⟩
  | _ => first | (cases replays; done) | cases silent

theorem spells_glyphs (session : Session) {call : Call} (replays : call.isReplay = true) :
    (ReplayStep.mk session call (session.after call)).Spells (call.glyphs session.cursor) := by
  cases found : call.piece? session.escapeStyle with
  | some piece =>
      have shown := shows_piece found
      rw [Call.piece?_eq found session.cursor] at shown
      exact shown
  | none =>
      have nothing : call.glyphs session.cursor = [] := by
        cases call <;> first | (cases found; done) | rfl
      rw [nothing]
      exact shows_empty replays found

theorem agrees_of_cursor {session other : Session} (cursor : other.cursor = session.cursor)
    {call : Call} (replays : call.isReplay = true) :
    (ReplayStep.mk session call (session.after call)).Agrees
      ⟨other, call, other.after call⟩ := by
  have alike := other.spells_glyphs replays
  rw [cursor] at alike
  constructor
  case call => rfl
  case found => exact cursor
  case left => simp [cursor_after_eq, cursor]
  case spells => exact session.spells_glyphs replays
  case alike => exact alike

def replays (session : Session) : List Call → List ReplayStep
  | [] => []
  | call :: rest =>
      if call.isReplay then ⟨session, call, session.after call⟩ :: replays (session.after call) rest
      else replays (session.after call) rest

theorem tracks_replays (session : Session) (calls : List Call) :
    session.Tracks calls (session.replays calls) (session.afterAll calls) := by
  induction calls generalizing session with
  | nil => exact Tracks.done session
  | cons call rest ih =>
      have left : session.Leaves [call] (session.after call) := session.leaves_afterAll [call]
      have onward := ih (session.after call)
      rw [replays]
      cases replays : call.isReplay with
      | true => exact Tracks.replay replays left onward
      | false => exact Tracks.aside replays left onward

theorem cursor_afterAll (session : Session) (calls : List Call) :
    (session.afterAll calls).cursor =
      (calls.filter Call.isReplay).foldl Call.moved session.cursor := by
  induction calls generalizing session with
  | nil => rfl
  | cons call rest ih =>
      have onward := ih (session.after call)
      rw [cursor_after_eq] at onward
      cases replays : call.isReplay with
      | true => simpa [replays, afterAll] using onward
      | false => simpa [replays, afterAll, Call.moved_aside replays] using onward

theorem replays_asides (session : Session) {asides : List Call}
    (aside : ∀ call ∈ asides, ¬ call.isReplay = true) (calls : List Call) :
    session.replays (asides ++ calls) = (session.afterAll asides).replays calls := by
  induction asides generalizing session with
  | nil => rfl
  | cons call rest ih =>
      have onward := ih (session.after call) fun later among => aside later (List.mem_cons_of_mem _ among)
      simpa [replays, aside call List.mem_cons_self, afterAll] using onward

theorem cursor_asides (session : Session) {asides : List Call}
    (aside : ∀ call ∈ asides, ¬ call.isReplay = true) :
    (session.afterAll asides).cursor = session.cursor := by
  have none : asides.filter Call.isReplay = [] := List.filter_eq_nil_iff.mpr aside
  simp [cursor_afterAll, none]

theorem replays_of_filter_cons (session : Session) {calls rest : List Call} {call : Call}
    (filtered : calls.filter Call.isReplay = call :: rest) :
    ∃ (before : Session) (later : List Call), before.cursor = session.cursor ∧
      call.isReplay = true ∧ later.filter Call.isReplay = rest ∧
      session.replays calls =
        ⟨before, call, before.after call⟩ :: (before.after call).replays later := by
  obtain ⟨asides, later, rfl, aside, replays, onward⟩ := List.filter_eq_cons_iff.mp filtered
  refine ⟨session.afterAll asides, later, session.cursor_asides aside, replays, onward, ?_⟩
  rw [session.replays_asides aside]
  simp [Session.replays, replays]

theorem replays_of_filter_nil (session : Session) {calls : List Call}
    (filtered : calls.filter Call.isReplay = []) : session.replays calls = [] := by
  have empty := session.replays_asides (List.filter_eq_nil_iff.mp filtered) []
  simpa [replays] using empty

/-- Calls that do not replay leave the cursor alone, so each replay call finds it where the
replay calls before it have left it. -/
theorem agrees_replays {session other : Session} (cursor : other.cursor = session.cursor)
    {calls others common : List Call} (filtered : calls.filter Call.isReplay = common)
    (same : others.filter Call.isReplay = common) :
    List.Forall₂ ReplayStep.Agrees (session.replays calls) (other.replays others) := by
  induction common generalizing session other calls others with
  | nil =>
      rw [session.replays_of_filter_nil filtered, other.replays_of_filter_nil same]
      exact List.Forall₂.nil
  | cons call rest ih =>
      obtain ⟨before, later, found, replays, onward, steps⟩ :=
        session.replays_of_filter_cons filtered
      obtain ⟨before', later', found', _, onward', steps'⟩ := other.replays_of_filter_cons same
      have meet : before'.cursor = before.cursor := by rw [found', found, cursor]
      have agrees := agrees_of_cursor meet replays
      rw [steps, steps']
      exact List.Forall₂.cons agrees (ih agrees.left onward onward')

end Session

namespace Replay

/-- The padding in front of a token is counted from where the token before it ended in the
grammar file, so from its image there and not from what was written for it. -/
theorem gap_of_pieces {cursor : Position} {tokens : List Token} {front back : List Piece}
    {last piece : Piece} (split : pieces cursor tokens = front ++ last :: piece :: back) :
    piece.gap = (last.token.past.padding piece.token.origin).toList := by
  induction front generalizing cursor tokens with
  | nil =>
      match tokens with
      | [] => simp [pieces] at split
      | [_] => simp [pieces] at split
      | before :: token :: rest =>
          simp only [pieces, List.nil_append, List.cons.injEq] at split
          obtain ⟨first, second, _⟩ := split
          rw [← first, ← second]
  | cons first rest ih =>
      cases tokens with
      | nil => cases split
      | cons token tokens => exact ih (List.cons.inj split).2

end Replay

/-- Two runs with the same replay calls, begun at the same cursor: call by call they leave
the same cursor and show the same glyphs, whatever the sessions are and whatever else is
called in between. Only supplementary characters of literals are spelled by the language,
and no padding depends on how they are. -/
theorem replay_independent {session other : Session} (cursor : other.cursor = session.cursor)
    {calls others : List Call}
    (same : others.filter Call.isReplay = calls.filter Call.isReplay) :
    (∃ (steps steps' : List ReplayStep) (last last' : Session),
      session.Tracks calls steps last ∧ other.Tracks others steps' last' ∧
        last'.cursor = last.cursor ∧ List.Forall₂ ReplayStep.Agrees steps steps') ∧
      -- each gap is counted from the place where the last image ends in the grammar file
      ∀ (call : Call) (found : Position) (front back : List Piece) (last piece : Piece),
        call.pieces found = front ++ last :: piece :: back →
          piece.gap = (last.token.past.padding piece.token.origin).toList := by
  constructor
  · refine ⟨session.replays calls, other.replays others, session.afterAll calls,
      other.afterAll others, ?_, ?_, ?_, ?_⟩
    · exact session.tracks_replays calls
    · exact other.tracks_replays others
    · simp [Session.cursor_afterAll, cursor, same]
    · exact Session.agrees_replays cursor rfl same
  · intro call found front back last piece split
    exact Replay.gap_of_pieces split

def smilingLiteral : TokenArena := ⟨#[
  ⟨.stringLiteral, "\"😀\"", ⟨2, 3⟩, ⟨2, 5⟩, none, some 1⟩,
  ⟨.other, ";", ⟨2, 8⟩, ⟨2, 8⟩, none, none⟩]⟩

def smilingCalls : List Call :=
  [.setCursor ⟨2, 3⟩, .renderToken smilingLiteral 0, .renderToken smilingLiteral 1]

def interleavedCalls : List Call :=
  [.switchTo .header, .setCursor ⟨2, 3⟩, .writeLine "int", .renderToken smilingLiteral 0,
    .finalize ⟨"a.cc"⟩, .renderToken smilingLiteral 1]

theorem replay_independent_smilingLiteral :
    interleavedCalls.filter Call.isReplay = smilingCalls.filter Call.isReplay ∧
      ∃ (steps steps' : List ReplayStep) (last last' : Session),
        (Session.fresh ⟨.java, .warn⟩).Tracks smilingCalls steps last ∧
          (Session.fresh ⟨.cpp, .ignore⟩).Tracks interleavedCalls steps' last' ∧
          last'.cursor = last.cursor ∧ List.Forall₂ ReplayStep.Agrees steps steps' := by
  have cursor : (Session.fresh ⟨.cpp, .ignore⟩).cursor = (Session.fresh ⟨.java, .warn⟩).cursor := rfl
  have same : interleavedCalls.filter Call.isReplay = smilingCalls.filter Call.isReplay := rfl
  exact ⟨same, (replay_independent cursor same).1⟩

example :
    Glyph.texts .surrogates ((Call.replaySequence smilingLiteral [0, 1]).glyphs ⟨2, 3⟩) =
        "\"\\ud83d\\ude00\"  ;".toList ∧
      Glyph.texts .long ((Call.replaySequence smilingLiteral [0, 1]).glyphs ⟨2, 3⟩) =
        "\"\\U0001f600\"  ;".toList := by
  decide +kernel

end ActionReprint
