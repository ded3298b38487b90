import ActionReprint.Proofs.Entry

/-!
The same tokens some lines further down in the grammar file. A replay compares lines and
subtracts them and asks for nothing else about them, so it writes the same text, and its
cursor ends those lines further down; all that is needed is that no line reaches the
greatest word, where counting stops. Nothing is asked of the order of the tokens or of
their links. Main statement: `replay_down`.
-/

namespace ActionReprint

variable {lines : Nat}

namespace Position

def down (lines : Nat) (position : Position) : Position :=
  ⟨position.line + UInt32.ofNat lines, position.column⟩

def HasRoom (lines : Nat) (position : Position) : Prop :=
  position.line.toNat + lines < 4294967295

theorem toNat_line_down {position : Position} (fits : position.line.toNat + lines ≤ 4294967295) :
    (position.down lines).line.toNat = position.line.toNat + lines := by
  rw [down, UInt32.toNat_add, UInt32.toNat_ofNat']
  omega

section
variable {cursor target : Position} (roomC : cursor.HasRoom lines) (roomT : target.HasRoom lines)
include roomC

theorem nextLine_down : (cursor.down lines).nextLine = cursor.nextLine.down lines := by
  have same : bump (cursor.down lines).line = bump cursor.line + UInt32.ofNat lines := by
    have room := roomC
    unfold HasRoom at room
    rw [← UInt32.toNat_inj, toNat_bump, toNat_line_down (Nat.le_of_lt roomC), UInt32.toNat_add,
      toNat_bump, UInt32.toNat_ofNat']
    omega
  rw [nextLine, same]
  rfl

theorem line_nextLine_le : cursor.nextLine.line.toNat + lines ≤ 4294967295 := by
  have room := roomC
  unfold HasRoom at room
  rw [nextLine, toNat_bump]
  omega

include roomT

theorem line_down_lt_iff :
    (cursor.down lines).line < (target.down lines).line ↔ cursor.line < target.line := by
  rw [UInt32.lt_iff_toNat_lt, UInt32.lt_iff_toNat_lt, toNat_line_down (Nat.le_of_lt roomC),
    toNat_line_down (Nat.le_of_lt roomT), Nat.add_lt_add_iff_right]

theorem padding_down : (cursor.down lines).padding (target.down lines) = cursor.padding target := by
  have feeds : lineBreaks (cursor.down lines) (target.down lines) = lineBreaks cursor target := by
    rw [lineBreaks, lineBreaks, toNat_line_down (Nat.le_of_lt roomC),
      toNat_line_down (Nat.le_of_lt roomT), Nat.add_sub_add_right]
  have width : spaces (cursor.down lines) (target.down lines) = spaces cursor target := by
    simp only [spaces, margin, line_down_lt_iff roomC roomT]
    rfl
  rw [padding, padding, feeds, width]

theorem dangles_down :
    (cursor.down lines).dangles (target.down lines).line = cursor.dangles target.line := by
  have same : (cursor.down lines).line = (target.down lines).line ↔ cursor.line = target.line := by
    rw [← UInt32.toNat_inj, ← UInt32.toNat_inj, toNat_line_down (Nat.le_of_lt roomC),
      toNat_line_down (Nat.le_of_lt roomT), Nat.add_left_inj]
  simp only [dangles, bne, Bool.beq_eq_decide_eq, same]
  rfl

end

end Position

namespace Token

def down (lines : Nat) (token : Token) : Token :=
  { token with origin := token.origin.down lines, final := token.final.down lines }

/-- Both lines of the token stay two below the greatest word: the line that the token ends
in may be followed by one for the token itself and one for its owner. -/
def HasRoom (lines : Nat) (token : Token) : Prop :=
  token.origin.line.toNat + lines ≤ 4294967293 ∧ token.final.line.toNat + lines ≤ 4294967293

instance (lines : Nat) (token : Token) : Decidable (token.HasRoom lines) :=
  inferInstanceAs (Decidable (_ ∧ _))

variable {token : Token} (room : token.HasRoom lines)
include room

theorem HasRoom.origin : token.origin.HasRoom lines :=
  Nat.lt_of_le_of_lt room.1 (by decide)

theorem HasRoom.final : token.final.HasRoom lines :=
  Nat.lt_of_le_of_lt room.2 (by decide)

theorem HasRoom.past : token.past.HasRoom lines := by
  have inside := room.2
  unfold Token.past Position.HasRoom
  split
  · rw [toNat_bump]
    omega
  · exact Nat.lt_of_le_of_lt inside (by decide)

theorem past_down : (token.down lines).past = token.past.down lines := by
  have next := Position.nextLine_down room.final
  have ends : (token.down lines).endsLine = token.endsLine := rfl
  unfold past
  rw [ends]
  cases token.endsLine with
  | true => exact next
  | false => rfl

end Token

namespace TokenArena

def down (lines : Nat) (arena : TokenArena) : TokenArena :=
  ⟨arena.tokens.map (Token.down lines)⟩

variable (arena : TokenArena)

theorem mem_tokens_of_get? {arena : TokenArena} {id : TokenId} {token : Token}
    (found : arena.get? id = some token) : token ∈ arena.tokens :=
  Array.mem_of_getElem? found

theorem get?_down (id : TokenId) :
    (arena.down lines).get? id = (arena.get? id).map (Token.down lines) :=
  Array.getElem?_map

@[simp] theorem size_down : (arena.down lines).size = arena.size :=
  Array.size_map

@[simp] theorem special?_down : (arena.down lines).special? = arena.special? := by
  funext id
  rw [special?, special?, get?_down, Option.bind_map]
  rfl

@[simp] theorem next?_down : (arena.down lines).next? = arena.next? := by
  funext id
  rw [next?, next?, get?_down, Option.bind_map]
  rfl

@[simp] theorem earliestSpecial_down : (arena.down lines).earliestSpecial = arena.earliestSpecial := by
  funext id
  simp [earliestSpecial]

@[simp] theorem specialChain_down : (arena.down lines).specialChain = arena.specialChain := by
  funext id
  simp [specialChain]

end TokenArena

def Rendered.down (lines : Nat) (rendered : Rendered) : Rendered :=
  ⟨rendered.text, rendered.cursor.down lines⟩

theorem Rendered.andThen_down {piece : Rendered} {moved continuation : Position → Rendered}
    (follows : moved (piece.cursor.down lines) = (continuation piece.cursor).down lines) :
    (piece.down lines).andThen moved = (piece.andThen continuation).down lines := by
  simp [andThen, down, follows]

namespace Replay
variable (style : Literal.EscapeStyle) (arena : TokenArena)

@[simp] theorem cluster_down : cluster (arena.down lines) = cluster arena := by
  funext id
  simp [cluster]

@[simp] theorem follower_down : follower (arena.down lines) = follower arena := by
  funext ids
  simp [follower]

@[simp] theorem order_down : order (arena.down lines) = order arena := by
  funext ids
  simp [order]

theorem named_down (ids : List TokenId) :
    named (arena.down lines) ids = (named arena ids).map (Token.down lines) := by
  simp only [named, List.map_filterMap, TokenArena.get?_down]

theorem bare_down {token : Token} (room : token.HasRoom lines) {cursor : Position}
    (roomC : cursor.HasRoom lines) :
    bare style (token.down lines) (cursor.down lines) = (bare style token cursor).down lines := by
  have padded : (cursor.down lines).padding (token.down lines).origin =
      cursor.padding token.origin := Position.padding_down roomC room.origin
  rw [bare, padded, Token.past_down room]
  rfl

section
variable {tokens : List Token} (room : ∀ token ∈ tokens, token.HasRoom lines)
  {cursor : Position} (roomC : cursor.HasRoom lines)
include room roomC

theorem bares_down :
    bares style (tokens.map (Token.down lines)) (cursor.down lines) =
      (bares style tokens cursor).down lines := by
  induction tokens generalizing cursor with
  | nil => rfl
  | cons token rest ih =>
      have here := room token List.mem_cons_self
      have later : ∀ other ∈ rest, other.HasRoom lines := fun other member =>
        room other (List.mem_cons_of_mem token member)
      rw [List.map_cons, bares, bares, bare_down style here roomC]
      apply Rendered.andThen_down
      exact ih later here.past

theorem room_bares : (bares style tokens cursor).cursor.HasRoom lines := by
  induction tokens generalizing cursor with
  | nil => exact roomC
  | cons token rest ih =>
      have here := room token List.mem_cons_self
      exact ih (fun other member => room other (List.mem_cons_of_mem token member)) here.past

end

section
variable {arena} (room : ∀ token ∈ arena.tokens, token.HasRoom lines)
  {cursor : Position} (roomC : cursor.HasRoom lines)
include room

theorem room_named (ids : List TokenId) : ∀ token ∈ named arena ids, token.HasRoom lines := by
  intro token member
  obtain ⟨id, _, found⟩ := List.mem_filterMap.mp member
  exact room token (TokenArena.mem_tokens_of_get? found)

include roomC

theorem lineEnd_down (following : Option TokenId) :
    lineEnd (arena.down lines) following (cursor.down lines) =
      (lineEnd arena following cursor).down lines := by
  cases following with
  | none => rfl
  | some id =>
      unfold lineEnd
      rw [Option.bind_some, Option.bind_some, TokenArena.get?_down]
      cases found : arena.get? id with
      | none => rfl
      | some owner =>
          have roomO := room owner (TokenArena.mem_tokens_of_get? found)
          have dangles := Position.dangles_down roomC roomO.origin
          have attached : (owner.down lines).special = owner.special := rfl
          have origin : (owner.down lines).origin = owner.origin.down lines := rfl
          simp only [Option.map_some, attached, origin, dangles]
          split
          · rw [Position.nextLine_down roomC]
            rfl
          · rfl

theorem sequence_down (ids : List TokenId) :
    sequence style (arena.down lines) ids (cursor.down lines) =
      (sequence style arena ids cursor).down lines := by
  rw [sequence_eq, sequence_eq, order_down, follower_down, named_down,
    bares_down style (room_named room _) roomC]
  apply Rendered.andThen_down
  exact lineEnd_down room (room_bares style (room_named room _) roomC) _

theorem line_sequence_le (ids : List TokenId) :
    (sequence style arena ids cursor).cursor.line.toNat + lines ≤ 4294967295 := by
  have reached := room_bares style (room_named room (order arena ids)) roomC
  rw [sequence_eq]
  simp only [Rendered.andThen]
  unfold lineEnd
  split
  · exact Nat.le_of_lt reached
  · split
    · exact Position.line_nextLine_le reached
    · exact Nat.le_of_lt reached

end

end Replay

/-- Let all lines of an arena stay two below the greatest word when its tokens are moved some
lines down, and let the replay of a sequence be entered at its first id. Then the moved tokens
are replayed to the session that the tokens give where they stand, but for the cursor, which
is that many lines further down: the text is the same. -/
theorem replay_down (session : Session) {arena : TokenArena} {first : TokenId}
    (rest : List TokenId) (enters : arena.Enters first)
    (room : ∀ token ∈ arena.tokens, token.HasRoom lines) :
    let here := (session.enter arena first).replaySequence arena (first :: rest)
    let below := (session.enter (arena.down lines) first).replaySequence (arena.down lines)
      (first :: rest)
    below.buffers = here.buffers ∧ below.cursor = here.cursor.down lines ∧
      below.cursor.line.toNat = here.cursor.line.toNat + lines ∧
      below = here.setCursor below.cursor := by
  obtain ⟨start, begins⟩ := (Replay.begins_iff_enters arena first rest).mpr enters
  have found : start ∈ arena.tokens := by
    obtain ⟨id, _, found⟩ := Option.bind_eq_some_iff.mp begins
    exact TokenArena.mem_tokens_of_get? found
  have beginsBelow : (Replay.order (arena.down lines) (first :: rest)).head?.bind
      (arena.down lines).get? = some (start.down lines) := by
    obtain ⟨id, head, named⟩ := Option.bind_eq_some_iff.mp begins
    rw [Replay.order_down, head, Option.bind_some, TokenArena.get?_down, named]
    rfl
  have entered : session.enter arena first = session.setCursor start.origin :=
    session.enter_of_begins arena rest begins
  have enteredBelow : session.enter (arena.down lines) first =
      session.setCursor (start.origin.down lines) :=
    session.enter_of_begins (arena.down lines) rest beginsBelow
  have origin := (room start found).origin
  have rendered : Replay.sequence (session.setCursor (start.origin.down lines)).escapeStyle
      (arena.down lines) (first :: rest) (start.origin.down lines) =
        (Replay.sequence session.escapeStyle arena (first :: rest) start.origin).down lines :=
    Replay.sequence_down session.escapeStyle room origin (first :: rest)
  have fits := Replay.line_sequence_le session.escapeStyle room origin (first :: rest)
  have moved : (session.setCursor (start.origin.down lines)).replaySequence (arena.down lines)
      (first :: rest) = ((session.setCursor start.origin).replaySequence arena
        (first :: rest)).setCursor ((Replay.sequence session.escapeStyle arena (first :: rest)
          start.origin).cursor.down lines) := by
    simp only [Session.replaySequence, Session.replay, Session.render, Session.cursor_setCursor,
      rendered]
    rfl
  simp only [entered, enteredBelow, moved]
  exact ⟨rfl, rfl, Position.toNat_line_down fits, rfl⟩

def scatteredNames : TokenArena := ⟨#[
  ⟨.singleLineComment, "// a\n", ⟨4, 3⟩, ⟨4, 7⟩, none, none⟩,
  ⟨.other, "f", ⟨7, 1⟩, ⟨7, 1⟩, some 0, none⟩,
  ⟨.stringLiteral, "\"é\"", ⟨2, 9⟩, ⟨2, 11⟩, none, some 9⟩]⟩

theorem replay_down_scatteredNames :
    scatteredNames.Enters 1 ∧ (∀ token ∈ scatteredNames.tokens, token.HasRoom 4294967286) ∧
      (((Session.fresh ⟨.cpp, .warn⟩).enter (scatteredNames.down 4294967286) 1).replaySequence
        (scatteredNames.down 4294967286) [1, 2]).buffers.body = "// a\n\n\nf       \"\\u00e9\"" := by
  have enters : scatteredNames.Enters 1 := by decide
  have room : ∀ token ∈ scatteredNames.tokens, token.HasRoom 4294967286 := by decide
  have same := (replay_down (Session.fresh ⟨.cpp, .warn⟩) [2] enters room).1
  refine ⟨enters, room, ?_⟩
  rw [same]
  decide +kernel

end ActionReprint
