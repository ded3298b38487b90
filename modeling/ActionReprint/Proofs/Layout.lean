import ActionReprint.Proofs.Escaping
import ActionReprint.Proofs.Frame
import ActionReprint.Proofs.Pieces
import Mathlib.Data.List.Chain

/-!
Layout of replayed text. A reader who follows the text from where the first token
stands in the grammar file meets every later token at the line and column it has
there. Escaping a literal can make it wider, which moves what follows it on its line
to the right by just as much and nothing else. Main statement: `layout_kept`.
-/

namespace ActionReprint

namespace Token

def behind (token : Token) : Point :=
  token.origin.point.read token.plain

/-- The places of a token agree with its image. -/
structure WellPlaced (token : Token) : Prop where
  nonempty : token.plain ≠ []
  noLoneReturn : token.plain.getLast? ≠ some '\r'
  origin : token.origin.Inside
  final : token.final.Inside
  reaches : token.origin.point.read token.plain.dropLast = token.final.point

instance (token : Token) : Decidable token.WellPlaced :=
  decidable_of_iff
    (token.plain ≠ [] ∧ token.plain.getLast? ≠ some '\r' ∧ token.origin.Inside ∧
      token.final.Inside ∧ token.origin.point.read token.plain.dropLast = token.final.point)
    ⟨fun ⟨a, b, c, d, e⟩ => ⟨a, b, c, d, e⟩, fun ⟨a, b, c, d, e⟩ => ⟨a, b, c, d, e⟩⟩

theorem endsLine_eq (token : Token) {init : List Char} {last : Char}
    (image : token.plain = init ++ [last]) :
    token.endsLine = (last == '\n' || last == '\r') := by
  have found : token.image.toList.getLast? = some last := by
    rw [← plain, image, List.getLast?_concat]
  simp [endsLine, found]

theorem WellPlaced.point_past {token : Token} (placed : token.WellPlaced) :
    token.past.point = token.behind := by
  obtain ⟨init, last, image⟩ :=
    (List.eq_nil_or_concat' token.plain).resolve_left placed.nonempty
  have reaches := placed.reaches
  have noReturn := placed.noLoneReturn
  rw [image, List.dropLast_concat] at reaches
  rw [image, List.getLast?_concat] at noReturn
  have notReturn : last ≠ '\r' := fun same => noReturn (congrArg some same)
  obtain ⟨⟨_, lineBelow⟩, _, columnBelow⟩ := placed.final
  have ends := token.endsLine_eq image
  rw [behind, image, Point.read_append, reaches]
  -- The end of a token is the place of its last character; the point past it is one on.
  by_cases feed : last = '\n'
  · simp only [past, ends, feed, beq_self_eq_true, Bool.true_or, if_true, Position.point,
      toNat_bump, Point.read, List.foldl_cons, List.foldl_nil, Point.next, Point.mk.injEq]
    exact ⟨by omega, rfl⟩
  · simp [past, ends, feed, notReturn, Position.point, toNat_bump, Point.read, Point.next]
    omega

end Token

/-- A way of writing tokens that gives each of them the lines of its image, the last of
which may be wider. -/
structure KeepsLines (write : Token → List Char) : Prop where
  feeds : ∀ token : Token, (write token).count '\n' = token.plain.count '\n'
  wide : ∀ token : Token, lastWidth token.plain ≤ lastWidth (write token)

theorem keepsLines_plain : KeepsLines Token.plain :=
  ⟨fun _ => rfl, fun _ => Nat.le_refl _⟩

theorem keepsLines_written (style : Literal.EscapeStyle) : KeepsLines (Token.written style) := by
  constructor
  · intro token
    rcases token.written_cases style with escaped | plain
    · rw [escaped, Literal.count_feed_escapeChars]
    · rw [plain]
  · intro token
    rcases token.written_cases style with escaped | plain
    · rw [escaped]
      exact Literal.lastWidth_le_escapeChars style _
    · rw [plain]

def Token.growth (write : Token → List Char) (token : Token) : Nat :=
  lastWidth (write token) - lastWidth token.plain

/-- The columns gained on a line by the pieces that end on it. -/
def Piece.drift (write : Token → List Char) (line : Nat) : List Piece → Nat
  | [] => 0
  | piece :: rest =>
      (if piece.token.behind.line = line then piece.token.growth write else 0) +
        drift write line rest

theorem drift_plain (line : Nat) (pieces : List Piece) : Piece.drift Token.plain line pieces = 0 := by
  induction pieces with
  | nil => rfl
  | cons piece rest ih =>
      have still : piece.token.growth Token.plain = 0 := Nat.sub_self _
      rw [Piece.drift, ih, still, ite_self]

theorem read_write {write : Token → List Char} (keeps : KeepsLines write) (token : Token)
    (here : Point) (columns : Nat) :
    (here.shift columns).read (write token) = (here.read token.plain).shift
      ((if '\n' ∈ token.plain then 0 else columns) + token.growth write) := by
  have same : '\n' ∈ write token ↔ '\n' ∈ token.plain := by
    rw [← List.count_pos_iff, ← List.count_pos_iff, keeps.feeds]
  have wide := keeps.wide token
  rw [Point.read_eq, Point.read_eq, keeps.feeds]
  by_cases broken : '\n' ∈ token.plain
  · simp only [same, broken, if_true, Point.shift, Token.growth, Point.mk.injEq, true_and]
    omega
  · simp only [same, broken, if_false, Point.shift, Token.growth, Point.mk.injEq, true_and]
    omega

/-- Tokens that a replay can put back where they were: each fits its places, and each
begins at or behind the end of the one before it. -/
structure InFileOrder (tokens : List Token) : Prop where
  placed : ∀ token ∈ tokens, token.WellPlaced
  forward : tokens.IsChain fun token following => token.behind ≤ following.origin.point

instance (tokens : List Token) : Decidable (InFileOrder tokens) :=
  decidable_of_iff
    ((∀ token ∈ tokens, token.WellPlaced) ∧
      tokens.IsChain fun token following => token.behind ≤ following.origin.point)
    ⟨fun ⟨placed, forward⟩ => ⟨placed, forward⟩, fun ⟨placed, forward⟩ => ⟨placed, forward⟩⟩

theorem InFileOrder.tail {token : Token} {rest : List Token} (ordered : InFileOrder (token :: rest)) :
    InFileOrder rest :=
  ⟨fun other member => ordered.placed other (List.mem_cons_of_mem token member),
    ordered.forward.tail⟩

theorem feed_mem_iff (token : Token) :
    '\n' ∈ token.plain ↔ token.origin.point.line < token.behind.line := by
  simp [Token.behind, Point.read_eq, List.count_pos_iff]

theorem drift_step {cursorLine originLine behindLine line columns growth : Nat} {broken : Prop}
    [Decidable broken] (breaks : broken ↔ originLine < behindLine)
    (arrive : cursorLine ≤ originLine) (climb : originLine ≤ behindLine)
    (further : behindLine ≤ line) :
    (if behindLine = line then
        (if broken then 0 else if cursorLine = originLine then columns else 0) + growth
      else 0) =
      (if cursorLine = line then columns else 0) + (if behindLine = line then growth else 0) := by
  -- Lines only grow along a replay: what a line has gained counts until it is left.
  by_cases last : behindLine = line
  · by_cases unbroken : originLine = behindLine
    · have whole : ¬ broken := fun feed => Nat.ne_of_lt (breaks.mp feed) unbroken
      rw [if_pos last, if_pos last, if_neg whole, unbroken, last]
    · have feed : broken := breaks.mpr (Nat.lt_of_le_of_ne climb unbroken)
      have earlier : cursorLine ≠ line := by omega
      rw [if_pos last, if_pos last, if_pos feed, if_neg earlier]
  · have earlier : cursorLine ≠ line := by omega
    rw [if_neg last, if_neg last, if_neg earlier]

theorem read_pieces {write : Token → List Char} (keeps : KeepsLines write) {tokens : List Token}
    {cursor : Position} {before after : List Piece} {piece : Piece} (columns : Nat)
    (ordered : InFileOrder tokens)
    (ahead : ∀ first ∈ tokens.head?, cursor.point ≤ first.origin.point)
    (split : Replay.pieces cursor tokens = before ++ piece :: after) :
    cursor.point.line ≤ piece.token.origin.point.line ∧
      (cursor.point.shift columns).read (Piece.texts write before ++ piece.gap) =
        piece.token.origin.point.shift
          ((if cursor.point.line = piece.token.origin.point.line then columns else 0) +
            Piece.drift write piece.token.origin.point.line before) := by
  -- Along the tokens. The text stands where the cursor is, but for the columns that its
  -- line has gained so far; these are carried on, and a line break takes them back.
  induction tokens generalizing cursor columns before with
  | nil => simp [Replay.pieces] at split
  | cons token rest ih =>
      have here := ahead token rfl
      have placed := ordered.placed token List.mem_cons_self
      have lines := Point.line_le_of_le here
      have arrives := Position.read_padding_shift here placed.origin.2.1 columns
      cases before with
      | nil =>
          obtain ⟨rfl, rfl⟩ := List.cons.inj split
          exact ⟨lines, by simpa [Piece.texts, Piece.drift] using arrives⟩
      | cons first more =>
          obtain ⟨rfl, tail⟩ := List.cons.inj split
          have past := placed.point_past
          have reaches : ∀ following ∈ rest.head?, token.past.point ≤ following.origin.point := by
            intro following next
            rw [past]
            exact ordered.forward.rel_head? next
          have climbs : token.origin.point.line ≤ token.behind.line := by
            simp [Token.behind, Point.read_eq]
          have crossed := read_write keeps token token.origin.point
            (if cursor.point.line = token.origin.point.line then columns else 0)
          obtain ⟨further, ends⟩ := ih
            ((if '\n' ∈ token.plain then 0
              else if cursor.point.line = token.origin.point.line then columns else 0) +
              token.growth write) ordered.tail reaches tail
          rw [past] at further ends
          refine ⟨Nat.le_trans lines (Nat.le_trans climbs further), ?_⟩
          have text : Piece.texts write (⟨(cursor.padding token.origin).toList, token⟩ :: more) =
              (cursor.padding token.origin).toList ++ (write token ++ Piece.texts write more) := by
            simp [Piece.texts, Piece.text]
          rw [text, List.append_assoc, Point.read_append, arrives, List.append_assoc,
            Point.read_append, crossed, ← Token.behind, ends,
            drift_step (feed_mem_iff token) lines climbs further]
          simp [Piece.drift, Nat.add_assoc]

theorem Session.enter_of_begins (session : Session) (arena : TokenArena) {first : TokenId}
    (rest : List TokenId) {start : Token}
    (begins : (Replay.order arena (first :: rest)).head?.bind arena.get? = some start) :
    session.enter arena first = session.setCursor start.origin := by
  rw [Session.enter_eq, Replay.entered, Replay.entry?_eq arena first rest, begins]
  rfl

theorem named_of_head {arena : TokenArena} {ids : List TokenId} {start : Token}
    (begins : ids.head?.bind arena.get? = some start) :
    (Replay.named arena ids).head? = some start := by
  cases ids with
  | nil => simp at begins
  | cons id rest =>
      have found : arena.get? id = some start := begins
      simp [Replay.named, found]

/-- Let the order of the replay begin with the token `start`, and let its tokens fit
their places and follow each other in the grammar file. Then what the replay adds to
the active buffer are those tokens with line feeds and spaces between them and at most
one more line feed. Read from where `start` stands, with literals as they are in the
grammar file, it has every token exactly where that file has it; as it is written, it
has every token on its line, and to the right by the columns that literals in front of
it have gained there. -/
theorem layout_kept (session : Session) (arena : TokenArena) (first : TokenId)
    (rest : List TokenId) (start : Token)
    (begins : (Replay.order arena (first :: rest)).head?.bind arena.get? = some start)
    (ordered : InFileOrder (Replay.named arena (Replay.order arena (first :: rest)))) :
    ∃ pieces : List Piece, ∃ feed : List Char,
      pieces.map Piece.token = Replay.named arena (Replay.order arena (first :: rest)) ∧
      (∀ piece ∈ pieces, ∃ feeds spaces : Nat,
        piece.gap = List.replicate feeds '\n' ++ List.replicate spaces ' ') ∧
      (feed = [] ∨ feed = ['\n']) ∧
      ((session.enter arena first).replaySequence arena (first :: rest)).buffers =
        session.buffers.write
          (String.ofList (Piece.texts (Token.written session.escapeStyle) pieces ++ feed)) ∧
      ∀ before piece after, pieces = before ++ piece :: after →
        start.origin.point.read (Piece.texts Token.plain before ++ piece.gap) =
          piece.token.origin.point ∧
        start.origin.point.read
            (Piece.texts (Token.written session.escapeStyle) before ++ piece.gap) =
          piece.token.origin.point.shift (Piece.drift (Token.written session.escapeStyle)
            piece.token.origin.point.line before) := by
  obtain ⟨feed, atMostOne, text⟩ :=
    Replay.text_sequence session.escapeStyle arena (first :: rest) start.origin
  refine ⟨Replay.pieces start.origin (Replay.named arena (Replay.order arena (first :: rest))),
    feed, Replay.map_token_pieces _ _, ?_, atMostOne, ?_, ?_⟩
  · intro piece member
    exact Replay.gap_of_mem_pieces member
  · rw [session.enter_of_begins arena rest begins, Session.replaySequence, Session.buffers_replay]
    exact congrArg session.buffers.write text
  · intro before piece after split
    have ahead : ∀ token ∈ (Replay.named arena (Replay.order arena (first :: rest))).head?,
        start.origin.point ≤ token.origin.point := by
      intro token head
      rw [named_of_head begins] at head
      rw [Option.some.inj head]
      exact Or.inr ⟨rfl, Nat.le_refl _⟩
    constructor
    · have kept := (read_pieces keepsLines_plain 0 ordered ahead split).2
      simpa [drift_plain] using kept
    · have moved :=
        (read_pieces (keepsLines_written session.escapeStyle) 0 ordered ahead split).2
      simpa using moved

-- comments of both kinds around a literal that escaping makes five columns wider
def commentedLiteral : TokenArena := ⟨#[
  ⟨.singleLineComment, "// a\n", ⟨3, 5⟩, ⟨3, 9⟩, none, none⟩,
  ⟨.stringLiteral, "\"é\"", ⟨4, 3⟩, ⟨4, 5⟩, some 0, some 2⟩,
  ⟨.other, "x", ⟨4, 7⟩, ⟨4, 7⟩, none, some 4⟩,
  ⟨.multiLineComment, "/*\n*/", ⟨4, 9⟩, ⟨5, 2⟩, none, none⟩,
  ⟨.other, ";", ⟨6, 1⟩, ⟨6, 1⟩, some 3, none⟩]⟩

theorem layout_kept_commentedLiteral :
    (Replay.order commentedLiteral [1, 2]).head?.bind commentedLiteral.get? =
        some ⟨.singleLineComment, "// a\n", ⟨3, 5⟩, ⟨3, 9⟩, none, none⟩ ∧
      InFileOrder (Replay.named commentedLiteral (Replay.order commentedLiteral [1, 2])) ∧
      ∃ pieces : List Piece,
        pieces.map Piece.token =
          Replay.named commentedLiteral (Replay.order commentedLiteral [1, 2]) ∧
        ∀ before piece after, pieces = before ++ piece :: after →
          (⟨3, 5⟩ : Point).read (Piece.texts Token.plain before ++ piece.gap) =
            piece.token.origin.point := by
  have begins : (Replay.order commentedLiteral [1, 2]).head?.bind commentedLiteral.get? =
      some ⟨.singleLineComment, "// a\n", ⟨3, 5⟩, ⟨3, 9⟩, none, none⟩ := by decide
  have ordered : InFileOrder
      (Replay.named commentedLiteral (Replay.order commentedLiteral [1, 2])) := by decide
  obtain ⟨pieces, _, tokens, _, _, _, kept⟩ :=
    layout_kept (Session.fresh ⟨.java, .ignore⟩) commentedLiteral 1 [2] _ begins ordered
  exact ⟨begins, ordered, pieces, tokens, fun before piece after split =>
    (kept before piece after split).1⟩

end ActionReprint
