import ActionReprint.Proofs.Layout

/-!
Lines as compilers count them. A line feed ends a line, and so does a carriage return that no
line feed follows; the two together end one line. A replay pads with line feeds, so behind a
token that ends in a carriage return the first of them ends no line of its own: the two make
a pair, and all that follows is a line too high. Main statement: `lines_kept_iff`.
-/

namespace ActionReprint

/-- The character ends a line in front of this next one: a line feed does, and a carriage
return that is not the first half of a pair. -/
def terminates (c : Char) (next : Option Char) : Bool :=
  c == '\n' || c == '\r' && next != some '\n'

/-- The number of lines that end in a text with this character behind it. -/
def terminators : List Char → Option Char → Nat
  | [], _ => 0
  | c :: rest, next =>
      (if terminates c (rest.head?.or next) then 1 else 0) + terminators rest next

theorem terminators_append (text rest : List Char) (next : Option Char) :
    terminators (text ++ rest) next =
      terminators text (rest.head?.or next) + terminators rest next := by
  induction text with
  | nil => simp [terminators]
  | cons c more ih =>
      rw [List.cons_append, terminators, terminators, ih, List.head?_append, Option.or_assoc,
        Nat.add_assoc]

theorem terminators_single (c : Char) (next : Option Char) :
    terminators [c] next = if terminates c next then 1 else 0 := rfl

theorem terminates_congr (c : Char) {next other : Option Char}
    (same : next = some '\n' ↔ other = some '\n') : terminates c next = terminates c other := by
  have flag : (next != some '\n') = (other != some '\n') := by
    rw [bne, bne, Bool.beq_eq_decide_eq, Bool.beq_eq_decide_eq, decide_eq_decide.mpr same]
  rw [terminates, terminates, flag]

theorem terminates_of_quiet {c : Char} (quiet : terminates c none = false) (next : Option Char) :
    terminates c next = false := by
  obtain ⟨notFeed, notBack⟩ : c ≠ '\n' ∧ c ≠ '\r' := by simpa [terminates] using quiet
  simp [terminates, notFeed, notBack]

theorem terminators_of_quiet {text : List Char} (quiet : ∀ c ∈ text, terminates c none = false)
    (next : Option Char) : terminators text next = 0 := by
  induction text with
  | nil => rfl
  | cons c rest ih =>
      have here := quiet c List.mem_cons_self
      rw [terminators, terminates_of_quiet here,
        ih fun other later => quiet other (List.mem_cons_of_mem c later)]
      rfl

/-- A carriage return at the end of a text ends a line unless a line feed is behind it. -/
theorem terminators_next (text : List Char) (next : Option Char) :
    terminators text next + (if text.getLast? = some '\r' ∧ next = some '\n' then 1 else 0) =
      terminators text none := by
  rcases List.eq_nil_or_concat' text with rfl | ⟨init, c, rfl⟩
  · rfl
  · rw [terminators_append, terminators_append, List.getLast?_concat, Nat.add_assoc]
    congr 1
    rw [terminators_single, terminators_single]
    by_cases back : c = '\r'
    · by_cases feed : next = some '\n' <;> simp [terminates, back, feed]
    · simp [terminates, back]

namespace Point

def step (here : Point) (c : Char) (next : Option Char) : Point :=
  if terminates c next then ⟨here.line + 1, 1⟩ else ⟨here.line, here.column + 1⟩

def walk (here : Point) : List Char → Option Char → Point
  | [], _ => here
  | c :: rest, next => (here.step c (rest.head?.or next)).walk rest next

theorem line_walk (here : Point) (text : List Char) (next : Option Char) :
    (here.walk text next).line = here.line + terminators text next := by
  induction text generalizing here with
  | nil => rfl
  | cons c rest ih =>
      rw [walk, ih, terminators, step]
      split <;> simp [Nat.add_assoc]

theorem walk_concat (here : Point) (init : List Char) (c : Char) (next : Option Char) :
    here.walk (init ++ [c]) next = (here.walk init (some c)).step c next := by
  induction init generalizing here with
  | nil => rfl
  | cons first rest ih =>
      rw [List.cons_append, walk, walk, ih, List.head?_append, Option.or_assoc]
      rfl

end Point

namespace Token

/-- The places of the token agree with its image, lines counted in this way: a reader who
begins where it begins meets its last character where it ends. -/
def Fits (token : Token) : Prop :=
  ∃ last ∈ token.plain.getLast?,
    token.origin.point.walk token.plain.dropLast (some last) = token.final.point

instance (token : Token) : Decidable token.Fits :=
  Option.decidableExistsMem token.plain.getLast?

def beyond (token : Token) : Point :=
  token.origin.point.walk token.plain none

/-- A line feed will be written right behind a carriage return that ends the token: the
following one stands on a later line, or at once behind it and begins with a line feed. -/
def PairsWith (token following : Token) : Prop :=
  token.plain.getLast? = some '\r' ∧
    (token.beyond.line < following.origin.point.line ∨
      token.beyond = following.origin.point ∧ following.plain.head? = some '\n')

instance (token following : Token) : Decidable (token.PairsWith following) :=
  inferInstanceAs (Decidable (_ ∧ _))

end Token

def pairs : List Token → Nat
  | token :: following :: rest =>
      (if token.PairsWith following then 1 else 0) + pairs (following :: rest)
  | _ => 0

theorem pairs_eq_zero_iff (tokens : List Token) :
    pairs tokens = 0 ↔ tokens.IsChain fun token following => ¬ token.PairsWith following := by
  induction tokens with
  | nil => simp [pairs]
  | cons token rest ih =>
      cases rest with
      | nil => simp [pairs]
      | cons following others =>
          rw [pairs, Nat.add_eq_zero_iff, ih, List.isChain_cons_cons]
          simp

namespace Token

theorem Fits.concat {token : Token} (fits : token.Fits) :
    ∃ init last, token.plain = init ++ [last] ∧
      token.origin.point.walk init (some last) = token.final.point := by
  obtain ⟨last, ends, reaches⟩ := fits
  obtain ⟨init, image⟩ := List.getLast?_eq_some_iff.mp ends
  rw [image, List.dropLast_concat] at reaches
  exact ⟨init, last, image, reaches⟩

theorem line_beyond (token : Token) :
    token.beyond.line = token.origin.point.line + terminators token.plain none :=
  Point.line_walk _ _ _

/-- Where the cursor is put behind a token. The words do not reach every point, but they
reach the one behind a token that another one follows. -/
theorem Fits.past {token following : Token} (fits : token.Fits)
    (forward : token.beyond ≤ following.origin.point) :
    token.past.line.toNat = token.beyond.line ∧
      (token.plain.getLast? = some '\r' → token.past.point = token.beyond) := by
  have inside : token.beyond.line ≤ following.origin.line.toNat := Point.line_le_of_le forward
  have bounded := following.origin.line.toNat_lt
  obtain ⟨init, last, image, reaches⟩ := fits.concat
  have ends : token.endsLine = terminates last none := by
    rw [token.endsLine_eq image]
    exact congrArg _ (Bool.and_true _).symm
  have beyond : token.beyond = token.final.point.step last none := by
    rw [Token.beyond, image, Point.walk_concat, reaches]
  rw [beyond] at inside ⊢
  rw [image, List.getLast?_concat]
  unfold Token.past Point.step at *
  rw [ends]
  cases ended : terminates last none with
  | false =>
      refine ⟨rfl, ?_⟩
      intro back
      obtain rfl := Option.some.inj back
      cases ended
  | true =>
      have next : (bump token.final.line).toNat = token.final.line.toNat + 1 := by
        simp only [ended, if_true, Position.point] at inside
        rw [toNat_bump]
        omega
      refine ⟨next, fun _ => ?_⟩
      simp only [if_true, Position.point, next]
      rfl

theorem Fits.plain_ne_nil {token : Token} (fits : token.Fits) : token.plain ≠ [] := by
  obtain ⟨init, last, image, _⟩ := fits.concat
  simp [image]

end Token

structure InLineOrder (tokens : List Token) : Prop where
  fits : ∀ token ∈ tokens, token.Fits
  forward : tokens.IsChain fun token following => token.beyond ≤ following.origin.point

instance (tokens : List Token) : Decidable (InLineOrder tokens) :=
  decidable_of_iff
    ((∀ token ∈ tokens, token.Fits) ∧
      tokens.IsChain fun token following => token.beyond ≤ following.origin.point)
    ⟨fun ⟨fits, forward⟩ => ⟨fits, forward⟩, fun ⟨fits, forward⟩ => ⟨fits, forward⟩⟩

namespace InLineOrder

variable {token following : Token} {rest : List Token}

theorem head (ordered : InLineOrder (token :: following :: rest)) :
    token.Fits ∧ token.beyond ≤ following.origin.point :=
  ⟨ordered.fits token List.mem_cons_self, (List.isChain_cons_cons.mp ordered.forward).1⟩

theorem tail (ordered : InLineOrder (token :: rest)) : InLineOrder rest :=
  ⟨fun other member => ordered.fits other (List.mem_cons_of_mem token member),
    ordered.forward.tail⟩

end InLineOrder

/-- A way of writing tokens that ends the lines of their images and begins with a line feed
where these do. -/
structure KeepsTerminators (write : Token → List Char) : Prop where
  counts : ∀ (token : Token) (next : Option Char),
    terminators (write token) next = terminators token.plain next
  begins : ∀ token : Token, (write token).head? = some '\n' ↔ token.plain.head? = some '\n'
  nonempty : ∀ token : Token, token.plain ≠ [] → write token ≠ []

namespace Literal

theorem terminates_of_visible {c : Char} (visible : ' ' < c) : terminates c none = false := by
  have notFeed : c ≠ '\n' := by
    rintro rfl
    exact absurd visible (by decide)
  have notBack : c ≠ '\r' := by
    rintro rfl
    exact absurd visible (by decide)
  simp [terminates, notFeed, notBack]

theorem terminates_of_escaped {c : Char} (escaped : isPlain c = false) :
    terminates c none = false := by
  have notFeed : c ≠ '\n' := by
    rintro rfl
    cases escaped
  have notBack : c ≠ '\r' := by
    rintro rfl
    cases escaped
  simp [terminates, notFeed, notBack]

theorem escapeChars_ne_nil (style : EscapeStyle) {image : List Char} (some : image ≠ []) :
    escapeChars style image ≠ [] := by
  obtain ⟨c, rest, rfl⟩ := List.exists_cons_of_ne_nil some
  intro nothing
  have wide := length_escapeChar_pos style c
  rw [(List.append_eq_nil_iff.mp nothing).1] at wide
  exact absurd wide (by decide)

theorem head?_escapeChars (style : EscapeStyle) (image : List Char) :
    (escapeChars style image).head? = some '\n' ↔ image.head? = some '\n' := by
  cases image with
  | nil => rfl
  | cons c rest =>
      rw [escapeChars_cons]
      cases plain : isPlain c with
      | true => simp [escapeChar_of_plain style plain]
      | false =>
          obtain ⟨digits, shape⟩ := escapeChar_of_escaped style plain
          have notFeed : c ≠ '\n' := by
            rintro rfl
            cases plain
          simp [shape, notFeed]

theorem terminators_escapeChars (style : EscapeStyle) (image : List Char) (next : Option Char) :
    terminators (escapeChars style image) next = terminators image next := by
  induction image with
  | nil => rfl
  | cons c rest ih =>
      rw [escapeChars_cons, terminators_append, ih, terminators]
      congr 1
      cases plain : isPlain c with
      | true =>
          have same : (escapeChars style rest).head?.or next = some '\n' ↔
              rest.head?.or next = some '\n' := by
            cases rest with
            | nil => rfl
            | cons d more =>
                have feeds := head?_escapeChars style (d :: more)
                obtain ⟨e, tail, shape⟩ := List.exists_cons_of_ne_nil
                  (escapeChars_ne_nil style (List.cons_ne_nil d more))
                rw [shape] at feeds ⊢
                exact feeds
          rw [escapeChar_of_plain style plain, terminators_single, terminates_congr c same]
      | false =>
          rw [terminates_of_quiet (terminates_of_escaped plain), terminators_of_quiet]
          · rfl
          · intro d member
            exact terminates_of_visible (visible_of_mem_escapeChar plain member)

end Literal

theorem keepsTerminators_written (style : Literal.EscapeStyle) :
    KeepsTerminators (Token.written style) := by
  constructor
  · intro token next
    rcases token.written_cases style with escaped | plain
    · rw [escaped, Literal.terminators_escapeChars]
    · rw [plain]
  · intro token
    rcases token.written_cases style with escaped | plain
    · rw [escaped, Literal.head?_escapeChars]
    · rw [plain]
  · intro token some
    rcases token.written_cases style with escaped | plain
    · rw [escaped]
      exact Literal.escapeChars_ne_nil style some
    · rwa [plain]

theorem terminators_padding (cursor target : Position) (next : Option Char) :
    terminators (cursor.padding target).toList next =
      target.line.toNat - cursor.line.toNat := by
  have spaces : ∀ width next, terminators (List.replicate width ' ') next = 0 := by
    intro width next
    apply terminators_of_quiet
    intro c member
    rw [List.eq_of_mem_replicate member]
    rfl
  have feeds : ∀ count next, terminators (List.replicate count '\n') next = count := by
    intro count next
    induction count with
    | zero => rfl
    | succ count ih =>
        rw [List.replicate_succ, terminators, ih, terminates]
        simp [Nat.add_comm]
  rw [Position.toList_padding, terminators_append, spaces, feeds]
  rfl

theorem head?_padding_append (cursor target : Position) (text : List Char) :
    ((cursor.padding target).toList ++ text).head? = some '\n' ↔
      cursor.line.toNat < target.line.toNat ∨
        (cursor.padding target).toList = [] ∧ text.head? = some '\n' := by
  rw [Position.toList_padding]
  by_cases later : cursor.line.toNat < target.line.toNat
  · obtain ⟨more, feeds⟩ : ∃ more, Position.lineBreaks cursor target = more + 1 :=
      ⟨_, (Nat.sub_add_cancel (Nat.sub_pos_of_lt later)).symm⟩
    simp [feeds, later, List.replicate_succ]
  · have noFeeds : Position.lineBreaks cursor target = 0 :=
      Nat.sub_eq_zero_of_le (Nat.le_of_not_lt later)
    cases width : Position.spaces cursor target with
    | zero => simp [noFeeds, later]
    | succ more => simp [noFeeds, later, List.replicate_succ]

section
variable {write : Token → List Char} (keeps : KeepsTerminators write)
include keeps

/-- What is written behind a token that ends in a carriage return begins with a line feed
exactly if the two make a pair. -/
theorem feed_behind_iff {token following : Token} (fits : token.Fits)
    (forward : token.beyond ≤ following.origin.point) :
    (token.plain.getLast? = some '\r' ∧
        ((token.past.padding following.origin).toList ++ write following).head? = some '\n') ↔
      token.PairsWith following := by
  refine and_congr_right fun back => ?_
  have point := (fits.past forward).2 back
  have line : token.past.point.line = token.past.line.toNat := rfl
  rw [head?_padding_append, keeps.begins, ← point, Position.point_eq_iff (point ▸ forward), line]
  by_cases later : token.past.line.toNat < following.origin.line.toNat
  · exact iff_of_true (Or.inl later) (Or.inl later)
  · simp only [later, false_or, not_false_eq_true, true_and]
    exact (or_iff_right later).symm

/-- With its padding a token ends the lines down to where the cursor is put behind it, but for
the last of them if that makes a pair. -/
theorem terminators_step {token following : Token} {cursor : Position} (fits : token.Fits)
    (forward : token.beyond ≤ following.origin.point)
    (ahead : cursor.line.toNat ≤ token.origin.line.toNat) :
    cursor.line.toNat + terminators ((cursor.padding token.origin).toList ++ write token)
          ((token.past.padding following.origin).toList ++ write following).head? +
        (if token.PairsWith following then 1 else 0) =
      token.past.line.toNat := by
  have ended := terminators_next token.plain
    ((token.past.padding following.origin).toList ++ write following).head?
  simp only [feed_behind_iff keeps fits forward] at ended
  have beyond : token.beyond.line = token.origin.line.toNat + terminators token.plain none :=
    token.line_beyond
  rw [terminators_append, terminators_padding, keeps.counts, (fits.past forward).1]
  omega

theorem pieces_begin {token : Token} {rest : List Token} {cursor : Position}
    {before after : List Piece} {piece : Piece} (some : token.plain ≠ [])
    (split : Replay.pieces cursor (token :: rest) = before ++ piece :: after) :
    (∃ others, (before ++ [piece]).map Piece.token = token :: others) ∧
      (Piece.texts write before ++ piece.gap).head?.or (write piece.token).head? =
        ((cursor.padding token.origin).toList ++ write token).head? := by
  cases before with
  | nil =>
      obtain ⟨rfl, _⟩ := List.cons.inj split
      exact ⟨⟨[], rfl⟩, by simp [Piece.texts]⟩
  | cons first more =>
      obtain ⟨rfl, _⟩ := List.cons.inj split
      obtain ⟨c, tail, shape⟩ := List.exists_cons_of_ne_nil (keeps.nonempty token some)
      refine ⟨⟨_, rfl⟩, ?_⟩
      simp [Piece.texts, Piece.text, shape, List.head?_append]

/-- A cursor that is on the line of the first token or above it has above each piece the lines
that the text in front of it ends, and one more for each pair in it. -/
theorem terminators_pieces {tokens : List Token} {cursor : Position} {before after : List Piece}
    {piece : Piece} (ordered : InLineOrder tokens)
    (ahead : ∀ first ∈ tokens.head?, cursor.line.toNat ≤ first.origin.line.toNat)
    (split : Replay.pieces cursor tokens = before ++ piece :: after) :
    cursor.line.toNat +
        terminators (Piece.texts write before ++ piece.gap) (write piece.token).head? +
        pairs ((before ++ [piece]).map Piece.token) =
      piece.token.origin.line.toNat := by
  -- Along the tokens: behind each of them the cursor is on the line that the text has reached,
  -- a pair counted as two lines, and never below the token that comes next.
  induction tokens generalizing cursor before with
  | nil => simp [Replay.pieces] at split
  | cons token rest ih =>
      have here := ahead token rfl
      cases before with
      | nil =>
          obtain ⟨rfl, _⟩ := List.cons.inj split
          simp only [Piece.texts, List.flatMap_nil, List.nil_append, terminators_padding,
            List.map_cons, List.map_nil, pairs]
          omega
      | cons first more =>
          obtain ⟨rfl, tail⟩ := List.cons.inj split
          cases rest with
          | nil => simp [Replay.pieces] at tail
          | cons following others =>
              obtain ⟨fits, forward⟩ := ordered.head
              have nonempty := (ordered.tail.fits following List.mem_cons_self).plain_ne_nil
              have reaches : token.past.line.toNat ≤ following.origin.line.toNat :=
                (fits.past forward).1 ▸ Point.line_le_of_le forward
              obtain ⟨⟨later, tokens⟩, begins⟩ := pieces_begin keeps nonempty tail
              have step := terminators_step keeps fits forward here
              have ends := ih ordered.tail (by simpa using reaches) tail
              have text : Piece.texts write (⟨(cursor.padding token.origin).toList, token⟩ :: more) ++
                  piece.gap = ((cursor.padding token.origin).toList ++ write token) ++
                    (Piece.texts write more ++ piece.gap) := by
                simp [Piece.texts, Piece.text]
              rw [tokens] at ends
              rw [text, terminators_append, begins, List.cons_append, List.map_cons, tokens, pairs]
              dsimp only
              omega

end

/-- Let the order of the replay begin with the token `start`, and let its tokens fit their
places and follow each other in the grammar file. Then in front of each of them the text that
the replay adds ends as many lines as lie between `start` and the token, less one for each
carriage return at the end of a token that a line feed was written behind. So every token is on
its line exactly if no token that ends in a carriage return has an empty line behind it, nor a
token at once behind it that begins with a line feed. -/
theorem lines_kept_iff (session : Session) (arena : TokenArena) (first : TokenId)
    (rest : List TokenId) (start : Token)
    (begins : (Replay.order arena (first :: rest)).head?.bind arena.get? = some start)
    (ordered : InLineOrder (Replay.named arena (Replay.order arena (first :: rest)))) :
    let tokens := Replay.named arena (Replay.order arena (first :: rest))
    let pieces := Replay.pieces start.origin tokens
    let write := Token.written session.escapeStyle
    (∃ feed : List Char, (feed = [] ∨ feed = ['\n']) ∧
      ((session.enter arena first).replaySequence arena (first :: rest)).buffers =
        session.buffers.write (String.ofList (Piece.texts write pieces ++ feed))) ∧
      (∀ before piece after, pieces = before ++ piece :: after →
        start.origin.line.toNat +
            terminators (Piece.texts write before ++ piece.gap) (write piece.token).head? +
            pairs ((before ++ [piece]).map Piece.token) =
          piece.token.origin.line.toNat) ∧
      ((∀ before piece after, pieces = before ++ piece :: after →
          start.origin.line.toNat +
              terminators (Piece.texts write before ++ piece.gap) (write piece.token).head? =
            piece.token.origin.line.toNat) ↔
        tokens.IsChain fun token following => ¬ token.PairsWith following) := by
  intro tokens pieces write
  have counted : ∀ before piece after, pieces = before ++ piece :: after →
      start.origin.line.toNat +
          terminators (Piece.texts write before ++ piece.gap) (write piece.token).head? +
          pairs ((before ++ [piece]).map Piece.token) =
        piece.token.origin.line.toNat := by
    intro before piece after split
    refine terminators_pieces (keepsTerminators_written session.escapeStyle) ordered ?_ split
    intro token head
    obtain rfl := Option.some.inj ((named_of_head begins).symm.trans head)
    exact Nat.le_refl _
  have named : pieces.map Piece.token = tokens := Replay.map_token_pieces _ _
  refine ⟨?written, counted, ?lines⟩
  case written =>
    obtain ⟨feed, atMostOne, text⟩ :=
      Replay.text_sequence session.escapeStyle arena (first :: rest) start.origin
    refine ⟨feed, atMostOne, ?_⟩
    rw [session.enter_of_begins arena rest begins, Session.replaySequence, Session.buffers_replay]
    exact congrArg session.buffers.write text
  case lines =>
    rw [← named]
    constructor
    · intro kept
      rcases List.eq_nil_or_concat' pieces with empty | ⟨before, last, shape⟩
      · rw [empty]
        exact List.isChain_nil
      · have all := counted before last [] shape
        rw [kept before last [] shape] at all
        rw [shape]
        exact (pairs_eq_zero_iff _).mp (Nat.add_eq_left.mp all)
    · intro apart before piece after split
      have front : (pieces.map Piece.token) =
          (before ++ [piece]).map Piece.token ++ after.map Piece.token := by
        simp [split]
      rw [front] at apart
      have none := (pairs_eq_zero_iff _).mpr apart.left_of_append
      have all := counted before piece after split
      rwa [none] at all

def returnedComment (line : UInt32) : TokenArena := ⟨#[
  ⟨.singleLineComment, "// a\r", ⟨1, 1⟩, ⟨1, 5⟩, none, none⟩,
  ⟨.other, "f", ⟨line, 1⟩, ⟨line, 1⟩, some 0, none⟩]⟩

theorem lines_kept_iff_returnedComment :
    (Replay.order (returnedComment 2) [1]).head?.bind (returnedComment 2).get? =
        some ⟨.singleLineComment, "// a\r", ⟨1, 1⟩, ⟨1, 5⟩, none, none⟩ ∧
      InLineOrder (Replay.named (returnedComment 2) (Replay.order (returnedComment 2) [1])) ∧
      1 + terminators "// a\r".toList (some 'f') = 2 := by
  have begins : (Replay.order (returnedComment 2) [1]).head?.bind (returnedComment 2).get? =
      some ⟨.singleLineComment, "// a\r", ⟨1, 1⟩, ⟨1, 5⟩, none, none⟩ := by decide
  have ordered : InLineOrder
      (Replay.named (returnedComment 2) (Replay.order (returnedComment 2) [1])) := by decide
  have lines := (lines_kept_iff (Session.fresh ⟨.java, .ignore⟩) _ 1 [] _ begins ordered).2.2.mpr
    (by decide)
  refine ⟨begins, ordered, ?_⟩
  exact lines [⟨[], .singleLineComment, "// a\r", ⟨1, 1⟩, ⟨1, 5⟩, none, none⟩]
    ⟨[], .other, "f", ⟨2, 1⟩, ⟨2, 1⟩, some 0, none⟩ [] (by decide)

theorem lines_lost : ¬ ∀ (style : Literal.EscapeStyle) (arena : TokenArena) (first : TokenId)
    (rest : List TokenId) (start : Token),
    (Replay.order arena (first :: rest)).head?.bind arena.get? = some start →
    InLineOrder (Replay.named arena (Replay.order arena (first :: rest))) →
    ∀ before piece after,
      Replay.pieces start.origin (Replay.named arena (Replay.order arena (first :: rest))) =
        before ++ piece :: after →
      start.origin.line.toNat + terminators (Piece.texts (Token.written style) before ++ piece.gap)
          (Token.written style piece.token).head? =
        piece.token.origin.line.toNat := by
  intro kept
  have lost := kept .surrogates (returnedComment 3) 1 []
    ⟨.singleLineComment, "// a\r", ⟨1, 1⟩, ⟨1, 5⟩, none, none⟩ (by decide) (by decide)
    [⟨[], .singleLineComment, "// a\r", ⟨1, 1⟩, ⟨1, 5⟩, none, none⟩]
    ⟨['\n'], .other, "f", ⟨3, 1⟩, ⟨3, 1⟩, some 0, none⟩ [] (by decide)
  revert lost
  decide

end ActionReprint
