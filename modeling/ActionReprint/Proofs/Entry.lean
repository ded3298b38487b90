import ActionReprint.Proofs.Layout
import ActionReprint.Proofs.Reprinting

/-!
Where the replay of a dump begins. The cursor is moved to the first id that the replay
passes. If that id names a token, the token is the first one rendered and takes no padding.
If it names none, the cursor stays at the start and the first token that is rendered is
padded from there. Main statement: `begins_unpadded_iff`.
-/

namespace ActionReprint

namespace TokenArena

/-- The token exists, and if there is a first one attached to it, that exists as well. -/
def Enters (arena : TokenArena) (id : TokenId) : Prop :=
  id < arena.size ∧ ∀ first ∈ arena.earliestSpecial id, first < arena.size

instance (arena : TokenArena) (id : TokenId) : Decidable (arena.Enters id) :=
  inferInstanceAs (Decidable (_ ∧ _))

theorem get?_eq_none_iff {arena : TokenArena} {id : TokenId} :
    arena.get? id = none ↔ ¬ id < arena.size := by
  rw [get?, Array.getElem?_eq_none_iff, Nat.not_lt]
  rfl

end TokenArena

namespace Replay
variable (arena : TokenArena)

theorem head?_order (first : TokenId) (rest : List TokenId) :
    (order arena (first :: rest)).head? = some ((arena.earliestSpecial first).getD first) := by
  have begins : (order arena (first :: rest)).head? = (cluster arena first).head? := by
    simp [order, cluster, List.head?_append]
  rw [begins]
  cases found : arena.get? first with
  | none =>
      have alone := special?_of_missing arena found
      simp [cluster, specialChain_of_alone arena alone, TokenArena.earliestSpecial, alone]
  | some token => exact head?_cluster arena found

theorem begins_iff_enters (first : TokenId) (rest : List TokenId) :
    (∃ start, (order arena (first :: rest)).head?.bind arena.get? = some start) ↔
      arena.Enters first := by
  rw [head?_order, Option.bind_some, ← Option.isSome_iff_exists, ← Option.ne_none_iff_isSome, Ne,
    TokenArena.get?_eq_none_iff, Classical.not_not, TokenArena.Enters]
  cases earliest : arena.earliestSpecial first with
  | none => simp
  | some special =>
      -- Only a token that exists has others attached to it.
      have existing : first < arena.size := by
        obtain ⟨nearest, attached, _⟩ := Option.map_eq_some_iff.mp earliest
        obtain ⟨owner, found, _⟩ := Option.bind_eq_some_iff.mp attached
        exact TokenArena.lt_size_of_get? found
      simp [existing]

end Replay

namespace TokenDump

def rendered (dump : TokenDump) : List Token :=
  Replay.named dump.arena (Replay.order dump.arena dump.effectiveSequence)

def entered (dump : TokenDump) : Position :=
  match dump.effectiveSequence with
  | [] => .start
  | first :: _ => Replay.entered dump.arena first .start

def pieces (dump : TokenDump) : List Piece :=
  Replay.pieces dump.entered dump.rendered

def Enters (dump : TokenDump) : Prop :=
  ∃ first ∈ dump.effectiveSequence.head?, dump.arena.Enters first

theorem replayed_pieces (dump : TokenDump) (style : Literal.EscapeStyle) :
    ∃ feed : List Char, (feed = [] ∨ feed = ['\n']) ∧
      dump.replayed style =
        String.ofList (Piece.texts (Token.written style) dump.pieces ++ feed) := by
  unfold replayed pieces entered rendered
  cases dump.effectiveSequence with
  | nil => exact ⟨[], Or.inl rfl, rfl⟩
  | cons first rest => exact Replay.text_sequence style dump.arena (first :: rest) _

theorem entered_of_enters {dump : TokenDump} (enters : dump.Enters) {opening : Token}
    (begins : dump.rendered.head? = some opening) : dump.entered = opening.origin := by
  obtain ⟨first, head, enters⟩ := enters
  unfold entered
  unfold rendered at begins
  cases sequence : dump.effectiveSequence with
  | nil => cases sequence ▸ head
  | cons id rest =>
      rw [sequence] at head begins
      obtain rfl := Option.some.inj head
      obtain ⟨start, named⟩ := (Replay.begins_iff_enters dump.arena id rest).mpr enters
      obtain rfl := Option.some.inj ((named_of_head named).symm.trans begins)
      simp [Replay.entered, Replay.entry?_eq dump.arena id rest, named]

theorem entered_of_not_enters {dump : TokenDump} (missed : ¬ dump.Enters) :
    dump.entered = .start := by
  unfold entered
  cases sequence : dump.effectiveSequence with
  | nil => rfl
  | cons id rest =>
      have closed : ¬ ∃ start,
          (Replay.order dump.arena (id :: rest)).head?.bind dump.arena.get? = some start := by
        rw [Replay.begins_iff_enters]
        intro enters
        exact missed ⟨id, by simp [sequence], enters⟩
      have nothing := Option.eq_none_iff_forall_ne_some.mpr fun start named =>
        closed ⟨start, named⟩
      simp [Replay.entered, Replay.entry?_eq dump.arena id rest, nothing]

theorem gap_of_opening {dump : TokenDump} {opening : Piece}
    (begins : dump.pieces.head? = some opening) :
    dump.rendered.head? = some opening.token ∧
      opening.gap = (dump.entered.padding opening.token.origin).toList := by
  unfold pieces at begins
  cases rendered : dump.rendered with
  | nil => rw [rendered] at begins; cases begins
  | cons token rest =>
      rw [rendered] at begins
      obtain rfl := Option.some.inj begins
      exact ⟨rfl, rfl⟩

end TokenDump

/-- What a generation writes from a dump are the tokens that the replay renders, each behind
its padding, at most one more line feed, and around them what the layout of the language asks
for. In front of the first token there is no padding exactly if the replay can be entered at
the first id of its sequence, or the token stands where the cursor is without that. -/
theorem begins_unpadded_iff (dump : TokenDump) (options : SessionOptions) (output : Path)
    (className : Option String) {opening : Piece} (begins : dump.pieces.head? = some opening) :
    dump.pieces.map Piece.token = dump.rendered ∧
      (∃ feed : List Char, (feed = [] ∨ feed = ['\n']) ∧
        ∀ (m : Type → Type) [Monad m] [LawfulMonad m] [Storage m],
          (generate dump options output className : m Outcome) = (do
            let outcomes ← Output.writeAll (Output.around options.language output className
              (String.ofList
                (Piece.texts (Token.written options.language.escapeStyle) dump.pieces ++ feed)))
            pure ⟨DiagnosticBag.empty.addAll (Output.failures outcomes),
              Output.written outcomes⟩)) ∧
      (opening.gap = [] ↔
        dump.Enters ∨ opening.token.origin.line ≤ 1 ∧ opening.token.origin.column ≤ 1) := by
  obtain ⟨first, gap⟩ := TokenDump.gap_of_opening begins
  refine ⟨Replay.map_token_pieces _ _, ?_, ?_⟩
  · obtain ⟨feed, atMostOne, text⟩ := dump.replayed_pieces options.language.escapeStyle
    refine ⟨feed, atMostOne, ?_⟩
    intro m _ _ _
    rw [generate_eq, text]
  · rw [gap, Position.padding_eq_nil_iff]
    by_cases enters : dump.Enters
    · rw [TokenDump.entered_of_enters enters first]
      simp [enters]
    · rw [TokenDump.entered_of_not_enters enters]
      simp [enters, Position.start]

def farName (comment : TokenId) : TokenArena := ⟨#[
  ⟨.other, "f", ⟨3, 5⟩, ⟨3, 5⟩, some comment, none⟩,
  ⟨.multiLineComment, "/* a */", ⟨2, 5⟩, ⟨2, 11⟩, none, none⟩]⟩

theorem begins_unpadded_iff_farName :
    (TokenDump.pieces ⟨farName 1, []⟩).head? =
        some ⟨[], .multiLineComment, "/* a */", ⟨2, 5⟩, ⟨2, 11⟩, none, none⟩ ∧
      TokenDump.Enters ⟨farName 1, []⟩ := by
  have begins : (TokenDump.pieces ⟨farName 1, []⟩).head? =
      some ⟨[], .multiLineComment, "/* a */", ⟨2, 5⟩, ⟨2, 11⟩, none, none⟩ := by decide
  have entered := (begins_unpadded_iff ⟨farName 1, []⟩ ⟨.java, .ignore⟩ ⟨"A.java"⟩ none begins).2.2
  exact ⟨begins, (entered.mp rfl).resolve_right (by decide)⟩

/-- The cursor is not moved to a comment that does not exist, and the name behind it takes the
padding from the start of the grammar file. -/
theorem begins_padded : ¬ ∀ (dump : TokenDump) (opening : Piece),
    dump.pieces.head? = some opening → opening.gap = [] := by
  intro unpadded
  have begins : (TokenDump.pieces ⟨farName 7, []⟩).head? =
      some ⟨['\n', '\n', ' ', ' ', ' ', ' '], .other, "f", ⟨3, 5⟩, ⟨3, 5⟩, some 7, none⟩ := by
    decide
  cases unpadded _ _ begins

end ActionReprint
