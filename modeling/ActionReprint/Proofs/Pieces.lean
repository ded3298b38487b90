import ActionReprint.Replay
import ActionReprint.Proofs.Point

/-!
A replay taken apart: which tokens it passes in which order, and for each of them the
padding in front of it. Main statement: a sequence of tokens renders these pieces one
behind the other, and after them at most one line feed.
-/

namespace ActionReprint

structure Piece where
  gap : List Char
  token : Token
  deriving DecidableEq, Repr

def Piece.text (write : Token → List Char) (piece : Piece) : List Char :=
  piece.gap ++ write piece.token

def Piece.texts (write : Token → List Char) (pieces : List Piece) : List Char :=
  pieces.flatMap (Piece.text write)

def Token.plain (token : Token) : List Char :=
  token.image.toList

def Token.written (style : Literal.EscapeStyle) (token : Token) : List Char :=
  (Replay.image style token).toList

theorem Token.written_cases (style : Literal.EscapeStyle) (token : Token) :
    token.written style = Literal.escapeChars style token.plain ∨
      token.written style = token.plain := by
  unfold Token.written Replay.image
  split
  · exact Or.inl (Literal.toList_escape style token.image)
  · exact Or.inr rfl

namespace Rendered

@[simp] theorem nothing_andThen (cursor : Position) (continuation : Position → Rendered) :
    (nothing cursor).andThen continuation = continuation cursor := by
  simp [nothing, andThen]

@[simp] theorem andThen_nothing (piece : Rendered) : piece.andThen nothing = piece := by
  simp [nothing, andThen]

theorem andThen_assoc (piece : Rendered) (first second : Position → Rendered) :
    (piece.andThen first).andThen second =
      piece.andThen fun cursor => (first cursor).andThen second := by
  simp [andThen, String.append_assoc]

end Rendered

namespace Replay
variable (style : Literal.EscapeStyle) (arena : TokenArena)

/-- The tokens at the gaps that a cursor leaves between them. -/
def pieces : Position → List Token → List Piece
  | _, [] => []
  | cursor, token :: rest => ⟨(cursor.padding token.origin).toList, token⟩ :: pieces token.past rest

def reached : Position → List Token → Position
  | cursor, [] => cursor
  | _, token :: rest => reached token.past rest

theorem map_token_pieces (cursor : Position) (tokens : List Token) :
    (pieces cursor tokens).map Piece.token = tokens := by
  induction tokens generalizing cursor with
  | nil => rfl
  | cons token rest ih => rw [pieces, List.map_cons, ih]

theorem gap_of_mem_pieces {cursor : Position} {tokens : List Token} {piece : Piece}
    (member : piece ∈ pieces cursor tokens) :
    ∃ feeds spaces : Nat,
      piece.gap = List.replicate feeds '\n' ++ List.replicate spaces ' ' := by
  induction tokens generalizing cursor with
  | nil => simp [pieces] at member
  | cons token rest ih =>
      rcases List.mem_cons.mp member with rfl | later
      · exact ⟨_, _, Position.toList_padding cursor token.origin⟩
      · exact ih later

theorem bares_eq (tokens : List Token) (cursor : Position) :
    bares style tokens cursor =
      ⟨String.ofList (Piece.texts (Token.written style) (pieces cursor tokens)),
        reached cursor tokens⟩ := by
  induction tokens generalizing cursor with
  | nil => rfl
  | cons token rest ih =>
      simp [bares, bare, Rendered.andThen, ih, pieces, reached, Piece.texts, Piece.text, Token.written,
        String.ofList_append, String.append_assoc]

theorem bares_append (tokens rest : List Token) (cursor : Position) :
    bares style (tokens ++ rest) cursor =
      (bares style tokens cursor).andThen (bares style rest) := by
  induction tokens generalizing cursor with
  | nil => simp [bares]
  | cons token more ih =>
      rw [List.cons_append, bares, bares, Rendered.andThen_assoc]
      congr 1
      funext middle
      exact ih middle

def cluster (id : TokenId) : List TokenId :=
  arena.specialChain id ++ [id]

/-- The token whose comments end the replay of a sequence. -/
def follower (ids : List TokenId) : Option TokenId :=
  ids.getLast?.bind arena.next?

def order (ids : List TokenId) : List TokenId :=
  ids.flatMap (cluster arena) ++ (follower arena ids).toList.flatMap arena.specialChain

def named (ids : List TokenId) : List Token :=
  -- ids that do not exist name nothing and are passed over
  ids.filterMap arena.get?

theorem named_append (ids others : List TokenId) :
    named arena (ids ++ others) = named arena ids ++ named arena others :=
  List.filterMap_append

theorem map_some_named {ids : List TokenId} (exist : ∀ id ∈ ids, id < arena.size) :
    (named arena ids).map some = ids.map arena.get? := by
  induction ids with
  | nil => rfl
  | cons id rest ih =>
      have inside : id < arena.tokens.size := exist id List.mem_cons_self
      have found := TokenArena.get?_of_lt inside
      have tail := ih fun other later => exist other (List.mem_cons_of_mem id later)
      rw [named] at tail ⊢
      rw [List.filterMap_cons_some found, List.map_cons, List.map_cons, tail, found]

theorem specialChain_of_alone {id : TokenId} (alone : arena.special? id = none) :
    arena.specialChain id = [] := by
  simp [TokenArena.specialChain, TokenArena.earliestSpecial, alone]

theorem special?_of_missing {id : TokenId} (missing : arena.get? id = none) :
    arena.special? id = none := by
  simp [TokenArena.special?, missing]

theorem special?_of_found {id : TokenId} {owner : Token} (found : arena.get? id = some owner) :
    arena.special? id = owner.special := by
  simp [TokenArena.special?, found]

theorem token_eq (id : TokenId) (cursor : Position) :
    token style arena id cursor = bares style (named arena (cluster arena id)) cursor := by
  unfold token cluster
  cases found : arena.get? id with
  | none =>
      -- What does not exist has nothing attached to it.
      rw [specialChain_of_alone arena (special?_of_missing arena found)]
      simp [named, found, bares]
  | some owner => simp [named, attached, found]

theorem eachToken_eq (ids : List TokenId) (cursor : Position) :
    eachToken style arena ids cursor =
      bares style (named arena (ids.flatMap (cluster arena))) cursor := by
  induction ids generalizing cursor with
  | nil => rfl
  | cons id rest ih =>
      have tail : eachToken style arena rest =
          bares style (named arena (rest.flatMap (cluster arena))) := funext ih
      rw [List.flatMap_cons, named_append, bares_append, eachToken, token_eq, tail]

/-- The line feed that keeps the owner of comments off the line they end in. -/
def lineEnd (following : Option TokenId) (cursor : Position) : Rendered :=
  match following.bind arena.get? with
  | none => .nothing cursor
  | some owner =>
      if owner.special.isSome ∧ cursor.dangles owner.origin.line then ⟨"\n", cursor.nextLine⟩
      else .nothing cursor

theorem lineEnd_none : lineEnd arena none = .nothing := rfl

theorem lineEnd_of_alone {following : Option TokenId}
    (alone : ∀ id ∈ following, arena.special? id = none) : lineEnd arena following = .nothing := by
  funext cursor
  cases following with
  | none => rfl
  | some id =>
      cases found : arena.get? id with
      | none => simp [lineEnd, found]
      | some owner =>
          have bare := (special?_of_found arena found).symm.trans (alone id rfl)
          simp [lineEnd, found, bare]

theorem leadingComments_eq (id : TokenId) (cursor : Position) :
    leadingComments style arena id cursor =
      (bares style (named arena (arena.specialChain id)) cursor).andThen
        (lineEnd arena (some id)) := by
  unfold leadingComments lineEnd
  cases found : arena.get? id with
  | none =>
      rw [specialChain_of_alone arena (special?_of_missing arena found)]
      simp [named, found, bares]
  | some owner =>
      cases nearest : owner.special with
      | none =>
          have alone := (special?_of_found arena found).trans nearest
          simp [specialChain_of_alone arena alone, named, bares, nearest, found]
      | some special => simp [found, nearest, named, attached]

theorem trailingComments_eq (id : TokenId) (cursor : Position) :
    trailingComments style arena id cursor =
      (bares style (named arena ((arena.next? id).toList.flatMap arena.specialChain)) cursor).andThen
        (lineEnd arena (arena.next? id)) := by
  unfold trailingComments
  cases arena.next? id with
  | none => simp [lineEnd_none, named, bares]
  | some following => simp [leadingComments_eq]

theorem sequence_eq (ids : List TokenId) (cursor : Position) :
    sequence style arena ids cursor =
      (bares style (named arena (order arena ids)) cursor).andThen
        (lineEnd arena (follower arena ids)) := by
  unfold sequence order follower
  rw [named_append, bares_append, Rendered.andThen_assoc, eachToken_eq]
  congr 1
  funext reached
  cases ids.getLast? with
  | none => simp [lineEnd_none, named, bares]
  | some last => exact trailingComments_eq style arena last reached

theorem text_lineEnd (following : Option TokenId) (cursor : Position) :
    (lineEnd arena following cursor).text = "" ∨ (lineEnd arena following cursor).text = "\n" := by
  unfold lineEnd
  split
  · exact Or.inl rfl
  · split
    · exact Or.inr rfl
    · exact Or.inl rfl

theorem text_sequence (ids : List TokenId) (cursor : Position) :
    ∃ feed : List Char, (feed = [] ∨ feed = ['\n']) ∧
      (sequence style arena ids cursor).text = String.ofList
        (Piece.texts (Token.written style) (pieces cursor (named arena (order arena ids))) ++ feed) := by
  refine ⟨(lineEnd arena (follower arena ids)
    (reached cursor (named arena (order arena ids)))).text.toList, ?_, ?_⟩
  · rcases text_lineEnd arena (follower arena ids)
      (reached cursor (named arena (order arena ids))) with empty | feed
    · exact Or.inl (by rw [empty]; rfl)
    · exact Or.inr (by rw [feed]; rfl)
  · rw [sequence_eq, bares_eq]
    simp [Rendered.andThen, String.ofList_append]

theorem size_pos {id : TokenId} {token : Token} (found : arena.get? id = some token) :
    0 < arena.size :=
  Nat.lt_of_le_of_lt (Nat.zero_le id) (TokenArena.lt_size_of_get? found)

theorem head?_cluster {id : TokenId} {token : Token} (found : arena.get? id = some token) :
    (cluster arena id).head? = some ((arena.earliestSpecial id).getD id) := by
  -- An arena with a token in it leaves the walk forwards at least one step.
  obtain ⟨fewer, size⟩ := Nat.exists_eq_succ_of_ne_zero (Nat.ne_of_gt (size_pos arena found))
  unfold cluster TokenArena.specialChain
  cases arena.earliestSpecial id with
  | none => rfl
  | some earliest => simp [size, head?_trail]

theorem entry?_eq (first : TokenId) (rest : List TokenId) :
    entry? arena first =
      ((order arena (first :: rest)).head?.bind arena.get?).map Token.origin := by
  have begins : (order arena (first :: rest)).head? = (cluster arena first).head? := by
    simp [order, cluster, List.head?_append]
  rw [begins]
  unfold entry?
  cases found : arena.get? first with
  | none =>
      have alone := special?_of_missing arena found
      simp [cluster, specialChain_of_alone arena alone, TokenArena.earliestSpecial, alone, found]
  | some token => simp [head?_cluster arena found]

end Replay

end ActionReprint
