import ActionReprint.Proofs.Frame
import ActionReprint.Proofs.Pieces

/-!
A replay in parts. The comments in front of a token may be replayed apart from it: the
line feed that then ends them is one that the token's own padding would have had. From
this a sequence may be cut at any token, which is then replayed without its comments,
since the part in front of it has ended with them. Main statement: `replay_in_parts`.
-/

namespace ActionReprint

namespace Position

/-- A cursor in the middle of an earlier line takes its first line feed at once or as part
of the padding; the rest of the padding is the same. -/
theorem padding_of_dangling {cursor target : Position} (notPast : cursor.line ≤ target.line)
    (dangling : cursor.dangles target.line = true) :
    cursor.padding target = "\n" ++ cursor.nextLine.padding target := by
  obtain ⟨_, apart⟩ := by simpa [dangles] using dangling
  have below : cursor.line < target.line := UInt32.lt_of_le_of_ne notPast apart
  have above := UInt32.lt_iff_toNat_lt.mp below
  have bounded := target.line.toNat_lt
  have onNext : cursor.nextLine.line.toNat = cursor.line.toNat + 1 := by
    rw [nextLine, toNat_bump]
    omega
  have feeds : lineBreaks cursor target = lineBreaks cursor.nextLine target + 1 := by
    rw [lineBreaks, lineBreaks, onNext]
    omega
  -- Behind the line feed the cursor stands in the column that spaces are counted from.
  have width : spaces cursor.nextLine target = spaces cursor target := by
    have margins : margin cursor.nextLine target = 1 := ite_self 1
    rw [spaces, spaces, margins, margin, if_pos below]
  rw [← String.toList_inj, String.toList_append, toList_padding, toList_padding, feeds, width]
  rfl

end Position

namespace Rendered

theorem andThen_congr {piece : Rendered} {first second : Position → Rendered}
    (same : first piece.cursor = second piece.cursor) :
    piece.andThen first = piece.andThen second := by
  simp only [andThen, same]

end Rendered

namespace Replay
variable (style : Literal.EscapeStyle) {arena : TokenArena}

theorem lineEnd_andThen_bare {id : TokenId} {owner : Token} (found : arena.get? id = some owner)
    {cursor : Position} (notPast : cursor.line ≤ owner.origin.line) :
    (lineEnd arena (some id) cursor).andThen (bare style owner) = bare style owner cursor := by
  unfold lineEnd
  rw [Option.bind_some, found]
  by_cases ended : owner.special.isSome ∧ cursor.dangles owner.origin.line = true
  · simp only [if_pos ended, Rendered.andThen, bare,
      Position.padding_of_dangling notPast ended.2, String.append_assoc]
  · simp only [if_neg ended, Rendered.nothing_andThen]

theorem token_of_found {id : TokenId} {owner : Token} (found : arena.get? id = some owner)
    (cursor : Position) :
    token style arena id cursor =
      (bares style (attached arena id) cursor).andThen (bare style owner) := by
  have alone : bares style [owner] = bare style owner := by
    funext reached
    exact Rendered.andThen_nothing _
  rw [token, found]
  exact (bares_append style _ _ cursor).trans (by rw [alone])

theorem leadingComments_andThen_bare {id : TokenId} {owner : Token}
    (found : arena.get? id = some owner) {cursor : Position}
    (notPast : (bares style (attached arena id) cursor).cursor.line ≤ owner.origin.line) :
    (leadingComments style arena id cursor).andThen (bare style owner) =
      token style arena id cursor := by
  rw [leadingComments_eq, Rendered.andThen_assoc, token_of_found style found]
  exact Rendered.andThen_congr (lineEnd_andThen_bare style found notPast)

theorem eachToken_append (front back : List TokenId) (cursor : Position) :
    eachToken style arena (front ++ back) cursor =
      (eachToken style arena front cursor).andThen (eachToken style arena back) := by
  have tail : eachToken style arena back =
      bares style (named arena (back.flatMap (cluster arena))) :=
    funext (eachToken_eq style arena back)
  rw [eachToken_eq, eachToken_eq, tail, List.flatMap_append, named_append, bares_append]

theorem sequence_of_follower {ids : List TokenId} {id : TokenId}
    (follows : follower arena ids = some id) (cursor : Position) :
    sequence style arena ids cursor =
      (eachToken style arena ids cursor).andThen (leadingComments style arena id) := by
  obtain ⟨last, isLast, next⟩ := Option.bind_eq_some_iff.mp follows
  rw [sequence, isLast]
  refine Rendered.andThen_congr ?_
  simp only [trailingComments, next]

theorem sequence_append (front : List TokenId) {back : List TokenId} (some : back ≠ [])
    (cursor : Position) :
    sequence style arena (front ++ back) cursor =
      (eachToken style arena front cursor).andThen (sequence style arena back) := by
  have last : (front ++ back).getLast? = back.getLast? := List.getLast?_append_of_ne_nil _ some
  rw [sequence, eachToken_append, Rendered.andThen_assoc, last]
  rfl

theorem sequence_in_parts {id : TokenId} {owner : Token} (found : arena.get? id = some owner)
    {front back : List TokenId} (follows : follower arena front = some id) (rest : back ≠ [])
    {cursor : Position}
    (notPast : (bares style (attached arena id)
      (eachToken style arena front cursor).cursor).cursor.line ≤ owner.origin.line) :
    ((sequence style arena front cursor).andThen (bare style owner)).andThen
        (sequence style arena back) =
      sequence style arena (front ++ [id] ++ back) cursor := by
  have single : ∀ reached, eachToken style arena [id] reached = token style arena id reached :=
    fun _ => Rendered.andThen_nothing _
  rw [sequence_of_follower style follows, Rendered.andThen_assoc, Rendered.andThen_assoc,
    List.append_assoc, sequence_append style front (by simp)]
  refine Rendered.andThen_congr ?_
  rw [sequence_append style [id] rest, single, ← Rendered.andThen_assoc,
    leadingComments_andThen_bare style found notPast]

end Replay

namespace Session

theorem replay_replay (session : Session) (first second : Position → Rendered) :
    (session.replay first).replay second =
      session.replay fun cursor => (first cursor).andThen second := by
  simp only [replay, render, setCursor, write, Buffers.write_write, Rendered.andThen]

theorem replay_congr {session : Session} {first second : Position → Rendered}
    (same : first session.cursor = second session.cursor) :
    session.replay first = session.replay second := by
  simp only [replay, render, same]

end Session

/-- Comments and then their owner without them are the owner with its comments, unless the
comments have led past the line of the owner. So a sequence may be cut at a token that
follows the part in front of it: the parts, one after the other, write what the whole
sequence writes and leave the session that it leaves. -/
theorem replay_in_parts {arena : TokenArena} {id : TokenId} {owner : Token}
    (found : arena.get? id = some owner) :
    (∀ (style : Literal.EscapeStyle) (cursor : Position),
      (Replay.bares style (Replay.attached arena id) cursor).cursor.line ≤ owner.origin.line →
        (Replay.leadingComments style arena id cursor).andThen (Replay.bare style owner) =
          Replay.token style arena id cursor) ∧
      ∀ (session : Session) (front back : List TokenId),
        Replay.follower arena front = some id → back ≠ [] →
        (Replay.bares session.escapeStyle (Replay.attached arena id)
          (Replay.eachToken session.escapeStyle arena front session.cursor).cursor).cursor.line ≤
            owner.origin.line →
          ((session.replaySequence arena front).replayBare owner).replaySequence arena back =
            session.replaySequence arena (front ++ [id] ++ back) := by
  constructor
  · intro style cursor notPast
    exact Replay.leadingComments_andThen_bare style found notPast
  · intro session front back follows rest notPast
    have parts := Replay.sequence_in_parts session.escapeStyle found follows rest notPast
    calc ((session.replaySequence arena front).replayBare owner).replaySequence arena back
        = ((session.replay (Replay.sequence session.escapeStyle arena front)).replay
            (Replay.bare session.escapeStyle owner)).replay
              (Replay.sequence session.escapeStyle arena back) := rfl
      _ = session.replay fun cursor =>
            ((Replay.sequence session.escapeStyle arena front cursor).andThen
              (Replay.bare session.escapeStyle owner)).andThen
                (Replay.sequence session.escapeStyle arena back) := by
          simp only [Session.replay_replay, Rendered.andThen_assoc]
      _ = session.replaySequence arena (front ++ [id] ++ back) := Session.replay_congr parts

def commentedCall : TokenArena := ⟨#[
  ⟨.other, "f", ⟨4, 3⟩, ⟨4, 3⟩, none, some 2⟩,
  ⟨.multiLineComment, "/* a */", ⟨4, 5⟩, ⟨4, 11⟩, none, none⟩,
  ⟨.other, "g", ⟨6, 5⟩, ⟨6, 5⟩, some 1, some 3⟩,
  ⟨.other, ";", ⟨6, 6⟩, ⟨6, 6⟩, none, none⟩]⟩

theorem replay_in_parts_commentedCall :
    ((((Session.fresh ⟨.cpp, .warn⟩).enter commentedCall 0).replaySequence commentedCall [0]).buffer
        .body = "f /* a */\n") ∧
      ((((Session.fresh ⟨.cpp, .warn⟩).enter commentedCall 0).replaySequence commentedCall
        [0]).replayBare ⟨.other, "g", ⟨6, 5⟩, ⟨6, 5⟩, some 1, some 3⟩).replaySequence
          commentedCall [3] =
        ((Session.fresh ⟨.cpp, .warn⟩).enter commentedCall 0).replaySequence commentedCall
          [0, 2, 3] := by
  constructor
  · decide +kernel
  · exact (replay_in_parts (by decide)).2 _ [0] [3] (by decide) (by decide) (by decide +kernel)

end ActionReprint
