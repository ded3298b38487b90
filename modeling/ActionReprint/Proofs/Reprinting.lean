import ActionReprint.Generation
import ActionReprint.Proofs.Frame
import ActionReprint.Proofs.Linking

/-!
The files of a dump. What a generation writes are the replayed tokens, inside a class if
one is named, and around them only what the layout of the language asks for. Main
statement: from a well linked arena every token is replayed exactly once.
-/

namespace ActionReprint

def TargetLanguage.enclose (language : TargetLanguage) : Option String → String → String
  | none, text => text
  | some name, text =>
      language.classHeader (Session.wrapper language name) ++ text ++ "\n" ++
        Session.wrapperEnd language ++ "\n"

def Output.around (language : TargetLanguage) (output : Path) (className : Option String)
    (text : String) : List OutputFile :=
  match language.headerExtension? with
  | none => [⟨output, identity output ++ language.enclose className text⟩]
  | some extension =>
      let header := output.withExtension extension
      let declared := if className.isSome then language.enclose className text else ""
      let defined := if className.isSome then "" else text
      [⟨header, guarded header.guardName declared⟩,
        ⟨output, identity output ++ inclusion header ++ defined⟩]

def TokenDump.replayed (dump : TokenDump) (style : Literal.EscapeStyle) : String :=
  match dump.effectiveSequence with
  | [] => ""
  | first :: rest =>
      (Replay.sequence style dump.arena (first :: rest)
        (Replay.entered dump.arena first Position.start)).text

def Buffers.around (language : TargetLanguage) (className : Option String) (text : String) :
    Buffers :=
  if className.isSome ∧ language.isSplit then ⟨"", language.enclose className text, "", .body⟩
  else ⟨language.enclose className text, "", "", .body⟩

namespace Session

theorem replayDump_eq (session : Session) (dump : TokenDump)
    (unmoved : session.cursor = Position.start) :
    ∃ cursor, session.replayDump dump =
      (session.write (dump.replayed session.escapeStyle)).setCursor cursor := by
  -- Nothing says where the cursor goes: nothing after the replay asks for it.
  unfold replayDump TokenDump.replayed
  cases dump.effectiveSequence with
  | nil =>
      refine ⟨session.cursor, ?_⟩
      simp [setCursor, write]
  | cons first rest =>
      refine ⟨(Replay.sequence session.escapeStyle dump.arena (first :: rest)
        (Replay.entered dump.arena first Position.start)).cursor, ?_⟩
      simp only [enter_eq, unmoved]
      rfl

theorem beginClass_wrapper (session : Session) (name : String) :
    session.beginClass (wrapper session.language name) =
      session.write (session.language.classHeader (wrapper session.language name)) := by
  obtain ⟨⟨language, leniency⟩, cursor, buffers, pending⟩ := session
  -- The wrapper has nothing to drop: it has a modifier only where one can stand.
  cases language with
  | java => rfl
  | cpp => rfl

theorem ofDump_eq (dump : TokenDump) (options : SessionOptions) (className : Option String) :
    ∃ cursor, ofDump dump options className =
      ⟨options, cursor,
        Buffers.around options.language className (dump.replayed options.language.escapeStyle),
        #[]⟩ := by
  obtain ⟨language, leniency⟩ := options
  cases className with
  | none =>
      obtain ⟨cursor, same⟩ := (fresh ⟨language, leniency⟩).replayDump_eq dump rfl
      refine ⟨cursor, ?_⟩
      simp only [ofDump, same]
      simp [fresh, write, setCursor, Buffers.around, TargetLanguage.enclose, Buffers.write,
        Buffers.append, Buffers.empty, escapeStyle, Session.language]
  | some name =>
      have opened : ((fresh ⟨language, leniency⟩).switchTo .header).beginClass
          (wrapper language name) = ((fresh ⟨language, leniency⟩).switchTo .header).write
            (language.classHeader (wrapper language name)) := by
        have wrapped := ((fresh ⟨language, leniency⟩).switchTo .header).beginClass_wrapper name
        rwa [Session.language, options_switchTo] at wrapped
      obtain ⟨cursor, same⟩ :=
        (((fresh ⟨language, leniency⟩).switchTo .header).beginClass
          (wrapper language name)).replayDump_eq dump (by simp [fresh])
      refine ⟨cursor, ?_⟩
      simp only [ofDump, same]
      simp only [opened, writeLine_eq]
      cases language <;>
        simp [fresh, write, setCursor, switchTo, Session.language, TargetLanguage.isSplit,
          TargetLanguage.layout, Buffers.around, TargetLanguage.enclose, Buffers.write,
          Buffers.append, Buffers.empty, Buffers.select, escapeStyle, String.append_assoc]

theorem assemble_ofDump (dump : TokenDump) (options : SessionOptions) (className : Option String)
    (output : Path) :
    (ofDump dump options className).assemble output =
      Output.around options.language output className
        (dump.replayed options.language.escapeStyle) := by
  obtain ⟨cursor, same⟩ := ofDump_eq dump options className
  obtain ⟨language, leniency⟩ := options
  rw [same]
  cases language with
  | java => cases className <;> rfl
  | cpp =>
      cases className <;>
        simp [assemble, Session.language, TargetLanguage.headerExtension?, Output.around,
          Output.headerFile, buffer, Buffers.get, Buffers.around, TargetLanguage.isSplit,
          TargetLanguage.layout, TargetLanguage.enclose]

end Session

theorem generate_eq {m : Type → Type} [Monad m] [LawfulMonad m] [Storage m] (dump : TokenDump)
    (options : SessionOptions) (output : Path) (className : Option String) :
    (generate dump options output className : m Outcome) = (do
      let outcomes ← Output.writeAll (Output.around options.language output className
        (dump.replayed options.language.escapeStyle))
      pure ⟨DiagnosticBag.empty.addAll (Output.failures outcomes), Output.written outcomes⟩) := by
  have files := Session.assemble_ofDump dump options className output
  obtain ⟨cursor, same⟩ := Session.ofDump_eq dump options className
  rw [same] at files
  -- Nothing is pending, so the only reports are of files that could not be written.
  have silent : ∀ bag : DiagnosticBag, bag.addAll [] = bag := fun _ => rfl
  simp [generate, same, Session.finalize, Session.flushWarnings, files, Session.pendingWarnings,
    silent]

section
variable {arena : TokenArena} {real : TokenId → Bool} {chain : TokenId → List TokenId}

theorem map_some_named_clusters (linked : arena.Linked real chain) :
    (Replay.named arena (TokenArena.clusters chain (arena.reals real))).map some =
      (TokenArena.clusters chain (arena.reals real)).map arena.get? := by
  apply Replay.map_some_named
  intro id member
  exact TokenArena.mem_ids.mp ((TokenArena.clusters_perm linked).mem_iff.mp member)

theorem TokenDump.replayed_eq (linked : arena.Linked real chain) (style : Literal.EscapeStyle) :
    ∃ cursor, TokenDump.replayed ⟨arena, []⟩ style =
      String.ofList (Piece.texts (Token.written style) (Replay.pieces cursor
        (Replay.named arena (TokenArena.clusters chain (arena.reals real))))) := by
  -- The dump, the replay of each token and the comments at the end walk the chains apart
  -- from each other; on a linked arena the first two agree and the third finds nothing.
  have order := TokenArena.order_reals linked
  have unended := Replay.lineEnd_of_alone arena (TokenArena.follower_alone linked)
  unfold TokenDump.replayed
  rw [TokenArena.effectiveSequence_eq linked]
  cases sequence : arena.reals real with
  | nil => exact ⟨Position.start, rfl⟩
  | cons first rest =>
      rw [sequence] at order unended
      refine ⟨Replay.entered arena first Position.start, ?_⟩
      simp only [Replay.sequence_eq, unended, Rendered.andThen_nothing, Replay.bares_eq, order]

/-- From a well linked arena every token is reprinted, and none of them twice: the real
tokens in the order of the arena, each behind what is attached to it, every token at a
gap of line feeds and spaces. Around them the files have nothing but what the layout of
the language asks for. -/
theorem generate_linked (linked : arena.Linked real chain) (options : SessionOptions)
    (output : Path) (className : Option String) :
    (TokenArena.clusters chain (arena.reals real)).Perm arena.ids ∧
      ∃ pieces : List Piece,
        pieces.map (fun piece => some piece.token) =
          (TokenArena.clusters chain (arena.reals real)).map arena.get? ∧
        (∀ piece ∈ pieces, ∃ feeds spaces : Nat,
          piece.gap = List.replicate feeds '\n' ++ List.replicate spaces ' ') ∧
        ∀ (m : Type → Type) [Monad m] [LawfulMonad m] [Storage m],
          (generate ⟨arena, []⟩ options output className : m Outcome) = (do
            let outcomes ← Output.writeAll (Output.around options.language output className
              (String.ofList
                (Piece.texts (Token.written options.language.escapeStyle) pieces)))
            pure ⟨DiagnosticBag.empty.addAll (Output.failures outcomes),
              Output.written outcomes⟩) := by
  obtain ⟨cursor, text⟩ := TokenDump.replayed_eq linked options.language.escapeStyle
  refine ⟨TokenArena.clusters_perm linked, Replay.pieces cursor
    (Replay.named arena (TokenArena.clusters chain (arena.reals real))), ?_, ?_, ?_⟩
  · have tokens := congrArg (List.map some) (Replay.map_token_pieces cursor
      (Replay.named arena (TokenArena.clusters chain (arena.reals real))))
    rw [List.map_map, map_some_named_clusters linked] at tokens
    exact tokens
  · intro piece member
    exact Replay.gap_of_mem_pieces member
  · intro m _ _ _
    rw [generate_eq, text]

-- a name with two comments in front of it, and a literal
def commentedAction : TokenArena := ⟨#[
  ⟨.singleLineComment, "// a\n", ⟨1, 1⟩, ⟨1, 5⟩, none, some 1⟩,
  ⟨.multiLineComment, "/* b */", ⟨2, 1⟩, ⟨2, 7⟩, some 0, none⟩,
  ⟨.other, "f", ⟨3, 1⟩, ⟨3, 1⟩, some 1, some 3⟩,
  ⟨.stringLiteral, "\"é\"", ⟨3, 3⟩, ⟨3, 5⟩, none, none⟩]⟩

theorem generate_linked_commentedAction :
    commentedAction.Linked (fun id => id == 2 || id == 3) (fun id => if id = 2 then [0, 1] else []) ∧
      ([0, 1, 2, 3] : List TokenId).Perm commentedAction.ids := by
  have linked : commentedAction.Linked (fun id => id == 2 || id == 3)
      (fun id => if id = 2 then [0, 1] else []) := by decide
  exact ⟨linked, (generate_linked linked ⟨.cpp, .warn⟩ ⟨"out/A.cc"⟩ (some "A")).1⟩

end

end ActionReprint
