import ActionReprint.Dump
import ActionReprint.Proofs.Quoting
import ActionReprint.Proofs.Values

/-!
Tokens and diagnostics that are written down and read again. A text is read lexeme by
lexeme, a value out of its lexemes, a record by the names of its fields: none of these
steps loses anything that a writer puts in. Main statement: `json_round_trip`.
-/

namespace ActionReprint.Json

theorem digits?_all {run : List Char} (digits : run.all Text.isDigit = true) (some : run ≠ []) :
    digits? run = Option.some (run, []) := by
  rw [List.all_eq_true] at digits
  have taken : run.takeWhile Text.isDigit = run := List.takeWhile_eq_self_iff.mpr digits
  have left : run.dropWhile Text.isDigit = [] := List.dropWhile_eq_nil_iff.mpr digits
  simp [digits?, taken, left, some]

theorem head?_decimal {value : Nat} (positive : 0 < value) :
    (Text.decimal value).head? ≠ some '0' := by
  fun_induction Text.decimal value with
  | case1 value small =>
      have all : ∀ v : Fin 10, 0 < v.val → [Text.hexDigit v.val].head? ≠ some '0' := by decide
      exact all ⟨value, small⟩ positive
  | case2 value large ih =>
      rw [List.head?_append_of_ne_nil _ (Text.decimal_ne_nil _)]
      exact ih (by omega)

theorem minus_of_digit {c : Char} (digit : Text.isDigit c = true) (rest : List Char) :
    minus (c :: rest) = ([], c :: rest) := by
  unfold minus
  split
  · next same =>
      cases same
      cases digit
  · rfl

theorem integer?_decimal (value : Nat) :
    integer? (Text.decimal value) = some (Text.decimal value, []) := by
  cases value with
  | zero => simp [Text.decimal, integer?, Text.hexDigit]
  | succ value =>
      rw [integer?_of_ne_zero (head?_decimal (Nat.succ_pos value))]
      exact digits?_all (Text.all_isDigit_decimal _) (Text.decimal_ne_nil _)

theorem number?_decimal (value : Nat) :
    number? (Text.decimal value) = some (Text.decimal value, []) := by
  obtain ⟨c, rest, shape⟩ := List.exists_cons_of_ne_nil (Text.decimal_ne_nil value)
  have digits := List.all_eq_true.mp (Text.all_isDigit_decimal value)
  have unsigned := minus_of_digit (digits c (by simp [shape])) rest
  rw [← shape] at unsigned
  simp [number?, unsigned, integer?_decimal, fraction?, exponent?]

def Value.Proper (value : Value) : Prop :=
  ∀ lexeme ∈ value.lexemes, lexeme.Proper

theorem proper_ofNat (value : Nat) : (ofNat value).Proper := by
  intro lexeme member
  rw [List.mem_singleton.mp member]
  exact number?_decimal value

theorem proper_ofText (text : String) : (ofText text).Proper := by
  intro lexeme member
  rw [List.mem_singleton.mp member]
  exact Quoted.close?_encode text.toList []

theorem proper_ofOption {α : Type} {write : α → Value} (proper : ∀ value, (write value).Proper)
    (option : Option α) : (ofOption write option).Proper := by
  cases option with
  | none =>
      intro lexeme member
      rw [List.mem_singleton.mp member]
      trivial
  | some value => exact proper value

theorem proper_of_mem_itemLexemes {items : List Value} (proper : ∀ item ∈ items, item.Proper) :
    ∀ lexeme ∈ Value.itemLexemes items, lexeme.Proper := by
  induction items with
  | nil => simp [Value.itemLexemes]
  | cons first rest ih =>
      rw [List.forall_mem_cons] at proper
      have others := ih proper.2
      cases rest with
      | nil => exact proper.1
      | cons second more =>
          intro lexeme member
          rw [Value.itemLexemes, List.mem_append, List.mem_cons] at member
          rcases member with here | rfl | later
          · exact proper.1 lexeme here
          · trivial
          · exact others lexeme later

theorem proper_array {items : List Value} (proper : ∀ item ∈ items, item.Proper) :
    (Value.array items).Proper := by
  intro lexeme member
  rw [Value.lexemes, List.mem_append, List.mem_cons, List.mem_singleton] at member
  rcases member with (rfl | inside) | rfl
  · trivial
  · exact proper_of_mem_itemLexemes proper lexeme inside
  · trivial

theorem proper_of_mem_memberLexemes {members : List (List Char × Value)}
    (proper : ∀ member ∈ members,
      (Lexeme.quoted member.1).Proper ∧ member.2.Proper) :
    ∀ lexeme ∈ Value.memberLexemes members, lexeme.Proper := by
  induction members with
  | nil => simp [Value.memberLexemes]
  | cons first rest ih =>
      obtain ⟨key, value⟩ := first
      rw [List.forall_mem_cons] at proper
      obtain ⟨⟨readable, inside⟩, others⟩ := proper
      cases rest with
      | nil =>
          intro lexeme member
          rw [Value.memberLexemes, List.mem_cons, List.mem_cons] at member
          rcases member with rfl | rfl | here
          · exact readable
          · trivial
          · exact inside lexeme here
      | cons second more =>
          intro lexeme member
          rw [Value.memberLexemes, List.cons_append, List.cons_append, List.mem_cons,
            List.mem_cons, List.mem_append, List.mem_cons] at member
          rcases member with rfl | rfl | here | rfl | later
          · exact readable
          · trivial
          · exact inside lexeme here
          · trivial
          · exact ih others lexeme later

theorem proper_record {fields : List (String × Value)}
    (proper : ∀ field ∈ fields, field.2.Proper) : (record fields).Proper := by
  intro lexeme member
  rw [record, Value.lexemes, List.mem_append, List.mem_cons, List.mem_singleton] at member
  rcases member with (rfl | inside) | rfl
  · trivial
  · refine proper_of_mem_memberLexemes ?_ lexeme inside
    intro member' member
    obtain ⟨field, present, rfl⟩ := List.mem_map.mp member
    exact ⟨Quoted.close?_encode field.1.toList [], proper field present⟩
  · trivial

theorem lex_render {value : Value} (proper : value.Proper) :
    lex value.render.toList = some value.lexemes := by
  obtain ⟨final, ran, _⟩ := Option.bind_eq_some_iff.mp (ofLexemes?_lexemes value)
  rw [Value.render, String.toList_ofList]
  exact lex_lexemes proper (State.meets_of_run ran)

theorem parse?_of_lex {text : String} {value : Value}
    (lexed : lex text.toList = some value.lexemes) : parse? text = some value := by
  rw [parse?, lexed]
  exact ofLexemes?_lexemes value

theorem parse?_render {value : Value} (proper : value.Proper) :
    parse? value.render = some value :=
  parse?_of_lex (lex_render proper)

theorem natural?_ofNat {value : Nat} (fits : value < wordLimit) :
    natural? (ofNat value) = some value := by
  simp [natural?, ofNat, Text.readDecimal?_decimal, fits]

theorem word?_ofNat (word : UInt32) : word? (ofNat word.toNat) = some word := by
  rw [word?, natural?_ofNat word.toNat_lt]
  simp

theorem text?_ofText (text : String) : text? (ofText text) = some text := by
  simp [text?, ofText, Quoted.decode?_encode]

theorem choice?_ofText (text : String) : choice? (ofText text) = some text :=
  text?_ofText text

theorem nullable?_ofOption {link : Option Nat} (fits : ∀ id ∈ link, id < wordLimit) :
    nullable? natural? (ofOption ofNat link) = some link := by
  cases link with
  | none => rfl
  | some id =>
      have read := natural?_ofNat (fits id rfl)
      exact congrArg (Option.map some) read

theorem mapM_eq_map {α β : Type} (read : α → Option β) (meant : α → β) {items : List α}
    (each : ∀ item ∈ items, read item = some (meant item)) :
    items.mapM read = some (items.map meant) := by
  induction items with
  | nil => rfl
  | cons first rest ih =>
      rw [List.forall_mem_cons] at each
      simp [List.mapM_cons, each.1, ih each.2]

theorem list?_array {α : Type} {read : Value → Option α} {write : α → Value} {items : List α}
    (each : ∀ item ∈ items, read (write item) = some item) :
    list? read (.array (items.map write)) = some items := by
  rw [list?, List.mapM_map]
  have read := mapM_eq_map (read ∘ write) id each
  rwa [List.map_id] at read

theorem keyed?_record (fields : List (String × Value)) :
    keyed? (fields.map fun field => (Quoted.encode field.1.toList, field.2)) = some fields := by
  rw [keyed?, List.mapM_map]
  have each : ∀ field ∈ fields, (Quoted.decode? (Quoted.encode field.1.toList)).map
      (fun key => (String.ofList key, field.2)) = some (id field) := by
    simp [Quoted.decode?_encode]
  have read := mapM_eq_map _ id each
  rwa [List.map_id] at read

theorem unique?_eq_lookup {fields : List (String × Value)}
    (distinct : (fields.map Prod.fst).Nodup) (name : String) :
    unique? fields name = some (fields.lookup name) := by
  induction fields with
  | nil => rfl
  | cons field rest ih =>
      obtain ⟨key, value⟩ := field
      rw [List.map_cons, List.nodup_cons] at distinct
      by_cases same : key = name
      · subst same
        have others : rest.filter (fun field => field.1 == key) = [] := by
          apply List.filter_eq_nil_iff.mpr
          intro field member again
          exact distinct.1 (List.mem_map.mpr ⟨field, member, beq_iff_eq.mp again⟩)
        simp [unique?, others]
      · have missed : (name == key) = false := beq_eq_false_iff_ne.mpr (Ne.symm same)
        rw [List.lookup_cons, missed, ← ih distinct.2]
        simp [unique?, same]

theorem lookup_of_mem {fields : List (String × Value)} (distinct : (fields.map Prod.fst).Nodup)
    {name : String} {value : Value} (member : (name, value) ∈ fields) :
    fields.lookup name = some value := by
  induction fields with
  | nil => cases member
  | cons field rest ih =>
      obtain ⟨key, first⟩ := field
      rw [List.map_cons, List.nodup_cons] at distinct
      rcases List.mem_cons.mp member with same | later
      · cases same
        exact List.lookup_cons_self
      · have missed : (name == key) = false := by
          apply beq_eq_false_iff_ne.mpr
          rintro rfl
          exact distinct.1 (List.mem_map.mpr ⟨_, later, rfl⟩)
        rw [List.lookup_cons, missed]
        exact ih distinct.2 later

/-- A record gives every field back under its name, and nothing under other names. -/
theorem fields?_record {fields : List (String × Value)} (distinct : (fields.map Prod.fst).Nodup)
    (names : List String) : fields? names (record fields) =
      some (names.map fun name => fields.lookup name) := by
  rw [record, fields?, keyed?_record]
  exact mapM_eq_map _ _ fun name _ => unique?_eq_lookup distinct name

end ActionReprint.Json

namespace ActionReprint

/-- Ids are words of 32 bits wherever they are kept. -/
structure Token.LinksFit (token : Token) : Prop where
  special : ∀ id ∈ token.special, id < Json.wordLimit
  next : ∀ id ∈ token.next, id < Json.wordLimit

def TokenArena.LinksFit (arena : TokenArena) : Prop :=
  ∀ token ∈ arena.tokens.toList, token.LinksFit

namespace Json

theorem tokenKind?_ofText (kind : TokenKind) : tokenKind? (ofText kind.identifier) = some kind := by
  rw [tokenKind?, choice?_ofText]
  exact TokenKind.ofIdentifier?_identifier kind

theorem token?_ofToken {token : Token} (fit : token.LinksFit) :
    token? (ofToken token) = some token := by
  have distinct : tokenFields.Nodup := by decide
  rw [token?, ofToken, fields?_record (by exact distinct)]
  simp [tokenFields, List.lookup_cons, optional?, required?, tokenKind?_ofText, text?_ofText,
    word?_ofNat, nullable?_ofOption fit.special, nullable?_ofOption fit.next]

theorem proper_ofToken (token : Token) : (ofToken token).Proper := by
  apply proper_record
  simp [proper_ofText, proper_ofNat, proper_ofOption proper_ofNat]

theorem arena?_ofArena {arena : TokenArena} (fit : arena.LinksFit) :
    arena? (ofArena arena) = some arena := by
  rw [arena?, ofArena, list?_array fun token member => token?_ofToken (fit token member)]
  rfl

theorem proper_ofArena (arena : TokenArena) : (ofArena arena).Proper := by
  apply proper_array
  intro value member
  obtain ⟨token, _, rfl⟩ := List.mem_map.mp member
  exact proper_ofToken token

theorem severity?_ofText (severity : Severity) :
    severity? (ofText severity.identifier) = some severity := by
  rw [severity?, choice?_ofText]
  exact Severity.ofIdentifier?_identifier severity

theorem diagnostic?_ofDiagnostic (diagnostic : Diagnostic) :
    diagnostic? (ofDiagnostic diagnostic) = some diagnostic := by
  obtain ⟨file, message, severity⟩ := diagnostic
  by_cases empty : file.isEmpty = true
  · -- The field that was left out is read as the empty name.
    have distinct : ["message", "severity"].Nodup := by decide
    have noFile : file = "" := String.isEmpty_iff.mp empty
    rw [diagnostic?, ofDiagnostic, if_pos empty, fields?_record (by exact distinct)]
    simp [List.lookup_cons, optional?, required?, text?_ofText, severity?_ofText, noFile]
  · have distinct : ["file_name", "message", "severity"].Nodup := by decide
    rw [diagnostic?, ofDiagnostic, if_neg empty, fields?_record (by exact distinct)]
    simp [List.lookup_cons, optional?, required?, text?_ofText, severity?_ofText]

theorem proper_ofDiagnostic (diagnostic : Diagnostic) : (ofDiagnostic diagnostic).Proper := by
  apply proper_record
  intro field member
  rcases List.mem_append.mp member with optional | required
  · split at optional
    · cases optional
    · rw [List.mem_singleton.mp optional]
      exact proper_ofText diagnostic.file
  · simp only [List.mem_cons, List.not_mem_nil, or_false] at required
    rcases required with rfl | rfl
    · exact proper_ofText diagnostic.message
    · exact proper_ofText diagnostic.severity.identifier

def ofIds (ids : List UInt32) : Value :=
  .array (ids.map fun id => ofNat id.toNat)

theorem proper_ofIds (ids : List UInt32) : (ofIds ids).Proper := by
  apply proper_array
  intro value member
  obtain ⟨id, _, rfl⟩ := List.mem_map.mp member
  exact proper_ofNat id.toNat

theorem list?_ofIds (ids : List UInt32) :
    list? natural? (ofIds ids) = some (ids.map UInt32.toNat) := by
  have read : list? natural? (.array ((ids.map UInt32.toNat).map ofNat)) =
      some (ids.map UInt32.toNat) := by
    apply list?_array
    intro id member
    obtain ⟨word, _, rfl⟩ := List.mem_map.mp member
    exact natural?_ofNat word.toNat_lt
  rwa [List.map_map] at read

section
variable {arena : TokenArena} (fit : arena.LinksFit) (ids : List UInt32)
include fit

theorem dump?_record {fields : List (String × Value)}
    (both : fields.Perm [("tokens", ofArena arena), ("sequence", ofIds ids)]) :
    dump? (record fields) = some ⟨arena, ids.map UInt32.toNat⟩ := by
  have distinct : (fields.map Prod.fst).Nodup :=
    (both.map Prod.fst).nodup_iff.mpr (by simp)
  have tokens : fields.lookup "tokens" = some (ofArena arena) :=
    lookup_of_mem distinct (both.mem_iff.mpr (by simp))
  have sequence : fields.lookup "sequence" = some (ofIds ids) :=
    lookup_of_mem distinct (both.mem_iff.mpr (by simp))
  rw [dump?, fields?_record distinct]
  simp [tokens, sequence, required?, optional?, arena?_ofArena fit, list?_ofIds]

theorem parse?_dump {fields : List (String × Value)} {text : String}
    (both : fields.Perm [("tokens", ofArena arena), ("sequence", ofIds ids)])
    (lexed : lex text.toList = some (record fields).lexemes) :
    TokenDump.parse? text = some ⟨arena, ids.map UInt32.toNat⟩ := by
  rw [TokenDump.parse?, parse?_of_lex lexed]
  exact dump?_record fit ids both

end

theorem render_dump (tokens sequence : Value) :
    (record [("tokens", tokens), ("sequence", sequence)]).render =
      "\x7b\"tokens\":" ++ tokens.render ++ ",\"sequence\":" ++ sequence.render ++ "\x7d" := by
  have names : Quoted.encode "tokens".toList = "tokens".toList ∧
      Quoted.encode "sequence".toList = "sequence".toList := by decide
  simp only [record, List.map_cons, List.map_nil, names, Value.render, Value.lexemes,
    Value.memberLexemes, List.flatMap_append, List.flatMap_cons, List.flatMap_nil, Lexeme.text,
    ← String.toList_inj, String.toList_append, String.toList_ofList]
  simp

theorem lex_dump (arena : TokenArena) (ids : List UInt32) :
    lex ("\x7b\"tokens\":" ++ (ofArena arena).render ++ ",\"sequence\":" ++ (ofIds ids).render ++
        "\x7d").toList =
      some (record [("tokens", ofArena arena), ("sequence", ofIds ids)]).lexemes := by
  rw [← render_dump]
  apply lex_render
  apply proper_record
  simp [proper_ofArena, proper_ofIds]

end Json

/-- An arena whose ids are words, and any diagnostic, is read back from its own text. So is
a dump with the text of that arena and any list of ids, whatever blanks stand between its
lexemes and whichever of its two fields comes first. -/
theorem json_round_trip :
    (∀ arena : TokenArena, arena.LinksFit →
      (Json.parse? (Json.ofArena arena).render).bind Json.arena? = some arena ∧
      ∀ ids : List UInt32,
        TokenDump.parse? ("\x7b\"tokens\":" ++ (Json.ofArena arena).render ++ ",\"sequence\":" ++
            (Json.ofIds ids).render ++ "\x7d") = some ⟨arena, ids.map UInt32.toNat⟩ ∧
        ∀ (fields : List (String × Json.Value)) (text : String),
          fields.Perm [("tokens", Json.ofArena arena), ("sequence", Json.ofIds ids)] →
          Json.lex text.toList = some (Json.record fields).lexemes →
          TokenDump.parse? text = some ⟨arena, ids.map UInt32.toNat⟩) ∧
    ∀ diagnostic : Diagnostic,
      (Json.parse? (Json.ofDiagnostic diagnostic).render).bind Json.diagnostic? =
        some diagnostic := by
  constructor
  · intro arena fit
    constructor
    · rw [Json.parse?_render (Json.proper_ofArena arena)]
      exact Json.arena?_ofArena fit
    · intro ids
      constructor
      · exact Json.parse?_dump fit ids (List.Perm.refl _) (Json.lex_dump arena ids)
      · intro fields text both lexed
        exact Json.parse?_dump fit ids both lexed
  · intro diagnostic
    rw [Json.parse?_render (Json.proper_ofDiagnostic diagnostic)]
    exact Json.diagnostic?_ofDiagnostic diagnostic

-- an image that needs every kind of escape, with the greatest id there is
def quotedToken : TokenArena := ⟨#[
  ⟨.stringLiteral, "\"\\\x01\n😀\"", ⟨1, 2⟩, ⟨3, 4294967295⟩, some 4294967295, none⟩]⟩

theorem json_round_trip_quotedToken :
    quotedToken.LinksFit ∧
      (Json.parse? (Json.ofArena quotedToken).render).bind Json.arena? = some quotedToken ∧
      TokenDump.parse? "\x7b \"sequence\": [7],\n\"tokens\":[] \x7d" = some ⟨.empty, [7]⟩ := by
  have fit : quotedToken.LinksFit := by
    intro token member
    rw [List.mem_singleton.mp member]
    exact ⟨by decide, by decide⟩
  have none : TokenArena.empty.LinksFit := by
    intro token member
    cases member
  have lexed : Json.lex "\x7b \"sequence\": [7],\n\"tokens\":[] \x7d".toList =
      some (Json.record [("sequence", Json.ofIds [7]),
        ("tokens", Json.ofArena .empty)]).lexemes := by decide +kernel
  exact ⟨fit, (json_round_trip.1 quotedToken fit).1,
    ((json_round_trip.1 .empty none).2 [7]).2 _ _ (List.Perm.swap _ _ _) lexed⟩

end ActionReprint
