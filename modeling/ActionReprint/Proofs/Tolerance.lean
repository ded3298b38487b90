import ActionReprint.Proofs.Dressing
import ActionReprint.Proofs.Gaps
import ActionReprint.Proofs.Values

/-!
Which texts are options files. Stripping checks nothing, so more is read than strict JSON
with comments and one extra comma behind the last member: the extra comma may stand in an
empty container, a comment without a line feed joins the two sides of a number or a word,
and the last comment need not be closed. Nothing beyond that is read. Main statement:
`parse?_eq_some_iff`.
-/

namespace ActionReprint.Jsonc

/-- A word with comments between its characters that leave nothing. -/
inductive Spells : List Char → List Char → Prop where
  | last (c : Char) : Spells [c] [c]
  | next (c : Char) (gap : Gap) (silent : gap.left = []) {word text : List Char}
      (onward : Spells word text) : Spells (c :: word) (c :: (gap.text ++ text))

/-- The text of a lexeme. A string is not interrupted: what looks like a comment in it is
a part of the string. -/
def Spelled : Json.Lexeme → List Char → Prop
  | .quoted inside, text => text = (Json.Lexeme.quoted inside).text
  | lexeme, text => Spells lexeme.text text

/-- The lexemes of a text that stripping tolerates. -/
inductive Carries : List Json.Lexeme → List Char → Prop where
  | ending (gap : Gap) {rest : List Char} (ends : Ending rest) : Carries [] (gap.text ++ rest)
  | lexeme (gap : Gap) {lexeme : Json.Lexeme} (proper : lexeme.Proper) {text : List Char}
      (spelled : Spelled lexeme text) {lexemes : List Json.Lexeme} {rest : List Char}
      (onward : Carries lexemes rest) : Carries (lexeme :: lexemes) (gap.text ++ (text ++ rest))
  | extraComma (gap more : Gap) {lexeme : Json.Lexeme} (closes : lexeme.isClosing = true)
      {lexemes : List Json.Lexeme} {rest : List Char} (onward : Carries lexemes rest) :
      Carries (lexeme :: lexemes) (gap.text ++ ',' :: (more.text ++ (lexeme.text ++ rest)))

theorem eq_nil_of_dense {blank : Char → Bool} {blanks rest behind : List Char} {c : Char}
    (allBlank : ∀ d ∈ blanks, blank d = true) (dense : blank c = false)
    (parts : blanks ++ rest = c :: behind) : blanks = [] := by
  cases blanks with
  | nil => rfl
  | cons d others =>
      have isBlank := allBlank d List.mem_cons_self
      rw [(List.cons.inj parts).1, dense] at isBlank
      cases isBlank

theorem exists_of_strip_ordinary {c : Char} (ordinary : Ordinary c) {text behind : List Char}
    (stripped : strip (.code none) text = c :: behind) :
    ∃ (gap : Gap) (rest : List Char), gap.left = [] ∧ text = gap.text ++ c :: rest ∧
      strip (.code none) rest = behind := by
  have dense : Json.isBlank c = false := by
    by_contra blank
    have spaced := isBlank_of_json (Bool.not_eq_false _ ▸ blank)
    rw [ordinary.blank] at spaced
    cases spaced
  obtain ⟨gap, rest, rfl, bare⟩ := exists_gap text
  have parts : gap.left ++ strip (.code none) rest = c :: behind := by
    rw [← stripped, strip_gap]
    rfl
  have silent : gap.left = [] := eq_nil_of_dense Gap.isBlank_of_mem_left dense parts
  rw [silent, List.nil_append] at parts
  refine ⟨gap, ?_⟩
  cases bare with
  | ending ends =>
      obtain ⟨blanks, allBlank, left⟩ := strip_of_ending ends
      rw [left none] at parts
      have front : blanks ++ [] = c :: behind := (List.append_nil _).trans parts
      obtain rfl := eq_nil_of_dense allBlank dense front
      cases front
  | @dense d rest notBlank line block =>
      by_cases comma : d = ','
      · -- A comma comes out itself, or a blank or what closes does in its place.
        subst comma
        rw [strip_comma] at parts
        rcases strip_held [] rest with
          ⟨_, held⟩ | ⟨more, e, _, allBlank, closes, held⟩
        · rw [held] at parts
          exact absurd (List.cons.inj parts).1.symm ordinary.comma
        · rw [held] at parts
          obtain rfl := eq_nil_of_dense allBlank ordinary.blank parts
          have closing := ordinary.closing
          rw [← (List.cons.inj parts).1, closes] at closing
          cases closing
      · by_cases quote : d = '"'
        · subst quote
          rw [strip_quote] at parts
          exact absurd (List.cons.inj parts).1.symm ordinary.quote
        · rw [strip_dense line block comma quote] at parts
          obtain ⟨rfl, onward⟩ := List.cons.inj parts
          exact ⟨rest, silent, rfl, onward⟩

theorem exists_of_strip_word {word : List Char} (ordinary : ∀ c ∈ word, Ordinary c) (first : Char)
    {text behind : List Char} (stripped : strip (.code none) text = word ++ behind) :
    ∃ spelling rest, text = spelling ++ rest ∧ Spells (first :: word) (first :: spelling) ∧
      strip (.code none) rest = behind := by
  induction word generalizing first text with
  | nil => exact ⟨[], text, rfl, .last first, stripped⟩
  | cons c others ih =>
      obtain ⟨gap, onward, silent, rfl, left⟩ :=
        exists_of_strip_ordinary (ordinary c List.mem_cons_self) stripped
      obtain ⟨spelling, rest, rfl, spells, last⟩ :=
        ih (fun other later => ordinary other (List.mem_cons_of_mem c later)) c left
      refine ⟨gap.text ++ c :: spelling, rest, ?_, .next first gap silent spells, last⟩
      simp

theorem exists_of_strip_string {await : Json.Quoted.Await} {text inside behind : List Char}
    (found : Json.Quoted.close? await (strip (.string (await == .escape)) text) =
      some (inside, behind)) :
    ∃ rest, text = inside ++ '"' :: rest ∧ strip (.code none) rest = behind := by
  induction text generalizing await inside with
  | nil => cases found
  | cons c tail ih =>
      rw [strip] at found
      rcases Json.close?_shape found with
        ⟨rfl, rfl, rfl, rfl⟩ | ⟨next, front, open', step, rfl, inner⟩
      · exact ⟨tail, rfl, rfl⟩
      · rw [afterStringChar_of_step open' step] at inner
        obtain ⟨rest, rfl, left⟩ := ih inner
        exact ⟨rest, rfl, left⟩

theorem exists_of_lex_cons {c : Char} {text : List Char} {lexemes : List Json.Lexeme}
    (dense : Json.isBlank c = false) (lexed : Json.lex (c :: text) = some lexemes) :
    ∃ lexeme behind others, lexemes = lexeme :: others ∧ lexeme.Proper ∧
      c :: text = lexeme.text ++ behind ∧ Json.lexeme? (c :: text) = some (lexeme, behind) ∧
      Json.lex behind = some others := by
  cases found : Json.lexeme? (c :: text) with
  | none =>
      rw [Json.lex, if_neg (by simp [dense])] at lexed
      split at lexed
      · cases lexed
      · next other =>
          rw [found] at other
          cases other
  | some first =>
      obtain ⟨lexeme, behind⟩ := first
      rw [Json.lex_of_lexeme? dense found] at lexed
      obtain ⟨others, onward, rfl⟩ := Option.map_eq_some_iff.mp lexed
      obtain ⟨proper, shape⟩ := Json.proper_of_lexeme? found
      exact ⟨lexeme, behind, others, rfl, proper, shape, rfl, onward⟩

theorem notBlank_of_text {lexeme : Json.Lexeme} (proper : lexeme.Proper) {c : Char}
    {tail : List Char} (shape : lexeme.text = c :: tail) : Text.isBlank c = false := by
  cases lexeme with
  | quoted inside =>
      rw [← (List.cons.inj shape).1]
      decide
  | comma =>
      rw [← (List.cons.inj shape).1]
      decide
  | closeObject =>
      rw [← (List.cons.inj shape).1]
      decide
  | closeArray =>
      rw [← (List.cons.inj shape).1]
      decide
  | _ =>
      have ordinary := ordinary_of_mem_text proper rfl (by simp) rfl c (shape ▸ List.mem_cons_self)
      exact ordinary.blank

/-- A character that is blank in a wider sense than that of JSON begins no lexeme. -/
theorem lex_of_spaced {c : Char} (dense : Json.isBlank c = false) (spaced : Text.isBlank c = true)
    (text : List Char) : Json.lex (c :: text) = none := by
  cases lexed : Json.lex (c :: text) with
  | none => rfl
  | some lexemes =>
      obtain ⟨lexeme, behind, _, _, proper, shape, _⟩ := exists_of_lex_cons dense lexed
      obtain ⟨d, tail, text, _⟩ := Json.head_text proper
      rw [text] at shape
      have notBlank := notBlank_of_text proper text
      rw [← (List.cons.inj shape).1, spaced] at notBlank
      cases notBlank

theorem lex_ended (lexeme : Json.Lexeme) (proper : lexeme.Proper) (ended : lexeme.isNumber = false)
    (text : List Char) : Json.lex (lexeme.text ++ text) = (Json.lex text).map (lexeme :: ·) := by
  apply Json.lex_lexeme proper
  intro number
  rw [ended] at number
  cases number

theorem lex_comma (text : List Char) :
    Json.lex (',' :: text) = (Json.lex text).map (.comma :: ·) :=
  lex_ended .comma trivial rfl text

theorem exists_closing {c : Char} (closing : isClosing c = true) :
    ∃ lexeme : Json.Lexeme, lexeme.isClosing = true ∧ lexeme.text = [c] ∧
      ∀ text, Json.lex (c :: text) = (Json.lex text).map (lexeme :: ·) := by
  simp only [isClosing, Bool.or_eq_true, beq_iff_eq] at closing
  rcases closing with rfl | rfl
  · exact ⟨.closeObject, rfl, rfl, lex_ended .closeObject trivial rfl⟩
  · exact ⟨.closeArray, rfl, rfl, lex_ended .closeArray trivial rfl⟩

/-- Nor can it stand behind a comma that is held: with the comma or without it, what comes
out is no text of lexemes. -/
theorem lex_held_spaced {blanks : List Char} (allBlank : ∀ d ∈ blanks, Json.isBlank d = true)
    {c : Char} (dense : Json.isBlank c = false) (spaced : Text.isBlank c = true)
    (text : List Char) : Json.lex (strip (.code (some (c :: blanks.reverse))) text) = none := by
  rcases strip_held (c :: blanks.reverse) text with
    ⟨behind, held⟩ | ⟨more, d, behind, _, _, held⟩
  · have front : kept (some (c :: blanks.reverse)) ++ behind = ',' :: (blanks ++ c :: behind) := by
      simp [kept]
    rw [held, front, lex_comma, Json.lex_blanks allBlank, lex_of_spaced dense spaced]
    rfl
  · have front : dropped (some (c :: blanks.reverse)) ++ more ++ d :: behind =
        blanks ++ c :: (more ++ d :: behind) := by
      simp [dropped]
    rw [held, front, Json.lex_blanks allBlank, lex_of_spaced dense spaced]

theorem exists_of_lex_held {text : List Char} {lexemes : List Json.Lexeme}
    (lexed : Json.lex (strip (.code (some [])) text) = some lexemes) :
    (∃ others, lexemes = .comma :: others ∧ Json.lex (strip (.code none) text) = some others) ∨
      ∃ (more : Gap) (lexeme : Json.Lexeme) (rest : List Char) (others : List Json.Lexeme),
        lexeme.isClosing = true ∧ text = more.text ++ (lexeme.text ++ rest) ∧
          lexemes = lexeme :: others ∧ Json.lex (strip (.code none) rest) = some others := by
  obtain ⟨gap, rest, rfl, bare⟩ := exists_gap text
  have kept' : (kept (some gap.left.reverse) ++ strip (.code none) rest) =
      ',' :: strip (.code none) (gap.text ++ rest) := by
    rw [strip_gap]
    simp [kept, nowAll, laterAll]
  -- If the comma comes out, then in front of what is left without it.
  have asLexeme : strip (.code (some [])) (gap.text ++ rest) =
        kept (some gap.left.reverse) ++ strip (.code none) rest →
      ∃ others, lexemes = .comma :: others ∧
        Json.lex (strip (.code none) (gap.text ++ rest)) = some others := by
    intro comes
    rw [comes, kept', lex_comma] at lexed
    obtain ⟨others, onward, rfl⟩ := Option.map_eq_some_iff.mp lexed
    exact ⟨others, rfl, onward⟩
  have within : strip (.code (some [])) (gap.text ++ rest) =
      strip (.code (some gap.left.reverse)) rest := by
    rw [strip_gap]
    simp [nowAll, laterAll]
  cases bare with
  | ending ends =>
      obtain ⟨blanks, _, left⟩ := strip_of_ending ends
      exact Or.inl (asLexeme (by rw [within, left, left none]; rfl))
  | @dense c rest notBlank line block =>
      by_cases closing : isClosing c = true
      · obtain ⟨lexeme, closes, shape, single⟩ := exists_closing closing
        have notComma : c ≠ ',' := by
          rintro rfl
          cases closing
        have notQuote : c ≠ '"' := by
          rintro rfl
          cases closing
        rw [within, strip_dropped line block closing, strip_dense line block notComma notQuote,
          dropped, List.reverse_reverse, Json.lex_blanks Gap.isBlank_of_mem_left, single] at lexed
        obtain ⟨others, onward, rfl⟩ := Option.map_eq_some_iff.mp lexed
        exact Or.inr ⟨gap, lexeme, rest, others, closes, by rw [shape]; rfl, rfl, onward⟩
      · by_cases spaced : Text.isBlank c = true
        · rw [within, strip_spaced line block spaced,
            lex_held_spaced Gap.isBlank_of_mem_left notBlank spaced] at lexed
          cases lexed
        · apply Or.inl
          apply asLexeme
          rw [within, strip_kept line block (Bool.not_eq_true _ ▸ closing)
            (Bool.not_eq_true _ ▸ spaced)]

theorem ordinary_of_mem_tail {lexeme : Json.Lexeme} (proper : lexeme.Proper)
    (unquoted : lexeme.isQuoted = false) {c : Char} {tail : List Char}
    (shape : lexeme.text = c :: tail) : ∀ d ∈ tail, Ordinary d := by
  intro d member
  -- What is not ordinary, a comma or what closes, is one character long.
  by_cases single : lexeme.isClosing = true ∨ lexeme = .comma
  · have alone : lexeme.text.length = 1 := by
      rcases single with closes | rfl
      · cases lexeme with
        | closeObject => rfl
        | closeArray => rfl
        | _ => cases closes
      · rfl
    rw [shape] at alone
    cases tail with
    | nil => cases member
    | cons e more => simp at alone
  · obtain ⟨open', notComma⟩ := not_or.mp single
    exact ordinary_of_mem_text proper (Bool.not_eq_true _ ▸ open') notComma unquoted d
      (shape ▸ List.mem_cons_of_mem c member)

theorem spelled_of_spells {lexeme : Json.Lexeme} (unquoted : lexeme.isQuoted = false)
    {text : List Char} (spells : Spells lexeme.text text) : Spelled lexeme text := by
  cases lexeme with
  | quoted inside => cases unquoted
  | _ => exact spells

theorem exists_of_lex_dense {c : Char} {text : List Char} {lexemes : List Json.Lexeme}
    (notBlank : Json.isBlank c = false)
    (line : ∀ more, c = '/' → text = '/' :: more → False)
    (block : ∀ more, c = '/' → text = '*' :: more → False) (notComma : c ≠ ',')
    (lexed : Json.lex (strip (.code none) (c :: text)) = some lexemes) :
    ∃ lexeme spelling rest others, lexemes = lexeme :: others ∧ lexeme.Proper ∧
      Spelled lexeme (c :: spelling) ∧ text = spelling ++ rest ∧
      Json.lex (strip (.code none) rest) = some others := by
  by_cases quote : c = '"'
  · subst quote
    rw [strip_quote] at lexed
    obtain ⟨lexeme, behind, others, rfl, proper, shape, found, onward⟩ :=
      exists_of_lex_cons notBlank lexed
    obtain ⟨⟨inside, left⟩, closed, same⟩ := Option.map_eq_some_iff.mp found
    cases same
    obtain ⟨rest, rfl, last⟩ := @exists_of_strip_string .plain _ _ _ closed
    exact ⟨.quoted inside, inside ++ ['"'], rest, others, rfl, proper, rfl, by simp, last ▸ onward⟩
  · rw [strip_dense line block notComma quote] at lexed
    obtain ⟨lexeme, behind, others, rfl, proper, shape, _, onward⟩ :=
      exists_of_lex_cons notBlank lexed
    obtain ⟨d, word, front, _⟩ := Json.head_text proper
    rw [front] at shape
    obtain ⟨rfl, left⟩ := List.cons.inj shape
    have unquoted : lexeme.isQuoted = false := by
      cases lexeme with
      | quoted inside => exact absurd (List.cons.inj front).1.symm quote
      | _ => rfl
    obtain ⟨spelling, rest, rfl, spells, last⟩ :=
      exists_of_strip_word (ordinary_of_mem_tail proper unquoted front) c left
    rw [← front] at spells
    exact ⟨lexeme, spelling, rest, others, rfl, proper, spelled_of_spells unquoted spells, rfl,
      last ▸ onward⟩

theorem carries_of_lex {text : List Char} {lexemes : List Json.Lexeme}
    (lexed : Json.lex (strip (.code none) text) = some lexemes) : Carries lexemes text := by
  induction size : text.length using Nat.strong_induction_on generalizing text lexemes with
  | h n ih =>
  subst size
  obtain ⟨gap, rest, rfl, bare⟩ := exists_gap text
  have passed : Json.lex (strip (.code none) rest) = some lexemes := by
    rw [strip_gap] at lexed
    rw [← lexed]
    exact (Json.lex_blanks Gap.isBlank_of_mem_left _).symm
  cases bare with
  | ending ends =>
      obtain ⟨blanks, allBlank, left⟩ := strip_of_ending ends
      have nothing := Json.lex_blanks allBlank []
      rw [left none] at passed
      rw [List.append_nil, Json.lex] at nothing
      cases passed.symm.trans nothing
      exact .ending gap ends
  | @dense c rest notBlank line block =>
      by_cases comma : c = ','
      · subst comma
        rw [strip_comma] at passed
        rcases exists_of_lex_held passed with
          ⟨others, rfl, onward⟩ | ⟨more, lexeme, behind, others, closes, rfl, rfl, onward⟩
        · have carried := ih _ (by simp; omega) onward rfl
          exact @Carries.lexeme gap .comma trivial [','] (.last ',') _ _ carried
        · have carried := ih _ (by simp; omega) onward rfl
          exact .extraComma gap more closes carried
      · obtain ⟨lexeme, spelling, behind, others, rfl, proper, spelled, rfl, onward⟩ :=
          exists_of_lex_dense notBlank line block comma passed
        have carried := ih _ (by simp; omega) onward rfl
        exact .lexeme gap proper spelled carried

theorem Carries.proper {lexemes : List Json.Lexeme} {text : List Char}
    (carries : Carries lexemes text) : ∀ lexeme ∈ lexemes, lexeme.Proper := by
  induction carries with
  | ending gap ends => simp
  | lexeme gap proper spelled onward ih =>
      intro other member
      rcases List.mem_cons.mp member with rfl | later
      · exact proper
      · exact ih other later
  | @extraComma gap more lexeme closes lexemes rest onward ih =>
      intro other member
      rcases List.mem_cons.mp member with rfl | later
      · cases other with
        | closeObject => trivial
        | closeArray => trivial
        | _ => cases closes
      · exact ih other later

theorem strip_spells {word text : List Char} (spells : Spells word text)
    (ordinary : ∀ c ∈ word, Ordinary c) (held : Held) (rest : List Char) :
    strip (.code held) (text ++ rest) = kept held ++ (word ++ strip (.code none) rest) := by
  induction spells generalizing held with
  | last c => exact strip_ordinary (ordinary c List.mem_cons_self) held rest
  | next c gap silent onward ih =>
      rw [List.cons_append, strip_ordinary (ordinary c List.mem_cons_self), List.append_assoc,
        strip_gap, silent, ih fun other later => ordinary other (List.mem_cons_of_mem c later)]
      rfl

theorem eq_of_spells {c : Char} {text : List Char} (spells : Spells [c] text) : text = [c] := by
  cases spells with
  | last => rfl
  | next c gap silent onward => cases onward

theorem strip_spelled {lexeme : Json.Lexeme} (proper : lexeme.Proper) {text : List Char}
    (spelled : Spelled lexeme text) {rest other : List Char}
    (same : ∀ held, strip (.code held) rest = strip (.code held) other) (held : Held) :
    strip (.code held) (text ++ rest) = strip (.code held) (lexeme.text ++ other) := by
  cases lexeme with
  | quoted inside =>
      obtain rfl : text = (Json.Lexeme.quoted inside).text := spelled
      rw [strip_quoted proper, strip_quoted proper, same]
  | comma =>
      obtain rfl := eq_of_spells spelled
      simp only [Json.Lexeme.text, List.singleton_append, strip_comma, same]
  | closeObject =>
      obtain rfl := eq_of_spells spelled
      exact (@strip_closing .closeObject rfl held rest).trans
        (by rw [strip_closing rfl, same])
  | closeArray =>
      obtain rfl := eq_of_spells spelled
      exact (@strip_closing .closeArray rfl held rest).trans
        (by rw [strip_closing rfl, same])
  | _ =>
      rw [strip_lexeme proper rfl (by simp), ← same]
      exact strip_spells spelled (ordinary_of_mem_text proper rfl (by simp) rfl) held rest

theorem exists_blanks {blanks : List Char} (allBlank : ∀ c ∈ blanks, Json.isBlank c = true) :
    ∃ gap : Gap, gap.left = blanks := by
  induction blanks with
  | nil => exact ⟨[], rfl⟩
  | cons c rest ih =>
      obtain ⟨gap, left⟩ := ih fun other later => allBlank other (List.mem_cons_of_mem c later)
      exact ⟨.blank c (allBlank c List.mem_cons_self) :: gap, congrArg (c :: ·) left⟩

theorem exists_dressing {lexemes : List Json.Lexeme} {text : List Char}
    (carries : Carries lexemes text) :
    ∃ dressing : Dressing, dressing.lexemes = lexemes ∧
      ∀ held, strip (.code held) text = strip (.code held) dressing.text := by
  induction carries with
  | ending gap ends =>
      obtain ⟨blanks, allBlank, stripped⟩ := strip_of_ending ends
      obtain ⟨more, left⟩ := exists_blanks allBlank
      refine ⟨{ Dressing.empty with gap := gap ++ more }, rfl, fun held => ?_⟩
      have ended := Dressing.strip_ending { Dressing.empty with gap := gap ++ more } held
      refine Eq.trans ?_ ended.symm
      rw [strip_gap, stripped, ← List.append_assoc, nowAll_kept, ← left]
      simp [Gap.left]
  | @lexeme gap lexeme proper text spelled lexemes rest onward ih =>
      obtain ⟨dressing, rfl, same⟩ := ih
      refine ⟨{ dressing with items := ⟨gap, none, lexeme, by simp⟩ :: dressing.items }, rfl,
        fun held => ?_⟩
      have shape : Dressing.text
            { dressing with items := ⟨gap, none, lexeme, by simp⟩ :: dressing.items } =
          gap.text ++ (lexeme.text ++ dressing.text) := by
        simp [Dressing.text, Dressed.text, Dressing.ending]
      rw [shape, strip_gap, strip_gap, strip_spelled proper spelled same]
  | @extraComma gap more lexeme closes lexemes rest onward ih =>
      obtain ⟨dressing, rfl, same⟩ := ih
      refine ⟨{ dressing with
          items := ⟨gap, some more, lexeme, fun _ => closes⟩ :: dressing.items }, rfl,
        fun held => ?_⟩
      have shape : Dressing.text
            { dressing with items := ⟨gap, some more, lexeme, fun _ => closes⟩ :: dressing.items } =
          gap.text ++ ',' :: (more.text ++ (lexeme.text ++ dressing.text)) := by
        simp [Dressing.text, Dressed.text, Dressing.ending]
      rw [shape, strip_gap, strip_gap, strip_comma, strip_comma, strip_gap, strip_gap,
        strip_closing closes, strip_closing closes, same]

theorem parse?_of_carries {text : String} {value : Json.Value}
    (carries : Carries value.lexemes text.toList) :
    Json.parse? (normalize text) = some value := by
  obtain ⟨dressing, lexemes, same⟩ := exists_dressing carries
  have proper := carries.proper
  obtain ⟨final, ran, _⟩ := Option.bind_eq_some_iff.mp (Json.ofLexemes?_lexemes value)
  have meets := Json.State.meets_of_run ran
  rw [← lexemes] at proper meets
  have stripped : normalize text = String.ofList dressing.plain := by
    rw [← Dressing.normalize_text proper meets, normalize, normalize, same, String.toList_ofList]
  rw [stripped, Json.parse?, String.toList_ofList, Dressing.lex_plain proper meets, lexemes]
  exact Json.ofLexemes?_lexemes value

/-- An options text is read exactly if it carries the lexemes of a JSON value that has the
shape of options. -/
theorem parse?_eq_some_iff (text : String) (file : OptionsFile) :
    OptionsFile.parse? text = some file ↔
      ∃ value : Json.Value, Carries value.lexemes text.toList ∧
        OptionsFile.ofJson? value = some file := by
  constructor
  · intro read
    obtain ⟨value, strict, shaped⟩ := Option.bind_eq_some_iff.mp read
    obtain ⟨lexemes, lexed, built⟩ := Option.bind_eq_some_iff.mp strict
    rw [normalize, String.toList_ofList] at lexed
    obtain rfl := Json.ofLexemes?_eq_some_iff.mp built
    exact ⟨value, carries_of_lex lexed, shaped⟩
  · rintro ⟨value, carries, shaped⟩
    rw [OptionsFile.parse?, parse?_of_carries carries]
    exact shaped

/-- A dressing whose extra commas have a member or an item in front of them. -/
def Dressing.Trails (dressing : Dressing) : Prop :=
  dressing.items.IsChain fun item next =>
    next.extra.isSome = true → item.lexeme ≠ .openObject ∧ item.lexeme ≠ .openArray

/-- A strict text of the value with blanks and closed comments around its lexemes, and an
extra comma at most behind the last member or item of a container. -/
def Commented (value : Json.Value) (text : List Char) : Prop :=
  ∃ dressing : Dressing, dressing.text = text ∧ dressing.lexemes = value.lexemes ∧
    (∀ lexeme ∈ dressing.lexemes, lexeme.Proper) ∧ dressing.Trails

theorem lex_of_commented {value : Json.Value} {text : String}
    (commented : Commented value text.toList) :
    Json.lex (normalize text).toList = some value.lexemes := by
  obtain ⟨dressing, shape, lexemes, proper, _⟩ := commented
  obtain ⟨final, ran, _⟩ := Option.bind_eq_some_iff.mp (Json.ofLexemes?_lexemes value)
  have meets := Json.State.meets_of_run ran
  rw [← lexemes] at meets
  have stripped := Dressing.normalize_text proper meets
  rw [shape, String.ofList_toList] at stripped
  rw [stripped, String.toList_ofList, Dressing.lex_plain proper meets, lexemes]

/-- A comment has two slashes, so a gap with fewer of them is blank. -/
theorem Gap.isBlank_of_mem_text {gap : Gap} (few : gap.text.count '/' < 2) :
    ∀ c ∈ gap.text, Json.isBlank c = true := by
  induction gap with
  | nil => simp [Gap.text]
  | cons filler rest ih =>
      have text : Gap.text (filler :: rest) = filler.text ++ Gap.text rest := rfl
      rw [text, List.count_append] at few
      rw [text]
      intro c member
      rcases List.mem_append.mp member with here | later
      · cases filler with
        | blank space isBlank =>
            rw [List.mem_singleton.mp here]
            exact isBlank
        | lineComment inside unbroken =>
            simp [Filler.text] at few
            omega
        | blockComment inside unclosed =>
            simp [Filler.text] at few
            omega
      · exact ih (by omega) c later

theorem Dressing.infix_text {dressing : Dressing} {item : Dressed}
    (member : item ∈ dressing.items) : item.text <:+: dressing.text := by
  obtain ⟨before, after, shape⟩ := List.append_of_mem member
  refine ⟨before.flatMap Dressed.text, after.flatMap Dressed.text ++ dressing.ending, ?_⟩
  simp [text, shape]

theorem Dressed.infix_text (item : Dressed) : item.lexeme.text <:+: item.text := by
  obtain ⟨gap, extra, lexeme, closes⟩ := item
  cases extra with
  | none => exact List.IsSuffix.isInfix ⟨gap.text, rfl⟩
  | some more => exact List.IsSuffix.isInfix ⟨gap.text ++ ',' :: more.text, rfl⟩

theorem Dressed.mem_text {item : Dressed} (few : item.text.count '/' < 2) :
    ∀ c ∈ item.text, Json.isBlank c = true ∨ c ∈ item.lexeme.text ∨
      (c = ',' ∧ item.extra.isSome = true) := by
  obtain ⟨gap, extra, lexeme, closes⟩ := item
  cases extra with
  | none =>
      simp only [text, List.count_append] at few
      have fewer : gap.text.count '/' < 2 := by omega
      intro c member
      rcases List.mem_append.mp member with front | back
      · exact Or.inl (Gap.isBlank_of_mem_text fewer c front)
      · exact Or.inr (Or.inl back)
  | some more =>
      simp only [text, List.count_append, List.count_cons] at few
      have before : gap.text.count '/' < 2 := by omega
      have after : more.text.count '/' < 2 := by omega
      intro c member
      rcases List.mem_append.mp member with front | back
      · rcases List.mem_append.mp front with first | second
        · exact Or.inl (Gap.isBlank_of_mem_text before c first)
        · rcases List.mem_cons.mp second with rfl | within
          · exact Or.inr (Or.inr ⟨rfl, rfl⟩)
          · exact Or.inl (Gap.isBlank_of_mem_text after c within)
      · exact Or.inr (Or.inl back)

theorem Dressing.mem_text {dressing : Dressing} (few : dressing.text.count '/' < 2) :
    ∀ c ∈ dressing.text, Json.isBlank c = true ∨ ∃ item ∈ dressing.items,
      c ∈ item.lexeme.text ∨ (c = ',' ∧ item.extra.isSome = true) := by
  intro c member
  rcases List.mem_append.mp member with within | behind
  · obtain ⟨item, inside, here⟩ := List.mem_flatMap.mp within
    have fewer := Nat.lt_of_le_of_lt ((infix_text inside).sublist.count_le '/') few
    rcases Dressed.mem_text fewer c here with blank | other
    · exact Or.inl blank
    · exact Or.inr ⟨item, inside, other⟩
  · apply Or.inl
    obtain ⟨items, gap, comment, unbroken⟩ := dressing
    rw [text, List.count_append] at few
    cases comment with
    | none =>
        simp only [ending] at few
        have fewer : gap.text.count '/' < 2 := by omega
        exact Gap.isBlank_of_mem_text fewer c behind
    | some inside =>
        simp [ending] at few
        omega

theorem not_commented_emptyContainer (value : Json.Value) :
    ¬ Commented value "\x7b,\x7d".toList := by
  intro commented
  have lexed : Json.lex (normalize "\x7b,\x7d").toList = some [.openObject, .closeObject] := by
    decide +kernel
  have lexemes := Option.some.inj ((lex_of_commented commented).symm.trans lexed)
  obtain ⟨dressing, shape, same, _, trails⟩ := commented
  rw [lexemes] at same
  obtain ⟨opening, _, items, opens, onward⟩ := List.map_eq_cons_iff.mp same
  obtain ⟨closing, _, rfl, closes, onward⟩ := List.map_eq_cons_iff.mp onward
  obtain rfl := List.map_eq_nil_iff.mp onward
  -- The comma is in no lexeme; so it is extra, and it has the opening brace in front of it.
  have few : dressing.text.count '/' < 2 := by
    rw [shape]
    decide
  rcases Dressing.mem_text few ',' (by rw [shape]; decide) with
    blank | ⟨item, member, part | ⟨_, extra⟩⟩
  · cases blank
  · rw [items] at member
    rcases List.mem_pair.mp member with rfl | rfl
    · rw [opens] at part
      simp [Json.Lexeme.text] at part
    · rw [closes] at part
      simp [Json.Lexeme.text] at part
  · rw [items] at member
    rw [Dressing.Trails, items] at trails
    rcases List.mem_pair.mp member with rfl | rfl
    · have wrong := item.closes extra
      rw [opens] at wrong
      cases wrong
    · exact (trails.rel extra).1 opens

theorem not_commented_interruptedWord (value : Json.Value) :
    ¬ Commented value "\x7b\"warnUnsupported\":tr/**/ue\x7d".toList := by
  intro commented
  have lexed : Json.lex (normalize "\x7b\"warnUnsupported\":tr/**/ue\x7d").toList =
      some [.openObject, .quoted "warnUnsupported".toList, .colon, .bool true, .closeObject] := by
    decide +kernel
  have lexemes := Option.some.inj ((lex_of_commented commented).symm.trans lexed)
  obtain ⟨dressing, shape, same, _, _⟩ := commented
  have word : Json.Lexeme.bool true ∈ dressing.items.map Dressed.lexeme := by
    rw [show dressing.items.map Dressed.lexeme = value.lexemes from same, lexemes]
    simp
  obtain ⟨item, member, isWord⟩ := List.mem_map.mp word
  have inside := item.infix_text.trans (Dressing.infix_text member)
  rw [isWord, shape] at inside
  revert inside
  decide +kernel

theorem not_commented_openComment (value : Json.Value) :
    ¬ Commented value "\x7b\x7d/*".toList := by
  intro commented
  have lexed : Json.lex (normalize "\x7b\x7d/*").toList = some [.openObject, .closeObject] := by
    decide +kernel
  have lexemes := Option.some.inj ((lex_of_commented commented).symm.trans lexed)
  obtain ⟨dressing, shape, same, _, _⟩ := commented
  have few : dressing.text.count '/' < 2 := by
    rw [shape]
    decide
  rcases Dressing.mem_text few '*' (by rw [shape]; decide) with
    blank | ⟨item, member, part | ⟨wrong, _⟩⟩
  · cases blank
  · have inside : item.lexeme ∈ value.lexemes := same ▸ List.mem_map_of_mem member
    rw [lexemes] at inside
    rcases List.mem_pair.mp inside with brace | brace
    · rw [brace] at part
      simp [Json.Lexeme.text] at part
    · rw [brace] at part
      simp [Json.Lexeme.text] at part
  · cases wrong

def Uncommented (text : String) : Prop :=
  (OptionsFile.parse? text).isSome = true ∧ ¬ ∃ value, Commented value text.toList

/-- An extra comma in an empty container, a comment that joins what is on its two sides,
and a comment that is never closed. -/
theorem parse?_uncommented :
    Uncommented "\x7b,\x7d" ∧ Uncommented "\x7b\"warnUnsupported\":tr/**/ue\x7d" ∧
      Uncommented "\x7b\x7d/*" := by
  refine ⟨⟨?emptyRead, ?emptyContainer⟩, ⟨?wordRead, ?interruptedWord⟩, ?openRead, ?openComment⟩
  case emptyRead => decide +kernel
  case wordRead => decide +kernel
  case openRead => decide +kernel
  case emptyContainer =>
    rintro ⟨value, commented⟩
    exact not_commented_emptyContainer value commented
  case interruptedWord =>
    rintro ⟨value, commented⟩
    exact not_commented_interruptedWord value commented
  case openComment =>
    rintro ⟨value, commented⟩
    exact not_commented_openComment value commented

end ActionReprint.Jsonc
