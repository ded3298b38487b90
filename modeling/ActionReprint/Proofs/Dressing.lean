import ActionReprint.Options
import ActionReprint.Proofs.Stripping

/-!
Comments around strict JSON. A dressing has the lexemes of a strict text with blanks and
comments between them, and may have a comma in front of what closes. Stripping it leaves
the lexemes, and between them only blanks. Main statement: `parse?_dressing`.
-/

namespace ActionReprint.Jsonc

/-- A lexeme with what is put in front of it. In front of one that closes there may be a
comma, with a gap of its own after it. -/
structure Dressed where
  gap : Gap
  extra : Option Gap
  lexeme : Json.Lexeme
  closes : extra.isSome = true → lexeme.isClosing = true

namespace Dressed

def text (dressed : Dressed) : List Char :=
  match dressed.extra with
  | none => dressed.gap.text ++ dressed.lexeme.text
  | some more => dressed.gap.text ++ (',' :: more.text) ++ dressed.lexeme.text

def blanks (dressed : Dressed) : List Char :=
  match dressed.extra with
  | none => dressed.gap.left
  | some more => dressed.gap.left ++ more.left

def plain (dressed : Dressed) : List Char :=
  dressed.blanks ++ dressed.lexeme.text

theorem isBlank_of_mem_blanks {dressed : Dressed} : ∀ c ∈ dressed.blanks, Json.isBlank c = true := by
  intro c member
  unfold blanks at member
  split at member
  · exact Gap.isBlank_of_mem_left c member
  · rcases List.mem_append.mp member with before | after
    · exact Gap.isBlank_of_mem_left c before
    · exact Gap.isBlank_of_mem_left c after

end Dressed

theorem strip_dressed {dressed : Dressed} (proper : dressed.lexeme.Proper) {held : Held}
    (open' : held.isSome = true → dressed.lexeme.isClosing = false) {rest left : List Char}
    (onward : strip (.code (heldBy dressed.lexeme)) rest = kept (heldBy dressed.lexeme) ++ left) :
    strip (.code held) (dressed.text ++ rest) = kept held ++ (dressed.plain ++ left) := by
  obtain ⟨gap, extra, lexeme, closes⟩ := dressed
  cases closing : lexeme.isClosing with
  | true =>
      -- A comma that is held here is the extra one: none stands in front of what closes.
      have free : held = none := by
        cases held with
        | none => rfl
        | some blanks => rw [open' rfl] at closing; cases closing
      have notComma : lexeme ≠ .comma := by
        rintro rfl
        cases closing
      rw [heldBy_of_ne_comma notComma] at onward
      subst free
      cases extra with
      | none =>
          simp [Dressed.text, Dressed.plain, Dressed.blanks, strip_gap, strip_closing closing, onward,
            nowAll, laterAll, dropped, kept]
      | some more =>
          simp [Dressed.text, Dressed.plain, Dressed.blanks, strip_gap, strip_comma,
            strip_closing closing, onward, nowAll, laterAll, dropped, kept]
  | false =>
      have plainly : extra = none := by
        cases extra with
        | none => rfl
        | some more => rw [closes rfl] at closing; cases closing
      subst plainly
      have gapped := nowAll_kept held gap.left
      by_cases comma : lexeme = .comma
      · subst comma
        have text : Dressed.text ⟨gap, none, .comma, closes⟩ ++ rest = gap.text ++ ',' :: rest := by
          simp [Dressed.text, Json.Lexeme.text]
        rw [text, strip_gap, strip_comma, ← List.append_assoc, gapped]
        exact (congrArg (kept held ++ gap.left ++ ·) onward).trans (by
          simp [Dressed.plain, Dressed.blanks, Json.Lexeme.text, heldBy, kept])
      · rw [heldBy_of_ne_comma comma] at onward
        have text : Dressed.text ⟨gap, none, lexeme, closes⟩ ++ rest =
            gap.text ++ (lexeme.text ++ rest) := by
          simp [Dressed.text]
        rw [text, strip_gap, strip_lexeme proper closing comma, onward, ← List.append_assoc, gapped]
        simp [Dressed.plain, Dressed.blanks, kept]

structure Dressing where
  items : List Dressed
  gap : Gap
  comment : Option (List Char)
  unbroken : ∀ inside ∈ comment, '\n' ∉ inside

namespace Dressing

def empty : Dressing :=
  ⟨[], [], none, by intro inside comment; cases comment⟩

def lexemes (dressing : Dressing) : List Json.Lexeme :=
  dressing.items.map Dressed.lexeme

def ending (dressing : Dressing) : List Char :=
  match dressing.comment with
  | none => dressing.gap.text
  | some inside => dressing.gap.text ++ '/' :: '/' :: inside

def text (dressing : Dressing) : List Char :=
  dressing.items.flatMap Dressed.text ++ dressing.ending

def plain (dressing : Dressing) : List Char :=
  dressing.items.flatMap Dressed.plain ++ dressing.gap.left

theorem strip_ending (dressing : Dressing) (held : Held) :
    strip (.code held) dressing.ending = kept held ++ dressing.gap.left := by
  obtain ⟨items, gap, comment, unbroken⟩ := dressing
  cases comment with
  | none =>
      have stripped := strip_gap gap held []
      rw [List.append_nil, strip, nowAll_kept] at stripped
      exact stripped
  | some inside =>
      simp only [ending, strip_gap, strip, strip_lineComment_end (unbroken inside rfl), nowAll_kept]

end Dressing

theorem strip_items {items : List Dressed} {ending left : List Char} {held : Held}
    (proper : ∀ item ∈ items, item.lexeme.Proper)
    (meets : (items.map Dressed.lexeme).IsChain Json.Lexeme.Meets)
    (open' : held.isSome = true → ∀ first ∈ items.head?, first.lexeme.isClosing = false)
    (ended : ∀ held : Held, strip (.code held) ending = kept held ++ left) :
    strip (.code held) (items.flatMap Dressed.text ++ ending) =
      kept held ++ (items.flatMap Dressed.plain ++ left) := by
  -- Along the items. In front of a lexeme a comma is held only if the lexeme before it is
  -- one, and then what follows does not close anything: so the comma is kept.
  induction items generalizing held with
  | nil => exact ended held
  | cons item rest ih =>
      have onward : strip (.code (heldBy item.lexeme)) (rest.flatMap Dressed.text ++ ending) =
          kept (heldBy item.lexeme) ++ (rest.flatMap Dressed.plain ++ left) := by
        apply ih (fun other later => proper other (List.mem_cons_of_mem item later)) meets.tail
        intro holds next head
        cases rest with
        | nil => cases head
        | cons second more =>
            cases head
            exact meets.rel.comma (eq_comma_of_heldBy holds)
      rw [List.flatMap_cons, List.flatMap_cons, List.append_assoc, List.append_assoc]
      exact strip_dressed (proper item List.mem_cons_self) (fun some => open' some item rfl) onward

theorem lex_items {items : List Dressed} {ending : List Char}
    (proper : ∀ item ∈ items, item.lexeme.Proper)
    (meets : (items.map Dressed.lexeme).IsChain Json.Lexeme.Meets)
    (allBlank : ∀ c ∈ ending, Json.isBlank c = true) :
    Json.lex (items.flatMap Dressed.plain ++ ending) = some (items.map Dressed.lexeme) := by
  have spaced := Json.lex_spaced
    (items.map fun item => ⟨item.blanks, item.lexeme, Dressed.isBlank_of_mem_blanks⟩)
    (by simpa using proper) (by simpa [Function.comp_def] using meets) allBlank
  rw [List.flatMap_map, List.map_map] at spaced
  exact spaced

namespace Dressing

def pad (c : Char) (isBlank : Json.isBlank c = true) (dressing : Dressing) : Dressing :=
  match dressing.items with
  | [] => { dressing with gap := .blank c isBlank :: dressing.gap }
  | item :: rest =>
      { dressing with items := { item with gap := .blank c isBlank :: item.gap } :: rest }

section
variable (c : Char) (isBlank : Json.isBlank c = true) (dressing : Dressing)

theorem lexemes_pad : (dressing.pad c isBlank).lexemes = dressing.lexemes := by
  obtain ⟨items, gap, comment, unbroken⟩ := dressing
  cases items <;> rfl

theorem text_pad : (dressing.pad c isBlank).text = c :: dressing.text := by
  obtain ⟨items, gap, comment, unbroken⟩ := dressing
  cases items with
  | nil => cases comment <;> rfl
  | cons item rest =>
      obtain ⟨before, extra, lexeme, closes⟩ := item
      cases extra <;> rfl

theorem plain_pad : (dressing.pad c isBlank).plain = c :: dressing.plain := by
  obtain ⟨items, gap, comment, unbroken⟩ := dressing
  cases items with
  | nil => rfl
  | cons item rest =>
      obtain ⟨before, extra, lexeme, closes⟩ := item
      cases extra <;> rfl

end

def push (lexeme : Json.Lexeme) (dressing : Dressing) : Dressing :=
  { dressing with items := ⟨[], none, lexeme, by intro extra; cases extra⟩ :: dressing.items }

theorem text_push (lexeme : Json.Lexeme) (dressing : Dressing) :
    (dressing.push lexeme).text = lexeme.text ++ dressing.text :=
  List.append_assoc _ _ _

theorem plain_push (lexeme : Json.Lexeme) (dressing : Dressing) :
    (dressing.push lexeme).plain = lexeme.text ++ dressing.plain :=
  List.append_assoc _ _ _

/-- A text that can be read is a dressing of its lexemes, and stripping leaves all of it. -/
theorem exists_of_lex {text : List Char} {lexemes : List Json.Lexeme}
    (lexed : Json.lex text = some lexemes) :
    ∃ dressing : Dressing, dressing.lexemes = lexemes ∧ dressing.text = text ∧
      dressing.plain = text ∧ ∀ lexeme ∈ lexemes, lexeme.Proper := by
  induction text using Json.lex.induct generalizing lexemes with
  | case1 =>
      rw [Json.lex] at lexed
      cases lexed
      refine ⟨empty, rfl, rfl, rfl, ?_⟩
      intro lexeme member
      cases member
  | case2 c rest blank ih =>
      rw [Json.lex, if_pos blank] at lexed
      obtain ⟨dressing, same, text, plain, proper⟩ := ih lexed
      refine ⟨dressing.pad c blank, ?_, ?_, ?_, proper⟩
      · rw [lexemes_pad, same]
      · rw [text_pad, text]
      · rw [plain_pad, plain]
  | case3 c rest dense missing =>
      rw [Json.lex, if_neg dense] at lexed
      split at lexed
      · cases lexed
      · next found =>
        rw [found] at missing
        cases missing
  | case4 c rest dense lexeme behind found ih =>
      rw [Json.lex_of_lexeme? (Bool.not_eq_true _ ▸ dense) found] at lexed
      obtain ⟨others, onward, rfl⟩ := Option.map_eq_some_iff.mp lexed
      obtain ⟨dressing, rfl, text, plain, proper⟩ := ih onward
      obtain ⟨isProper, whole⟩ := Json.proper_of_lexeme? found
      refine ⟨dressing.push lexeme, rfl, ?_, ?_, ?_⟩
      · rw [text_push, text, whole]
      · rw [plain_push, plain, whole]
      · intro other member
        rcases List.mem_cons.mp member with rfl | later
        · exact isProper
        · exact proper other later

theorem normalize_text {dressing : Dressing} (proper : ∀ lexeme ∈ dressing.lexemes, lexeme.Proper)
    (meets : dressing.lexemes.IsChain Json.Lexeme.Meets) :
    normalize (String.ofList dressing.text) = String.ofList dressing.plain := by
  have each : ∀ item ∈ dressing.items, item.lexeme.Proper := fun item member =>
    proper item.lexeme (List.mem_map_of_mem member)
  have stripped : strip (.code none) dressing.text = kept none ++ dressing.plain := by
    apply strip_items each meets _ dressing.strip_ending
    intro holds
    cases holds
  rw [normalize, String.toList_ofList]
  exact congrArg String.ofList stripped

theorem lex_plain {dressing : Dressing} (proper : ∀ lexeme ∈ dressing.lexemes, lexeme.Proper)
    (meets : dressing.lexemes.IsChain Json.Lexeme.Meets) :
    Json.lex dressing.plain = some dressing.lexemes :=
  lex_items (fun item member => proper item.lexeme (List.mem_map_of_mem member)) meets
    Gap.isBlank_of_mem_left

end Dressing

/-- Let a strict text have a value. Stripping leaves the text as it is; and from whatever
is put around its lexemes it leaves a strict text with the same lexemes, and so with the
same value and the same options. -/
theorem parse?_dressing {text : String} {value : Json.Value}
    (strict : Json.parse? text = some value) :
    normalize text = text ∧
      ∃ lexemes, Json.lex text.toList = some lexemes ∧
        ∀ dressing : Dressing, dressing.lexemes = lexemes →
          Json.lex (normalize (String.ofList dressing.text)).toList = some lexemes ∧
          Json.parse? (normalize (String.ofList dressing.text)) = some value ∧
          OptionsFile.parse? (String.ofList dressing.text) = OptionsFile.parse? text := by
  obtain ⟨lexemes, lexed, ofLexemes⟩ := Option.bind_eq_some_iff.mp strict
  obtain ⟨final, ran, _⟩ := Option.bind_eq_some_iff.mp ofLexemes
  have meets := Json.State.meets_of_run ran
  -- The text is a dressing of its own lexemes, and one that stripping leaves alone.
  obtain ⟨itself, rfl, asText, asPlain, proper⟩ := Dressing.exists_of_lex lexed
  have untouched : normalize text = text := by
    have stripped := Dressing.normalize_text proper meets
    rw [asText, asPlain, String.ofList_toList] at stripped
    exact stripped
  refine ⟨untouched, itself.lexemes, lexed, ?_⟩
  intro dressing same
  rw [← same] at proper meets ofLexemes
  have again : Json.lex (normalize (String.ofList dressing.text)).toList =
      some itself.lexemes := by
    rw [Dressing.normalize_text proper meets, String.toList_ofList,
      Dressing.lex_plain proper meets, same]
  have parsed : Json.parse? (normalize (String.ofList dressing.text)) = some value := by
    rw [Json.parse?, again, ← same]
    exact ofLexemes
  refine ⟨again, parsed, ?_⟩
  rw [OptionsFile.parse?, OptionsFile.parse?, parsed, untouched, strict]

-- an options file whose one text looks like a comment and the end of the object
def plainOptions : String := "\x7b\"outDir\":\"//,\x7d\"\x7d"

def commentedOptions : Dressing where
  items := [
    ⟨[.blockComment ['"', '*'] (by decide), .blank '\n' rfl], none, .openObject, by decide⟩,
    ⟨[.lineComment ['/', '*'] (by decide)], none, .quoted "outDir".toList, by decide⟩,
    ⟨[], none, .colon, by decide⟩,
    ⟨[.blank ' ' rfl], none, .quoted ['/', '/', ',', '\x7d'], by decide⟩,
    ⟨[.blank '\t' rfl], some [.lineComment [','] (by decide)], .closeObject, by decide⟩]
  gap := [.blank '\r' rfl]
  comment := some ['"']
  unbroken := by decide

theorem parse?_dressing_commentedOptions :
    Json.parse? plainOptions =
        some (.object [("outDir".toList, .quoted ['/', '/', ',', '\x7d'])]) ∧
      OptionsFile.parse? (String.ofList commentedOptions.text) = OptionsFile.parse? plainOptions := by
  have lexed : Json.lex plainOptions.toList = some commentedOptions.lexemes := by decide +kernel
  have strict : Json.parse? plainOptions =
      some (.object [("outDir".toList, .quoted ['/', '/', ',', '\x7d'])]) := by
    rw [Json.parse?, lexed]
    rfl
  obtain ⟨_, lexemes, found, kept⟩ := parse?_dressing strict
  have same : commentedOptions.lexemes = lexemes := Option.some.inj (lexed.symm.trans found)
  exact ⟨strict, (kept commentedOptions same).2.2⟩

end ActionReprint.Jsonc
