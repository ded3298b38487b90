import ActionReprint.Jsonc
import ActionReprint.Proofs.Lexing

/-!
What the pass that strips comments makes of the parts of a text: a blank stays, a comment
leaves its line feeds, and a lexeme is handed on as it is. A comma that is held comes out
in front of the blanks it was held with, unless something closes behind them.
-/

namespace ActionReprint.Jsonc

inductive Filler where
  | blank (c : Char) (isBlank : Json.isBlank c = true)
  | lineComment (inside : List Char) (unbroken : '\n' ∉ inside)
  | blockComment (inside : List Char) (unclosed : ¬ ['*', '/'] <:+: inside)

namespace Filler

def text : Filler → List Char
  | .blank c _ => [c]
  | .lineComment inside _ => '/' :: '/' :: inside ++ ['\n']
  | .blockComment inside _ => '/' :: '*' :: inside ++ ['*', '/']

def left : Filler → List Char
  | .blank c _ => [c]
  | .lineComment _ _ => ['\n']
  | .blockComment inside _ => inside.filter (· == '\n')

theorem isBlank_of_mem_left {filler : Filler} : ∀ c ∈ filler.left, Json.isBlank c = true := by
  intro c member
  cases filler with
  | blank space isBlank =>
      rw [List.mem_singleton.mp member]
      exact isBlank
  | lineComment inside unbroken =>
      rw [List.mem_singleton.mp member]
      decide
  | blockComment inside unclosed =>
      have feed := (List.mem_filter.mp member).2
      rw [eq_of_beq feed]
      decide

end Filler

/-- What many blanks add to the output; `laterAll` is what they add to the held text. -/
def nowAll (held : Held) (blanks : List Char) : List Char :=
  match held with
  | none => blanks
  | some _ => []

def laterAll (held : Held) (blanks : List Char) : Held :=
  held.map (blanks.reverse ++ ·)

@[simp] theorem nowAll_nil (held : Held) : nowAll held [] = [] := by
  cases held <;> rfl

@[simp] theorem laterAll_nil (held : Held) : laterAll held [] = held := by
  cases held <;> rfl

theorem nowAll_append (held : Held) (blanks more : List Char) :
    nowAll held (blanks ++ more) = nowAll held blanks ++ nowAll (laterAll held blanks) more := by
  cases held <;> rfl

theorem laterAll_append (held : Held) (blanks more : List Char) :
    laterAll held (blanks ++ more) = laterAll (laterAll held blanks) more := by
  cases held <;> simp [laterAll]

theorem now_eq (held : Held) (blank : Char) : now held blank = nowAll held [blank] := by
  cases held <;> rfl

theorem later_eq (held : Held) (blank : Char) : later held blank = laterAll held [blank] := by
  cases held <;> rfl

theorem nowAll_kept (held : Held) (blanks : List Char) :
    nowAll held blanks ++ kept (laterAll held blanks) = kept held ++ blanks := by
  cases held <;> simp [nowAll, laterAll, kept]

theorem strip_lineComment_opened (held : Held) (rest : List Char) :
    strip (.code held) ('/' :: '/' :: rest) = strip (.lineComment held) rest := by
  simp [strip]

theorem strip_blockComment_opened (held : Held) (rest : List Char) :
    strip (.code held) ('/' :: '*' :: rest) = strip (.blockComment held) rest := by
  simp [strip]

theorem strip_blockComment_closed (held : Held) (rest : List Char) :
    strip (.blockComment held) ('*' :: '/' :: rest) = strip (.code held) rest := by
  simp [strip]

theorem strip_code {c : Char} {rest : List Char}
    (line : ∀ more, c = '/' → rest = '/' :: more → False)
    (block : ∀ more, c = '/' → rest = '*' :: more → False) (held : Held) :
    strip (.code held) (c :: rest) =
      if c = ',' then kept held ++ strip (.code (some [])) rest
      else if isClosing c then dropped held ++ c :: strip (.code none) rest
      else if Text.isBlank c then now held c ++ strip (.code (later held c)) rest
      else if c = '"' then kept held ++ c :: strip (.string false) rest
      else kept held ++ c :: strip (.code none) rest :=
  strip.eq_4 held c rest line block

theorem strip_open {c : Char} {rest : List Char}
    (open' : ∀ more, c = '*' → rest = '/' :: more → False) (held : Held) :
    strip (.blockComment held) (c :: rest) =
      if c = '\n' then now held c ++ strip (.blockComment (later held c)) rest
      else strip (.blockComment held) rest :=
  strip.eq_11 held c rest open'

/-- If the rest of a block comment leaves line feeds, the comment leaves them behind its first
character if that is one. -/
theorem strip_inside {c : Char} {rest feeds behind : List Char}
    (open' : ∀ more, c = '*' → rest = '/' :: more → False)
    (leaves : ∀ held, strip (.blockComment held) rest =
      nowAll held feeds ++ strip (.code (laterAll held feeds)) behind) (held : Held) :
    strip (.blockComment held) (c :: rest) =
      nowAll held ([c].filter (· == '\n') ++ feeds) ++
        strip (.code (laterAll held ([c].filter (· == '\n') ++ feeds))) behind := by
  rw [strip_open open']
  by_cases feed : c = '\n'
  · have counted : [c].filter (· == '\n') = [c] := by simp [feed]
    rw [if_pos feed, leaves, now_eq, later_eq, counted, nowAll_append, laterAll_append,
      List.append_assoc]
  · have skipped : [c].filter (· == '\n') = [] := by simp [feed]
    rw [if_neg feed, leaves, skipped, List.nil_append]

theorem strip_lineComment {inside : List Char} (unbroken : '\n' ∉ inside) (held : Held)
    (rest : List Char) :
    strip (.lineComment held) (inside ++ '\n' :: rest) =
      now held '\n' ++ strip (.code (later held '\n')) rest := by
  induction inside with
  | nil => simp [strip]
  | cons c tail ih =>
      obtain ⟨differs, within⟩ := not_or.mp (mt List.mem_cons.mpr unbroken)
      rw [List.cons_append, strip, if_neg (Ne.symm differs)]
      exact ih within

theorem strip_lineComment_end {inside : List Char} (unbroken : '\n' ∉ inside) (held : Held) :
    strip (.lineComment held) inside = kept held := by
  induction inside with
  | nil => rfl
  | cons c tail ih =>
      obtain ⟨differs, within⟩ := not_or.mp (mt List.mem_cons.mpr unbroken)
      rw [strip, if_neg (Ne.symm differs)]
      exact ih within

theorem strip_blockComment {inside : List Char} (unclosed : ¬ ['*', '/'] <:+: inside) (held : Held)
    (rest : List Char) :
    strip (.blockComment held) (inside ++ '*' :: '/' :: rest) =
      nowAll held (inside.filter (· == '\n')) ++
        strip (.code (laterAll held (inside.filter (· == '\n')))) rest := by
  induction inside generalizing held with
  | nil => simp [strip_blockComment_closed]
  | cons c tail ih =>
      have within : ¬ ['*', '/'] <:+: tail := by
        intro closed
        exact unclosed (List.infix_cons closed)
      -- The comment is not closed here: a star at the end of it is followed by another one.
      have open' : ∀ more, c = '*' → tail ++ '*' :: '/' :: rest = '/' :: more → False := by
        intro more star slash
        cases tail with
        | nil => cases slash
        | cons next others =>
            obtain ⟨rfl, _⟩ := List.cons.inj slash
            apply unclosed
            rw [star]
            exact List.IsPrefix.isInfix ⟨others, rfl⟩
      have feeds : (c :: tail).filter (· == '\n') =
          [c].filter (· == '\n') ++ tail.filter (· == '\n') := List.filter_append [c] tail
      rw [List.cons_append, feeds]
      exact strip_inside open' (ih within) held

theorem isBlank_of_json {c : Char} (blank : Json.isBlank c = true) : Text.isBlank c = true := by
  simp only [Json.isBlank, Bool.or_eq_true, beq_iff_eq] at blank
  rcases blank with ((rfl | rfl) | rfl) | rfl <;> decide

theorem strip_blank {c : Char} (blank : Json.isBlank c = true) (held : Held) (rest : List Char) :
    strip (.code held) (c :: rest) = now held c ++ strip (.code (later held c)) rest := by
  have spaced := isBlank_of_json blank
  simp only [Json.isBlank, Bool.or_eq_true, beq_iff_eq] at blank
  rcases blank with ((rfl | rfl) | rfl) | rfl <;> simp [strip, isClosing, spaced]

theorem strip_filler (filler : Filler) (held : Held) (rest : List Char) :
    strip (.code held) (filler.text ++ rest) =
      nowAll held filler.left ++ strip (.code (laterAll held filler.left)) rest := by
  cases filler with
  | blank c isBlank =>
      rw [Filler.text, List.singleton_append, strip_blank isBlank, now_eq, later_eq]
      rfl
  | lineComment inside unbroken =>
      have text : Filler.text (.lineComment inside unbroken) ++ rest =
          '/' :: '/' :: (inside ++ '\n' :: rest) := by
        simp [Filler.text]
      rw [text, strip_lineComment_opened, strip_lineComment unbroken, now_eq, later_eq]
      rfl
  | blockComment inside unclosed =>
      have text : Filler.text (.blockComment inside unclosed) ++ rest =
          '/' :: '*' :: (inside ++ '*' :: '/' :: rest) := by
        simp [Filler.text]
      rw [text, strip_blockComment_opened, strip_blockComment unclosed]
      rfl

abbrev Gap := List Filler

namespace Gap

def text (gap : Gap) : List Char :=
  gap.flatMap Filler.text

def left (gap : Gap) : List Char :=
  gap.flatMap Filler.left

theorem isBlank_of_mem_left {gap : Gap} : ∀ c ∈ gap.left, Json.isBlank c = true := by
  intro c member
  obtain ⟨filler, _, within⟩ := List.mem_flatMap.mp member
  exact Filler.isBlank_of_mem_left c within

end Gap

theorem strip_gap (gap : Gap) (held : Held) (rest : List Char) :
    strip (.code held) (gap.text ++ rest) =
      nowAll held gap.left ++ strip (.code (laterAll held gap.left)) rest := by
  induction gap generalizing held with
  | nil => simp [Gap.text, Gap.left]
  | cons filler more ih =>
      have text : Gap.text (filler :: more) = filler.text ++ Gap.text more := rfl
      have left : Gap.left (filler :: more) = filler.left ++ Gap.left more := rfl
      rw [text, left, List.append_assoc, strip_filler, ih, nowAll_append, laterAll_append,
        List.append_assoc]

def heldBy : Json.Lexeme → Held
  | .comma => some []
  | _ => none

theorem eq_comma_of_heldBy {lexeme : Json.Lexeme} (holds : (heldBy lexeme).isSome = true) :
    lexeme = .comma := by
  cases lexeme with
  | comma => rfl
  | _ => cases holds

theorem heldBy_of_ne_comma {lexeme : Json.Lexeme} (notComma : lexeme ≠ .comma) :
    heldBy lexeme = none := by
  cases lexeme with
  | comma => exact absurd rfl notComma
  | _ => rfl

/-- A character of code that stripping hands on. -/
structure Ordinary (c : Char) : Prop where
  slash : c ≠ '/'
  comma : c ≠ ','
  quote : c ≠ '"'
  closing : isClosing c = false
  blank : Text.isBlank c = false

instance (c : Char) : Decidable (Ordinary c) :=
  decidable_of_iff
    (c ≠ '/' ∧ c ≠ ',' ∧ c ≠ '"' ∧ isClosing c = false ∧ Text.isBlank c = false)
    ⟨fun ⟨slash, comma, quote, closing, blank⟩ => ⟨slash, comma, quote, closing, blank⟩,
      fun ⟨slash, comma, quote, closing, blank⟩ => ⟨slash, comma, quote, closing, blank⟩⟩

theorem ordinary_of_all {word : List Char} (all : (word.all fun c => decide (Ordinary c)) = true) :
    ∀ c ∈ word, Ordinary c := by
  intro c member
  exact of_decide_eq_true (List.all_eq_true.mp all c member)

theorem strip_ordinary {c : Char} (ordinary : Ordinary c) (held : Held) (rest : List Char) :
    strip (.code held) (c :: rest) = kept held ++ c :: strip (.code none) rest := by
  have notLine : ∀ more, c = '/' → rest = '/' :: more → False :=
    fun _ slash _ => ordinary.slash slash
  have notBlock : ∀ more, c = '/' → rest = '*' :: more → False :=
    fun _ slash _ => ordinary.slash slash
  rw [strip_code notLine notBlock, if_neg ordinary.comma,
    if_neg (by simp [ordinary.closing]), if_neg (by simp [ordinary.blank]), if_neg ordinary.quote]

theorem strip_word {word : List Char} (some : word ≠ []) (ordinary : ∀ c ∈ word, Ordinary c)
    (held : Held) (rest : List Char) :
    strip (.code held) (word ++ rest) = kept held ++ (word ++ strip (.code none) rest) := by
  induction word generalizing held with
  | nil => exact absurd rfl some
  | cons c tail ih =>
      rw [List.cons_append, strip_ordinary (ordinary c List.mem_cons_self)]
      cases tail with
      | nil => rfl
      | cons next more =>
          rw [ih (List.cons_ne_nil next more) fun other later =>
            ordinary other (List.mem_cons_of_mem c later)]
          rfl

theorem ordinary_of_isDigit {c : Char} (digit : Text.isDigit c = true) : Ordinary c := by
  have dense : ∀ code : Fin 58, 48 ≤ code.val → Text.blankCodes.contains code.val = false := by
    decide
  constructor
  · rintro rfl
    cases digit
  · rintro rfl
    cases digit
  · rintro rfl
    cases digit
  · cases closing : isClosing c with
    | false => rfl
    | true =>
        simp only [isClosing, Bool.or_eq_true, beq_iff_eq] at closing
        rcases closing with rfl | rfl <;> cases digit
  · simp only [Text.isDigit, Bool.and_eq_true, decide_eq_true_eq] at digit
    have low : 48 ≤ c.toNat := digit.1
    have high : c.toNat ≤ 57 := digit.2
    exact dense ⟨c.toNat, Nat.lt_succ_of_le high⟩ low

theorem ordinary_of_inNumber {c : Char} (part : Json.inNumber c = true) : Ordinary c := by
  simp only [Json.inNumber, Json.extendsNumber, Bool.or_eq_true, beq_iff_eq] at part
  rcases part with ((((digit | rfl) | rfl) | rfl) | rfl) | rfl
  · exact ordinary_of_isDigit digit
  all_goals decide

theorem afterStringChar_of_step {await next : Json.Quoted.Await} {c : Char}
    (inside : ¬ (await = .plain ∧ c = '"')) (step : Json.Quoted.step await c = some next) :
    afterStringChar (await == .escape) c = .string (next == .escape) := by
  -- Stripping only knows whether a backslash came before. That is enough to find the quote
  -- that ends the string, because no digit of an escape is a backslash or a quote.
  cases await with
  | plain =>
      have notQuote : c ≠ '"' := fun quote => inside ⟨rfl, quote⟩
      by_cases backslash : c = '\\'
      · rw [Json.Quoted.step, if_pos backslash] at step
        cases step
        rw [backslash]
        rfl
      · rw [Json.Quoted.step, if_neg backslash] at step
        split at step
        · cases step
        · cases step
          simp [afterStringChar, backslash, notQuote]
  | escape =>
      rw [Json.Quoted.step] at step
      split at step
      · cases step
        rfl
      · split at step
        · cases step
          rfl
        · cases step
  | digit others =>
      have hex : Text.hexValue? c ≠ none := by
        intro missing
        cases others <;> simp [Json.Quoted.step, missing] at step
      have notBackslash : c ≠ '\\' := by
        rintro rfl
        exact hex (by decide)
      have notQuote : c ≠ '"' := by
        rintro rfl
        exact hex (by decide)
      have plain : (next == .escape) = false := by
        cases others with
        | zero =>
            simp only [Json.Quoted.step, Option.isNone_iff_eq_none, if_neg hex] at step
            cases step
            rfl
        | succ fewer =>
            simp only [Json.Quoted.step, Option.isNone_iff_eq_none, if_neg hex] at step
            cases step
            rfl
      rw [plain]
      simp [afterStringChar, notBackslash, notQuote]

theorem strip_string {await : Json.Quoted.Await} {text inside rest : List Char}
    (found : Json.Quoted.close? await text = some (inside, rest)) (more : List Char) :
    strip (.string (await == .escape)) (inside ++ '"' :: more) =
      inside ++ '"' :: strip (.code none) more := by
  induction text generalizing await inside with
  | nil => cases found
  | cons c tail ih =>
      rcases Json.close?_shape found with
        ⟨rfl, rfl, rfl, _⟩ | ⟨next, front, open', step, rfl, inner⟩
      · rfl
      · rw [List.cons_append, strip, afterStringChar_of_step open' step, ih inner]
        rfl

theorem strip_comma (held : Held) (rest : List Char) :
    strip (.code held) (',' :: rest) = kept held ++ strip (.code (some [])) rest := by
  simp [strip]

theorem strip_closing {lexeme : Json.Lexeme} (closing : lexeme.isClosing = true) (held : Held)
    (rest : List Char) :
    strip (.code held) (lexeme.text ++ rest) =
      dropped held ++ (lexeme.text ++ strip (.code none) rest) := by
  cases lexeme with
  | closeObject => simp [Json.Lexeme.text, strip, isClosing]
  | closeArray => simp [Json.Lexeme.text, strip, isClosing]
  | _ => cases closing

theorem ordinary_of_mem_text {lexeme : Json.Lexeme} (proper : lexeme.Proper)
    (open' : lexeme.isClosing = false) (notComma : lexeme ≠ .comma)
    (unquoted : lexeme.isQuoted = false) : ∀ c ∈ lexeme.text, Ordinary c := by
  cases lexeme with
  | comma => exact absurd rfl notComma
  | closeObject => cases open'
  | closeArray => cases open'
  | quoted inside => cases unquoted
  | number written =>
      intro c member
      exact ordinary_of_inNumber (Json.inNumber_of_number? proper c member)
  | bool value => cases value <;> exact ordinary_of_all (by decide)
  | _ => exact ordinary_of_all (by decide)

theorem strip_quote (held : Held) (rest : List Char) :
    strip (.code held) ('"' :: rest) = kept held ++ '"' :: strip (.string false) rest := by
  simp [strip, isClosing, Text.isBlank, Text.blankCodes]

theorem strip_quoted {inside : List Char} (proper : (Json.Lexeme.quoted inside).Proper) (held : Held)
    (rest : List Char) :
    strip (.code held) ((Json.Lexeme.quoted inside).text ++ rest) =
      kept held ++ ((Json.Lexeme.quoted inside).text ++ strip (.code none) rest) := by
  have closed := strip_string proper rest
  simp only [Json.Lexeme.text, List.cons_append, List.append_assoc, List.nil_append, strip_quote]
  rw [← closed]
  rfl

theorem strip_lexeme {lexeme : Json.Lexeme} (proper : lexeme.Proper)
    (open' : lexeme.isClosing = false) (notComma : lexeme ≠ .comma) (held : Held)
    (rest : List Char) :
    strip (.code held) (lexeme.text ++ rest) =
      kept held ++ (lexeme.text ++ strip (.code none) rest) := by
  cases unquoted : lexeme.isQuoted with
  | false =>
      obtain ⟨c, tail, shape, _⟩ := Json.head_text proper
      exact strip_word (shape ▸ List.cons_ne_nil c tail)
        (ordinary_of_mem_text proper open' notComma unquoted) held rest
  | true =>
      cases lexeme with
      | quoted inside => exact strip_quoted proper held rest
      | _ => cases unquoted

end ActionReprint.Jsonc
