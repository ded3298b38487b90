import ActionReprint.Proofs.Stripping

/-!
Every text begins with a gap, and behind the longest one stands a character that is
stripped as it is, or a comment that only the end of the text ends. Whether a comma that is
held comes out is decided behind the gap. Main statements: `exists_gap`, `strip_held`.
-/

namespace ActionReprint.Jsonc

/-- A comment that only the end of the text ends, or nothing. -/
inductive Ending : List Char → Prop where
  | nothing : Ending []
  | lineComment {inside : List Char} (unbroken : '\n' ∉ inside) : Ending ('/' :: '/' :: inside)
  | blockComment {inside : List Char} (unclosed : ¬ ['*', '/'] <:+: inside) :
      Ending ('/' :: '*' :: inside)

inductive Bare : List Char → Prop where
  | ending {rest : List Char} (ends : Ending rest) : Bare rest
  | dense {c : Char} {rest : List Char} (notBlank : Json.isBlank c = false)
      (line : ∀ more, c = '/' → rest = '/' :: more → False)
      (block : ∀ more, c = '/' → rest = '*' :: more → False) : Bare (c :: rest)

theorem exists_close {text : List Char} (closed : ['*', '/'] <:+: text) :
    ∃ inside rest, text = inside ++ '*' :: '/' :: rest ∧ ¬ ['*', '/'] <:+: inside := by
  induction text with
  | nil => cases List.eq_nil_of_infix_nil closed
  | cons c tail ih =>
      by_cases here : ['*', '/'] <+: c :: tail
      · obtain ⟨rest, shape⟩ := here
        refine ⟨[], rest, shape.symm, ?_⟩
        intro wrong
        cases List.eq_nil_of_infix_nil wrong
      · have later := (List.infix_cons_iff.mp closed).resolve_left here
        obtain ⟨inside, rest, rfl, unclosed⟩ := ih later
        refine ⟨c :: inside, rest, rfl, ?_⟩
        intro wrong
        rcases List.infix_cons_iff.mp wrong with front | within
        · exact here (front.trans (List.prefix_append (c :: inside) _))
        · exact unclosed within

theorem exists_gap (text : List Char) :
    ∃ (gap : Gap) (rest : List Char), text = gap.text ++ rest ∧ Bare rest := by
  induction size : text.length using Nat.strong_induction_on generalizing text with
  | h n ih =>
  subst size
  -- One filler is taken off, and what is left is shorter.
  have behind : ∀ (filler : Filler) (rest : List Char), text = filler.text ++ rest →
      ∃ (gap : Gap) (rest : List Char), text = gap.text ++ rest ∧ Bare rest := by
    intro filler rest shape
    have shorter : rest.length < text.length := by
      rw [shape]
      cases filler <;> simp [Filler.text] <;> omega
    obtain ⟨gap, last, rfl, bare⟩ := ih _ shorter rest rfl
    exact ⟨filler :: gap, last, by rw [shape]; simp [Gap.text], bare⟩
  cases text with
  | nil => exact ⟨[], [], rfl, .ending .nothing⟩
  | cons c tail =>
      by_cases blank : Json.isBlank c = true
      · exact behind (.blank c blank) tail rfl
      · by_cases line : c = '/' ∧ ∃ more, tail = '/' :: more
        · obtain ⟨rfl, more, rfl⟩ := line
          by_cases broken : '\n' ∈ more
          · obtain ⟨inside, rest, rfl, unbroken⟩ := List.eq_append_cons_of_mem broken
            exact behind (.lineComment inside unbroken) rest (by simp [Filler.text])
          · exact ⟨[], _, rfl, .ending (.lineComment broken)⟩
        · by_cases block : c = '/' ∧ ∃ more, tail = '*' :: more
          · obtain ⟨rfl, more, rfl⟩ := block
            by_cases closed : ['*', '/'] <:+: more
            · obtain ⟨inside, rest, rfl, unclosed⟩ := exists_close closed
              exact behind (.blockComment inside unclosed) rest (by simp [Filler.text])
            · exact ⟨[], _, rfl, .ending (.blockComment closed)⟩
          · refine ⟨[], _, rfl, .dense (Bool.not_eq_true _ ▸ blank) ?_ ?_⟩
            · intro more slash shape
              exact line ⟨slash, more, shape⟩
            · intro more slash shape
              exact block ⟨slash, more, shape⟩

theorem strip_blockComment_end {inside : List Char} (unclosed : ¬ ['*', '/'] <:+: inside)
    (held : Held) :
    strip (.blockComment held) inside = kept held ++ inside.filter (· == '\n') := by
  induction inside generalizing held with
  | nil => simp [strip]
  | cons c tail ih =>
      have within : ¬ ['*', '/'] <:+: tail := fun closed => unclosed (List.infix_cons closed)
      have open' : ∀ more, c = '*' → tail = '/' :: more → False := by
        rintro more rfl rfl
        exact unclosed (List.IsPrefix.isInfix ⟨more, rfl⟩)
      rw [strip_open open']
      by_cases feed : c = '\n'
      · rw [if_pos feed, ih within, now_eq, later_eq, ← List.append_assoc, nowAll_kept]
        simp [feed]
      · rw [if_neg feed, ih within]
        simp [feed]

theorem strip_of_ending {rest : List Char} (ends : Ending rest) :
    ∃ blanks, (∀ c ∈ blanks, Json.isBlank c = true) ∧
      ∀ held, strip (.code held) rest = kept held ++ blanks := by
  cases ends with
  | nothing => exact ⟨[], by simp, fun held => by simp [strip]⟩
  | lineComment unbroken =>
      refine ⟨[], by simp, fun held => ?_⟩
      rw [strip, strip_lineComment_end unbroken, List.append_nil]
  | @blockComment inside unclosed =>
      refine ⟨inside.filter (· == '\n'), ?_, fun held => ?_⟩
      · intro c member
        rw [eq_of_beq (List.mem_filter.mp member).2]
        rfl
      · rw [strip, strip_blockComment_end unclosed]

section
variable {c : Char} {rest : List Char}
  (line : ∀ more, c = '/' → rest = '/' :: more → False)
  (block : ∀ more, c = '/' → rest = '*' :: more → False)
include line block

theorem strip_dense (notComma : c ≠ ',') (notQuote : c ≠ '"') :
    strip (.code none) (c :: rest) = c :: strip (.code none) rest := by
  rw [strip_code line block, if_neg notComma, if_neg notQuote]
  simp [dropped, kept, now, later]

theorem strip_kept (notClosing : isClosing c = false) (notBlank : Text.isBlank c = false)
    (held : Held) :
    strip (.code held) (c :: rest) = kept held ++ strip (.code none) (c :: rest) := by
  rw [strip_code line block, strip_code line block]
  simp only [notClosing, notBlank, Bool.false_eq_true, if_false]
  split
  · rfl
  · split <;> rfl

theorem strip_dropped (closing : isClosing c = true) (held : Held) :
    strip (.code held) (c :: rest) = dropped held ++ strip (.code none) (c :: rest) := by
  have notComma : c ≠ ',' := by
    rintro rfl
    cases closing
  rw [strip_code line block, strip_code line block, if_neg notComma,
    if_neg notComma, if_pos closing, if_pos closing]
  rfl

theorem strip_spaced (blank : Text.isBlank c = true) (blanks : List Char) :
    strip (.code (some blanks)) (c :: rest) = strip (.code (some (c :: blanks))) rest := by
  have notComma : c ≠ ',' := by
    rintro rfl
    revert blank
    decide
  have notClosing : ¬ isClosing c = true := by
    intro closing
    simp only [isClosing, Bool.or_eq_true, beq_iff_eq] at closing
    rcases closing with rfl | rfl <;> revert blank <;> decide
  rw [strip_code line block, if_neg notComma, if_neg notClosing, if_pos blank]
  rfl

end

/-- A held comma comes out in front of the blanks that are held with it, or it is dropped
and something closes behind these and maybe other blanks. -/
theorem strip_held (blanks text : List Char) :
    (∃ behind, strip (.code (some blanks)) text = kept (some blanks) ++ behind) ∨
      ∃ more c behind, (∀ blank ∈ more, Text.isBlank blank = true) ∧ isClosing c = true ∧
        strip (.code (some blanks)) text = dropped (some blanks) ++ more ++ c :: behind := by
  induction size : text.length using Nat.strong_induction_on generalizing blanks text with
  | h n ih =>
  subst size
  obtain ⟨gap, rest, rfl, bare⟩ := exists_gap text
  have within : strip (.code (some blanks)) (gap.text ++ rest) =
      strip (.code (some (gap.left.reverse ++ blanks))) rest := by
    rw [strip_gap]
    rfl
  rw [within]
  have spaced : ∀ blank ∈ gap.left, Text.isBlank blank = true := fun blank member =>
    isBlank_of_json (Gap.isBlank_of_mem_left blank member)
  cases bare with
  | ending ends =>
      obtain ⟨more, _, stripped⟩ := strip_of_ending ends
      refine Or.inl ⟨gap.left ++ more, ?_⟩
      simp [stripped, kept]
  | @dense c rest notBlank line block =>
      by_cases closing : isClosing c = true
      · have notComma : c ≠ ',' := by
          rintro rfl
          cases closing
        have notQuote : c ≠ '"' := by
          rintro rfl
          cases closing
        refine Or.inr ⟨gap.left, c, strip (.code none) rest, spaced, closing, ?_⟩
        rw [strip_dropped line block closing, strip_dense line block notComma notQuote]
        simp [dropped]
      · by_cases blank : Text.isBlank c = true
        · -- A blank that is none in JSON: the comma is held on.
          rw [strip_spaced line block blank]
          have shorter : rest.length < (gap.text ++ c :: rest).length := by simp; omega
          rcases ih _ shorter (c :: (gap.left.reverse ++ blanks)) rest rfl with
            ⟨behind, stripped⟩ | ⟨more, d, behind, allBlank, closes, stripped⟩
          · refine Or.inl ⟨gap.left ++ c :: behind, ?_⟩
            simp [stripped, kept]
          · refine Or.inr ⟨gap.left ++ c :: more, d, behind, ?_, closes, ?_⟩
            · intro other member
              rcases List.mem_append.mp member with front | back
              · exact spaced other front
              · rcases List.mem_cons.mp back with rfl | later
                · exact blank
                · exact allBlank other later
            · simp [stripped, dropped]
        · refine Or.inl ⟨gap.left ++ strip (.code none) (c :: rest), ?_⟩
          rw [strip_kept line block (Bool.not_eq_true _ ▸ closing) (Bool.not_eq_true _ ▸ blank)]
          simp [kept]

end ActionReprint.Jsonc
