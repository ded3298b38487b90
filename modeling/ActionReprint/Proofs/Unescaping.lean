import ActionReprint.Proofs.Escaping

/-!
Escaped literals that are read again. A reader takes a backslash and the character
behind it as a pair, and a numeric escape for the unit or the scalar it names. Escapes
are put in where a backslash could already stand, but they begin with one themselves: a
numeric escape that an image leaves unfinished is not finished by them, and none of
theirs is cut short. Main statement: `escape_keeps_reading`.
-/

namespace ActionReprint

namespace Text

def hex? : Nat → Nat → List Char → Option (Nat × List Char)
  | 0, total, text => some (total, text)
  | _ + 1, _, [] => none
  | width + 1, total, c :: rest =>
      (hexValue? c).bind fun value => hex? width (16 * total + value) rest

theorem length_of_hex? {width total value : Nat} {text behind : List Char}
    (found : hex? width total text = some (value, behind)) : behind.length ≤ text.length := by
  induction width generalizing total text with
  | zero =>
      cases found
      exact Nat.le_refl _
  | succ width ih =>
      cases text with
      | nil => cases found
      | cons c rest =>
          obtain ⟨digit, _, onward⟩ := Option.bind_eq_some_iff.mp found
          exact Nat.le_succ_of_le (ih onward)

theorem hex?_append (digits more : List Char) (total : Nat) :
    hex? digits.length total (digits ++ more) =
      (digits.foldlM (fun total c => (hexValue? c).map (16 * total + ·)) total).map (·, more) := by
  induction digits generalizing total with
  | nil => rfl
  | cons c rest ih =>
      simp only [List.length_cons, List.cons_append, hex?, List.foldlM_cons]
      cases hexValue? c with
      | none => rfl
      | some value => exact ih (16 * total + value)

theorem hex?_fixedHex {width value : Nat} (fits : value < Nat.pow 16 width) (more : List Char) :
    hex? width 0 (fixedHex width value ++ more) = some (value, more) := by
  have read := hex?_append (fixedHex width value) more 0
  have digits := readHex?_fixedHex width value
  rw [Nat.mod_eq_of_lt fits, readHex?] at digits
  rw [length_fixedHex, digits] at read
  exact read

end Text

namespace Literal

def units (c : Char) : List Nat :=
  if c.toNat < 0x10000 then [c.toNat]
  else [0xD800 + (c.toNat - 0x10000) / 0x400, 0xDC00 + (c.toNat - 0x10000) % 0x400]

/-- A character by itself: in units where escapes name units, else as the scalar it is. -/
def codes : EscapeStyle → Char → List Nat
  | .surrogates, c => units c
  | .long, c => [c.toNat]

def width? (style : EscapeStyle) (letter : Char) : Option Nat :=
  if letter = 'u' then some 4
  else if letter = 'U' ∧ style = .long then some 8
  else none

def numeric? (style : EscapeStyle) (letter : Char) (text : List Char) : Option (Nat × List Char) :=
  (width? style letter).bind fun width => Text.hex? width 0 text

theorem length_of_numeric? {style : EscapeStyle} {letter : Char} {text behind : List Char}
    {code : Nat} (found : numeric? style letter text = some (code, behind)) :
    behind.length ≤ text.length := by
  obtain ⟨width, _, digits⟩ := Option.bind_eq_some_iff.mp found
  exact Text.length_of_hex? digits

/-- A text from left to right: a numeric escape counts as what it names, all else as
itself. A backslash takes the character behind it along, whatever that is. -/
def read (style : EscapeStyle) : List Char → List Nat
  | [] => []
  | '\\' :: letter :: rest =>
      match _found : numeric? style letter rest with
      | some (code, behind) => code :: read style behind
      | none => codes style '\\' ++ codes style letter ++ read style rest
  | c :: rest => codes style c ++ read style rest
termination_by text => text.length
decreasing_by
  · have shorter := length_of_numeric? _found
    simp only [List.length_cons]
    omega
  · simp only [List.length_cons]
    omega
  · simp

/-- The second halves of the pairs that a reader makes with a backslash. -/
def paired : List Char → List Char
  | [] => []
  | '\\' :: c :: rest => c :: paired rest
  | _ :: rest => paired rest

def Ascii (c : Char) : Prop :=
  (0x20 ≤ c.toNat ∧ c.toNat ≤ 0x7E) ∨
    c.toNat = 0x09 ∨ c.toNat = 0x0A ∨ c.toNat = 0x0D ∨ c.toNat = 0x0C

instance (c : Char) : Decidable (Ascii c) :=
  inferInstanceAs (Decidable (_ ∨ _))

theorem isPlain_iff (c : Char) : isPlain c = true ↔ Ascii c := by
  have code : ∀ d : Char, c = d ↔ c.toNat = d.toNat := fun d => Char.toNat_inj.symm
  have below : ∀ d e : Char, d ≤ e ↔ d.toNat ≤ e.toNat := fun _ _ => UInt32.le_iff_toNat_le
  simp only [isPlain, Ascii, Bool.or_eq_true, Bool.and_eq_true, beq_iff_eq, decide_eq_true_eq,
    code, below, Char.reduceToNat]
  omega

theorem isPlain_of_hexValue? {c : Char} {value : Nat} (digit : Text.hexValue? c = some value) :
    isPlain c = true ∧ c ≠ '\\' := by
  have below : ∀ d e : Char, d ≤ e ↔ d.toNat ≤ e.toNat := fun _ _ => UInt32.le_iff_toNat_le
  have ranges : (48 ≤ c.toNat ∧ c.toNat ≤ 57) ∨ (97 ≤ c.toNat ∧ c.toNat ≤ 102) ∨
      (65 ≤ c.toNat ∧ c.toNat ≤ 70) := by
    by_contra outside
    simp only [not_or] at outside
    simp [Text.hexValue?, below, outside] at digit
  constructor
  · rw [isPlain_iff]
    unfold Ascii
    omega
  · rintro rfl
    revert ranges
    decide

/-- Digits stay where they are, and an escape does not begin with one. -/
theorem hex?_escapeChars (style : EscapeStyle) (width total : Nat) (text : List Char) :
    Text.hex? width total (escapeChars style text) =
      (Text.hex? width total text).map fun found => (found.1, escapeChars style found.2) := by
  induction width generalizing total text with
  | zero => rfl
  | succ width ih =>
      cases text with
      | nil => rfl
      | cons c rest =>
          rw [escapeChars_cons, Text.hex?]
          cases digit : Text.hexValue? c with
          | some value =>
              rw [escapeChar_of_plain style (isPlain_of_hexValue? digit).1]
              simp [Text.hex?, digit, ih]
          | none =>
              cases plain : isPlain c with
              | true => simp [escapeChar_of_plain style plain, Text.hex?, digit]
              | false =>
                  obtain ⟨digits, shape⟩ := escapeChar_of_escaped style plain
                  have backslash : Text.hexValue? '\\' = none := by decide
                  simp [shape, Text.hex?, backslash]

theorem numeric?_escapeChars (style again : EscapeStyle) (letter : Char) (text : List Char) :
    numeric? style letter (escapeChars again text) =
      (numeric? style letter text).map fun found => (found.1, escapeChars again found.2) := by
  unfold numeric?
  cases width? style letter with
  | none => rfl
  | some width => exact hex?_escapeChars again width 0 text

theorem paired_of_hex? {width total code : Nat} {text behind : List Char}
    (found : Text.hex? width total text = some (code, behind)) : paired text = paired behind := by
  induction width generalizing total text with
  | zero =>
      cases found
      rfl
  | succ width ih =>
      cases text with
      | nil => cases found
      | cons c rest =>
          obtain ⟨value, digit, onward⟩ := Option.bind_eq_some_iff.mp found
          have single : paired (c :: rest) = paired rest := by
            simp [paired, (isPlain_of_hexValue? digit).2]
          rw [single]
          exact ih onward

theorem read_numeric {style : EscapeStyle} {letter : Char} {rest behind : List Char} {code : Nat}
    (found : numeric? style letter rest = some (code, behind)) :
    read style ('\\' :: letter :: rest) = code :: read style behind := by
  rw [read]
  split
  · next found' =>
      rw [found] at found'
      cases found'
      rfl
  · next missing =>
      rw [found] at missing
      cases missing

theorem read_pair {style : EscapeStyle} {letter : Char} {rest : List Char}
    (missing : numeric? style letter rest = none) :
    read style ('\\' :: letter :: rest) =
      codes style '\\' ++ codes style letter ++ read style rest := by
  rw [read]
  split
  · next found =>
      rw [missing] at found
      cases found
  · rfl

theorem read_single (style : EscapeStyle) {c : Char} {rest : List Char}
    (single : ∀ letter behind, c = '\\' → rest = letter :: behind → False) :
    read style (c :: rest) = codes style c ++ read style rest := by
  rw [read]
  exact single

theorem read_escapeUnit (style : EscapeStyle) {unit : Nat} (fits : unit < 0x10000)
    (more : List Char) : read style (escapeUnit unit ++ more) = unit :: read style more := by
  have digits : numeric? style 'u' (Text.fixedHex 4 unit ++ more) = some (unit, more) :=
    Text.hex?_fixedHex fits more
  exact read_numeric digits

theorem read_escapeScalar {code : Nat} (fits : code < 0x100000000) (more : List Char) :
    read .long (escapeScalar code ++ more) = code :: read .long more := by
  have digits : numeric? .long 'U' (Text.fixedHex 8 code ++ more) = some (code, more) :=
    Text.hex?_fixedHex fits more
  exact read_numeric digits

theorem toNat_lt (c : Char) : c.toNat < 0x110000 := by
  have valid := c.valid
  simp only [UInt32.isValidChar, Nat.isValidChar] at valid
  change c.val.toNat < _
  omega

theorem read_escapeChar (style : EscapeStyle) {c : Char} (escaped : isPlain c = false)
    (more : List Char) :
    read style (escapeChar style c ++ more) = codes style c ++ read style more := by
  have small := toNat_lt c
  rcases escapeChar_cases style escaped with
    ⟨low, unit⟩ | ⟨high, ⟨rfl, pair⟩ | ⟨rfl, scalar⟩⟩
  · have code : codes style c = [c.toNat] := by
      cases style with
      | surrogates => simp [codes, units, Nat.lt_succ_of_le low]
      | long => rfl
    rw [code, unit, read_escapeUnit style (Nat.lt_succ_of_le low)]
    rfl
  · have code : codes .surrogates c = [leadingUnit c.toNat, trailingUnit c.toNat] :=
      if_neg (Nat.not_lt_of_le high)
    have leading : leadingUnit c.toNat < 0x10000 := by
      unfold leadingUnit
      omega
    have trailing : trailingUnit c.toNat < 0x10000 := by
      unfold trailingUnit
      omega
    rw [code, pair, List.append_assoc, read_escapeUnit _ leading, read_escapeUnit _ trailing]
    rfl
  · rw [scalar, read_escapeScalar (by omega)]
    rfl

theorem read_escapeChars (style : EscapeStyle) {image : List Char}
    (plain : ∀ c ∈ paired image, isPlain c = true) :
    read style (escapeChars style image) = read style image := by
  have backslash : escapeChar style '\\' = ['\\'] := rfl
  induction image using read.induct style with
  | case1 => rfl
  | case2 letter rest code behind found ih =>
      -- The digits behind the pair are kept, so the escape is read as before.
      simp only [paired, List.forall_mem_cons] at plain
      obtain ⟨width, _, digits⟩ := Option.bind_eq_some_iff.mp found
      have again := numeric?_escapeChars style style letter rest
      rw [found] at again
      rw [escapeChars_cons, escapeChars_cons, backslash, escapeChar_of_plain style plain.1,
        List.singleton_append, List.singleton_append, read_numeric again, read_numeric found,
        ih (paired_of_hex? digits ▸ plain.2)]
  | case3 letter rest missing ih =>
      simp only [paired, List.forall_mem_cons] at plain
      have again := numeric?_escapeChars style style letter rest
      rw [missing] at again
      rw [escapeChars_cons, escapeChars_cons, backslash, escapeChar_of_plain style plain.1,
        List.singleton_append, List.singleton_append, read_pair again, read_pair missing,
        ih plain.2]
  | case4 c rest single ih =>
      have others : paired (c :: rest) = paired rest := by
        rw [paired]
        exact single
      rw [others] at plain
      rw [escapeChars_cons, read_single style single]
      cases isPlain' : isPlain c with
      | false => rw [read_escapeChar style isPlain', ih plain]
      | true =>
          have still : ∀ letter behind, c = '\\' → escapeChars style rest = letter :: behind →
              False := by
            intro letter behind isBackslash shape
            cases rest with
            | nil => cases shape
            | cons next more => exact single next more isBackslash rfl
          rw [escapeChar_of_plain style isPlain', List.singleton_append, read_single style still,
            ih plain]

theorem isPlain_of_mem_numeral {letter c : Char} (plain : isPlain letter = true)
    {width value : Nat} (member : c ∈ '\\' :: letter :: Text.fixedHex width value) :
    isPlain c = true := by
  simp only [List.mem_cons] at member
  rcases member with rfl | rfl | inside
  · rfl
  · exact plain
  · obtain ⟨digit, rfl⟩ := Text.mem_fixedHex inside
    exact (isPlain_of_hexValue? (Text.hexValue?_hexDigit digit.isLt)).1

theorem isPlain_of_mem_escapeChar {style : EscapeStyle} {c d : Char}
    (member : c ∈ escapeChar style d) : isPlain c = true := by
  cases plain : isPlain d with
  | true =>
      rw [escapeChar_of_plain style plain, List.mem_singleton] at member
      rwa [member]
  | false =>
      rcases escapeChar_cases style plain with ⟨_, unit⟩ | ⟨_, ⟨_, pair⟩ | ⟨_, scalar⟩⟩
      · exact isPlain_of_mem_numeral rfl (unit ▸ member)
      · rw [pair, List.mem_append] at member
        rcases member with leading | trailing
        · exact isPlain_of_mem_numeral rfl leading
        · exact isPlain_of_mem_numeral rfl trailing
      · exact isPlain_of_mem_numeral rfl (scalar ▸ member)

theorem isPlain_of_mem_escapeChars {style : EscapeStyle} {image : List Char} {c : Char}
    (member : c ∈ escapeChars style image) : isPlain c = true := by
  obtain ⟨d, _, inside⟩ := List.mem_flatMap.mp member
  exact isPlain_of_mem_escapeChar inside

end Literal

/-- A literal that takes nothing but ASCII along behind a backslash is read as before once
it is escaped. What is written is ASCII for any image, has the line feeds of the image and
is not changed by escaping it once more. -/
theorem Literal.escape_keeps_reading (style : EscapeStyle) (image : String) :
    ((∀ c ∈ paired image.toList, Ascii c) →
        read style (escape style image).toList = read style image.toList) ∧
      (∀ c ∈ (escape style image).toList, Ascii c) ∧
      (escape style image).toList.count '\n' = image.toList.count '\n' ∧
      ∀ again, escape again (escape style image) = escape style image := by
  have ascii : ∀ c ∈ (escape style image).toList, isPlain c = true := by
    intro c member
    rw [toList_escape] at member
    exact isPlain_of_mem_escapeChars member
  refine ⟨?reading, ?written, ?feeds, ?twice⟩
  case reading =>
    intro paired
    rw [toList_escape]
    exact read_escapeChars style fun c member => (isPlain_iff c).mpr (paired c member)
  case written => exact fun c member => (isPlain_iff c).mp (ascii c member)
  case feeds =>
    rw [toList_escape]
    exact count_feed_escapeChars style image.toList
  case twice =>
    intro again
    rw [escape, escapeChars_of_plain again ascii, String.ofList_toList]

-- behind a backslash that is already there, the escape would fall apart
example : Literal.read .long (Literal.escape .long "\\é").toList ≠
    Literal.read .long "\\é".toList := by decide +kernel

-- an escape that ends early in front of a character to escape, and pairs of its own
def Literal.unfinished : String := "\\u00é\\\\\\n😀"

theorem Literal.escape_keeps_reading_unfinished :
    (∀ c ∈ paired unfinished.toList, Ascii c) ∧
      read .surrogates (escape .surrogates unfinished).toList =
        read .surrogates unfinished.toList ∧
      read .long (escape .long unfinished).toList = read .long unfinished.toList := by
  have ascii : (paired unfinished.toList).all (fun c => decide (Ascii c)) = true := by decide
  have settled : ∀ c ∈ paired unfinished.toList, Ascii c := by simpa using ascii
  exact ⟨settled, (escape_keeps_reading .surrogates unfinished).1 settled,
    (escape_keeps_reading .long unfinished).1 settled⟩

end ActionReprint
