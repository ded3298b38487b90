import ActionReprint.Json.Shape
import ActionReprint.Proofs.Escaping
import ActionReprint.Proofs.Lexing

/-!
Strings that are written down and read again. Each character is written so that a reader
who comes to it takes it for itself and goes on behind it, so a string of any characters
ends where it was ended and has the text that it was written for.
-/

namespace ActionReprint.Json.Quoted

theorem encodeChar_shape (c : Char) :
    (∃ letter, encodeChar c = ['\\', letter] ∧ letter ≠ 'u' ∧
      shortEscapes.lookup letter = some c) ∨
    (isControl c = true ∧ encodeChar c = '\\' :: 'u' :: Text.fixedHex 4 c.toNat) ∨
    (encodeChar c = [c] ∧ c ≠ '"' ∧ c ≠ '\\' ∧ isControl c = false) := by
  by_cases own : c = '"' ∨ c = '\\'
  · refine Or.inl ⟨c, if_pos own, ?_⟩
    rcases own with rfl | rfl <;> decide
  · cases short : shortControls.lookup c with
    | some letter =>
        refine Or.inl ⟨letter, by simp [encodeChar, own, short], ?_⟩
        have member : (c, letter) ∈ shortControls := by
          obtain ⟨front, back, parts, _⟩ := List.lookup_eq_some_iff.mp short
          simp [parts]
        simp only [shortControls, List.mem_cons, Prod.mk.injEq, List.not_mem_nil,
          or_false] at member
        rcases member with ⟨rfl, rfl⟩ | ⟨rfl, rfl⟩ | ⟨rfl, rfl⟩ | ⟨rfl, rfl⟩ | ⟨rfl, rfl⟩ <;> decide
    | none =>
        cases control : isControl c with
        | true => exact Or.inr (Or.inl ⟨rfl, by simp [encodeChar, own, short, control]⟩)
        | false =>
            rw [not_or] at own
            exact Or.inr (Or.inr ⟨by simp [encodeChar, own, short, control], own.1, own.2, rfl⟩)

def prepend (text : List Char) (found : List Char × List Char) : List Char × List Char :=
  (text ++ found.1, found.2)

theorem close?_step {await next : Await} {c : Char} (open' : ¬ (await = .plain ∧ c = '"'))
    (step : Quoted.step await c = some next) (rest : List Char) :
    close? await (c :: rest) = (close? next rest).map (prepend [c]) := by
  rw [close?, if_neg open', step]
  rfl

theorem close?_digits {digits : List Char} (hex : ∀ c ∈ digits, (Text.hexValue? c).isSome = true)
    (some : digits ≠ []) (rest : List Char) :
    close? (.digit (digits.length - 1)) (digits ++ rest) =
      (close? .plain rest).map (prepend digits) := by
  induction digits with
  | nil => exact absurd rfl some
  | cons c others ih =>
      rw [List.forall_mem_cons] at hex
      have digit : (Text.hexValue? c).isNone = false := by
        rw [← Option.not_isSome, hex.1]
        rfl
      cases others with
      | nil => exact close?_step (by simp) (by simp [step, digit]) rest
      | cons d more =>
          have onward := ih hex.2 (List.cons_ne_nil d more)
          have stepped : step (.digit (more.length + 1)) c = Option.some (.digit more.length) := by
            simp [step, digit]
          simp only [List.length_cons, Nat.add_sub_cancel] at onward ⊢
          rw [List.cons_append, close?_step (by simp) stepped, onward, Option.map_map]
          rfl

theorem close?_encodeChar (c : Char) (rest : List Char) :
    close? .plain (encodeChar c ++ rest) = (close? .plain rest).map (prepend (encodeChar c)) := by
  have backslash : ∀ text, close? .plain ('\\' :: text) =
      (close? .escape text).map (prepend ['\\']) := close?_step (by simp) rfl
  rcases encodeChar_shape c with ⟨letter, shape, notUnit, known⟩ | ⟨_, shape⟩ |
    ⟨shape, notQuote, notBackslash, free⟩
  · have stepped : step .escape letter = some .plain := by simp [step, notUnit, known]
    rw [shape, List.cons_append, List.singleton_append, backslash,
      close?_step (by simp) stepped, Option.map_map]
    rfl
  · have stepped : step .escape 'u' = some (.digit 3) := rfl
    have hex : ∀ d ∈ Text.fixedHex 4 c.toNat, (Text.hexValue? d).isSome = true := by
      intro d member
      obtain ⟨digit, rfl⟩ := Text.mem_fixedHex member
      rw [Text.hexValue?_hexDigit digit.isLt]
      rfl
    have nonempty : Text.fixedHex 4 c.toNat ≠ [] :=
      List.ne_nil_of_length_pos (by rw [Text.length_fixedHex]; decide)
    have digits := close?_digits hex nonempty rest
    rw [Text.length_fixedHex] at digits
    rw [shape, List.cons_append, List.cons_append, backslash, close?_step (by simp) stepped,
      digits, Option.map_map, Option.map_map]
    rfl
  · have stepped : step .plain c = some .plain := by simp [step, notBackslash, free]
    rw [shape]
    exact close?_step (by simp [notQuote]) stepped rest

theorem close?_encode (text more : List Char) :
    close? .plain (encode text ++ '"' :: more) = some (encode text, more) := by
  induction text with
  | nil => rfl
  | cons c rest ih =>
      rw [encode, List.flatMap_cons, List.append_assoc, close?_encodeChar]
      rw [encode] at ih
      rw [ih]
      rfl

theorem pieces?_short {letter meant : Char} (notUnit : letter ≠ 'u')
    (known : shortEscapes.lookup letter = some meant) (rest : List Char) :
    pieces? ('\\' :: letter :: rest) = (pieces? rest).map (.char meant :: ·) := by
  rw [pieces?]
  · rw [known]
    cases pieces? rest <;> rfl
  · intro a b c d more same
    exact absurd same notUnit

theorem pieces?_unit {value : Nat} (fits : value < Nat.pow 16 4) (rest : List Char) :
    pieces? ('\\' :: 'u' :: (Text.fixedHex 4 value ++ rest)) =
      (pieces? rest).map (.unit value :: ·) := by
  have digits := Text.readHex?_fixedHex 4 value
  rw [Nat.mod_eq_of_lt fits] at digits
  obtain ⟨a, b, c, d, shape⟩ := List.length_eq_four.mp (Text.length_fixedHex 4 value)
  rw [shape] at digits ⊢
  simp only [List.cons_append, List.nil_append, pieces?, digits]
  cases pieces? rest <;> rfl

theorem pieces?_char {c : Char} (notBackslash : c ≠ '\\') (rest : List Char) :
    pieces? (c :: rest) = (pieces? rest).map (.char c :: ·) := by
  rw [pieces?]
  · cases pieces? rest <;> rfl
  all_goals
    intros
    contradiction

theorem text?_char (c : Char) (pieces : List Piece) :
    text? (.char c :: pieces) = (text? pieces).map (c :: ·) := rfl

theorem text?_unit {value : Nat} (leading : isLeading value = false)
    (trailing : isTrailing value = false) (pieces : List Piece) :
    text? (.unit value :: pieces) = (text? pieces).map (Char.ofNat value :: ·) := by
  cases pieces with
  | nil => simp [text?, leading, trailing]
  | cons piece rest =>
      cases piece with
      | char c => simp [text?, leading, trailing]
      | unit other => simp [text?, leading, trailing]

theorem decode?_encodeChar (c : Char) (rest : List Char) :
    decode? (encodeChar c ++ rest) = (decode? rest).map (c :: ·) := by
  unfold decode?
  rcases encodeChar_shape c with ⟨letter, shape, notUnit, known⟩ | ⟨control, shape⟩ |
    ⟨shape, _, notBackslash, _⟩
  · rw [shape, List.cons_append, List.singleton_append, pieces?_short notUnit known]
    cases pieces? rest with
    | none => rfl
    | some pieces => exact text?_char c pieces
  · have small : c.toNat < 0x20 := by simpa [isControl] using control
    have leading : isLeading c.toNat = false := by
      simp only [isLeading, Bool.and_eq_false_iff, decide_eq_false_iff_not]
      omega
    have trailing : isTrailing c.toNat = false := by
      simp only [isTrailing, Bool.and_eq_false_iff, decide_eq_false_iff_not]
      omega
    have fits : c.toNat < Nat.pow 16 4 := Nat.lt_trans small (by decide)
    rw [shape, List.cons_append, List.cons_append, pieces?_unit fits]
    cases pieces? rest with
    | none => rfl
    | some pieces =>
        have read := text?_unit leading trailing pieces
        rw [Char.ofNat_toNat] at read
        exact read
  · rw [shape, List.singleton_append, pieces?_char notBackslash]
    cases pieces? rest with
    | none => rfl
    | some pieces => exact text?_char c pieces

theorem decode?_encode (text : List Char) : decode? (encode text) = some text := by
  induction text with
  | nil => rfl
  | cons c rest ih =>
      rw [encode] at ih
      rw [encode, List.flatMap_cons, decode?_encodeChar, ih]
      rfl

end ActionReprint.Json.Quoted
