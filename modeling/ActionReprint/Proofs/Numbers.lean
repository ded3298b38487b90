import ActionReprint.Json.Lexeme

/-!
Numbers that are written down again. What a number was read from is read as the same
number wherever it stands, unless what follows would go on with it.
-/

namespace ActionReprint.Json

def extendsNumber (c : Char) : Bool :=
  Text.isDigit c || c == '.' || c == 'e' || c == 'E'

def EndsNumber (text : List Char) : Prop :=
  ∀ c ∈ text.head?, extendsNumber c = false

def EndsDigits (text : List Char) : Prop :=
  ∀ c ∈ text.head?, Text.isDigit c = false

theorem endsNumber_nil : EndsNumber [] := by
  intro c first
  cases first

theorem endsNumber_cons {c : Char} {rest : List Char} (ends : extendsNumber c = false) :
    EndsNumber (c :: rest) := by
  intro first head
  cases head
  exact ends

section
variable {text taken rest : List Char}

theorem isDigit_of_digits? (found : digits? text = some (taken, rest)) :
    ∀ c ∈ taken, Text.isDigit c = true := by
  unfold digits? at found
  simp only at found
  split at found
  · cases found
  · cases found
    exact List.all_eq_true.mp List.all_takeWhile

theorem head_of_digits? (found : digits? text = some (taken, rest)) :
    ∃ c more, taken = c :: more ∧ Text.isDigit c = true := by
  cases shape : taken with
  | nil => exact absurd shape (append_of_digits? found).2
  | cons c more =>
      refine ⟨c, more, rfl, isDigit_of_digits? found c ?_⟩
      rw [shape]
      exact List.mem_cons_self

theorem integer?_of_ne_zero (notZero : text.head? ≠ some '0') : integer? text = digits? text := by
  unfold integer?
  split
  · exact absurd rfl notZero
  · rfl

theorem integer?_shape (found : integer? text = some (taken, rest)) :
    taken = ['0'] ∨ text.head? ≠ some '0' ∧ digits? text = some (taken, rest) := by
  by_cases zero : text.head? = some '0'
  · obtain ⟨tail, rfl⟩ := List.head?_eq_some_iff.mp zero
    cases found
    exact Or.inl rfl
  · rw [integer?_of_ne_zero zero] at found
    exact Or.inr ⟨zero, found⟩

theorem fraction?_of_ne_point (notPoint : text.head? ≠ some '.') :
    fraction? text = some ([], text) := by
  unfold fraction?
  split
  · exact absurd rfl notPoint
  · rfl

theorem fraction?_shape (found : fraction? text = some (taken, rest)) :
    taken = [] ∨ ∃ run tail, taken = '.' :: run ∧ digits? tail = some (run, rest) := by
  by_cases point : text.head? = some '.'
  · obtain ⟨tail, rfl⟩ := List.head?_eq_some_iff.mp point
    obtain ⟨⟨run, left⟩, inner, same⟩ := Option.map_eq_some_iff.mp found
    cases same
    exact Or.inr ⟨run, tail, rfl, inner⟩
  · rw [fraction?_of_ne_point point] at found
    cases found
    exact Or.inl rfl

theorem sign_shape (text : List Char) :
    (sign text).1 = ['+'] ∨ (sign text).1 = ['-'] ∨ (sign text).1 = [] := by
  unfold sign
  split
  · exact Or.inl rfl
  · exact Or.inr (Or.inl rfl)
  · exact Or.inr (Or.inr rfl)

theorem minus_shape (text : List Char) : (minus text).1 = ['-'] ∨ (minus text).1 = [] := by
  unfold minus
  split
  · exact Or.inl rfl
  · exact Or.inr rfl

theorem exponent?_of_other (other : ∀ c ∈ text.head?, ¬ (c = 'e' ∨ c = 'E')) :
    exponent? text = some ([], text) := by
  cases text with
  | nil => rfl
  | cons c rest => simp only [exponent?, if_neg (other c rfl)]

theorem exponent?_shape (found : exponent? text = some (taken, rest)) :
    taken = [] ∨ ∃ mark run tail, (mark = 'e' ∨ mark = 'E') ∧
      taken = mark :: ((sign tail).1 ++ run) ∧ digits? (sign tail).2 = some (run, rest) := by
  cases text with
  | nil =>
      cases found
      exact Or.inl rfl
  | cons mark tail =>
      by_cases power : mark = 'e' ∨ mark = 'E'
      · rw [exponent?, if_pos power] at found
        obtain ⟨⟨run, left⟩, inner, same⟩ := Option.map_eq_some_iff.mp found
        cases same
        exact Or.inr ⟨mark, run, tail, power, rfl, inner⟩
      · rw [exponent?, if_neg power] at found
        cases found
        exact Or.inl rfl

theorem number?_shape (found : number? text = some (taken, rest)) :
    ∃ whole part power afterWhole afterPart, taken = (minus text).1 ++ whole ++ part ++ power ∧
      integer? (minus text).2 = some (whole, afterWhole) ∧
      fraction? afterWhole = some (part, afterPart) ∧ exponent? afterPart = some (power, rest) := by
  unfold number? at found
  simp only [Option.bind_eq_bind, Option.bind_eq_some_iff, Option.some.injEq, Prod.mk.injEq,
    Prod.exists] at found
  obtain ⟨whole, afterWhole, first, part, afterPart, second, power, left, third, rfl, rfl⟩ := found
  exact ⟨whole, part, power, afterWhole, afterPart, rfl, first, second, third⟩

end

section
variable {text taken rest more : List Char}

theorem digits?_again (found : digits? text = some (taken, rest)) (ends : EndsDigits more) :
    digits? (taken ++ more) = some (taken, more) := by
  have digits := isDigit_of_digits? found
  have some := (append_of_digits? found).2
  have front : more.takeWhile Text.isDigit = [] := by
    cases more with
    | nil => rfl
    | cons c rest => simp [ends c rfl]
  have back : more.dropWhile Text.isDigit = more := by
    cases more with
    | nil => rfl
    | cons c rest => simp [ends c rfl]
  unfold digits?
  rw [List.takeWhile_append_of_pos digits, List.dropWhile_append_of_pos digits, front, back]
  simp [some]

theorem head_of_integer? (found : integer? text = some (taken, rest)) :
    ∃ c more, taken = c :: more ∧ Text.isDigit c = true := by
  rcases integer?_shape found with rfl | ⟨_, digits⟩
  · exact ⟨'0', [], rfl, by decide⟩
  · exact head_of_digits? digits

theorem integer?_again (found : integer? text = some (taken, rest)) (ends : EndsDigits more) :
    integer? (taken ++ more) = some (taken, more) := by
  -- A zero stands alone, whatever digits may follow it.
  rcases integer?_shape found with rfl | ⟨notZero, digits⟩
  · rfl
  · obtain ⟨c, tail, shape, _⟩ := head_of_digits? digits
    have same : (taken ++ more).head? = text.head? := by
      rw [← (append_of_digits? digits).1, shape]
      rfl
    rw [integer?_of_ne_zero (same ▸ notZero)]
    exact digits?_again digits ends

theorem fraction?_again (found : fraction? text = some (taken, rest)) (ends : EndsDigits more)
    (notPoint : more.head? ≠ some '.') : fraction? (taken ++ more) = some (taken, more) := by
  rcases fraction?_shape found with rfl | ⟨run, tail, rfl, digits⟩
  · exact fraction?_of_ne_point notPoint
  · simp [fraction?, digits?_again digits ends]

theorem sign_again (text : List Char) {c : Char} (digit : Text.isDigit c = true)
    (more : List Char) : sign ((sign text).1 ++ c :: more) = ((sign text).1, c :: more) := by
  rcases sign_shape text with plus | minus | unsigned
  · rw [plus]
    rfl
  · rw [minus]
    rfl
  · rw [unsigned, List.nil_append]
    unfold sign
    split
    · next same => cases same; cases digit
    · next same => cases same; cases digit
    · rfl

theorem minus_again (text : List Char) {c : Char} (digit : Text.isDigit c = true)
    (more : List Char) : minus ((minus text).1 ++ c :: more) = ((minus text).1, c :: more) := by
  rcases minus_shape text with signed | unsigned
  · rw [signed]
    rfl
  · rw [unsigned, List.nil_append]
    unfold minus
    split
    · next same => cases same; cases digit
    · rfl

theorem exponent?_again (found : exponent? text = some (taken, rest)) (ends : EndsNumber more) :
    exponent? (taken ++ more) = some (taken, more) := by
  rcases exponent?_shape found with rfl | ⟨mark, run, tail, power, rfl, digits⟩
  · apply exponent?_of_other
    intro c first
    have none := ends c first
    rintro (rfl | rfl) <;> cases none
  · have endsDigits : EndsDigits more := by
      intro c first
      have none := ends c first
      simp only [extendsNumber, Bool.or_eq_false_iff] at none
      exact none.1.1.1
    obtain ⟨digit, others, rfl, isDigit⟩ := head_of_digits? digits
    have signed := sign_again tail isDigit (others ++ more)
    have again := digits?_again digits endsDigits
    simp only [List.cons_append, List.append_assoc] at again ⊢
    rw [exponent?, if_pos power, signed, again]
    rfl

/-- A number is read again wherever it stands, if nothing goes on with it. -/
theorem number?_again (found : number? text = some (taken, rest)) (ends : EndsNumber more) :
    number? (taken ++ more) = some (taken, more) := by
  obtain ⟨whole, part, power, _, _, rfl, first, second, third⟩ := number?_shape found
  obtain ⟨digit, others, rfl, isDigit⟩ := head_of_integer? first
  -- Each part ends where it did, because what comes after it begins with no digit.
  have afterPower : ∀ c ∈ (power ++ more).head?, Text.isDigit c = false ∧ c ≠ '.' := by
    intro c head
    rcases exponent?_shape third with rfl | ⟨mark, run, tail, isMark, rfl, _⟩
    · have none := ends c head
      simp only [extendsNumber, Bool.or_eq_false_iff, beq_eq_false_iff_ne] at none
      exact ⟨none.1.1.1, none.1.1.2⟩
    · cases head
      rcases isMark with rfl | rfl
      · decide
      · decide
  have afterPart : EndsDigits (part ++ (power ++ more)) := by
    intro c head
    rcases fraction?_shape second with rfl | ⟨run, tail, rfl, _⟩
    · exact (afterPower c head).1
    · cases head
      decide
  have wholeAgain := integer?_again first afterPart
  have partAgain := fraction?_again second (fun c head => (afterPower c head).1)
    (fun point => (afterPower '.' point).2 rfl)
  have powerAgain := exponent?_again third ends
  have signed := minus_again text isDigit (others ++ (part ++ (power ++ more)))
  simp only [List.cons_append] at wholeAgain
  simp only [number?, List.append_assoc, List.cons_append, signed, wholeAgain, partAgain, powerAgain,
    Option.bind_eq_bind, Option.bind_some]

end

def inNumber (c : Char) : Bool :=
  extendsNumber c || c == '+' || c == '-'

section
variable {text taken rest : List Char}

theorem inNumber_of_digits? (found : digits? text = some (taken, rest)) :
    ∀ c ∈ taken, inNumber c = true := by
  intro c member
  simp [inNumber, extendsNumber, isDigit_of_digits? found c member]

theorem inNumber_of_integer? (found : integer? text = some (taken, rest)) :
    ∀ c ∈ taken, inNumber c = true := by
  rcases integer?_shape found with rfl | ⟨_, digits⟩
  · exact List.all_eq_true.mp (by decide)
  · exact inNumber_of_digits? digits

theorem inNumber_of_fraction? (found : fraction? text = some (taken, rest)) :
    ∀ c ∈ taken, inNumber c = true := by
  intro c member
  rcases fraction?_shape found with rfl | ⟨run, tail, rfl, digits⟩
  · cases member
  · rcases List.mem_cons.mp member with rfl | later
    · decide
    · exact inNumber_of_digits? digits c later

theorem inNumber_of_sign (text : List Char) : ∀ c ∈ (sign text).1, inNumber c = true := by
  rcases sign_shape text with plus | minus | unsigned
  · rw [plus]
    exact List.all_eq_true.mp (by decide)
  · rw [minus]
    exact List.all_eq_true.mp (by decide)
  · rw [unsigned]
    exact List.all_eq_true.mp (by decide)

theorem inNumber_of_exponent? (found : exponent? text = some (taken, rest)) :
    ∀ c ∈ taken, inNumber c = true := by
  intro c member
  rcases exponent?_shape found with rfl | ⟨mark, run, tail, power, rfl, digits⟩
  · cases member
  · rcases List.mem_cons.mp member with rfl | later
    · rcases power with rfl | rfl
      · decide
      · decide
    · rcases List.mem_append.mp later with signed | digit
      · exact inNumber_of_sign tail c signed
      · exact inNumber_of_digits? digits c digit

theorem inNumber_of_number? (found : number? text = some (taken, rest)) :
    ∀ c ∈ taken, inNumber c = true := by
  obtain ⟨whole, part, power, _, _, rfl, first, second, third⟩ := number?_shape found
  intro c member
  simp only [List.mem_append] at member
  rcases member with ((signed | integer) | fraction) | exponent
  · rcases minus_shape text with shape | shape
    · rw [shape, List.mem_singleton] at signed
      rw [signed]
      decide
    · rw [shape] at signed
      cases signed
  · exact inNumber_of_integer? first c integer
  · exact inNumber_of_fraction? second c fraction
  · exact inNumber_of_exponent? third c exponent

end

end ActionReprint.Json
