/-!
Digits of natural numbers: hexadecimal with a fixed width, decimal without
leading zeros, and a reader for each. Main statements: the decimal reader gives
back every number that was written, and a fixed width keeps the low digits.
-/

namespace ActionReprint.Text

def hexDigit (value : Nat) : Char :=
  if value < 10 then Char.ofNat (48 + value) else Char.ofNat (87 + value)

def hexValue? (c : Char) : Option Nat :=
  if '0' ≤ c ∧ c ≤ '9' then some (c.toNat - 48)
  else if 'a' ≤ c ∧ c ≤ 'f' then some (c.toNat - 87)
  else if 'A' ≤ c ∧ c ≤ 'F' then some (c.toNat - 55)
  else none

/-- Exactly `width` digits; higher ones are lost. -/
def fixedHex : Nat → Nat → List Char
  | 0, _ => []
  | width + 1, value => fixedHex width (value / 16) ++ [hexDigit (value % 16)]

@[simp] theorem length_fixedHex (width value : Nat) : (fixedHex width value).length = width := by
  induction width generalizing value with
  | zero => rfl
  | succ width ih => simp [fixedHex, ih]

def readHex? (digits : List Char) : Option Nat :=
  digits.foldlM (fun total c => (hexValue? c).map (16 * total + ·)) 0

theorem hexValue?_hexDigit {value : Nat} (small : value < 16) :
    hexValue? (hexDigit value) = some value := by
  have all : ∀ v : Fin 16, hexValue? (hexDigit v.val) = some v.val := by decide
  exact all ⟨value, small⟩

theorem readHex?_fixedHex (width value : Nat) :
    readHex? (fixedHex width value) = some (value % Nat.pow 16 width) := by
  induction width generalizing value with
  | zero => simp [fixedHex, readHex?, Nat.mod_one]
  | succ width ih =>
      have low : value % 16 < 16 := Nat.mod_lt _ (by decide)
      have head := ih (value / 16)
      simp only [readHex?] at head
      simp only [fixedHex, readHex?, List.foldlM_append, head]
      simp only [List.foldlM_cons, List.foldlM_nil, hexValue?_hexDigit low, Option.map_some,
        Option.bind_eq_bind, Option.bind_some, Option.pure_def, Option.some.injEq]
      have power : Nat.pow 16 (width + 1) = 16 * Nat.pow 16 width := Nat.mul_comm _ _
      rw [power, Nat.mod_mul]
      exact Nat.add_comm _ _

def isDigit (c : Char) : Bool :=
  '0' ≤ c && c ≤ '9'

def digitValue (c : Char) : Nat :=
  c.toNat - 48

def decimal (value : Nat) : List Char :=
  if value < 10 then [hexDigit value]
  else decimal (value / 10) ++ [hexDigit (value % 10)]
termination_by value

/-- Reads a nonempty run of decimal digits; leading zeros count as digits. -/
def readDecimal? (digits : List Char) : Option Nat :=
  if digits ≠ [] ∧ digits.all isDigit then
    some (digits.foldl (fun total c => 10 * total + digitValue c) 0)
  else none

theorem decimal_ne_nil (value : Nat) : decimal value ≠ [] := by
  unfold decimal
  split <;> simp

theorem digit_facts {value : Nat} (small : value < 10) :
    isDigit (hexDigit value) = true ∧ digitValue (hexDigit value) = value := by
  have all : ∀ v : Fin 10,
      isDigit (hexDigit v.val) = true ∧ digitValue (hexDigit v.val) = v.val := by decide
  exact all ⟨value, small⟩

theorem all_isDigit_decimal (value : Nat) : (decimal value).all isDigit = true := by
  fun_induction decimal value with
  | case1 value small => simp [(digit_facts small).1]
  | case2 value large ih =>
      have low : value % 10 < 10 := Nat.mod_lt _ (by decide)
      simp [List.all_append, ih, (digit_facts low).1]

theorem foldl_decimal (value : Nat) :
    (decimal value).foldl (fun total c => 10 * total + digitValue c) 0 = value := by
  fun_induction decimal value with
  | case1 value small => simp [(digit_facts small).2]
  | case2 value large ih =>
      have low : value % 10 < 10 := Nat.mod_lt _ (by decide)
      simp only [List.foldl_append, ih, List.foldl_cons, List.foldl_nil, (digit_facts low).2]
      omega

theorem readDecimal?_decimal (value : Nat) : readDecimal? (decimal value) = some value := by
  simp [readDecimal?, decimal_ne_nil, all_isDigit_decimal, foldl_decimal]

end ActionReprint.Text
