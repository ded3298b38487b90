import ActionReprint.Text.Numeral

/-!
Escaping of string and character literals. A literal may hold any character its
grammar file can encode; printable ASCII, tab, line feed, carriage return and form
feed are copied, all else becomes a numeric escape, so that the generated source
compiles whatever encoding it is read in. Whether an escape stands after a
backslash that is already there is not looked at.
-/

namespace ActionReprint.Literal

/-- How a character above U+FFFF is written. -/
inductive EscapeStyle where
  | surrogates
  | long
  deriving DecidableEq, Repr

def isPlain (c : Char) : Bool :=
  c == '\t' || c == '\n' || c == '\r' || c == '\x0c' || (' ' ≤ c && c ≤ '~')

def escapeUnit (unit : Nat) : List Char :=
  '\\' :: 'u' :: Text.fixedHex 4 unit

def escapeScalar (code : Nat) : List Char :=
  '\\' :: 'U' :: Text.fixedHex 8 code

def leadingUnit (code : Nat) : Nat :=
  0xD800 + (code - 0x10000) / 0x400

def trailingUnit (code : Nat) : Nat :=
  0xDC00 + (code - 0x10000) % 0x400

def escapeChar (style : EscapeStyle) (c : Char) : List Char :=
  if isPlain c then [c]
  else if c.toNat ≤ 0xFFFF then escapeUnit c.toNat
  else match style with
    | .surrogates => escapeUnit (leadingUnit c.toNat) ++ escapeUnit (trailingUnit c.toNat)
    | .long => escapeScalar c.toNat

def escapeChars (style : EscapeStyle) (image : List Char) : List Char :=
  image.flatMap (escapeChar style)

def escape (style : EscapeStyle) (image : String) : String :=
  String.ofList (escapeChars style image.toList)

theorem toList_escape (style : EscapeStyle) (image : String) :
    (escape style image).toList = escapeChars style image.toList := by
  simp [escape]

theorem escapeChars_of_plain (style : EscapeStyle) {image : List Char}
    (plain : ∀ c ∈ image, isPlain c = true) : escapeChars style image = image := by
  induction image with
  | nil => rfl
  | cons c rest ih =>
      have tail := ih fun d member => plain d (List.mem_cons_of_mem _ member)
      simp only [escapeChars] at tail
      simp [escapeChars, escapeChar, plain c List.mem_cons_self, tail]

end ActionReprint.Literal
