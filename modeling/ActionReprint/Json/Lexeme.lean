import ActionReprint.Json.Quoted

/-!
The lexemes of strict JSON. Blanks are space, tab, line feed and carriage return;
there are no comments. A number keeps its written form and a string what stands
between its quotes, so that no lexeme loses anything of the text.
-/

namespace ActionReprint.Json

inductive Lexeme where
  | openObject
  | closeObject
  | openArray
  | closeArray
  | colon
  | comma
  | null
  | bool (value : Bool)
  | number (written : List Char)
  | quoted (inside : List Char)
  deriving DecidableEq, Repr

def isBlank (c : Char) : Bool :=
  c == ' ' || c == '\t' || c == '\n' || c == '\r'

namespace Lexeme

def text : Lexeme → List Char
  | .openObject => ['\x7b']
  | .closeObject => ['\x7d']
  | .openArray => ['[']
  | .closeArray => [']']
  | .colon => [':']
  | .comma => [',']
  | .null => ['n', 'u', 'l', 'l']
  | .bool true => ['t', 'r', 'u', 'e']
  | .bool false => ['f', 'a', 'l', 's', 'e']
  | .number written => written
  | .quoted inside => '"' :: inside ++ ['"']

end Lexeme

def digits? (text : List Char) : Option (List Char × List Char) :=
  let run := text.takeWhile Text.isDigit
  if run.isEmpty then none else some (run, text.dropWhile Text.isDigit)

def integer? : List Char → Option (List Char × List Char)
  | '0' :: rest => some (['0'], rest)
  | text => digits? text

def fraction? : List Char → Option (List Char × List Char)
  | '.' :: rest => (digits? rest).map fun found => ('.' :: found.1, found.2)
  | text => some ([], text)

def sign : List Char → List Char × List Char
  | '+' :: rest => (['+'], rest)
  | '-' :: rest => (['-'], rest)
  | text => ([], text)

def exponent? : List Char → Option (List Char × List Char)
  | [] => some ([], [])
  | c :: rest =>
      if c = 'e' ∨ c = 'E' then
        (digits? (sign rest).2).map fun found => (c :: (sign rest).1 ++ found.1, found.2)
      else some ([], c :: rest)

def minus : List Char → List Char × List Char
  | '-' :: rest => (['-'], rest)
  | text => ([], text)

def number? (text : List Char) : Option (List Char × List Char) := do
  let (whole, afterWhole) ← integer? (minus text).2
  let (part, afterPart) ← fraction? afterWhole
  let (power, rest) ← exponent? afterPart
  some ((minus text).1 ++ whole ++ part ++ power, rest)

theorem append_of_digits? {text taken rest : List Char} (found : digits? text = some (taken, rest)) :
    taken ++ rest = text ∧ taken ≠ [] := by
  unfold digits? at found
  simp only at found
  split at found
  · simp at found
  · next some =>
      simp only [Option.some.injEq, Prod.mk.injEq] at found
      rw [← found.1, ← found.2]
      exact ⟨List.takeWhile_append_dropWhile, by simpa using some⟩

theorem append_of_integer? {text taken rest : List Char}
    (found : integer? text = some (taken, rest)) : taken ++ rest = text ∧ taken ≠ [] := by
  unfold integer? at found
  split at found
  · simp only [Option.some.injEq, Prod.mk.injEq] at found
    simp [← found.1, found.2]
  · exact append_of_digits? found

theorem append_of_fraction? {text taken rest : List Char}
    (found : fraction? text = some (taken, rest)) : taken ++ rest = text := by
  unfold fraction? at found
  split at found
  · obtain ⟨⟨run, left⟩, inner, same⟩ := Option.map_eq_some_iff.mp found
    simp only [Prod.mk.injEq] at same
    rw [← same.1, ← same.2]
    simp [(append_of_digits? inner).1]
  · simp only [Option.some.injEq, Prod.mk.injEq] at found
    simp [← found.1, found.2]

theorem append_sign (text : List Char) : (sign text).1 ++ (sign text).2 = text := by
  unfold sign
  split <;> rfl

theorem append_minus (text : List Char) : (minus text).1 ++ (minus text).2 = text := by
  unfold minus
  split <;> rfl

theorem append_of_exponent? {text taken rest : List Char}
    (found : exponent? text = some (taken, rest)) : taken ++ rest = text := by
  unfold exponent? at found
  split at found
  · simp only [Option.some.injEq, Prod.mk.injEq] at found
    simp [← found.1, ← found.2]
  · next c more =>
      split at found
      · obtain ⟨⟨run, left⟩, inner, same⟩ := Option.map_eq_some_iff.mp found
        simp only [Prod.mk.injEq] at same
        rw [← same.1, ← same.2]
        simp [(append_of_digits? inner).1, append_sign]
      · simp only [Option.some.injEq, Prod.mk.injEq] at found
        simp [← found.1, ← found.2]

theorem append_of_number? {text taken rest : List Char} (found : number? text = some (taken, rest)) :
    taken ++ rest = text ∧ taken ≠ [] := by
  unfold number? at found
  simp only [Option.bind_eq_bind, Option.bind_eq_some_iff, Option.some.injEq, Prod.mk.injEq,
    Prod.exists] at found
  obtain ⟨whole, afterWhole, first, part, afterPart, second, power, left, third, same, behind⟩ :=
    found
  obtain ⟨wholeText, wholeSome⟩ := append_of_integer? first
  rw [← same, ← behind]
  refine ⟨?_, by simp [wholeSome]⟩
  rw [List.append_assoc, append_of_exponent? third, List.append_assoc, append_of_fraction? second,
    List.append_assoc, wholeText, append_minus]

def lexeme? : List Char → Option (Lexeme × List Char)
  | '\x7b' :: rest => some (.openObject, rest)
  | '\x7d' :: rest => some (.closeObject, rest)
  | '[' :: rest => some (.openArray, rest)
  | ']' :: rest => some (.closeArray, rest)
  | ':' :: rest => some (.colon, rest)
  | ',' :: rest => some (.comma, rest)
  | 'n' :: 'u' :: 'l' :: 'l' :: rest => some (.null, rest)
  | 't' :: 'r' :: 'u' :: 'e' :: rest => some (.bool true, rest)
  | 'f' :: 'a' :: 'l' :: 's' :: 'e' :: rest => some (.bool false, rest)
  | '"' :: rest => (Quoted.close? .plain rest).map fun found => (.quoted found.1, found.2)
  | text => (number? text).map fun found => (.number found.1, found.2)

theorem length_of_lexeme? {text rest : List Char} {lexeme : Lexeme}
    (found : lexeme? text = some (lexeme, rest)) : rest.length < text.length := by
  unfold lexeme? at found
  split at found
  all_goals try
    (simp only [Option.some.injEq, Prod.mk.injEq] at found
     rw [← found.2]
     simp only [List.length_cons]
     omega)
  · obtain ⟨⟨inside, left⟩, inner, same⟩ := Option.map_eq_some_iff.mp found
    simp only [Prod.mk.injEq] at same
    have count := Quoted.length_of_close? inner
    rw [← same.2]
    simp only [List.length_cons]
    omega
  · obtain ⟨⟨taken, left⟩, inner, same⟩ := Option.map_eq_some_iff.mp found
    simp only [Prod.mk.injEq] at same
    obtain ⟨whole, some⟩ := append_of_number? inner
    have count := congrArg List.length whole
    have positive := List.length_pos_iff.mpr some
    rw [← same.2]
    simp only [List.length_append] at count
    omega

def lex (text : List Char) : Option (List Lexeme) :=
  match text with
  | [] => some []
  | c :: rest =>
      if isBlank c then lex rest
      else match _found : lexeme? (c :: rest) with
        | none => none
        | some (lexeme, behind) => (lex behind).map (lexeme :: ·)
termination_by text.length
decreasing_by
  · simp
  · exact length_of_lexeme? _found

end ActionReprint.Json
