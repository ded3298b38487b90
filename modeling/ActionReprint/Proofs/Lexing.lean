import ActionReprint.Json.Value
import ActionReprint.Proofs.Numbers
import Mathlib.Data.List.Chain

/-!
Lexemes that are written down again. What a lexeme was read from is read as the same
lexeme wherever it stands, but a number must not be followed by what would go on with
it. Blanks between lexemes are passed over.
-/

namespace ActionReprint.Json

theorem close?_shape {await : Quoted.Await} {c : Char} {tail inside rest : List Char}
    (found : Quoted.close? await (c :: tail) = some (inside, rest)) :
    (await = .plain ∧ c = '"' ∧ inside = [] ∧ rest = tail) ∨
      ∃ next front, ¬ (await = .plain ∧ c = '"') ∧ Quoted.step await c = some next ∧
        inside = c :: front ∧ Quoted.close? next tail = some (front, rest) := by
  by_cases closes : await = .plain ∧ c = '"'
  · rw [Quoted.close?, if_pos closes] at found
    cases found
    exact Or.inl ⟨closes.1, closes.2, rfl, rfl⟩
  · rw [Quoted.close?, if_neg closes] at found
    cases step : Quoted.step await c with
    | none => simp [step] at found
    | some next =>
        rw [step] at found
        obtain ⟨⟨front, behind⟩, inner, same⟩ := Option.map_eq_some_iff.mp found
        cases same
        exact Or.inr ⟨next, front, closes, rfl, rfl, inner⟩

theorem close?_again {await : Quoted.Await} {text inside rest : List Char}
    (found : Quoted.close? await text = some (inside, rest)) (more : List Char) :
    Quoted.close? await (inside ++ '"' :: more) = some (inside, more) := by
  induction text generalizing await inside with
  | nil => cases found
  | cons c tail ih =>
      rcases close?_shape found with ⟨rfl, rfl, rfl, _⟩ | ⟨next, front, open', step, rfl, inner⟩
      · rw [List.nil_append, Quoted.close?, if_pos ⟨rfl, rfl⟩]
      · rw [List.cons_append, Quoted.close?, if_neg open', step]
        simp [ih inner]

theorem append_of_close? {await : Quoted.Await} {text inside rest : List Char}
    (found : Quoted.close? await text = some (inside, rest)) : text = inside ++ '"' :: rest := by
  induction text generalizing await inside with
  | nil => cases found
  | cons c tail ih =>
      rcases close?_shape found with ⟨_, rfl, rfl, rfl⟩ | ⟨next, front, _, _, rfl, inner⟩
      · rfl
      · rw [ih inner]
        rfl

namespace Lexeme

/-- A lexeme that can be read: numbers and strings carry a text of their own. -/
def Proper : Lexeme → Prop
  | .number written => number? written = some (written, [])
  | .quoted inside => Quoted.close? .plain (inside ++ ['"']) = some (inside, [])
  | _ => True

def isNumber : Lexeme → Bool
  | .number _ => true
  | _ => false

def isQuoted : Lexeme → Bool
  | .quoted _ => true
  | _ => false

def isClosing : Lexeme → Bool
  | .closeObject => true
  | .closeArray => true
  | _ => false

end Lexeme

theorem lexeme?_of_number? {text taken rest : List Char} (found : number? text = some (taken, rest)) :
    lexeme? text = some (.number taken, rest) := by
  unfold lexeme?
  -- No number begins with what the other lexemes begin with.
  split
  all_goals first
    | (simp [number?, minus, integer?, digits?, Text.isDigit] at found; done)
    | simp [found]

theorem proper_of_lexeme? {text rest : List Char} {lexeme : Lexeme}
    (found : lexeme? text = some (lexeme, rest)) :
    lexeme.Proper ∧ text = lexeme.text ++ rest := by
  unfold lexeme? at found
  split at found
  all_goals try
    (cases found
     exact ⟨trivial, rfl⟩)
  · obtain ⟨⟨inside, left⟩, inner, same⟩ := Option.map_eq_some_iff.mp found
    cases same
    refine ⟨close?_again inner [], ?_⟩
    rw [append_of_close? inner]
    simp [Lexeme.text]
  · obtain ⟨⟨taken, left⟩, inner, same⟩ := Option.map_eq_some_iff.mp found
    cases same
    refine ⟨?_, (append_of_number? inner).1.symm⟩
    have again := number?_again inner endsNumber_nil
    rw [List.append_nil] at again
    exact again

theorem lexeme?_again {lexeme : Lexeme} (proper : lexeme.Proper) {more : List Char}
    (ends : lexeme.isNumber = true → EndsNumber more) :
    lexeme? (lexeme.text ++ more) = some (lexeme, more) := by
  cases lexeme with
  | number written => exact lexeme?_of_number? (number?_again proper (ends rfl))
  | quoted inside =>
      have again := close?_again proper more
      simp [Lexeme.text, lexeme?, again]
  | bool value => cases value <;> rfl
  | _ => rfl

theorem isBlank_of_inNumber {c : Char} (part : inNumber c = true) : isBlank c = false := by
  cases blank : isBlank c with
  | false => rfl
  | true =>
      simp only [isBlank, Bool.or_eq_true, beq_iff_eq] at blank
      rcases blank with ((rfl | rfl) | rfl) | rfl <;> cases part

theorem head_text {lexeme : Lexeme} (proper : lexeme.Proper) :
    ∃ c tail, lexeme.text = c :: tail ∧ isBlank c = false ∧
      (lexeme.isNumber = false → extendsNumber c = false) := by
  cases lexeme with
  | number written =>
      have some := (append_of_number? proper).2
      cases shape : written with
      | nil => exact absurd shape some
      | cons c tail =>
          have part := inNumber_of_number? proper c (shape ▸ List.mem_cons_self)
          refine ⟨c, tail, rfl, isBlank_of_inNumber part, ?_⟩
          intro other
          cases other
  | bool value =>
      cases value with
      | true => exact ⟨_, _, rfl, by decide, fun _ => by decide⟩
      | false => exact ⟨_, _, rfl, by decide, fun _ => by decide⟩
  | _ => exact ⟨_, _, rfl, by decide, fun _ => by decide⟩

theorem lex_blanks {blanks : List Char} (allBlank : ∀ c ∈ blanks, isBlank c = true)
    (rest : List Char) : lex (blanks ++ rest) = lex rest := by
  induction blanks with
  | nil => rfl
  | cons c tail ih =>
      rw [List.cons_append, lex, if_pos (allBlank c List.mem_cons_self)]
      exact ih fun other later => allBlank other (List.mem_cons_of_mem c later)

theorem lex_of_lexeme? {c : Char} {rest behind : List Char} {lexeme : Lexeme}
    (dense : isBlank c = false) (found : lexeme? (c :: rest) = some (lexeme, behind)) :
    lex (c :: rest) = (lex behind).map (lexeme :: ·) := by
  rw [lex, if_neg (by simp [dense])]
  split
  · next missing =>
      rw [found] at missing
      cases missing
  · next found' =>
      rw [found] at found'
      cases found'
      rfl

theorem lex_lexeme {lexeme : Lexeme} (proper : lexeme.Proper) {more : List Char}
    (ends : lexeme.isNumber = true → EndsNumber more) :
    lex (lexeme.text ++ more) = (lex more).map (lexeme :: ·) := by
  obtain ⟨c, tail, shape, dense, _⟩ := head_text proper
  have again := lexeme?_again proper ends
  rw [shape] at again ⊢
  exact lex_of_lexeme? dense again

/-- Lexemes that a strict text can have side by side. -/
structure Lexeme.Meets (lexeme next : Lexeme) : Prop where
  numbers : lexeme.isNumber = true → next.isNumber = false
  comma : lexeme = .comma → next.isClosing = false

theorem State.step_number {state after : State} {written : List Char}
    (step : state.step (.number written) = some after) :
    ∃ stack, after = deliver (.number written) stack := by
  cases state with
  | needValue stack => exact ⟨stack, (Option.some.inj step).symm⟩
  | firstItem stack => exact ⟨_, (Option.some.inj step).symm⟩
  | _ => cases step

theorem State.step_deliver_number (value : Value) (stack : List Frame) (written : List Char) :
    (deliver value stack).step (.number written) = none := by
  cases stack with
  | nil => rfl
  | cons frame outer => cases frame <;> rfl

theorem State.meets_of_steps {state between after : State} {lexeme next : Lexeme}
    (first : state.step lexeme = some between) (second : between.step next = some after) :
    lexeme.Meets next := by
  constructor
  · intro number
    -- A number finishes a value, and behind a finished value no other one begins.
    cases lexeme with
    | number written =>
        obtain ⟨stack, rfl⟩ := step_number first
        cases next with
        | number other =>
            rw [step_deliver_number] at second
            cases second
        | _ => rfl
    | _ => cases number
  · rintro rfl
    -- Behind a comma the machine wants a value or a key, and nothing that closes is one.
    cases state with
    | afterItem items stack =>
        cases first
        cases next with
        | closeObject => cases second
        | closeArray => cases second
        | _ => rfl
    | afterMember members stack =>
        cases first
        cases next with
        | closeObject => cases second
        | closeArray => cases second
        | _ => rfl
    | _ => cases first

theorem State.meets_of_run {state final : State} {lexemes : List Lexeme}
    (ran : state.run lexemes = some final) : lexemes.IsChain Lexeme.Meets := by
  induction lexemes generalizing state with
  | nil => exact List.IsChain.nil
  | cons lexeme rest ih =>
      rw [run, List.foldlM_cons] at ran
      obtain ⟨between, first, onward⟩ := Option.bind_eq_some_iff.mp ran
      have tail := ih onward
      cases rest with
      | nil => exact List.IsChain.singleton lexeme
      | cons next more =>
          rw [List.foldlM_cons] at onward
          obtain ⟨after, second, _⟩ := Option.bind_eq_some_iff.mp onward
          exact List.IsChain.cons_cons (meets_of_steps first second) tail

structure Spaced where
  blanks : List Char
  lexeme : Lexeme
  allBlank : ∀ c ∈ blanks, isBlank c = true

def Spaced.text (spaced : Spaced) : List Char :=
  spaced.blanks ++ spaced.lexeme.text

theorem endsNumber_blanks {blanks rest : List Char} (allBlank : ∀ c ∈ blanks, isBlank c = true)
    (ends : EndsNumber rest) : EndsNumber (blanks ++ rest) := by
  cases blanks with
  | nil => exact ends
  | cons c tail =>
      apply endsNumber_cons
      have blank := allBlank c List.mem_cons_self
      simp only [isBlank, Bool.or_eq_true, beq_iff_eq] at blank
      rcases blank with ((rfl | rfl) | rfl) | rfl <;> decide

theorem endsNumber_spaced {items : List Spaced} {ending : List Char}
    (proper : ∀ item ∈ items, item.lexeme.Proper)
    (other : ∀ first ∈ items.head?, first.lexeme.isNumber = false) (ends : EndsNumber ending) :
    EndsNumber (items.flatMap Spaced.text ++ ending) := by
  cases items with
  | nil => exact ends
  | cons item rest =>
      obtain ⟨c, tail, shape, _, apart⟩ := head_text (proper item List.mem_cons_self)
      rw [List.flatMap_cons, Spaced.text, List.append_assoc, List.append_assoc, shape]
      apply endsNumber_blanks item.allBlank
      exact endsNumber_cons (apart (other item rfl))

theorem lex_spaced (items : List Spaced) {ending : List Char}
    (proper : ∀ item ∈ items, item.lexeme.Proper)
    (meets : (items.map Spaced.lexeme).IsChain Lexeme.Meets)
    (allBlank : ∀ c ∈ ending, isBlank c = true) :
    lex (items.flatMap Spaced.text ++ ending) = some (items.map Spaced.lexeme) := by
  have ends : EndsNumber ending := by
    have blanks := endsNumber_blanks allBlank endsNumber_nil
    rwa [List.append_nil] at blanks
  induction items with
  | nil =>
      have skipped := lex_blanks allBlank []
      rw [List.append_nil, lex] at skipped
      exact skipped
  | cons item rest ih =>
      have others : ∀ other ∈ rest, other.lexeme.Proper := fun other later =>
        proper other (List.mem_cons_of_mem item later)
      -- A number is never followed by another one, and nothing else goes on with it.
      have stops : item.lexeme.isNumber = true →
          EndsNumber (rest.flatMap Spaced.text ++ ending) := by
        intro number
        apply endsNumber_spaced others _ ends
        intro next head
        cases rest with
        | nil => cases head
        | cons second more =>
            cases head
            exact meets.rel.numbers number
      rw [List.flatMap_cons, Spaced.text, List.append_assoc, List.append_assoc,
        lex_blanks item.allBlank, lex_lexeme (proper item List.mem_cons_self) stops,
        ih others meets.tail]
      rfl

theorem lex_lexemes {lexemes : List Lexeme} (proper : ∀ lexeme ∈ lexemes, lexeme.Proper)
    (meets : lexemes.IsChain Lexeme.Meets) :
    lex (lexemes.flatMap Lexeme.text) = some lexemes := by
  have none : ∀ c ∈ ([] : List Char), isBlank c = true := by simp
  have bare := lex_spaced (lexemes.map fun lexeme => ⟨[], lexeme, none⟩)
    (by simpa using proper) (by simpa [Function.comp_def] using meets) none
  simpa [List.flatMap_map, Function.comp_def, Spaced.text] using bare

end ActionReprint.Json
