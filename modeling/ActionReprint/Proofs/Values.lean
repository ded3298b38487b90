import ActionReprint.Json.Value

/-!
Values and the lexemes they are written with. Reading stops nowhere but behind a value,
and what has been read then is how that value is written. Main statement:
`ofLexemes?_eq_some_iff`.
-/

namespace ActionReprint.Json

namespace Value

def itemsBefore (items : List Value) : List Lexeme :=
  items.flatMap fun item => item.lexemes ++ [.comma]

def membersBefore (members : List (List Char × Value)) : List Lexeme :=
  members.flatMap fun member => .quoted member.1 :: .colon :: member.2.lexemes ++ [.comma]

theorem itemLexemes_concat (items : List Value) (last : Value) :
    itemLexemes (items ++ [last]) = itemsBefore items ++ last.lexemes := by
  induction items with
  | nil => rfl
  | cons item rest ih =>
      obtain ⟨second, others, shape⟩ := List.exists_cons_of_ne_nil
        (List.append_ne_nil_of_right_ne_nil rest (List.cons_ne_nil last []))
      rw [List.cons_append, shape, itemLexemes, ← shape, ih]
      simp [itemsBefore]

theorem memberLexemes_concat (members : List (List Char × Value)) (key : List Char)
    (last : Value) :
    memberLexemes (members ++ [(key, last)]) =
      membersBefore members ++ .quoted key :: .colon :: last.lexemes := by
  induction members with
  | nil => rfl
  | cons member rest ih =>
      obtain ⟨second, others, shape⟩ := List.exists_cons_of_ne_nil
        (List.append_ne_nil_of_right_ne_nil rest (List.cons_ne_nil (key, last) []))
      rw [List.cons_append, shape, memberLexemes, ← shape, ih]
      simp [membersBefore]

end Value

namespace Frame

/-- What has been read of a container when a value in it begins. -/
def lexemes : Frame → List Lexeme
  | .array items => .openArray :: Value.itemsBefore items.reverse
  | .object members key =>
      .openObject :: Value.membersBefore members.reverse ++ [.quoted key, .colon]

def allLexemes : List Frame → List Lexeme
  | [] => []
  | frame :: outer => allLexemes outer ++ frame.lexemes

end Frame

inductive State.Reads : State → List Lexeme → Prop where
  | needValue (stack : List Frame) : Reads (.needValue stack) (Frame.allLexemes stack)
  | firstItem (stack : List Frame) :
      Reads (.firstItem stack) (Frame.allLexemes stack ++ [.openArray])
  | firstKey (stack : List Frame) :
      Reads (.firstKey stack) (Frame.allLexemes stack ++ [.openObject])
  | needKey (members : List (List Char × Value)) (stack : List Frame) :
      Reads (.needKey members stack)
        (Frame.allLexemes stack ++ .openObject :: Value.membersBefore members.reverse)
  | needColon (members : List (List Char × Value)) (key : List Char) (stack : List Frame) :
      Reads (.needColon members key stack)
        (Frame.allLexemes stack ++
          .openObject :: Value.membersBefore members.reverse ++ [.quoted key])
  | afterItem (items : List Value) (value : Value) (stack : List Frame) :
      Reads (.afterItem (value :: items) stack)
        (Frame.allLexemes stack ++ (Frame.array items).lexemes ++ value.lexemes)
  | afterMember (members : List (List Char × Value)) (key : List Char) (value : Value)
      (stack : List Frame) :
      Reads (.afterMember ((key, value) :: members) stack)
        (Frame.allLexemes stack ++ (Frame.object members key).lexemes ++ value.lexemes)
  | done (value : Value) : Reads (.done value) value.lexemes

theorem State.reads_deliver (value : Value) (stack : List Frame) :
    (deliver value stack).Reads (Frame.allLexemes stack ++ value.lexemes) := by
  cases stack with
  | nil => exact Reads.done value
  | cons frame outer =>
      cases frame with
      | array items => exact Reads.afterItem items value outer
      | object members key => exact Reads.afterMember members key value outer

theorem State.reads_beginValue {stack : List Frame} {lexeme : Lexeme} {next : State}
    (step : beginValue stack lexeme = some next) :
    next.Reads (Frame.allLexemes stack ++ [lexeme]) := by
  cases lexeme with
  | null => cases step; exact reads_deliver .null stack
  | bool value => cases step; exact reads_deliver (.bool value) stack
  | number written => cases step; exact reads_deliver (.number written) stack
  | quoted inside => cases step; exact reads_deliver (.quoted inside) stack
  | openArray => cases step; exact Reads.firstItem stack
  | openObject => cases step; exact Reads.firstKey stack
  | _ => cases step

theorem State.reads_step {state next : State} {lexemes : List Lexeme} {lexeme : Lexeme}
    (reads : state.Reads lexemes) (step : state.step lexeme = some next) :
    next.Reads (lexemes ++ [lexeme]) := by
  cases reads with
  | needValue stack => exact reads_beginValue step
  | firstItem stack =>
      by_cases closes : lexeme = .closeArray
      · subst closes
        cases step
        have read := reads_deliver (.array []) stack
        simpa [Value.lexemes, Value.itemLexemes] using read
      · have begun : beginValue (.array [] :: stack) lexeme = some next := by
          cases lexeme <;> first | exact step | exact absurd rfl closes
        exact reads_beginValue begun
  | firstKey stack =>
      cases lexeme with
      | closeObject =>
          cases step
          have read := reads_deliver (.object []) stack
          simpa [Value.lexemes, Value.memberLexemes] using read
      | quoted key =>
          cases step
          have read := Reads.needColon [] key stack
          simpa [Value.membersBefore] using read
      | _ => cases step
  | needKey members stack =>
      cases lexeme with
      | quoted key =>
          cases step
          exact Reads.needColon members key stack
      | _ => cases step
  | needColon members key stack =>
      cases lexeme with
      | colon =>
          cases step
          have read := Reads.needValue (.object members key :: stack)
          simpa [Frame.allLexemes, Frame.lexemes] using read
      | _ => cases step
  | afterItem items value stack =>
      cases lexeme with
      | comma =>
          cases step
          have read := Reads.needValue (.array (value :: items) :: stack)
          simpa [Frame.allLexemes, Frame.lexemes, Value.itemsBefore] using read
      | closeArray =>
          cases step
          have read := reads_deliver (.array (value :: items).reverse) stack
          simpa [Frame.lexemes, Value.lexemes, Value.itemLexemes_concat] using read
      | _ => cases step
  | afterMember members key value stack =>
      cases lexeme with
      | comma =>
          cases step
          have read := Reads.needKey ((key, value) :: members) stack
          simpa [Frame.lexemes, Value.membersBefore] using read
      | closeObject =>
          cases step
          have read := reads_deliver (.object ((key, value) :: members).reverse) stack
          simpa [Frame.lexemes, Value.lexemes, Value.memberLexemes_concat] using read
      | _ => cases step
  | done value => cases step

theorem State.reads_run {state final : State} {lexemes more : List Lexeme}
    (reads : state.Reads lexemes) (ran : state.run more = some final) :
    final.Reads (lexemes ++ more) := by
  induction more generalizing state lexemes with
  | nil =>
      cases ran
      rwa [List.append_nil]
  | cons lexeme rest ih =>
      rw [run, List.foldlM_cons] at ran
      obtain ⟨between, step, onward⟩ := Option.bind_eq_some_iff.mp ran
      have read := ih (reads_step reads step) onward
      rwa [List.append_assoc] at read

theorem lexemes_of_ofLexemes? {lexemes : List Lexeme} {value : Value}
    (read : ofLexemes? lexemes = some value) : value.lexemes = lexemes := by
  obtain ⟨final, ran, isDone⟩ := Option.bind_eq_some_iff.mp read
  have reads := State.reads_run (State.Reads.needValue []) ran
  cases final with
  | done built =>
      cases isDone
      cases reads
      rfl
  | _ => cases isDone

namespace State

theorem run_cons (state : State) (lexeme : Lexeme) (rest : List Lexeme) :
    state.run (lexeme :: rest) = (state.step lexeme).bind fun next => next.run rest :=
  List.foldlM_cons

/-- In the first place of a container nothing is read in another way than in its other
places, but for the end of the container. -/
theorem run_firstItem (items : List Value) (some : items ≠ []) (stack : List Frame)
    (rest : List Lexeme) :
    (firstItem stack).run (Value.itemLexemes items ++ rest) =
      (needValue (.array [] :: stack)).run (Value.itemLexemes items ++ rest) := by
  cases items with
  | nil => exact absurd rfl some
  | cons first others => cases others <;> cases first <;> rfl

theorem run_firstKey (members : List (List Char × Value)) (some : members ≠ [])
    (stack : List Frame) (rest : List Lexeme) :
    (firstKey stack).run (Value.memberLexemes members ++ rest) =
      (needKey [] stack).run (Value.memberLexemes members ++ rest) := by
  cases members with
  | nil => exact absurd rfl some
  | cons member others => cases others <;> rfl

mutual

theorem run_lexemes (value : Value) (stack : List Frame) (rest : List Lexeme) :
    (needValue stack).run (value.lexemes ++ rest) = (deliver value stack).run rest := by
  cases value with
  | null => rfl
  | bool value => rfl
  | number written => rfl
  | quoted inside => rfl
  | array items =>
      by_cases none : items = []
      · subst none
        rfl
      · have opened : (needValue stack).run ((Value.array items).lexemes ++ rest) =
            (firstItem stack).run (Value.itemLexemes items ++ .closeArray :: rest) := by
          simp [Value.lexemes, run_cons, step, beginValue]
        rw [opened, run_firstItem items none]
        exact run_itemLexemes items none [] stack rest
  | object members =>
      by_cases none : members = []
      · subst none
        rfl
      · have opened : (needValue stack).run ((Value.object members).lexemes ++ rest) =
            (firstKey stack).run (Value.memberLexemes members ++ .closeObject :: rest) := by
          simp [Value.lexemes, run_cons, step, beginValue]
        rw [opened, run_firstKey members none]
        exact run_memberLexemes members none [] stack rest

theorem run_itemLexemes (items : List Value) (some : items ≠ []) (before : List Value)
    (stack : List Frame) (rest : List Lexeme) :
    (needValue (.array before :: stack)).run (Value.itemLexemes items ++ .closeArray :: rest) =
      (deliver (.array (before.reverse ++ items)) stack).run rest := by
  cases items with
  | nil => exact absurd rfl some
  | cons first others =>
      cases others with
      | nil =>
          rw [Value.itemLexemes, run_lexemes first]
          simp [deliver, run_cons, step]
      | cons second more =>
          have onward := run_itemLexemes (second :: more) (List.cons_ne_nil second more)
            (first :: before) stack rest
          rw [Value.itemLexemes, List.append_assoc, run_lexemes first]
          simpa [deliver, run_cons, step] using onward

theorem run_memberLexemes (members : List (List Char × Value)) (some : members ≠ [])
    (before : List (List Char × Value)) (stack : List Frame) (rest : List Lexeme) :
    (needKey before stack).run (Value.memberLexemes members ++ .closeObject :: rest) =
      (deliver (.object (before.reverse ++ members)) stack).run rest := by
  cases members with
  | nil => exact absurd rfl some
  | cons first others =>
      obtain ⟨key, value⟩ := first
      cases others with
      | nil =>
          have inside := run_lexemes value (.object before key :: stack) (.closeObject :: rest)
          simp only [Value.memberLexemes, List.cons_append, run_cons, step, Option.bind_some]
          rw [inside]
          simp [deliver, run_cons, step]
      | cons second more =>
          have inside := run_lexemes value (.object before key :: stack)
            (.comma :: (Value.memberLexemes (second :: more) ++ .closeObject :: rest))
          have onward := run_memberLexemes (second :: more) (List.cons_ne_nil second more)
            ((key, value) :: before) stack rest
          simp only [Value.memberLexemes, List.cons_append, List.append_assoc, run_cons, step,
            Option.bind_some]
          rw [inside]
          simpa [deliver, run_cons, step] using onward

end

end State

theorem ofLexemes?_lexemes (value : Value) : ofLexemes? value.lexemes = some value := by
  have ran := State.run_lexemes value [] []
  rw [List.append_nil] at ran
  rw [ofLexemes?, State.start, ran]
  rfl

/-- The machine accepts what some value is written with, and builds that value. -/
theorem ofLexemes?_eq_some_iff {lexemes : List Lexeme} {value : Value} :
    ofLexemes? lexemes = some value ↔ value.lexemes = lexemes := by
  constructor
  · exact lexemes_of_ofLexemes?
  · rintro rfl
    exact ofLexemes?_lexemes value

end ActionReprint.Json
