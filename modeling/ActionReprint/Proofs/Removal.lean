import ActionReprint.Proofs.TwoPasses

/-!
Stripping by taking characters back out of what has been written. A comma is written at
once, and the byte at which it begins is remembered until it is known what follows; if that
closes, the character at that byte is taken out again. Held text says the same without an
offset that could be out of date. Main statements: `rewrite_eq_strip`, and
`normalize_eq_passes`, which puts it beside the two passes.
-/

namespace ActionReprint.Jsonc

def byteLength : List Char → Nat
  | [] => 0
  | c :: rest => c.utf8Size + byteLength rest

/-- The character that begins at this byte, and the text without it; none if no character
begins there. -/
def takeOut? : List Char → Nat → Option (Char × List Char)
  | [], _ => none
  | c :: rest, offset =>
      if offset = 0 then some (c, rest)
      else if c.utf8Size ≤ offset then
        (takeOut? rest (offset - c.utf8Size)).map fun taken => (taken.1, c :: taken.2)
      else none

theorem takeOut?_append (front : List Char) (c : Char) (rest : List Char) :
    takeOut? (front ++ c :: rest) (byteLength front) = some (c, front ++ rest) := by
  induction front with
  | nil => rfl
  | cons first more ih =>
      have size : byteLength (first :: more) = first.utf8Size + byteLength more := rfl
      have some := first.utf8Size_pos
      rw [List.cons_append, takeOut?, size, if_neg (by omega), if_pos (by omega),
        Nat.add_sub_cancel_left, ih]
      rfl

structure Draft where
  written : List Char
  /-- The byte at which a comma begins that is taken out if something closes. -/
  comma : Option Nat
  taken : List Char
  deriving DecidableEq, Repr

namespace Draft

def empty : Draft := ⟨[], none, []⟩

def push (draft : Draft) (c : Char) : Draft :=
  { draft with written := draft.written ++ [c] }

def mark (draft : Draft) : Draft :=
  { draft with comma := some (byteLength draft.written) }

def forget (draft : Draft) : Draft :=
  { draft with comma := none }

def takeBack? (draft : Draft) : Option Draft :=
  match draft.comma with
  | none => some draft
  | some offset => (takeOut? draft.written offset).map fun taken =>
      ⟨taken.2, none, draft.taken ++ [taken.1]⟩

end Draft

inductive Place where
  | code
  | string (escaped : Bool)
  | lineComment
  | blockComment
  deriving DecidableEq, Repr

def afterQuoted (escaped : Bool) (c : Char) : Place :=
  if escaped then .string false
  else if c = '\\' then .string true
  else if c = '"' then .code
  else .string false

/-- The whole rest of a text, written behind the draft; none as soon as a comma cannot be
taken out. -/
def rewrite : Place → Draft → List Char → Option Draft
  | _, draft, [] => some draft
  | .code, draft, '/' :: '/' :: rest => rewrite .lineComment draft rest
  | .code, draft, '/' :: '*' :: rest => rewrite .blockComment draft rest
  | .code, draft, c :: rest =>
      if c = ',' then rewrite .code (draft.mark.push c) rest
      else if isClosing c then
        match draft.takeBack? with
        | none => none
        | some without => rewrite .code (without.push c) rest
      else if Text.isBlank c then rewrite .code (draft.push c) rest
      else if c = '"' then rewrite (.string false) (draft.forget.push c) rest
      else rewrite .code (draft.forget.push c) rest
  | .string escaped, draft, c :: rest => rewrite (afterQuoted escaped c) (draft.push c) rest
  | .lineComment, draft, c :: rest =>
      if c = '\n' then rewrite .code (draft.push c) rest else rewrite .lineComment draft rest
  | .blockComment, draft, '*' :: '/' :: rest => rewrite .code draft rest
  | .blockComment, draft, c :: rest =>
      if c = '\n' then rewrite .blockComment (draft.push c) rest
      else rewrite .blockComment draft rest

def Place.mode (held : Held) : Place → Mode
  | .code => .code held
  | .string escaped => .string escaped
  | .lineComment => .lineComment held
  | .blockComment => .blockComment held

/-- The draft is this output with the held text behind it, the offset that it remembers is
where that text begins, and it has lost nothing but commas. -/
structure Draft.Holds (draft : Draft) (output : List Char) (held : Held) : Prop where
  written : draft.written = output ++ kept held
  comma : draft.comma = held.map fun _ => byteLength output
  taken : ∀ c ∈ draft.taken, c = ','

namespace Draft.Holds
variable {draft : Draft} {output : List Char} {held : Held}

theorem empty : Draft.empty.Holds [] none :=
  ⟨rfl, rfl, by simp [Draft.empty]⟩

theorem blank (holds : draft.Holds output held) (c : Char) :
    (draft.push c).Holds (output ++ now held c) (later held c) := by
  refine ⟨?_, ?_, holds.taken⟩
  · simp only [Draft.push, holds.written]
    cases held <;> simp [now, later, kept]
  · simp only [Draft.push, holds.comma]
    cases held <;> simp [now, later]

theorem forget (holds : draft.Holds output held) :
    draft.forget.Holds (output ++ kept held) none :=
  ⟨by simp [Draft.forget, holds.written, kept], rfl, holds.taken⟩

theorem comma_push (holds : draft.Holds output held) :
    (draft.mark.push ',').Holds (output ++ kept held) (some []) :=
  ⟨by simp [Draft.mark, Draft.push, holds.written, kept],
    by simp [Draft.mark, Draft.push, holds.written], holds.taken⟩

theorem push (holds : draft.Holds output none) (c : Char) :
    (draft.push c).Holds (output ++ [c]) none :=
  ⟨by simp [Draft.push, holds.written, kept], holds.comma, holds.taken⟩

theorem takeBack (holds : draft.Holds output held) :
    ∃ without, draft.takeBack? = some without ∧ without.Holds (output ++ dropped held) none := by
  obtain ⟨written, comma, taken⟩ := holds
  unfold takeBack?
  cases held with
  | none =>
      rw [comma]
      exact ⟨draft, rfl, by simpa [kept, dropped] using written, comma, taken⟩
  | some blanks =>
      have found : takeOut? draft.written (byteLength output) =
          some (',', output ++ dropped (some blanks)) := by
        rw [written]
        exact takeOut?_append output ',' blanks.reverse
      rw [comma]
      refine ⟨_, congrArg (Option.map _) found, ?_, rfl, ?_⟩
      · simp [kept]
      · intro c member
        rcases List.mem_append.mp member with before | last
        · exact taken c before
        · exact List.mem_singleton.mp last

end Draft.Holds

/-- No comma that is to be taken out is missing, nothing else is taken out, and this is
written in the end. -/
def Writes (place : Place) (draft : Draft) (text output : List Char) : Prop :=
  ∃ final, rewrite place draft text = some final ∧ final.written = output ∧
    ∀ c ∈ final.taken, c = ','

/-- A draft with held text behind some output is rewritten to that output and what
stripping makes of the held text and the rest. -/
theorem rewrite_eq_strip {place : Place} {draft : Draft} {output : List Char} {held : Held}
    (text : List Char) (holds : draft.Holds output held)
    (inside : ∀ escaped, place = .string escaped → held = none) :
    Writes place draft text (output ++ strip (place.mode held) text) := by
  unfold Writes
  fun_induction rewrite place draft text generalizing output held with
  | case1 place draft =>
      refine ⟨draft, rfl, ?_, holds.taken⟩
      rw [holds.written]
      cases place with
      | string escaped =>
          rw [inside escaped rfl]
          rfl
      | _ => simp [Place.mode, strip]
  | case2 draft rest ih =>
      rw [Place.mode, strip_lineComment_opened]
      exact ih holds (by simp)
  | case3 draft rest ih =>
      rw [Place.mode, strip_blockComment_opened]
      exact ih holds (by simp)
  | case4 draft rest line block ih =>
      rw [Place.mode, strip_comma, ← List.append_assoc]
      exact ih holds.comma_push (by simp)
  | case5 draft c rest line block notComma closing failed =>
      obtain ⟨without, taken, _⟩ := holds.takeBack
      cases failed.symm.trans taken
  | case6 draft c rest line block notComma closing without taken ih =>
      obtain ⟨other, found, emptied⟩ := holds.takeBack
      obtain rfl := Option.some.inj (taken.symm.trans found)
      rw [Place.mode, strip_code line block, if_neg notComma, if_pos closing]
      simpa [Place.mode] using ih (emptied.push c) (by simp)
  | case7 draft c rest line block notComma notClosing blank ih =>
      rw [Place.mode, strip_code line block, if_neg notComma, if_neg notClosing, if_pos blank,
        ← List.append_assoc]
      exact ih (holds.blank c) (by simp)
  | case8 draft rest line block _ _ _ ih =>
      rw [Place.mode, strip_quote]
      simpa [Place.mode] using ih (holds.forget.push '"') fun _ _ => rfl
  | case9 draft c rest line block notComma notClosing notBlank notQuote ih =>
      rw [Place.mode, strip_code line block, if_neg notComma, if_neg notClosing,
        if_neg notBlank, if_neg notQuote]
      simpa [Place.mode] using ih (holds.forget.push c) (by simp)
  | case10 escaped draft c rest ih =>
      obtain rfl := inside escaped rfl
      have goesOn : (afterQuoted escaped c).mode none = afterStringChar escaped c := by
        unfold afterQuoted afterStringChar
        repeat' split
        all_goals rfl
      rw [Place.mode, strip, ← goesOn]
      simpa using ih (holds.push c) fun _ _ => rfl
  | case11 draft rest ih =>
      rw [Place.mode, strip, if_pos rfl, ← List.append_assoc]
      exact ih (holds.blank '\n') (by simp)
  | case12 draft c rest notFeed ih =>
      rw [Place.mode, strip, if_neg notFeed]
      exact ih holds (by simp)
  | case13 draft rest ih =>
      rw [Place.mode, strip_blockComment_closed]
      exact ih holds (by simp)
  | case14 draft rest open' ih =>
      rw [Place.mode, strip_open open', if_pos rfl, ← List.append_assoc]
      exact ih (holds.blank '\n') (by simp)
  | case15 draft c rest open' notFeed ih =>
      rw [Place.mode, strip_open open', if_neg notFeed]
      exact ih holds (by simp)

/-- Stripping a text, well formed or not, is taking its comments out and then the commas in
front of what closes. What is left keeps its order, its line feeds and the lines it stands
on. And written out in one pass with commas taken back, no comma is ever missing at the byte
where it is looked for, nothing but commas is taken out, and the text is the same. -/
theorem normalize_eq_passes (text : String) :
    (normalize text).toList = uncomma (uncomment text.toList) ∧
      (normalize text).toList.Sublist text.toList ∧
      (normalize text).toList.count '\n' = text.toList.count '\n' ∧
      (numbered 1 (normalize text).toList).Sublist (numbered 1 text.toList) ∧
      Writes .code .empty text.toList (normalize text).toList := by
  have stripped : (normalize text).toList = strip (.code none) text.toList := by
    rw [normalize, String.toList_ofList]
  have passes : (normalize text).toList = uncomma (uncomment text.toList) := by
    rw [stripped, strip_eq_passes, settled_none, List.nil_append]
  have thinned : Thinned (normalize text).toList text.toList := by
    rw [passes]
    exact (thinned_uncomma _).trans (thinned_uncomment _)
  refine ⟨passes, thinned.sublist, thinned.feeds, thinned.numbered 1, ?_⟩
  rw [stripped]
  exact rewrite_eq_strip text.toList Draft.Holds.empty (by simp)

end ActionReprint.Jsonc
