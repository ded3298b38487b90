import ActionReprint.Proofs.Point

/-!
A cursor on its way to a target, one character at a time: line feeds while the target is on
a later line, then spaces while it is in a later column. The padding is the text of that way
and `arrive` its end. Lines and columns are looked at apart, so a target that lies before the
cursor is not passed by as a whole: on an earlier line it still takes spaces up to its column.
Main statement: `padding_exact`.
-/

namespace ActionReprint

/-- The next word, as addition gives it that must not overflow. -/
def succ? (n : UInt32) : Option UInt32 :=
  if n.toNat + 1 < UInt32.size then some (n + 1) else none

theorem succ?_of_lt {n bound : UInt32} (below : n < bound) :
    ∃ next, succ? n = some next ∧ next.toNat = n.toNat + 1 := by
  have inside : n.toNat + 1 < UInt32.size :=
    Nat.lt_of_le_of_lt (UInt32.lt_iff_toNat_lt.mp below) bound.toNat_lt
  refine ⟨n + 1, if_pos inside, ?_⟩
  rw [UInt32.toNat_add]
  exact Nat.mod_eq_of_lt inside

namespace Position

/-- From a cursor this text leads to a last place, from which nothing more is written. -/
inductive Strides (target : Position) : Position → List Char → Position → Prop where
  | feed {cursor last : Position} {line : UInt32} {text : List Char}
      (below : cursor.line < target.line) (counted : succ? cursor.line = some line)
      (onward : Strides target ⟨line, 1⟩ text last) :
      Strides target cursor ('\n' :: text) last
  | space {cursor last : Position} {column : UInt32} {text : List Char}
      (notBelow : ¬ cursor.line < target.line) (right : cursor.column < target.column)
      (counted : succ? cursor.column = some column)
      (onward : Strides target ⟨cursor.line, column⟩ text last) :
      Strides target cursor (' ' :: text) last
  | rest {cursor : Position} (notBelow : ¬ cursor.line < target.line)
      (notRight : ¬ cursor.column < target.column) : Strides target cursor [] cursor

section
variable {target cursor last : Position} {text : List Char}

theorem Strides.unique {other : Position} {more : List Char}
    (strides : Strides target cursor text last) (also : Strides target cursor more other) :
    text = more ∧ last = other := by
  induction strides generalizing more other with
  | feed below counted onward ih =>
      cases also with
      | feed _ counted' onward' =>
          obtain rfl := Option.some.inj (counted.symm.trans counted')
          obtain ⟨rfl, rfl⟩ := ih onward'
          exact ⟨rfl, rfl⟩
      | space notBelow _ _ _ => exact absurd below notBelow
      | rest notBelow _ => exact absurd below notBelow
  | space notBelow right counted onward ih =>
      cases also with
      | feed below _ _ => exact absurd below notBelow
      | space _ _ counted' onward' =>
          obtain rfl := Option.some.inj (counted.symm.trans counted')
          obtain ⟨rfl, rfl⟩ := ih onward'
          exact ⟨rfl, rfl⟩
      | rest _ notRight => exact absurd right notRight
  | rest notBelow notRight =>
      cases also with
      | feed below _ _ => exact absurd below notBelow
      | space _ right _ _ => exact absurd right notRight
      | rest _ _ => exact ⟨rfl, rfl⟩

theorem max_of_le {n m : UInt32} (le : n ≤ m) : max n m = m :=
  if_pos le

theorem max_of_not_lt {n m : UInt32} (notLt : ¬ n < m) : max n m = n := by
  by_cases le : n ≤ m
  · rw [max_of_le le]
    exact UInt32.le_antisymm (UInt32.not_lt.mp notLt) le
  · exact if_neg le

theorem strides_spaces (notBelow : ¬ cursor.line < target.line)
    (ahead : cursor.column ≤ target.column) :
    Strides target cursor (List.replicate (target.column.toNat - cursor.column.toNat) ' ')
      ⟨cursor.line, target.column⟩ := by
  rw [UInt32.le_iff_toNat_le] at ahead
  induction left : target.column.toNat - cursor.column.toNat generalizing cursor with
  | zero =>
      have same : cursor.column = target.column := by
        apply UInt32.toNat_inj.mp
        omega
      have notRight : ¬ cursor.column < target.column := by
        rw [same]
        exact UInt32.lt_irrefl _
      rw [← same]
      exact .rest notBelow notRight
  | succ fewer ih =>
      have right : cursor.column < target.column := by
        rw [UInt32.lt_iff_toNat_lt]
        omega
      obtain ⟨column, counted, value⟩ := succ?_of_lt right
      have onward : Strides target ⟨cursor.line, column⟩ (List.replicate fewer ' ')
          ⟨cursor.line, target.column⟩ := ih notBelow (by simp only; omega) (by simp only; omega)
      exact .space notBelow right counted onward

theorem strides_feeds (below : cursor.line < target.line)
    (onward : Strides target ⟨target.line, 1⟩ text last) :
    Strides target cursor
      (List.replicate (target.line.toNat - cursor.line.toNat) '\n' ++ text) last := by
  induction left : target.line.toNat - cursor.line.toNat generalizing cursor with
  | zero =>
      rw [UInt32.lt_iff_toNat_lt] at below
      omega
  | succ fewer ih =>
      obtain ⟨line, counted, value⟩ := succ?_of_lt below
      refine .feed below counted ?_
      by_cases further : line < target.line
      · exact ih further (by simp only; omega)
      · have same : line = target.line := by
          rw [UInt32.lt_iff_toNat_lt] at below further
          apply UInt32.toNat_inj.mp
          omega
        have none : fewer = 0 := by
          rw [← same] at left
          omega
        rw [none, same]
        exact onward

theorem strides_line (notBelow : ¬ cursor.line < target.line) :
    Strides target cursor (List.replicate (target.column.toNat - cursor.column.toNat) ' ')
      ⟨cursor.line, max cursor.column target.column⟩ := by
  by_cases ahead : cursor.column ≤ target.column
  · rw [max_of_le ahead]
    exact strides_spaces notBelow ahead
  · have notRight : ¬ cursor.column < target.column := fun right => ahead (UInt32.le_of_lt right)
    have none : target.column.toNat - cursor.column.toNat = 0 := by
      rw [UInt32.lt_iff_toNat_lt] at notRight
      omega
    rw [max_of_not_lt notRight, none]
    exact .rest notBelow notRight

theorem strides_padding (cursor target : Position) :
    Strides target cursor (cursor.padding target).toList (cursor.arrive target) := by
  rw [toList_padding, arrive, lineBreaks, spaces, margin]
  by_cases below : cursor.line < target.line
  · rw [if_pos below, max_of_le (UInt32.le_of_lt below)]
    exact strides_feeds below (strides_line (UInt32.lt_irrefl _))
  · have none : target.line.toNat - cursor.line.toNat = 0 := by
      rw [UInt32.lt_iff_toNat_lt] at below
      omega
    rw [if_neg below, max_of_not_lt below, none]
    exact strides_line below

theorem strides_iff : Strides target cursor text last ↔
    text = (cursor.padding target).toList ∧ last = cursor.arrive target := by
  constructor
  · intro strides
    exact strides.unique (strides_padding cursor target)
  · rintro ⟨rfl, rfl⟩
    exact strides_padding cursor target

theorem arrive_of_ahead (ahead : cursor.point ≤ target.point) (counted : 1 ≤ target.column) :
    cursor.arrive target = target := by
  rw [arrive, margin]
  rcases ahead with later | ⟨same, before⟩
  · have below : cursor.line < target.line := UInt32.lt_iff_toNat_lt.mpr later
    rw [if_pos below, max_of_le (UInt32.le_of_lt below), max_of_le counted]
  · have same : cursor.line = target.line := UInt32.toNat_inj.mp same
    rw [if_neg (same ▸ UInt32.lt_irrefl _), same, max_of_le (UInt32.le_refl _),
      max_of_le (UInt32.le_iff_toNat_le.mpr before)]

theorem not_below_of_behind (behind : ¬ cursor.point ≤ target.point) :
    ¬ cursor.line < target.line := by
  intro below
  exact behind (Or.inl (UInt32.lt_iff_toNat_lt.mp below))

theorem toList_padding_of_behind (behind : ¬ cursor.point ≤ target.point) :
    (cursor.padding target).toList =
      List.replicate (target.column.toNat - cursor.column.toNat) ' ' :=
  (strides_iff.mp (strides_line (not_below_of_behind behind))).1.symm

theorem arrive_of_behind (behind : ¬ cursor.point ≤ target.point) :
    cursor.arrive target = ⟨cursor.line, max cursor.column target.column⟩ :=
  (strides_iff.mp (strides_line (not_below_of_behind behind))).2.symm

end

end Position

/-- The padding is what the cursor writes on its way, with no addition that overflows. To a
target that does not lie before it, the way has as many line feeds as there are lines between
and then the spaces that are missing, and it ends at the target. A target that lies before
the cursor takes the spaces up to its column, so it takes nothing exactly if it is not in a
later column. -/
theorem padding_exact (cursor target : Position) :
    (∀ text last, target.Strides cursor text last ↔
      text = (cursor.padding target).toList ∧ last = cursor.arrive target) ∧
    (cursor.point ≤ target.point →
      (cursor.padding target).toList =
          List.replicate (target.line.toNat - cursor.line.toNat) '\n' ++
            List.replicate (target.column.toNat -
              (if cursor.line < target.line then 1 else cursor.column.toNat)) ' ' ∧
        (1 ≤ target.column → cursor.arrive target = target)) ∧
    (¬ cursor.point ≤ target.point →
      (cursor.padding target).toList =
          List.replicate (target.column.toNat - cursor.column.toNat) ' ' ∧
        cursor.arrive target = ⟨cursor.line, max cursor.column target.column⟩ ∧
        (cursor.padding target = "" ∧ cursor.arrive target = cursor ↔
          target.column ≤ cursor.column)) := by
  refine ⟨fun text last => Position.strides_iff, ?_, ?_⟩
  · intro ahead
    refine ⟨?_, Position.arrive_of_ahead ahead⟩
    rw [Position.toList_padding, Position.lineBreaks, Position.spaces, Position.margin,
      apply_ite UInt32.toNat]
    rfl
  · intro behind
    have spaces := Position.toList_padding_of_behind behind
    have reached := Position.arrive_of_behind behind
    refine ⟨spaces, reached, ?_⟩
    rw [reached, ← String.toList_inj, spaces]
    constructor
    · rintro ⟨nothing, _⟩
      rw [UInt32.le_iff_toNat_le]
      simpa [Nat.sub_eq_zero_iff_le] using nothing
    · intro left
      have nothing := Nat.sub_eq_zero_of_le (UInt32.le_iff_toNat_le.mp left)
      rw [nothing, Position.max_of_not_lt (UInt32.not_lt.mpr left)]
      exact ⟨rfl, rfl⟩

theorem padding_behind : ¬ ∀ cursor target : Position, ¬ cursor.point ≤ target.point →
    cursor.padding target = "" ∧ cursor.arrive target = cursor := by
  intro unpadded
  have behind : ¬ (⟨5, 3⟩ : Position).point ≤ (⟨4, 10⟩ : Position).point := by decide
  exact absurd (unpadded ⟨5, 3⟩ ⟨4, 10⟩ behind).2 (by decide)

end ActionReprint
