import ActionReprint.Position
import Mathlib.Data.List.DropRight

/-!
Where a reader stands in a text. A line feed takes the reader to the first column of
the next line, every other character one column on. Lines and columns are counted
without a limit, so a point says what a text looks like and not what a cursor of 32
bits makes of it.
-/

namespace ActionReprint

structure Point where
  line : Nat
  column : Nat
  deriving DecidableEq, Repr

namespace Point

instance : LE Point :=
  -- the order in which a reader passes points
  ⟨fun here there => here.line < there.line ∨ here.line = there.line ∧ here.column ≤ there.column⟩

instance (here there : Point) : Decidable (here ≤ there) :=
  inferInstanceAs (Decidable (_ ∨ _))

theorem line_le_of_le {here there : Point} (ahead : here ≤ there) : here.line ≤ there.line := by
  rcases ahead with later | ⟨same, _⟩
  · exact Nat.le_of_lt later
  · exact Nat.le_of_eq same

def next (here : Point) (c : Char) : Point :=
  if c = '\n' then ⟨here.line + 1, 1⟩ else ⟨here.line, here.column + 1⟩

def read (here : Point) (text : List Char) : Point :=
  text.foldl next here

def shift (here : Point) (columns : Nat) : Point :=
  ⟨here.line, here.column + columns⟩

@[simp] theorem read_nil (here : Point) : here.read [] = here := rfl

@[simp] theorem read_append (here : Point) (text rest : List Char) :
    here.read (text ++ rest) = (here.read text).read rest :=
  List.foldl_append

@[simp] theorem shift_zero (here : Point) : here.shift 0 = here := rfl

@[simp] theorem line_shift (here : Point) (columns : Nat) :
    (here.shift columns).line = here.line := rfl

@[simp] theorem column_shift (here : Point) (columns : Nat) :
    (here.shift columns).column = here.column + columns := rfl

end Point

/-- The width of the last line. With the number of line feeds it decides where a text ends. -/
def lastWidth (text : List Char) : Nat :=
  (text.rtakeWhile fun c => c != '\n').length

@[simp] theorem lastWidth_nil : lastWidth [] = 0 := by
  simp [lastWidth]

theorem lastWidth_concat (text : List Char) (c : Char) :
    lastWidth (text ++ [c]) = if c = '\n' then 0 else lastWidth text + 1 := by
  unfold lastWidth
  rw [List.rtakeWhile_concat]
  by_cases feed : c = '\n' <;> simp [feed]

theorem lastWidth_append (text rest : List Char) :
    lastWidth (text ++ rest) =
      if '\n' ∈ rest then lastWidth rest else lastWidth text + rest.length := by
  induction rest using List.reverseRecOn with
  | nil => simp
  | append_singleton rest c ih =>
      rw [← List.append_assoc, lastWidth_concat, lastWidth_concat, ih]
      by_cases feed : c = '\n'
      · simp [feed]
      · by_cases broken : '\n' ∈ rest <;> simp [feed, Ne.symm feed, broken, Nat.add_assoc]

namespace Point

theorem read_eq (here : Point) (text : List Char) :
    here.read text =
      ⟨here.line + text.count '\n', (if '\n' ∈ text then 1 else here.column) + lastWidth text⟩ := by
  induction text using List.reverseRecOn with
  | nil => simp
  | append_singleton text c ih =>
      rw [read_append, ih, lastWidth_concat]
      by_cases feed : c = '\n'
      · simp [read, next, feed, Nat.add_assoc]
      · simp [read, next, feed, Ne.symm feed, Nat.add_assoc]

theorem read_feeds (here : Point) {feeds : Nat} (some : feeds ≠ 0) :
    here.read (List.replicate feeds '\n') = ⟨here.line + feeds, 1⟩ := by
  have last : lastWidth (List.replicate feeds '\n') = 0 := by
    obtain ⟨fewer, rfl⟩ := Nat.exists_eq_succ_of_ne_zero some
    rw [List.replicate_succ', lastWidth_concat, if_pos rfl]
  simp [read_eq, last, some]

theorem read_spaces (here : Point) (spaces : Nat) :
    here.read (List.replicate spaces ' ') = here.shift spaces := by
  have noFeed : '\n' ∉ List.replicate spaces ' ' := by simp [List.mem_replicate]
  have width := lastWidth_append [] (List.replicate spaces ' ')
  rw [if_neg noFeed] at width
  simp only [List.nil_append, lastWidth_nil, Nat.zero_add, List.length_replicate] at width
  simp [read_eq, noFeed, width, shift, List.count_replicate]

theorem read_shift (here : Point) (columns : Nat) (text : List Char) :
    (here.shift columns).read text =
      (here.read text).shift (if '\n' ∈ text then 0 else columns) := by
  rw [read_eq, read_eq]
  -- Any line feed takes the reader back to the first column, and the shift is gone.
  by_cases broken : '\n' ∈ text
  · simp [shift, broken]
  · simp [shift, broken, Nat.add_right_comm]

end Point

namespace Position

def point (position : Position) : Point :=
  ⟨position.line.toNat, position.column.toNat⟩

/-- Every line and column that a text can have, without the greatest word: it is the
point behind it that has to be a word too. -/
def Inside (position : Position) : Prop :=
  (1 ≤ position.line.toNat ∧ position.line.toNat < 4294967295) ∧
    1 ≤ position.column.toNat ∧ position.column.toNat < 4294967295

instance (position : Position) : Decidable position.Inside :=
  inferInstanceAs (Decidable (_ ∧ _))

theorem toList_padding (cursor target : Position) :
    (cursor.padding target).toList = List.replicate (lineBreaks cursor target) '\n' ++
      List.replicate (spaces cursor target) ' ' := by
  simp [padding]

theorem feed_mem_padding (cursor target : Position) :
    '\n' ∈ (cursor.padding target).toList ↔ cursor.line.toNat < target.line.toNat := by
  rw [toList_padding]
  simp [List.mem_replicate, lineBreaks, Nat.sub_eq_zero_iff_le]

theorem padding_eq_nil_iff (cursor target : Position) :
    (cursor.padding target).toList = [] ↔
      target.line ≤ cursor.line ∧ target.column ≤ cursor.column := by
  rw [toList_padding]
  simp only [List.append_eq_nil_iff, List.replicate_eq_nil_iff, lineBreaks, spaces,
    Nat.sub_eq_zero_iff_le, ← UInt32.le_iff_toNat_le]
  refine and_congr_right fun notBelow => ?_
  rw [margin, if_neg (UInt32.not_lt.mpr notBelow)]

theorem point_eq_iff {cursor target : Position} (ahead : cursor.point ≤ target.point) :
    cursor.point = target.point ↔
      ¬ cursor.line.toNat < target.line.toNat ∧ (cursor.padding target).toList = [] := by
  rw [padding_eq_nil_iff, UInt32.le_iff_toNat_le, UInt32.le_iff_toNat_le]
  rcases ahead with later | ⟨same, before⟩
  · simp only [point, Point.mk.injEq] at later ⊢
    omega
  · simp only [point, Point.mk.injEq] at same before ⊢
    omega

theorem read_padding {cursor target : Position} (ahead : cursor.point ≤ target.point)
    (counted : 1 ≤ target.column.toNat) :
    cursor.point.read (cursor.padding target).toList = target.point := by
  rw [toList_padding, Point.read_append, Point.read_spaces]
  -- Spaces are counted from the margin after a line feed, and else from the cursor.
  rcases ahead with later | ⟨sameLine, before⟩
  · have below : cursor.line < target.line := UInt32.lt_iff_toNat_lt.mpr later
    have feeds : lineBreaks cursor target ≠ 0 := Nat.sub_ne_zero_of_lt later
    have fromMargin : spaces cursor target = target.column.toNat - 1 := by
      simp [spaces, margin, below]
    rw [Point.read_feeds _ feeds, fromMargin]
    simp only [point] at later
    simp only [point, Point.shift, lineBreaks, Point.mk.injEq]
    omega
  · have notBelow : ¬ cursor.line < target.line := by
      intro below
      exact Nat.ne_of_lt (UInt32.lt_iff_toNat_lt.mp below) sameLine
    have noFeeds : lineBreaks cursor target = 0 := by
      simp only [point] at sameLine
      simp [lineBreaks, sameLine]
    have fromCursor : spaces cursor target = target.column.toNat - cursor.column.toNat := by
      simp [spaces, margin, notBelow]
    rw [noFeeds, fromCursor]
    simp only [point] at sameLine before
    simp only [List.replicate_zero, Point.read_nil, point, Point.shift, Point.mk.injEq]
    omega

theorem read_padding_shift {cursor target : Position} (ahead : cursor.point ≤ target.point)
    (counted : 1 ≤ target.column.toNat) (columns : Nat) :
    (cursor.point.shift columns).read (cursor.padding target).toList =
      target.point.shift (if cursor.point.line = target.point.line then columns else 0) := by
  rw [Point.read_shift, read_padding ahead counted]
  congr 1
  -- The padding breaks the line exactly when its target is on a later one.
  by_cases later : cursor.point.line < target.point.line
  · rw [if_pos ((feed_mem_padding cursor target).mpr later), if_neg (Nat.ne_of_lt later)]
  · have same := Nat.le_antisymm (Point.line_le_of_le ahead) (Nat.le_of_not_lt later)
    rw [if_neg fun feed => later ((feed_mem_padding cursor target).mp feed), if_pos same]

end Position

end ActionReprint
