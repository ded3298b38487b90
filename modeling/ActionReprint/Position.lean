/-!
Places in the grammar file and the padding between them. A line or column is a
32-bit word and stops at the greatest one instead of wrapping. The cursor of a
replay is such a place: where the last reprinted token ended in the grammar file,
not where the generated text has got to.
-/

namespace ActionReprint

/-- The next word; the greatest word is its own successor. -/
def bump (n : UInt32) : UInt32 :=
  if n = 0xFFFFFFFF then n else n + 1

theorem toNat_bump (n : UInt32) : (bump n).toNat = min (n.toNat + 1) 4294967295 := by
  have bound := n.toNat_lt
  unfold bump
  split
  · next top => subst top; decide
  · next below =>
      have differs : n.toNat ≠ 4294967295 := fun same => below (UInt32.toNat_inj.mp same)
      rw [UInt32.toNat_add]
      simp only [UInt32.reduceToNat]
      omega

structure Position where
  line : UInt32
  column : UInt32
  deriving DecidableEq, Repr

namespace Position

def start : Position := ⟨1, 1⟩

def margin (cursor target : Position) : UInt32 :=
  if cursor.line < target.line then 1 else cursor.column

def lineBreaks (cursor target : Position) : Nat :=
  target.line.toNat - cursor.line.toNat

def spaces (cursor target : Position) : Nat :=
  target.column.toNat - (margin cursor target).toNat

/-- The line feeds and then the spaces that lead from the cursor to the target.
Each count stops at zero: a target that lies before the cursor on its line, or on
an earlier line, takes no line feed. -/
def padding (cursor target : Position) : String :=
  String.ofList (List.replicate (lineBreaks cursor target) '\n' ++
    List.replicate (spaces cursor target) ' ')

def arrive (cursor target : Position) : Position :=
  ⟨max cursor.line target.line, max (margin cursor target) target.column⟩

def nextLine (cursor : Position) : Position :=
  ⟨bump cursor.line, 1⟩

/-- A construct that begins on another line than the cursor's must not continue the
line the cursor is in the middle of. -/
def dangles (cursor : Position) (line : UInt32) : Bool :=
  cursor.column != 1 && cursor.line != line

end Position

end ActionReprint
