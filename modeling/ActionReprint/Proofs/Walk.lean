import ActionReprint.Arena
import Mathlib.Data.List.Nodup
import Mathlib.Data.List.Perm.Subperm
import Mathlib.Data.Fintype.Pigeonhole

/-!
Where walks along a partial step lead. `Passes step here list` says that a walk from `here`
passes exactly the list and then has no next place. Such a walk never comes back to a place,
and a bound of as many steps as it has places leaves it whole. A walk that need not end may
turn in circles; among so many places it still comes to each that it ever comes to in fewer
steps than there are places.
-/

namespace ActionReprint

section Walks
variable {α : Type} (step : α → Option α)

def Passes : Option α → List α → Prop
  | here, [] => here = none
  | here, place :: rest => here = some place ∧ Passes (step place) rest

instance decidablePasses [DecidableEq α] :
    (here : Option α) → (list : List α) → Decidable (Passes step here list)
  | here, [] => inferInstanceAs (Decidable (here = none))
  | here, place :: rest =>
      have := decidablePasses (step place) rest
      inferInstanceAs (Decidable (here = some place ∧ Passes step (step place) rest))

variable {step}

theorem Passes.head {here : Option α} {list : List α} (passes : Passes step here list) :
    here = list.head? := by
  cases list with
  | nil => exact passes
  | cons place rest => exact passes.1

theorem Passes.unique {here : Option α} {list other : List α} (passes : Passes step here list)
    (also : Passes step here other) : list = other := by
  induction list generalizing here other with
  | nil =>
      cases other with
      | nil => rfl
      | cons place rest =>
          have ended : (none : Option α) = some place := passes.symm.trans also.1
          cases ended
  | cons place rest ih =>
      cases other with
      | nil =>
          have ended : some place = (none : Option α) := passes.1.symm.trans also
          cases ended
      | cons second more =>
          have same : place = second := Option.some.inj (passes.1.symm.trans also.1)
          subst second
          rw [ih passes.2 also.2]

theorem Passes.drop {here : Option α} {front rest : List α}
    (passes : Passes step here (front ++ rest)) : Passes step rest.head? rest := by
  induction front generalizing here with
  | nil => exact passes.head ▸ passes
  | cons place front ih => exact ih passes.2

theorem Passes.last {here : Option α} {list : List α} (passes : Passes step here list) :
    ∀ last ∈ list.getLast?, step last = none := by
  intro last isLast
  obtain ⟨front, rfl⟩ := List.getLast?_eq_some_iff.mp isLast
  exact passes.drop.2

theorem Passes.congr {other : α → Option α} {here : Option α} {list : List α}
    (passes : Passes step here list) (same : ∀ place ∈ list, other place = step place) :
    Passes other here list := by
  induction list generalizing here with
  | nil => exact passes
  | cons place rest ih =>
      refine ⟨passes.1, ?_⟩
      rw [same place List.mem_cons_self]
      exact ih passes.2 fun later member => same later (List.mem_cons_of_mem place member)

theorem Passes.extend {other : α → Option α} {here : Option α} {front : List α} {last new : α}
    (passes : Passes step here (front ++ [last])) (same : ∀ place ∈ front, other place = step place)
    (onward : other last = some new) (ended : other new = none) :
    Passes other here (front ++ [last, new]) := by
  induction front generalizing here with
  | nil => exact ⟨passes.1, onward, ended⟩
  | cons place rest ih =>
      refine ⟨passes.1, ?_⟩
      rw [same place List.mem_cons_self]
      exact ih passes.2 fun later member => same later (List.mem_cons_of_mem place member)

theorem Passes.nodup {here : Option α} {list : List α} (passes : Passes step here list) :
    list.Nodup := by
  induction list generalizing here with
  | nil => exact List.nodup_nil
  | cons place rest ih =>
      refine List.nodup_cons.mpr ⟨?_, ih passes.2⟩
      -- From a second time on the walk would go on as it did from the first, and never end.
      intro again
      obtain ⟨front, back, split⟩ := List.append_of_mem again
      have later : Passes step (some place) (place :: back) :=
        (split ▸ passes.2 : Passes step (step place) (front ++ place :: back)).drop
      have now : Passes step (some place) (place :: rest) := ⟨rfl, passes.2⟩
      have lengths := congrArg List.length (later.unique now)
      simp only [split, List.length_cons, List.length_append] at lengths
      omega

/-- A walk goes on to a new place if the step behind its last place is changed to lead there. -/
theorem Passes.append_new {other : α → Option α} {list : List α} {new : α}
    (passes : Passes step list.head? list)
    (same : ∀ place, list.getLast? ≠ some place → other place = step place)
    (onward : ∀ last ∈ list.getLast?, other last = some new) (ended : other new = none) :
    Passes other (list ++ [new]).head? (list ++ [new]) := by
  rcases List.eq_nil_or_concat list with rfl | ⟨front, last, whole⟩
  · exact ⟨rfl, ended⟩
  · rw [List.concat_eq_append] at whole
    subst whole
    have head : (front ++ [last] ++ [new]).head? = (front ++ [last]).head? := by
      rw [List.head?_append_of_ne_nil _ (by simp)]
    have before : ∀ place ∈ front, other place = step place := by
      intro place member
      refine same place fun again => ?_
      rw [List.getLast?_concat, Option.some.injEq] at again
      exact (List.nodup_append.mp passes.nodup).2.2 place member last List.mem_cons_self again.symm
    rw [head, List.append_assoc]
    exact passes.extend before (onward last List.getLast?_concat) ended

theorem Passes.trail_eq {place : α} {list : List α} {bound : Nat}
    (passes : Passes step (some place) list) (enough : list.length ≤ bound) :
    trail step bound place = list := by
  induction list generalizing place bound with
  | nil => cases passes
  | cons first rest ih =>
      obtain ⟨same, onward⟩ := passes
      obtain rfl := Option.some.inj same
      obtain ⟨fewer, rfl⟩ : ∃ fewer, bound = fewer + 1 := ⟨bound - 1, by simp at enough; omega⟩
      cases next : step place with
      | none =>
          rw [next] at onward
          cases rest with
          | nil => simp [trail, next]
          | cons second more => cases onward.1
      | some second =>
          rw [next] at onward
          simp [trail, next, ih onward (by simpa using enough)]

theorem Passes.settle_eq {place : α} {list : List α} {bound : Nat}
    (passes : Passes step (some place) list) (enough : list.length ≤ bound + 1) :
    list.getLast? = some (settle step bound place) := by
  induction list generalizing place bound with
  | nil => cases passes
  | cons first rest ih =>
      obtain ⟨same, onward⟩ := passes
      obtain rfl := Option.some.inj same
      cases rest with
      | nil =>
          have ended : step place = none := onward
          cases bound <;> simp [settle, ended]
      | cons second more =>
          obtain ⟨fewer, rfl⟩ : ∃ fewer, bound = fewer + 1 :=
            ⟨bound - 1, by simp at enough; omega⟩
          have next := onward.1
          rw [next] at onward
          rw [List.getLast?_cons_cons, ih onward (by simpa using enough)]
          simp [settle, next]

def ahead (step : α → Option α) : Nat → α → Option α
  | 0, here => some here
  | steps + 1, here => (step here).bind (ahead step steps)

def Leads (step : α → Option α) (here there : α) : Prop :=
  ∃ steps, ahead step steps here = some there

theorem ahead_add (steps more : Nat) (here : α) :
    ahead step (steps + more) here = (ahead step steps here).bind (ahead step more) := by
  induction steps generalizing here with
  | zero => rw [Nat.zero_add]; rfl
  | succ steps ih =>
      rw [Nat.add_right_comm, ahead, ahead, Option.bind_assoc]
      congr 1
      funext there
      exact ih there

theorem Leads.concat {here there next : α} (leads : Leads step here there)
    (onward : step there = some next) : Leads step here next := by
  obtain ⟨steps, reached⟩ := leads
  refine ⟨steps + 1, ?_⟩
  rw [ahead_add, reached, Option.bind_some, ahead, onward]
  rfl

theorem mem_trail_iff {bound : Nat} {here there : α} :
    there ∈ trail step bound here ↔ ∃ steps < bound, ahead step steps here = some there := by
  induction bound generalizing here with
  | zero => simp [trail]
  | succ bound ih =>
      unfold trail
      cases onward : step here with
      | none =>
          rw [List.mem_singleton]
          constructor
          · rintro rfl
            exact ⟨0, Nat.succ_pos bound, rfl⟩
          · rintro ⟨steps, _, reached⟩
            cases steps with
            | zero => exact (Option.some.inj reached).symm
            | succ steps => simp [ahead, onward] at reached
      | some second =>
          rw [List.mem_cons, ih]
          constructor
          · rintro (rfl | ⟨steps, few, reached⟩)
            · exact ⟨0, Nat.succ_pos bound, rfl⟩
            · exact ⟨steps + 1, Nat.succ_lt_succ few, by rw [ahead, onward]; exact reached⟩
          · rintro ⟨steps, few, reached⟩
            cases steps with
            | zero => exact Or.inl (Option.some.inj reached).symm
            | succ steps =>
                rw [ahead, onward] at reached
                exact Or.inr ⟨steps, Nat.lt_of_succ_lt_succ few, reached⟩

theorem leads_settle (bound : Nat) (here : α) : Leads step here (settle step bound here) := by
  induction bound generalizing here with
  | zero => exact ⟨0, rfl⟩
  | succ bound ih =>
      unfold settle
      cases onward : step here with
      | none => exact ⟨0, rfl⟩
      | some there =>
          obtain ⟨steps, reached⟩ := ih there
          exact ⟨steps + 1, by rw [ahead, onward]; exact reached⟩

end Walks

section
variable {step : Nat → Option Nat} {size : Nat}

theorem lt_of_ahead (inside : ∀ place next, step place = some next → place < size)
    {steps here there : Nat} (existing : there < size)
    (reached : ahead step steps here = some there) : here < size := by
  cases steps with
  | zero => exact Option.some.inj reached ▸ existing
  | succ steps =>
      obtain ⟨next, onward, _⟩ := Option.bind_eq_some_iff.mp reached
      exact inside here next onward

/-- The walk passes one of the places twice if it has more steps than there are places, and
the steps in between can be left out. -/
theorem exists_ahead_lt (inside : ∀ place next, step place = some next → place < size)
    {here there : Nat} (existing : there < size) (leads : Leads step here there) :
    ∃ steps < size, ahead step steps here = some there := by
  obtain ⟨steps, reached⟩ := leads
  induction steps using Nat.strong_induction_on with
  | _ steps ih =>
      by_cases few : steps < size
      · exact ⟨steps, few, reached⟩
      have parts : ∀ count ≤ steps, ∃ place : Fin size, ahead step count here = some place.val ∧
          ahead step (steps - count) place.val = some there := by
        intro count within
        have whole := reached
        rw [← Nat.add_sub_cancel' within, ahead_add] at whole
        obtain ⟨place, half, rest⟩ := Option.bind_eq_some_iff.mp whole
        exact ⟨⟨place, lt_of_ahead inside existing rest⟩, half, rest⟩
      choose place front back using fun count : Fin (steps + 1) =>
        parts count.val (Nat.le_of_lt_succ count.isLt)
      obtain ⟨one, other, apart, same⟩ :=
        Fintype.exists_ne_map_eq_of_card_lt place (by simp; omega)
      -- From the first time at the place the walk goes on as it does from the second.
      have shorter : ∀ early late : Fin (steps + 1), early < late → place early = place late →
          ∃ steps < size, ahead step steps here = some there := by
        intro early late before again
        have order : early.val < late.val := before
        have bounded := late.isLt
        refine ih (early.val + (steps - late.val)) (by omega) ?_
        rw [ahead_add, front early, Option.bind_some, again]
        exact back late
      rcases lt_or_gt_of_ne apart with before | after
      · exact shorter one other before same
      · exact shorter other one after same.symm

theorem mem_trail_iff_leads (inside : ∀ place next, step place = some next → place < size)
    {here there : Nat} (existing : there < size) :
    there ∈ trail step size here ↔ Leads step here there := by
  rw [mem_trail_iff]
  constructor
  · rintro ⟨steps, _, reached⟩
    exact ⟨steps, reached⟩
  · exact exists_ahead_lt inside existing

end

theorem length_le_of_nodup {ids : List TokenId} {size : Nat} (nodup : ids.Nodup)
    (inside : ∀ id ∈ ids, id < size) : ids.length ≤ size := by
  have subset : ids ⊆ List.range size := fun id member => List.mem_range.mpr (inside id member)
  simpa using (nodup.subperm subset).length_le

end ActionReprint
