import ActionReprint.Proofs.DefaultSequence

/-!
What the bounds on the walks along links cut off. A walk that ends passes no place twice, and
only its last place can be one that does not exist, so as many steps as there are tokens take
it backwards to its end, and forwards past all tokens of a chain. What the bound cuts short
is a walk that never ends. Main statement: `bounds_cut_cycles`.
-/

namespace ActionReprint

section Walks
variable {α : Type} {step : α → Option α}

def Endless (step : α → Option α) (here : α) : Prop :=
  ∀ steps, ahead step steps here ≠ none

theorem Endless.onward {here : α} (endless : Endless step here) :
    ∃ there, step here = some there ∧ Endless step there := by
  cases next : step here with
  | none =>
      have ended : ahead step 1 here = none := by rw [ahead, next]; rfl
      exact absurd ended (endless 1)
  | some there =>
      refine ⟨there, rfl, fun steps => ?_⟩
      have later := endless (steps + 1)
      rwa [ahead, next] at later

theorem endless_of_closed {places : List α}
    (closed : ∀ place ∈ places, ∃ next ∈ places, step place = some next) {here : α}
    (inside : here ∈ places) : Endless step here := by
  intro steps
  induction steps generalizing here with
  | zero => exact Option.some_ne_none here
  | succ steps ih =>
      obtain ⟨next, stays, onward⟩ := closed here inside
      rw [ahead, onward]
      exact ih stays

theorem Endless.length_trail {here : α} (endless : Endless step here) (bound : Nat) :
    (trail step bound here).length = bound := by
  induction bound generalizing here with
  | zero => rfl
  | succ bound ih =>
      obtain ⟨there, onward, later⟩ := endless.onward
      simp [trail, onward, ih later]

theorem isChain_trail (bound : Nat) (here : α) :
    (trail step bound here).IsChain fun place next => step place = some next := by
  induction bound generalizing here with
  | zero => exact List.isChain_nil
  | succ bound ih =>
      unfold trail
      cases onward : step here with
      | none => exact List.isChain_singleton here
      | some there =>
          refine List.isChain_cons.mpr ⟨fun next isHead => ?_, ih there⟩
          cases bound with
          | zero => cases isHead
          | succ bound =>
              rw [head?_trail] at isHead
              exact onward.trans isHead

theorem Passes.onward_of_mem_dropLast {here : Option α} {list : List α}
    (passes : Passes step here list) {place : α} (before : place ∈ list.dropLast) :
    ∃ next, step place = some next := by
  induction list generalizing here with
  | nil => cases before
  | cons first rest ih =>
      cases rest with
      | nil => cases before
      | cons second more =>
          rcases List.mem_cons.mp before with rfl | later
          · exact ⟨second, passes.2.1⟩
          · exact ih passes.2 later

end Walks

/-- Of the places that a walk passes, the last one may be outside and no other. -/
theorem Passes.length_le {step : Nat → Option Nat} {size : Nat}
    (inside : ∀ place next, step place = some next → place < size) {here : Option Nat}
    {list : List Nat} (passes : Passes step here list) : list.length ≤ size + 1 := by
  have distinct : list.dropLast.Nodup := passes.nodup.sublist (List.dropLast_sublist list)
  have within : ∀ place ∈ list.dropLast, place < size := by
    intro place before
    obtain ⟨next, onward⟩ := passes.onward_of_mem_dropLast before
    exact inside place next onward
  have few := length_le_of_nodup distinct within
  rw [List.length_dropLast] at few
  omega

/-- Among so many places a walk that never ends comes to one that it comes back to. -/
theorem Endless.turns {step : Nat → Option Nat} {size : Nat}
    (inside : ∀ place next, step place = some next → place < size) {here : Nat}
    (endless : Endless step here) :
    ∃ there next, Leads step here there ∧ step there = some next ∧ Leads step next there := by
  have passed : ∀ steps, ∃ place : Fin size, ahead step steps here = some place.val := by
    intro steps
    obtain ⟨place, reached⟩ := Option.ne_none_iff_exists'.mp (endless steps)
    have further := endless (steps + 1)
    rw [ahead_add, reached, Option.bind_some] at further
    obtain ⟨after, more⟩ := Option.ne_none_iff_exists'.mp further
    obtain ⟨next, onward, _⟩ := Option.bind_eq_some_iff.mp more
    exact ⟨⟨place, inside place next onward⟩, reached⟩
  choose place reached using passed
  obtain ⟨one, other, apart, same⟩ := Fintype.exists_ne_map_eq_of_card_lt
    (fun count : Fin (size + 1) => place count.val) (by simp)
  have returns : ∀ early late : Nat, early < late → place early = place late →
      ∃ there next, Leads step here there ∧ step there = some next ∧ Leads step next there := by
    intro early late before again
    obtain ⟨more, rfl⟩ := Nat.exists_eq_add_of_lt before
    have whole := reached (early + more + 1)
    rw [← again, Nat.add_assoc, ahead_add, reached early, Option.bind_some] at whole
    obtain ⟨next, onward, back⟩ := Option.bind_eq_some_iff.mp whole
    exact ⟨place early, next, ⟨early, reached early⟩, onward, ⟨_, back⟩⟩
  rcases Nat.lt_or_gt_of_ne (Fin.val_ne_of_ne apart) with before | after
  · exact returns one other before same
  · exact returns other one after same.symm

namespace TokenArena
variable {arena : TokenArena}

theorem earliestSpecial_of_passes {id nearest : TokenId}
    (attached : arena.special? id = some nearest) {walk : List TokenId}
    (passes : Passes arena.special? (some nearest) walk) :
    walk.getLast? = arena.earliestSpecial id := by
  rw [earliestSpecial, attached]
  exact passes.settle_eq (passes.length_le fun _ _ => lt_size_of_special?)

theorem specialChain_of_earliest {id first : TokenId}
    (earliest : arena.earliestSpecial id = some first) :
    arena.specialChain id = trail arena.next? arena.size first := by
  rw [specialChain, earliest]

end TokenArena

/-- A token to which another is attached. Backwards its walk comes to the end that it has,
however far off, and from there the chain begins. The chain goes from each token to the next;
it is the whole walk forwards if that ends and meets existing tokens only. If that never ends,
it turns in a circle, and the chain has as many places as there are tokens. -/
theorem bounds_cut_cycles {arena : TokenArena} {id nearest : TokenId}
    (attached : arena.special? id = some nearest) :
    ∃ first, arena.earliestSpecial id = some first ∧
      (∀ walk, Passes arena.special? (some nearest) walk → walk.getLast? = some first) ∧
      (arena.specialChain id).head? = some first ∧
      (arena.specialChain id).IsChain (fun place next => arena.next? place = some next) ∧
      (∀ walk, Passes arena.next? (some first) walk → (∀ place ∈ walk, place < arena.size) →
        arena.specialChain id = walk ∧ (arena.specialChain id).Nodup) ∧
      (Endless arena.next? first → (arena.specialChain id).length = arena.size ∧
        ∃ place next, Leads arena.next? first place ∧ arena.next? place = some next ∧
          Leads arena.next? next place) := by
  obtain ⟨first, earliest⟩ : ∃ first, arena.earliestSpecial id = some first :=
    ⟨_, by rw [TokenArena.earliestSpecial, attached]; rfl⟩
  have chain := TokenArena.specialChain_of_earliest earliest
  -- A token that exists leaves the walk forwards at least one step.
  obtain ⟨fewer, size⟩ : ∃ fewer, arena.size = fewer + 1 :=
    Nat.exists_eq_succ_of_ne_zero (Nat.ne_zero_of_lt (TokenArena.lt_size_of_special? attached))
  refine ⟨first, earliest, ?_, ?_, ?_, ?_, ?_⟩
  · intro walk passes
    rw [TokenArena.earliestSpecial_of_passes attached passes, earliest]
  · rw [chain, size, head?_trail]
  · rw [chain]
    exact isChain_trail arena.size first
  · intro walk passes exist
    have enough := length_le_of_nodup passes.nodup exist
    rw [chain, passes.trail_eq enough]
    exact ⟨rfl, passes.nodup⟩
  · intro endless
    rw [chain]
    exact ⟨endless.length_trail arena.size, endless.turns TokenArena.lt_size_of_next?⟩

def thriceCommented (following : Option TokenId) : TokenArena := ⟨#[
  ⟨.multiLineComment, "/* a */", ⟨1, 1⟩, ⟨1, 7⟩, none, some 1⟩,
  ⟨.multiLineComment, "/* b */", ⟨2, 1⟩, ⟨2, 7⟩, some 0, some 2⟩,
  ⟨.multiLineComment, "/* c */", ⟨3, 1⟩, ⟨3, 7⟩, some 1, following⟩,
  ⟨.other, "f", ⟨4, 1⟩, ⟨4, 1⟩, some 2, none⟩]⟩

theorem bounds_cut_cycles_thriceCommented :
    (thriceCommented none).specialChain 3 = [0, 1, 2] ∧
      ((thriceCommented (some 0)).specialChain 3).length = 4 := by
  constructor
  · have attached : (thriceCommented none).special? 3 = some 2 := by decide
    obtain ⟨first, _, last, _, _, whole, _⟩ := bounds_cut_cycles attached
    obtain rfl : 0 = first := Option.some.inj (last [2, 1, 0] (by decide))
    exact (whole [0, 1, 2] (by decide) (by decide)).1
  · have attached : (thriceCommented (some 0)).special? 3 = some 2 := by decide
    obtain ⟨first, _, last, _, _, _, full⟩ := bounds_cut_cycles attached
    obtain rfl : 0 = first := Option.some.inj (last [2, 1, 0] (by decide))
    have closed : ∀ place ∈ [0, 1, 2], ∃ next ∈ [0, 1, 2],
        (thriceCommented (some 0)).next? place = some next := by decide
    exact (full (endless_of_closed closed List.mem_cons_self)).1

end ActionReprint
