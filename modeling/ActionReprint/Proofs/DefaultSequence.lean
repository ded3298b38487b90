import ActionReprint.Dump
import ActionReprint.Proofs.Walk

/-!
The tokens that a dump replays when it asks for none. They are meant to be those that are
not attached to another token, that is, no other token's nearest special. Which ones are
left out is found by walks forwards, each from the earliest special of a token, and the
links forwards need not agree with those backwards. Main statement: which tokens are left
out on any arena, and when these are the attached ones.
-/

namespace ActionReprint

namespace TokenArena

def IsAttached (arena : TokenArena) (id : TokenId) : Prop :=
  ∃ owner, owner ≠ id ∧ arena.special? owner = some id

/-- Links forwards lead to the token from the earliest special of some token. -/
def IsPassed (arena : TokenArena) (id : TokenId) : Prop :=
  ∃ owner first, arena.earliestSpecial owner = some first ∧ Leads arena.next? first id

section
variable {arena : TokenArena}

theorem lt_size_of_next? (id following : TokenId) (next : arena.next? id = some following) :
    id < arena.size := by
  obtain ⟨token, found, _⟩ := Option.bind_eq_some_iff.mp next
  exact lt_size_of_get? found

theorem lt_size_of_special? {id nearest : TokenId} (special : arena.special? id = some nearest) :
    id < arena.size := by
  obtain ⟨token, found, _⟩ := Option.bind_eq_some_iff.mp special
  exact lt_size_of_get? found

instance (arena : TokenArena) (id : TokenId) : Decidable (arena.IsAttached id) :=
  decidable_of_iff (∃ owner < arena.size, owner ≠ id ∧ arena.special? owner = some id) <| by
    constructor
    · rintro ⟨owner, _, apart, special⟩
      exact ⟨owner, apart, special⟩
    · rintro ⟨owner, apart, special⟩
      exact ⟨owner, lt_size_of_special? special, apart, special⟩

theorem leads_earliestSpecial {owner first : TokenId}
    (earliest : arena.earliestSpecial owner = some first) :
    ∃ nearest, arena.special? owner = some nearest ∧ Leads arena.special? nearest first := by
  obtain ⟨nearest, special, rfl⟩ := Option.map_eq_some_iff.mp earliest
  exact ⟨nearest, special, leads_settle arena.size nearest⟩

/-- The bound on the walk forwards hides no token from it. -/
theorem mem_specialChain_iff {owner id : TokenId} (existing : id < arena.size) :
    id ∈ arena.specialChain owner ↔
      ∃ first, arena.earliestSpecial owner = some first ∧ Leads arena.next? first id := by
  unfold specialChain
  cases earliest : arena.earliestSpecial owner with
  | none => simp
  | some first =>
      simp only [Option.some.injEq, exists_eq_left']
      exact mem_trail_iff_leads lt_size_of_next? existing

theorem mem_attached_iff {id : TokenId} (existing : id < arena.size) :
    id ∈ TokenDump.attached arena ↔ arena.IsPassed id := by
  unfold TokenDump.attached IsPassed
  rw [List.mem_flatMap]
  constructor
  · rintro ⟨owner, _, passed⟩
    exact ⟨owner, (mem_specialChain_iff existing).mp passed⟩
  · rintro ⟨owner, first, earliest, leads⟩
    obtain ⟨nearest, special, _⟩ := leads_earliestSpecial earliest
    exact ⟨owner, List.mem_range.mpr (lt_size_of_special? special),
      (mem_specialChain_iff existing).mpr ⟨first, earliest, leads⟩⟩

theorem mem_effectiveSequence_iff {id : TokenId} :
    id ∈ TokenDump.effectiveSequence ⟨arena, []⟩ ↔ id < arena.size ∧ ¬ arena.IsPassed id := by
  simp only [TokenDump.effectiveSequence, List.isEmpty_nil, if_true, List.mem_filter,
    Bool.not_eq_true', List.contains_eq_mem, decide_eq_false_iff_not]
  constructor
  · rintro ⟨member, unpassed⟩
    have existing := List.mem_range.mp member
    exact ⟨existing, fun passed => unpassed ((mem_attached_iff existing).mpr passed)⟩
  · rintro ⟨existing, unpassed⟩
    exact ⟨List.mem_range.mpr existing, fun passed => unpassed ((mem_attached_iff existing).mp passed)⟩

theorem pairwise_effectiveSequence :
    (TokenDump.effectiveSequence ⟨arena, []⟩).Pairwise (· < ·) := by
  simp only [TokenDump.effectiveSequence, List.isEmpty_nil, if_true]
  exact List.pairwise_lt_range.filter _

/-- No token is attached to itself; what stands in front of an attached token is followed by
it; and what follows an attached token is attached. -/
structure TwoWay (arena : TokenArena) : Prop where
  apart : ∀ id, arena.special? id ≠ some id
  followed : ∀ id following, arena.special? following = some id → arena.IsAttached following →
    arena.next? id = some following
  within : ∀ id following, arena.IsAttached id → arena.next? id = some following →
    following < arena.size → arena.IsAttached following

instance (arena : TokenArena) : Decidable arena.TwoWay :=
  decidable_of_iff
    ((∀ id < arena.size, arena.special? id ≠ some id) ∧
      (∀ following < arena.size, ∀ id ∈ arena.special? following, arena.IsAttached following →
        arena.next? id = some following) ∧
      ∀ id < arena.size, ∀ following ∈ arena.next? id, arena.IsAttached id →
        following < arena.size → arena.IsAttached following) <| by
    constructor
    · rintro ⟨apart, followed, within⟩
      refine ⟨fun id special => apart id (lt_size_of_special? special) special, ?_, ?_⟩
      · intro id following special
        exact followed following (lt_size_of_special? special) id special
      · intro id following attached next
        exact within id (lt_size_of_next? id following next) following next attached
    · rintro ⟨apart, followed, within⟩
      exact ⟨fun id _ => apart id, fun following _ id => followed id following,
        fun id _ following next attached => within id following attached next⟩

theorem TwoWay.attached (twoWay : arena.TwoWay) {owner id : TokenId}
    (special : arena.special? owner = some id) : arena.IsAttached id := by
  refine ⟨owner, ?_, special⟩
  rintro rfl
  exact twoWay.apart owner special

theorem TwoWay.leads_back (twoWay : arena.TwoWay) {id first : TokenId}
    (attached : arena.IsAttached id) (leads : Leads arena.special? id first) :
    arena.IsAttached first ∧ Leads arena.next? first id := by
  obtain ⟨steps, reached⟩ := leads
  induction steps generalizing id with
  | zero =>
      obtain rfl := Option.some.inj reached
      exact ⟨attached, 0, rfl⟩
  | succ steps ih =>
      obtain ⟨before, special, onward⟩ := Option.bind_eq_some_iff.mp reached
      obtain ⟨earliest, forwards⟩ := ih (twoWay.attached special) onward
      exact ⟨earliest, forwards.concat (twoWay.followed before id special attached)⟩

theorem TwoWay.attached_of_leads (twoWay : arena.TwoWay) {first id : TokenId}
    (attached : arena.IsAttached first) (existing : id < arena.size)
    (leads : Leads arena.next? first id) : arena.IsAttached id := by
  obtain ⟨steps, reached⟩ := leads
  induction steps generalizing first with
  | zero => exact Option.some.inj reached ▸ attached
  | succ steps ih =>
      obtain ⟨following, next, onward⟩ := Option.bind_eq_some_iff.mp reached
      have inside := lt_of_ahead lt_size_of_next? existing onward
      exact ih (twoWay.within first following attached next inside) onward

theorem TwoWay.attached_iff_passed (twoWay : arena.TwoWay) {id : TokenId}
    (existing : id < arena.size) : arena.IsAttached id ↔ arena.IsPassed id := by
  constructor
  · rintro ⟨owner, apart, special⟩
    have earliest : arena.earliestSpecial owner =
        some (settle arena.special? arena.size id) := by rw [earliestSpecial, special]; rfl
    exact ⟨owner, _, earliest,
      (twoWay.leads_back ⟨owner, apart, special⟩ (leads_settle _ _)).2⟩
  · rintro ⟨owner, first, earliest, leads⟩
    obtain ⟨nearest, special, backwards⟩ := leads_earliestSpecial earliest
    have attached := (twoWay.leads_back (twoWay.attached special) backwards).1
    exact twoWay.attached_of_leads attached existing leads

end

end TokenArena

/-- On every arena the default sequence has, in the order of the arena and each once, the
tokens that no walk forwards from an earliest special passes. So it leaves out the attached
tokens and no others exactly if these walks pass the attached tokens and no others, which
they do where the links backwards and forwards agree. -/
theorem effectiveSequence_exact (arena : TokenArena) :
    (TokenDump.effectiveSequence ⟨arena, []⟩).Pairwise (· < ·) ∧
      (∀ id, id ∈ TokenDump.effectiveSequence ⟨arena, []⟩ ↔
        id < arena.size ∧ ¬ arena.IsPassed id) ∧
      ((∀ id, id ∈ TokenDump.effectiveSequence ⟨arena, []⟩ ↔
          id < arena.size ∧ ¬ arena.IsAttached id) ↔
        ∀ id < arena.size, (arena.IsAttached id ↔ arena.IsPassed id)) ∧
      (arena.TwoWay → ∀ id, id ∈ TokenDump.effectiveSequence ⟨arena, []⟩ ↔
        id < arena.size ∧ ¬ arena.IsAttached id) := by
  have documented : (∀ id, id ∈ TokenDump.effectiveSequence ⟨arena, []⟩ ↔
      id < arena.size ∧ ¬ arena.IsAttached id) ↔
        ∀ id < arena.size, (arena.IsAttached id ↔ arena.IsPassed id) := by
    constructor
    · intro same id existing
      have both := TokenArena.mem_effectiveSequence_iff.symm.trans (same id)
      simp only [existing, true_and] at both
      exact (not_iff_not.mp both).symm
    · intro same id
      rw [TokenArena.mem_effectiveSequence_iff]
      exact and_congr_right fun existing => not_congr (same id existing).symm
  refine ⟨TokenArena.pairwise_effectiveSequence, fun id => TokenArena.mem_effectiveSequence_iff,
    documented, ?_⟩
  intro twoWay
  exact documented.mpr fun id existing => twoWay.attached_iff_passed existing

def twiceCommented (following : Option TokenId) : TokenArena := ⟨#[
  ⟨.multiLineComment, "/* a */", ⟨1, 1⟩, ⟨1, 7⟩, none, following⟩,
  ⟨.multiLineComment, "/* b */", ⟨2, 1⟩, ⟨2, 7⟩, some 0, none⟩,
  ⟨.other, "f", ⟨3, 1⟩, ⟨3, 1⟩, some 1, none⟩]⟩

theorem effectiveSequence_exact_twiceCommented :
    (twiceCommented (some 1)).TwoWay ∧
      ∀ id, id ∈ TokenDump.effectiveSequence ⟨twiceCommented (some 1), []⟩ ↔
        id < 3 ∧ ¬ (twiceCommented (some 1)).IsAttached id := by
  have twoWay : (twiceCommented (some 1)).TwoWay := by decide
  exact ⟨twoWay, (effectiveSequence_exact (twiceCommented (some 1))).2.2.2 twoWay⟩

/-- A comment that nothing leads to is taken for a token of its own, though it is attached. -/
theorem effectiveSequence_keeps_attached :
    ¬ ∀ arena : TokenArena, (TokenDump.effectiveSequence ⟨arena, []⟩).Pairwise (· < ·) ∧
        ∀ id, id ∈ TokenDump.effectiveSequence ⟨arena, []⟩ ↔
          id < arena.size ∧ ¬ arena.IsAttached id := by
  intro documented
  have kept : 1 ∈ TokenDump.effectiveSequence ⟨twiceCommented none, []⟩ := by decide
  have attached : (twiceCommented none).IsAttached 1 := ⟨2, by decide, by decide⟩
  exact (((documented (twiceCommented none)).2 1).mp kept).2 attached

end ActionReprint
