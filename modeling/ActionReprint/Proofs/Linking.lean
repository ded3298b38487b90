import ActionReprint.Dump
import ActionReprint.Proofs.Pieces
import ActionReprint.Proofs.Walk
import Mathlib.Data.List.Nodup

/-!
Arenas whose links are what a front end means by them: every token is either real or
attached to exactly one real token, and the links forwards and backwards agree. On such
an arena the chain walked for a real token is the list of what is attached to it, and
the tokens that a dump replays when it asks for none are the real ones.
-/

namespace ActionReprint

namespace TokenArena

def reals (arena : TokenArena) (real : TokenId → Bool) : List TokenId :=
  arena.ids.filter real

/-- `real` tells the tokens from those attached to them, and `chain` lists what is
attached to a real token in the order of the grammar file. -/
structure Linked (arena : TokenArena) (real : TokenId → Bool) (chain : TokenId → List TokenId) :
    Prop where
  specials : ∀ owner ∈ arena.reals real, ∀ id ∈ chain owner, id < arena.size ∧ real id = false
  backward : ∀ owner ∈ arena.reals real,
    Passes arena.special? (arena.special? owner) (chain owner).reverse
  forward : ∀ owner ∈ arena.reals real, Passes arena.next? (chain owner).head? (chain owner)
  disjoint : ∀ owner ∈ arena.reals real, ∀ other ∈ arena.reals real, owner ≠ other →
    (chain owner).Disjoint (chain other)
  attached : ∀ id < arena.size, real id = false → ∃ owner ∈ arena.reals real, id ∈ chain owner
  /-- Nothing is attached behind the last real token. -/
  ended : ∀ last ∈ (arena.reals real).getLast?, ∀ following ∈ arena.next? last,
    arena.special? following = none

instance (arena : TokenArena) (real : TokenId → Bool) (chain : TokenId → List TokenId) :
    Decidable (arena.Linked real chain) :=
  decidable_of_iff
    ((∀ owner ∈ arena.reals real, ∀ id ∈ chain owner, id < arena.size ∧ real id = false) ∧
      (∀ owner ∈ arena.reals real,
        Passes arena.special? (arena.special? owner) (chain owner).reverse) ∧
      (∀ owner ∈ arena.reals real, Passes arena.next? (chain owner).head? (chain owner)) ∧
      (∀ owner ∈ arena.reals real, ∀ other ∈ arena.reals real, owner ≠ other →
        ∀ id ∈ chain owner, id ∉ chain other) ∧
      (∀ id < arena.size, real id = false → ∃ owner ∈ arena.reals real, id ∈ chain owner) ∧
      ∀ last ∈ (arena.reals real).getLast?, ∀ following ∈ arena.next? last,
        arena.special? following = none)
    ⟨fun ⟨specials, backward, forward, disjoint, attached, ended⟩ =>
      ⟨specials, backward, forward, disjoint, attached, ended⟩,
    fun ⟨specials, backward, forward, disjoint, attached, ended⟩ =>
      ⟨specials, backward, forward, disjoint, attached, ended⟩⟩

section
variable {arena : TokenArena} {real : TokenId → Bool} {chain : TokenId → List TokenId}

theorem mem_ids {id : TokenId} : id ∈ arena.ids ↔ id < arena.size :=
  List.mem_range

theorem nodup_ids : arena.ids.Nodup :=
  List.nodup_range

theorem mem_reals {id : TokenId} : id ∈ arena.reals real ↔ id < arena.size ∧ real id = true := by
  simp [reals, mem_ids]

theorem length_chain_le (linked : Linked arena real chain) {owner : TokenId}
    (isReal : owner ∈ arena.reals real) : (chain owner).length ≤ arena.size :=
  length_le_of_nodup (linked.forward owner isReal).nodup
    fun id member => (linked.specials owner isReal id member).1

theorem map_settle_eq {part : List TokenId} {here : Option TokenId}
    (passes : Passes arena.special? here part.reverse) (short : part.length ≤ arena.size) :
    here.map (settle arena.special? arena.size) = part.head? := by
  cases here with
  | none =>
      have empty := passes.head
      rw [List.head?_reverse] at empty
      rw [List.getLast?_eq_none_iff.mp empty.symm]
      rfl
  | some nearest =>
      have enough : part.reverse.length ≤ arena.size + 1 := by
        rw [List.length_reverse]
        exact Nat.le_succ_of_le short
      rw [← List.getLast?_reverse, passes.settle_eq enough]
      rfl

theorem trail_of_passes {part : List TokenId} {earliest : TokenId}
    (passes : Passes arena.next? part.head? part) (short : part.length ≤ arena.size)
    (head : part.head? = some earliest) : trail arena.next? arena.size earliest = part :=
  (head ▸ passes).trail_eq short

theorem specialChain_of_passes {owner : TokenId} {part : List TokenId}
    (backward : Passes arena.special? (arena.special? owner) part.reverse)
    (forward : Passes arena.next? part.head? part) (short : part.length ≤ arena.size) :
    arena.earliestSpecial owner = part.head? ∧ arena.specialChain owner = part := by
  have earliest : arena.earliestSpecial owner = part.head? := map_settle_eq backward short
  refine ⟨earliest, ?_⟩
  unfold specialChain
  rw [earliest]
  cases head : part.head? with
  | none => exact (List.head?_eq_none_iff.mp head).symm
  | some first => exact trail_of_passes forward short head

theorem specialChain_real (linked : Linked arena real chain) {owner : TokenId}
    (isReal : owner ∈ arena.reals real) : arena.specialChain owner = chain owner :=
  (specialChain_of_passes (linked.backward owner isReal) (linked.forward owner isReal)
    (length_chain_le linked isReal)).2

theorem specialChain_attached (linked : Linked arena real chain) {owner id : TokenId}
    (isReal : owner ∈ arena.reals real) (member : id ∈ chain owner) :
    ∀ other ∈ arena.specialChain id, other ∈ chain owner := by
  obtain ⟨front, back, split⟩ := List.append_of_mem member
  have whole := linked.backward owner isReal
  rw [split, List.reverse_append, List.reverse_cons, List.append_assoc] at whole
  have onward : Passes arena.special? (arena.special? id) front.reverse := whole.drop.2
  have short : front.length ≤ arena.size := by
    have bound := length_chain_le linked isReal
    rw [split, List.length_append] at bound
    exact Nat.le_trans (Nat.le_add_right _ _) bound
  have earliest : arena.earliestSpecial id = front.head? := map_settle_eq onward short
  unfold specialChain
  rw [earliest]
  -- The walk forwards begins where the owner's chain does, and so is that chain.
  cases front with
  | nil => simp
  | cons first front =>
      have head : (chain owner).head? = some first := by rw [split]; rfl
      intro other later
      have within : other ∈ trail arena.next? arena.size first := later
      rwa [trail_of_passes (linked.forward owner isReal) (length_chain_le linked isReal) head]
        at within

theorem contains_attached (linked : Linked arena real chain) {id : TokenId}
    (inside : id < arena.size) : (TokenDump.attached arena).contains id = !real id := by
  have meaning : id ∈ TokenDump.attached arena ↔ real id = false := by
    unfold TokenDump.attached
    rw [List.mem_flatMap]
    constructor
    · -- What a chain passes is attached: the chain of an attached token stays in its owner's.
      rintro ⟨other, member, passed⟩
      have known := mem_ids.mp member
      cases kind : real other with
      | true =>
          have isReal := mem_reals.mpr ⟨known, kind⟩
          rw [specialChain_real linked isReal] at passed
          exact (linked.specials other isReal id passed).2
      | false =>
          obtain ⟨owner, isReal, hangs⟩ := linked.attached other known kind
          exact (linked.specials owner isReal id
            (specialChain_attached linked isReal hangs id passed)).2
    · intro kind
      obtain ⟨owner, isReal, hangs⟩ := linked.attached id inside kind
      refine ⟨owner, mem_ids.mpr (mem_reals.mp isReal).1, ?_⟩
      rwa [specialChain_real linked isReal]
  cases kind : real id with
  | true => simpa [kind] using meaning
  | false => simpa [kind] using meaning

theorem effectiveSequence_eq (linked : Linked arena real chain) :
    TokenDump.effectiveSequence ⟨arena, []⟩ = arena.reals real := by
  simp only [TokenDump.effectiveSequence, List.isEmpty_nil, if_true, reals]
  apply List.filter_congr
  intro id member
  rw [contains_attached linked (mem_ids.mp member), Bool.not_not]

/-- Real tokens, each behind what is attached to it. -/
def clusters (chain : TokenId → List TokenId) (owners : List TokenId) : List TokenId :=
  owners.flatMap fun owner => chain owner ++ [owner]

theorem nodup_clusters (linked : Linked arena real chain) :
    (clusters chain (arena.reals real)).Nodup := by
  have distinct : (arena.reals real).Nodup := nodup_ids.filter _
  refine List.nodup_flatMap.mpr ⟨?_, distinct.pairwise_of_forall_ne ?_⟩
  · intro owner isReal
    have alone : owner ∉ chain owner := by
      intro member
      have special := (linked.specials owner isReal owner member).2
      rw [(mem_reals.mp isReal).2] at special
      cases special
    refine List.nodup_append.mpr
      ⟨(linked.forward owner isReal).nodup, List.nodup_singleton owner, ?_⟩
    intro id member other last same
    rw [same, List.mem_singleton.mp last] at member
    exact alone member
  · intro owner isReal other otherReal differs id member otherMember
    -- An id on both sides would be attached twice, or be real and attached, or be both owners.
    rcases List.mem_append.mp member with hangs | last
    · rcases List.mem_append.mp otherMember with alsoHangs | alsoLast
      · exact linked.disjoint owner isReal other otherReal differs hangs alsoHangs
      · obtain rfl := List.mem_singleton.mp alsoLast
        have special := (linked.specials owner isReal id hangs).2
        rw [(mem_reals.mp otherReal).2] at special
        cases special
    · obtain rfl := List.mem_singleton.mp last
      rcases List.mem_append.mp otherMember with hangs | alsoLast
      · have special := (linked.specials other otherReal id hangs).2
        rw [(mem_reals.mp isReal).2] at special
        cases special
      · exact differs (List.mem_singleton.mp alsoLast)

theorem clusters_perm (linked : Linked arena real chain) :
    (clusters chain (arena.reals real)).Perm arena.ids := by
  refine (List.perm_ext_iff_of_nodup (nodup_clusters linked) nodup_ids).mpr fun id => ?_
  unfold clusters
  rw [List.mem_flatMap, mem_ids]
  constructor
  · rintro ⟨owner, isReal, member⟩
    rcases List.mem_append.mp member with hangs | last
    · exact (linked.specials owner isReal id hangs).1
    · exact List.mem_singleton.mp last ▸ (mem_reals.mp isReal).1
  · intro inside
    cases kind : real id with
    | true => exact ⟨id, mem_reals.mpr ⟨inside, kind⟩, List.mem_append_right _ List.mem_cons_self⟩
    | false =>
        obtain ⟨owner, isReal, hangs⟩ := linked.attached id inside kind
        exact ⟨owner, isReal, List.mem_append_left _ hangs⟩

theorem follower_alone (linked : Linked arena real chain) :
    ∀ following ∈ Replay.follower arena (arena.reals real), arena.special? following = none := by
  intro following member
  obtain ⟨last, isLast, next⟩ := Option.bind_eq_some_iff.mp member
  exact linked.ended last isLast following next

theorem order_reals (linked : Linked arena real chain) :
    Replay.order arena (arena.reals real) = clusters chain (arena.reals real) := by
  have front : (arena.reals real).flatMap (Replay.cluster arena) =
      clusters chain (arena.reals real) := by
    apply List.flatMap_congr
    intro owner isReal
    rw [Replay.cluster, specialChain_real linked isReal]
  have back : (Replay.follower arena (arena.reals real)).toList.flatMap arena.specialChain = [] := by
    apply List.flatMap_eq_nil_iff.mpr
    intro following member
    exact Replay.specialChain_of_alone arena
      (follower_alone linked following (Option.mem_toList.mp member))
  rw [Replay.order, front, back, List.append_nil]

end

end TokenArena

end ActionReprint
