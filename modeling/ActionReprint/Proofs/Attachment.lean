import ActionReprint.Proofs.Linking

/-!
How a front end builds chains. It pushes tokens without links, links real tokens to what
follows them, and attaches each of the others once, to a real one. Attaching changes the
links of three tokens at most, the owner, what is attached and what was nearest so far, and
so the two ways of linking a chain stay each other's reverse whatever happens to other
owners in between. Main statement: `chains_of_edits`.
-/

namespace ActionReprint

def Token.unlinked (token : Token) : Token :=
  { token with special := none, next := none }

namespace TokenArena

def editAll (arena : TokenArena) (edits : List Edit) : TokenArena :=
  edits.foldl edit arena

def attachments (edits : List Edit) : List (TokenId × TokenId) :=
  edits.filterMap fun
    | .attachSpecial owner special => some (owner, special)
    | _ => none

def specials (edits : List Edit) : List TokenId :=
  (attachments edits).map Prod.snd

def hung (owner : TokenId) (edits : List Edit) : List TokenId :=
  ((attachments edits).filter fun attachment => attachment.1 == owner).map Prod.snd

theorem attachments_append (edits more : List Edit) :
    attachments (edits ++ more) = attachments edits ++ attachments more :=
  List.filterMap_append

theorem specials_append (edits more : List Edit) :
    specials (edits ++ more) = specials edits ++ specials more := by
  rw [specials, attachments_append, List.map_append]
  rfl

theorem specials_sublist (edits more : List Edit) :
    (specials edits).Sublist (specials (edits ++ more)) := by
  rw [specials_append]
  exact List.sublist_append_left _ _

theorem hung_append (owner : TokenId) (edits more : List Edit) :
    hung owner (edits ++ more) = hung owner edits ++ hung owner more := by
  rw [hung, attachments_append, List.filter_append, List.map_append]
  rfl

theorem hung_attachSpecial (owner special other : TokenId) (edits : List Edit) :
    hung other (edits ++ [.attachSpecial owner special]) =
      hung other edits ++ (if owner = other then [special] else []) := by
  rw [hung_append]
  by_cases same : owner = other <;> simp [hung, attachments, same]

theorem specials_attachSpecial (owner special : TokenId) (edits : List Edit) :
    specials (edits ++ [.attachSpecial owner special]) = specials edits ++ [special] :=
  specials_append edits _

theorem mem_hung {owner id : TokenId} {edits : List Edit} :
    id ∈ hung owner edits ↔ (owner, id) ∈ attachments edits := by
  simp [hung]

theorem mem_specials_of_mem_hung {owner id : TokenId} {edits : List Edit}
    (member : id ∈ hung owner edits) : id ∈ specials edits :=
  List.mem_map.mpr ⟨(owner, id), mem_hung.mp member, rfl⟩

theorem owner_unique {edits : List Edit} (once : (specials edits).Nodup) {owner other id : TokenId}
    (member : id ∈ hung owner edits) (also : id ∈ hung other edits) : owner = other := by
  have same := List.inj_on_of_nodup_map once (mem_hung.mp member) (mem_hung.mp also) rfl
  exact congrArg Prod.fst same

section
variable (arena : TokenArena)

theorem link_modify (link : Token → Option TokenId) (id other : TokenId)
    (change : Token → Token) :
    ((arena.modify id change).get? other).bind link =
      if id = other then (arena.get? other).bind (link ∘ change)
      else (arena.get? other).bind link := by
  rw [get?_modify]
  split
  · exact Option.bind_map
  · rfl

theorem special?_setSpecial (id other : TokenId) (special : Option TokenId) :
    (arena.setSpecial id special).special? other =
      if id = other then (arena.get? other).bind fun _ => special else arena.special? other :=
  arena.link_modify Token.special id other _

theorem next?_setSpecial (id other : TokenId) (special : Option TokenId) :
    (arena.setSpecial id special).next? other = arena.next? other :=
  (arena.link_modify Token.next id other _).trans (ite_self _)

theorem special?_setNext (id other : TokenId) (next : Option TokenId) :
    (arena.setNext id next).special? other = arena.special? other :=
  (arena.link_modify Token.special id other _).trans (ite_self _)

theorem next?_setNext (id other : TokenId) (next : Option TokenId) :
    (arena.setNext id next).next? other =
      if id = other then (arena.get? other).bind fun _ => next else arena.next? other :=
  arena.link_modify Token.next id other _

theorem link_push {token : Token} {link : Token → Option TokenId} (unlinked : link token = none)
    (id : TokenId) : ((arena.push token).get? id).bind link = (arena.get? id).bind link := by
  rw [get?_push]
  split
  · next new =>
      -- The new token has no link, and what did not exist had none either.
      have missing : arena.get? id = none := by
        rw [new]
        exact Array.getElem?_size
      rw [missing]
      exact unlinked
  · rfl

theorem bind_get?_of_lt {id : TokenId} (existing : id < arena.size) (link : Option TokenId) :
    ((arena.get? id).bind fun _ => link) = link := by
  rw [get?_of_lt existing]
  rfl

end

@[simp] theorem size_linkNext (arena : TokenArena) (id following : TokenId) :
    (arena.linkNext id following).size = arena.size :=
  arena.size_modify id _

/-- The arena in which what was nearest to the owner so far is followed by `special`. -/
def follow (arena : TokenArena) (owner special : TokenId) : TokenArena :=
  match arena.special? owner with
  | some earlier => arena.linkNext earlier special
  | none => arena

theorem attachSpecial_eq (arena : TokenArena) (owner special : TokenId) :
    arena.attachSpecial owner special =
      ((arena.follow owner special).setSpecial special (arena.special? owner)).setSpecial owner
        (some special) := rfl

section
variable (arena : TokenArena) (owner special : TokenId)

@[simp] theorem size_follow : (arena.follow owner special).size = arena.size := by
  unfold follow
  split <;> simp

theorem special?_follow (id : TokenId) :
    (arena.follow owner special).special? id = arena.special? id := by
  unfold follow
  split
  · exact arena.special?_setNext _ id _
  · rfl

theorem next?_follow (id : TokenId) :
    (arena.follow owner special).next? id =
      if arena.special? owner = some id then (arena.get? id).bind fun _ => some special
      else arena.next? id := by
  unfold follow
  cases arena.special? owner with
  | none => simp
  | some earlier => simpa [linkNext] using arena.next?_setNext earlier id (some special)

@[simp] theorem size_attachSpecial :
    (arena.attachSpecial owner special).size = arena.size := by
  simp [attachSpecial_eq, setSpecial]

end

section
variable {arena : TokenArena} {owner special : TokenId}

theorem special?_attachSpecial (existing : owner < arena.size) (also : special < arena.size)
    (id : TokenId) :
    (arena.attachSpecial owner special).special? id =
      if id = owner then some special
      else if id = special then arena.special? owner
      else arena.special? id := by
  rw [attachSpecial_eq, special?_setSpecial, special?_setSpecial, special?_follow]
  by_cases atOwner : owner = id
  · subst atOwner
    rw [if_pos rfl, if_pos rfl]
    exact bind_get?_of_lt _ (by simpa [setSpecial] using existing) _
  · rw [if_neg atOwner, if_neg (Ne.symm atOwner)]
    by_cases atSpecial : special = id
    · subst atSpecial
      rw [if_pos rfl, if_pos rfl]
      exact bind_get?_of_lt _ (by simpa using also) _
    · rw [if_neg atSpecial, if_neg (Ne.symm atSpecial)]

theorem next?_attachSpecial (id : TokenId) :
    (arena.attachSpecial owner special).next? id =
      if arena.special? owner = some id then (arena.get? id).bind fun _ => some special
      else arena.next? id := by
  rw [attachSpecial_eq, next?_setSpecial, next?_setSpecial, next?_follow]

end

/-- The change may be made to the arena, where `attached` are the tokens that are attached
some time, before it or after it. -/
def Edit.Fits (attached : List TokenId) (arena : TokenArena) : Edit → Prop
  | .push token => token.special = none ∧ token.next = none
  | .linkNext id following => id ∉ attached ∧ following ∉ attached
  | .attachSpecial owner special =>
      (owner < arena.size ∧ owner ∉ attached) ∧
        special < arena.size ∧ arena.special? special = none ∧ arena.next? special = none
  | .setSpecial _ _ => False
  | .setNext _ _ => False

instance (attached : List TokenId) (arena : TokenArena) :
    (edit : Edit) → Decidable (edit.Fits attached arena)
  | .push _ => inferInstanceAs (Decidable (_ ∧ _))
  | .linkNext _ _ => inferInstanceAs (Decidable (_ ∧ _))
  | .attachSpecial _ _ => inferInstanceAs (Decidable (_ ∧ _))
  | .setSpecial _ _ => inferInstanceAs (Decidable False)
  | .setNext _ _ => inferInstanceAs (Decidable False)

def AllFit (attached : List TokenId) : TokenArena → List Edit → Prop
  | _, [] => True
  | arena, edit :: rest => edit.Fits attached arena ∧ AllFit attached (arena.edit edit) rest

instance decidableAllFit (attached : List TokenId) :
    (arena : TokenArena) → (edits : List Edit) → Decidable (AllFit attached arena edits)
  | _, [] => inferInstanceAs (Decidable True)
  | arena, edit :: rest =>
      have := decidableAllFit attached (arena.edit edit) rest
      inferInstanceAs (Decidable (_ ∧ AllFit attached (arena.edit edit) rest))

/-- From the empty arena on every change fits, and nothing is attached twice. -/
structure Builds (edits : List Edit) : Prop where
  once : (specials edits).Nodup
  fit : AllFit (specials edits) empty edits

instance (edits : List Edit) : Decidable (Builds edits) :=
  decidable_of_iff ((specials edits).Nodup ∧ AllFit (specials edits) empty edits)
    ⟨fun ⟨once, fit⟩ => ⟨once, fit⟩, fun ⟨once, fit⟩ => ⟨once, fit⟩⟩

/-- What the changes so far have hung in front of each owner is linked both ways. -/
structure Threaded (attached : List TokenId) (arena : TokenArena) (done : List Edit) : Prop where
  inside : ∀ owner, ∀ id ∈ hung owner done, id < arena.size
  backward : ∀ owner ∉ attached,
    Passes arena.special? (arena.special? owner) (hung owner done).reverse
  forward : ∀ owner, Passes arena.next? (hung owner done).head? (hung owner done)

section
variable {attached : List TokenId} {arena : TokenArena} {done : List Edit}

theorem threaded_empty : Threaded attached empty [] := by
  refine ⟨?_, ?_, ?_⟩
  · intro owner id member
    cases member
  · intro owner _
    exact rfl
  · intro owner
    exact rfl

theorem Threaded.of_kept (threaded : Threaded attached arena done) {edit : Edit}
    (attachesNone : attachments [edit] = []) {after : TokenArena} (grown : arena.size ≤ after.size)
    (special? : ∀ id, after.special? id = arena.special? id)
    (next? : ∀ owner, ∀ id ∈ hung owner done, after.next? id = arena.next? id) :
    Threaded attached after (done ++ [edit]) := by
  have same : ∀ owner, hung owner (done ++ [edit]) = hung owner done := by
    intro owner
    rw [hung_append, hung, hung, attachesNone]
    exact List.append_nil _
  refine ⟨?_, ?_, ?_⟩
  · intro owner id member
    rw [same] at member
    exact Nat.lt_of_lt_of_le (threaded.inside owner id member) grown
  · intro owner real
    rw [same, special?]
    exact (threaded.backward owner real).congr fun id _ => special? id
  · intro owner
    rw [same]
    exact (threaded.forward owner).congr (next? owner)

theorem Threaded.push (threaded : Threaded attached arena done) {token : Token}
    (fits : (Edit.push token).Fits attached arena) :
    Threaded attached (arena.push token) (done ++ [.push token]) := by
  refine threaded.of_kept rfl ?_ ?_ ?_
  · rw [size_push]
    exact Nat.le_succ _
  · exact fun id => arena.link_push fits.1 id
  · exact fun _ id _ => arena.link_push fits.2 id

theorem Threaded.linkNext (threaded : Threaded attached arena done)
    (among : specials done ⊆ attached) {id following : TokenId}
    (fits : (Edit.linkNext id following).Fits attached arena) :
    Threaded attached (arena.linkNext id following) (done ++ [.linkNext id following]) := by
  refine threaded.of_kept rfl ?_ ?_ ?_
  · rw [size_linkNext]
  · exact fun other => arena.special?_setNext id other _
  · intro owner other member
    have apart : id ≠ other := by
      rintro rfl
      exact fits.1 (among (mem_specials_of_mem_hung member))
    exact (arena.next?_setNext id other _).trans (if_neg apart)

theorem Threaded.special?_eq (threaded : Threaded attached arena done) {owner : TokenId}
    (real : owner ∉ attached) : arena.special? owner = (hung owner done).getLast? := by
  rw [(threaded.backward owner real).head, List.head?_reverse]

theorem fresh_of_once {owner special : TokenId}
    (once : (specials (done ++ [.attachSpecial owner special])).Nodup) (other : TokenId) :
    special ∉ hung other done := by
  rw [specials_attachSpecial] at once
  intro member
  exact (List.nodup_append.mp once).2.2 special (mem_specials_of_mem_hung member) special
    List.mem_cons_self rfl

theorem Threaded.backward_attachSpecial (threaded : Threaded attached arena done)
    {owner special : TokenId} (among : specials (done ++ [.attachSpecial owner special]) ⊆ attached)
    (once : (specials (done ++ [.attachSpecial owner special])).Nodup)
    (fits : (Edit.attachSpecial owner special).Fits attached arena) (other : TokenId)
    (real : other ∉ attached) :
    Passes (arena.attachSpecial owner special).special?
      ((arena.attachSpecial owner special).special? other)
      (hung other (done ++ [.attachSpecial owner special])).reverse := by
  obtain ⟨⟨existing, ownerReal⟩, also, _⟩ := fits
  rw [specials_attachSpecial] at among
  have isSpecial : special ∈ attached := among (List.mem_append_right _ List.mem_cons_self)
  have apart : special ≠ owner := fun same => ownerReal (same ▸ isSpecial)
  have notSpecial : other ≠ special := fun same => real (same ▸ isSpecial)
  have links := @special?_attachSpecial arena owner special existing also
  -- Links backwards change at the owner and at the new token only, which no walk has passed.
  have kept : ∀ id ∈ (hung other done).reverse,
      (arena.attachSpecial owner special).special? id = arena.special? id := by
    intro id member
    have passed := List.mem_reverse.mp member
    have isAttached := among (List.mem_append_left _ (mem_specials_of_mem_hung passed))
    have notOwner : id ≠ owner := fun same => ownerReal (same ▸ isAttached)
    have notNew : id ≠ special := fun same => fresh_of_once once other (same ▸ passed)
    rw [links, if_neg notOwner, if_neg notNew]
  have before := (threaded.backward other real).congr kept
  rw [hung_attachSpecial]
  by_cases same : owner = other
  · subst same
    rw [if_pos rfl, List.reverse_append, links, if_pos rfl]
    refine ⟨rfl, ?_⟩
    rwa [links, if_neg apart, if_pos rfl]
  · rwa [if_neg same, List.append_nil, links, if_neg (Ne.symm same), if_neg notSpecial]

theorem Threaded.forward_attachSpecial (threaded : Threaded attached arena done)
    {owner special : TokenId}
    (once : (specials (done ++ [.attachSpecial owner special])).Nodup)
    (fits : (Edit.attachSpecial owner special).Fits attached arena) (other : TokenId) :
    Passes (arena.attachSpecial owner special).next?
      (hung other (done ++ [.attachSpecial owner special])).head?
      (hung other (done ++ [.attachSpecial owner special])) := by
  obtain ⟨⟨_, ownerReal⟩, _, _, unfollowed⟩ := fits
  have nearest := threaded.special?_eq ownerReal
  -- The only link forwards that changes is that of what was nearest to the owner so far.
  have kept : ∀ id, (hung owner done).getLast? ≠ some id →
      (arena.attachSpecial owner special).next? id = arena.next? id := by
    intro id notLast
    rw [next?_attachSpecial, nearest, if_neg notLast]
  rw [hung_attachSpecial]
  by_cases same : owner = other
  · subst same
    rw [if_pos rfl]
    refine (threaded.forward owner).append_new kept ?_ ?_
    · intro last isLast
      have inside := threaded.inside owner last (List.mem_of_getLast? isLast)
      rw [next?_attachSpecial, nearest, if_pos (Option.mem_def.mp isLast)]
      exact arena.bind_get?_of_lt inside _
    · rw [kept special fun last => fresh_of_once once owner (List.mem_of_getLast? last), unfollowed]
  · rw [if_neg same, List.append_nil]
    have onceBefore := once.sublist (specials_sublist done _)
    refine (threaded.forward other).congr fun id member => kept id fun last => same ?_
    exact owner_unique onceBefore (List.mem_of_getLast? last) member

theorem Threaded.attachSpecial (threaded : Threaded attached arena done)
    {owner special : TokenId} (among : specials (done ++ [.attachSpecial owner special]) ⊆ attached)
    (once : (specials (done ++ [.attachSpecial owner special])).Nodup)
    (fits : (Edit.attachSpecial owner special).Fits attached arena) :
    Threaded attached (arena.attachSpecial owner special)
      (done ++ [.attachSpecial owner special]) := by
  refine ⟨?_, threaded.backward_attachSpecial among once fits,
    threaded.forward_attachSpecial once fits⟩
  intro other id member
  rw [size_attachSpecial]
  rw [hung_attachSpecial] at member
  rcases List.mem_append.mp member with before | now
  · exact threaded.inside other id before
  · split at now
    · exact List.mem_singleton.mp now ▸ fits.2.1
    · cases now

theorem Threaded.step (threaded : Threaded attached arena done) {edit : Edit}
    (among : specials (done ++ [edit]) ⊆ attached) (once : (specials (done ++ [edit])).Nodup)
    (fits : edit.Fits attached arena) :
    Threaded attached (arena.edit edit) (done ++ [edit]) := by
  cases edit with
  | push token => exact threaded.push fits
  | linkNext id following =>
      exact threaded.linkNext (List.Subset.trans (specials_sublist done _).subset among) fits
  | attachSpecial owner special => exact threaded.attachSpecial among once fits
  | setSpecial id special => exact fits.elim
  | setNext id next => exact fits.elim

theorem Threaded.run {edits : List Edit} (threaded : Threaded attached arena done)
    (among : specials (done ++ edits) ⊆ attached) (once : (specials (done ++ edits)).Nodup)
    (fit : AllFit attached arena edits) :
    Threaded attached (arena.editAll edits) (done ++ edits) := by
  induction edits generalizing arena done with
  | nil =>
      rw [List.append_nil]
      exact threaded
  | cons edit rest ih =>
      have parts : done ++ edit :: rest = done ++ [edit] ++ rest := by simp
      rw [parts] at among once ⊢
      have front := specials_sublist (done ++ [edit]) rest
      have stepped :=
        threaded.step (List.Subset.trans front.subset among) (once.sublist front) fit.1
      exact ih stepped among once fit.2

end

theorem Builds.threaded {edits : List Edit} (builds : Builds edits) :
    Threaded (specials edits) (empty.editAll edits) edits :=
  threaded_empty.run (List.Subset.refl _) builds.once builds.fit

theorem Threaded.specialChain_eq {attached : List TokenId} {arena : TokenArena}
    {done : List Edit} (threaded : Threaded attached arena done) {owner : TokenId}
    (real : owner ∉ attached) :
    arena.earliestSpecial owner = (hung owner done).head? ∧
      arena.specialChain owner = hung owner done :=
  specialChain_of_passes (threaded.backward owner real) (threaded.forward owner)
    (length_le_of_nodup (threaded.forward owner).nodup (threaded.inside owner))

def involved (arena : TokenArena) : Edit → List TokenId
  | .push _ => []
  | .linkNext id _ => [id]
  | .attachSpecial owner special => owner :: special :: (arena.special? owner).toList
  | .setSpecial id _ => [id]
  | .setNext id _ => [id]

section
variable {arena : TokenArena} {id : TokenId}

theorem get?_setSpecial_of_ne {other : TokenId} (apart : id ≠ other) (special : Option TokenId) :
    (arena.setSpecial other special).get? id = arena.get? id := by
  rw [setSpecial, get?_modify, if_neg (Ne.symm apart)]

theorem get?_setNext_of_ne {other : TokenId} (apart : id ≠ other) (next : Option TokenId) :
    (arena.setNext other next).get? id = arena.get? id := by
  rw [setNext, get?_modify, if_neg (Ne.symm apart)]

theorem get?_push_of_lt (existing : id < arena.size) (token : Token) :
    (arena.push token).get? id = arena.get? id := by
  rw [get?_push, if_neg (Nat.ne_of_lt existing)]

theorem get?_follow {owner special : TokenId} (apart : arena.special? owner ≠ some id) :
    (arena.follow owner special).get? id = arena.get? id := by
  unfold follow
  split
  · next earlier nearest =>
      rw [linkNext, get?_setNext_of_ne]
      intro same
      rw [nearest, same] at apart
      exact apart rfl
  · rfl

theorem get?_edit_of_uninvolved {edit : Edit} (existing : id < arena.size)
    (apart : id ∉ arena.involved edit) : (arena.edit edit).get? id = arena.get? id := by
  cases edit with
  | push token => rw [edit, get?_push_of_lt existing]
  | linkNext other following =>
      rw [edit, linkNext, get?_setNext_of_ne (List.ne_of_not_mem_cons apart)]
  | attachSpecial owner special =>
      simp only [involved, List.mem_cons, Option.mem_toList, not_or] at apart
      obtain ⟨notOwner, notSpecial, notNearest⟩ := apart
      rw [edit, attachSpecial_eq, get?_setSpecial_of_ne notOwner, get?_setSpecial_of_ne notSpecial,
        get?_follow notNearest]
  | setSpecial other special => rw [edit, get?_setSpecial_of_ne (List.ne_of_not_mem_cons apart)]
  | setNext other next => rw [edit, get?_setNext_of_ne (List.ne_of_not_mem_cons apart)]

theorem unlinked_modify {change : Token → Token} (other : TokenId)
    (kept : ∀ token, (change token).unlinked = token.unlinked) :
    ((arena.modify other change).get? id).map Token.unlinked =
      (arena.get? id).map Token.unlinked := by
  rw [get?_modify]
  split
  · rw [Option.map_map]
    exact Option.map_congr fun token _ => kept token
  · rfl

theorem unlinked_setSpecial (other : TokenId) (special : Option TokenId) :
    ((arena.setSpecial other special).get? id).map Token.unlinked =
      (arena.get? id).map Token.unlinked :=
  unlinked_modify other fun _ => rfl

theorem unlinked_setNext (other : TokenId) (next : Option TokenId) :
    ((arena.setNext other next).get? id).map Token.unlinked =
      (arena.get? id).map Token.unlinked :=
  unlinked_modify other fun _ => rfl

theorem unlinked_follow (owner special : TokenId) :
    ((arena.follow owner special).get? id).map Token.unlinked =
      (arena.get? id).map Token.unlinked := by
  unfold follow
  split
  · rw [linkNext, unlinked_setNext]
  · rfl

theorem unlinked_edit (existing : id < arena.size) (edit : Edit) :
    ((arena.edit edit).get? id).map Token.unlinked = (arena.get? id).map Token.unlinked := by
  cases edit with
  | push token => rw [edit, get?_push_of_lt existing]
  | linkNext other following => rw [edit, linkNext, unlinked_setNext]
  | attachSpecial owner special =>
      rw [edit, attachSpecial_eq, unlinked_setSpecial, unlinked_setSpecial, unlinked_follow]
  | setSpecial other special => rw [edit, unlinked_setSpecial]
  | setNext other next => rw [edit, unlinked_setNext]

theorem exists_of_edit {token : Token} (found : arena.get? id = some token) (edit : Edit) :
    ∃ changed, (arena.edit edit).get? id = some changed ∧ changed.unlinked = token.unlinked ∧
      (id ∉ arena.involved edit → changed = token) := by
  have existing := lt_size_of_get? found
  have kept := unlinked_edit existing edit
  rw [found] at kept
  obtain ⟨changed, now, same⟩ := Option.map_eq_some_iff.mp kept
  refine ⟨changed, now, same, fun apart => ?_⟩
  rw [get?_edit_of_uninvolved existing apart, found] at now
  exact (Option.some.inj now).symm

end

/-- In every arena that a front end can build, the chain of an owner is what was attached to
it, in that order; the links backwards pass the same tokens from the last one on; the last one
leads to no other, so no chain comes to its owner, and chains of different owners have no
token in common. No change on the way has touched more of a token than its links, and those
only of tokens that it involves. -/
theorem chains_of_edits {edits : List Edit} (builds : Builds edits) :
    (∀ owner ∉ specials edits,
      (empty.editAll edits).specialChain owner = hung owner edits ∧
      (empty.editAll edits).earliestSpecial owner = (hung owner edits).head? ∧
      (empty.editAll edits).special? owner = (hung owner edits).getLast? ∧
      Passes (empty.editAll edits).special? ((empty.editAll edits).special? owner)
        (hung owner edits).reverse ∧
      (∀ last ∈ (hung owner edits).getLast?, (empty.editAll edits).next? last = none) ∧
      owner ∉ (empty.editAll edits).specialChain owner ∧
      ∀ other ∉ specials edits, other ≠ owner →
        ((empty.editAll edits).specialChain owner).Disjoint
          ((empty.editAll edits).specialChain other)) ∧
      ∀ before edit after, edits = before ++ edit :: after →
        ∀ id token, (empty.editAll before).get? id = some token →
          ∃ changed, (empty.editAll (before ++ [edit])).get? id = some changed ∧
            changed.unlinked = token.unlinked ∧
            (id ∉ (empty.editAll before).involved edit → changed = token) := by
  have threaded := builds.threaded
  constructor
  · intro owner real
    obtain ⟨earliest, chain⟩ := threaded.specialChain_eq real
    refine ⟨chain, earliest, threaded.special?_eq real, threaded.backward owner real, ?_, ?_, ?_⟩
    · exact (threaded.forward owner).last
    · rw [chain]
      exact fun member => real (mem_specials_of_mem_hung member)
    · intro other otherReal apart id member also
      rw [chain] at member
      rw [(threaded.specialChain_eq otherReal).2] at also
      exact apart (owner_unique builds.once also member)
  · intro before edit after _ id token found
    rw [editAll, List.foldl_concat]
    exact exists_of_edit found edit

/-- Two names with a comment each, of which the first gets a second one last of all. -/
def interleaved : List Edit := [
  .push ⟨.multiLineComment, "/* a */", ⟨1, 1⟩, ⟨1, 7⟩, none, none⟩,
  .push ⟨.other, "f", ⟨3, 1⟩, ⟨3, 1⟩, none, none⟩,
  .attachSpecial 1 0,
  .push ⟨.singleLineComment, "// b\n", ⟨4, 1⟩, ⟨4, 5⟩, none, none⟩,
  .push ⟨.other, "g", ⟨5, 1⟩, ⟨5, 1⟩, none, none⟩,
  .linkNext 1 3,
  .attachSpecial 3 2,
  .push ⟨.multiLineComment, "/* c */", ⟨2, 1⟩, ⟨2, 7⟩, none, none⟩,
  .attachSpecial 1 4]

theorem chains_of_edits_interleaved :
    Builds interleaved ∧ (empty.editAll interleaved).specialChain 1 = [0, 4] ∧
      (empty.editAll interleaved).specialChain 3 = [2] := by
  have builds : Builds interleaved := by decide
  have chains := (chains_of_edits builds).1
  exact ⟨builds, (chains 1 (by decide)).1, (chains 3 (by decide)).1⟩

end TokenArena

end ActionReprint
