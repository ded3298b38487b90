import ActionReprint.Token

/-!
The store of one input file's tokens and the walks along their links. The tokens
attached to an owner form a chain: backwards by `special`, forwards by `next`. The
front end may hand over any links at all, so both walks take a bounded number of
steps; links to tokens that do not exist end a walk.
-/

namespace ActionReprint

section Walks
variable {α : Type}

def settle (step : α → Option α) : Nat → α → α
  | 0, here => here
  | bound + 1, here => match step here with
    | some there => settle step bound there
    | none => here

/-- The places passed, beginning with the first one, at most `bound` of them. -/
def trail (step : α → Option α) : Nat → α → List α
  | 0, _ => []
  | bound + 1, here => match step here with
    | some there => here :: trail step bound there
    | none => [here]

theorem head?_trail (step : α → Option α) (bound : Nat) (here : α) :
    (trail step (bound + 1) here).head? = some here := by
  unfold trail
  split <;> rfl

end Walks

structure TokenArena where
  tokens : Array Token
  deriving DecidableEq, Repr

namespace TokenArena

def empty : TokenArena := ⟨#[]⟩

def size (arena : TokenArena) : Nat :=
  arena.tokens.size

def get? (arena : TokenArena) (id : TokenId) : Option Token :=
  arena.tokens[id]?

def push (arena : TokenArena) (token : Token) : TokenArena :=
  ⟨arena.tokens.push token⟩

def modify (arena : TokenArena) (id : TokenId) (change : Token → Token) : TokenArena :=
  ⟨arena.tokens.modify id change⟩

def ids (arena : TokenArena) : List TokenId :=
  List.range arena.size

def special? (arena : TokenArena) (id : TokenId) : Option TokenId :=
  (arena.get? id).bind Token.special

def next? (arena : TokenArena) (id : TokenId) : Option TokenId :=
  (arena.get? id).bind Token.next

def setSpecial (arena : TokenArena) (id : TokenId) (special : Option TokenId) : TokenArena :=
  arena.modify id fun token => { token with special }

def setNext (arena : TokenArena) (id : TokenId) (next : Option TokenId) : TokenArena :=
  arena.modify id fun token => { token with next }

def linkNext (arena : TokenArena) (id following : TokenId) : TokenArena :=
  arena.setNext id (some following)

/-- Makes `special` the nearest token in front of `owner`. The one that was nearest
so far precedes it from now on. -/
def attachSpecial (arena : TokenArena) (owner special : TokenId) : TokenArena :=
  let previous := arena.special? owner
  let linked := match previous with
    | some earlier => arena.linkNext earlier special
    | none => arena
  (linked.setSpecial special previous).setSpecial owner (some special)

/-- The first token attached to `id` in source order; none if nothing is attached. -/
def earliestSpecial (arena : TokenArena) (id : TokenId) : Option TokenId :=
  (arena.special? id).map (settle arena.special? arena.size)

def specialChain (arena : TokenArena) (id : TokenId) : List TokenId :=
  match arena.earliestSpecial id with
  | some first => trail arena.next? arena.size first
  | none => []

theorem get?_of_lt {arena : TokenArena} {id : TokenId} (existing : id < arena.tokens.size) :
    arena.get? id = some arena.tokens[id] :=
  Array.getElem?_eq_getElem existing

theorem lt_size_of_get? {arena : TokenArena} {id : TokenId} {token : Token}
    (found : arena.get? id = some token) : id < arena.size :=
  (Array.getElem?_eq_some_iff.mp found).1

theorem get?_push (arena : TokenArena) (token : Token) (id : TokenId) :
    (arena.push token).get? id = if id = arena.size then some token else arena.get? id :=
  Array.getElem?_push

theorem get?_modify (arena : TokenArena) (id other : TokenId) (change : Token → Token) :
    (arena.modify id change).get? other =
      if id = other then (arena.get? other).map change else arena.get? other := by
  simp [modify, get?, Array.getElem?_modify]

@[simp] theorem size_push (arena : TokenArena) (token : Token) :
    (arena.push token).size = arena.size + 1 := by
  simp [push, size]

@[simp] theorem size_modify (arena : TokenArena) (id : TokenId) (change : Token → Token) :
    (arena.modify id change).size = arena.size := by
  simp [modify, size]

inductive Edit where
  | push (token : Token)
  | linkNext (id following : TokenId)
  | attachSpecial (owner special : TokenId)
  | setSpecial (id : TokenId) (special : Option TokenId)
  | setNext (id : TokenId) (next : Option TokenId)
  deriving DecidableEq, Repr

def edit (arena : TokenArena) : Edit → TokenArena
  | .push token => arena.push token
  | .linkNext id following => arena.linkNext id following
  | .attachSpecial owner special => arena.attachSpecial owner special
  | .setSpecial id special => arena.setSpecial id special
  | .setNext id next => arena.setNext id next

end TokenArena

end ActionReprint
