import ActionReprint.Call
import ActionReprint.Proofs.Frame

/-!
Sessions in the course of a run. What a call leaves of a session does not depend on the
place where files are kept: storage decides what is replied, and nothing else.
-/

namespace ActionReprint

@[reducible] def Storage.absent : Storage Id where
  read _ := none
  isFile _ := false
  write _ _ := false

namespace Session

def after (session : Session) (call : Call) : Session :=
  -- any storage will do: the session does not depend on what it answers
  (@perform Id _ Storage.absent session call).2

def afterAll (session : Session) (calls : List Call) : Session :=
  calls.foldl after session

theorem afterAll_append (session : Session) (calls more : List Call) :
    session.afterAll (calls ++ more) = (session.afterAll calls).afterAll more :=
  List.foldl_append

theorem after_finalize (session : Session) (path : Path) :
    session.after (.finalize path) = { session with pending := #[] } := rfl

section
variable {m : Type → Type} [Monad m] [LawfulMonad m] [Storage m]

theorem perform_after (session : Session) (call : Call) :
    (fun result => (result.1, session.after call)) <$> (session.perform call : m (Reply × Session)) =
      session.perform call := by
  cases call with
  | finalize path =>
      rw [after_finalize]
      simp [perform, finalize, flushWarnings]
  | _ => exact map_pure _ _

theorem performAll_afterAll (session : Session) (calls : List Call) :
    (fun result => (result.1, session.afterAll calls)) <$>
        (session.performAll calls : m (List Reply × Session)) =
      session.performAll calls := by
  induction calls generalizing session with
  | nil => exact map_pure _ _
  | cons call rest ih =>
      have onward := ih (session.after call)
      rw [performAll, ← perform_after session call, bind_map_left, map_bind]
      apply bind_congr
      intro result
      rw [map_bind]
      simp only [map_pure]
      rw [← onward, bind_map_left, bind_map_left]
      rfl

end

/-- Whatever storage answers on the way, the calls leave the session `last`. -/
def Leaves (session : Session) (calls : List Call) (last : Session) : Prop :=
  ∀ (m : Type → Type) [Monad m] [LawfulMonad m] [Storage m],
    (fun result => (result.1, last)) <$> (session.performAll calls : m (List Reply × Session)) =
      session.performAll calls

theorem leaves_afterAll (session : Session) (calls : List Call) :
    session.Leaves calls (session.afterAll calls) := by
  intro m _ _ _
  exact performAll_afterAll session calls

end Session

end ActionReprint
