import ActionReprint.Generation
import Mathlib.Data.List.Basic

/-!
What is told of the writing of files. Storage may answer every write as it likes; each
file is attempted once and in order, and what is reported follows from the answers and
from what was pending before. Main statement: `finalize_accounts`.
-/

namespace ActionReprint

namespace DiagnosticBag

def ofList (diagnostics : List Diagnostic) : DiagnosticBag :=
  empty.addAll diagnostics

@[simp] theorem toList_ofList (diagnostics : List Diagnostic) :
    (ofList diagnostics).toList = diagnostics := by
  simp [ofList]

theorem addAll_addAll (bag : DiagnosticBag) (diagnostics more : List Diagnostic) :
    (bag.addAll diagnostics).addAll more = bag.addAll (diagnostics ++ more) :=
  List.foldl_append.symm

theorem errorCount_addAll (bag : DiagnosticBag) (diagnostics : List Diagnostic) :
    (bag.addAll diagnostics).errorCount =
      bag.errorCount + (diagnostics.filter Diagnostic.isError).length := by
  induction diagnostics generalizing bag with
  | nil => rfl
  | cons first rest ih =>
      have tail := ih (bag.add first)
      rw [addAll, List.foldl_cons]
      rw [addAll] at tail
      rw [tail, errorCount_add, List.filter_cons]
      split
      · rw [List.length_cons]
        omega
      · omega

theorem errorCount_ofList (diagnostics : List Diagnostic) :
    (ofList diagnostics).errorCount = (ofList diagnostics).errors.length := by
  rw [ofList, errorCount_addAll, errors, toList_addAll]
  exact Nat.zero_add _

theorem hasErrors_ofList (diagnostics : List Diagnostic) :
    (ofList diagnostics).hasErrors = true ↔
      ∃ diagnostic ∈ diagnostics, diagnostic.isError = true := by
  rw [hasErrors, errorCount_ofList, errors, toList_ofList, decide_eq_true_eq, gt_iff_lt,
    List.length_pos_iff_exists_mem]
  constructor
  · rintro ⟨diagnostic, member⟩
    exact ⟨diagnostic, List.mem_filter.mp member⟩
  · rintro ⟨diagnostic, inside⟩
    exact ⟨diagnostic, List.mem_filter.mpr inside⟩

end DiagnosticBag

theorem run_bind {σ α β : Type} {first : StateM σ α} {onward : α → StateM σ β}
    {before between : σ} {value : α} (ran : first before = (value, between)) :
    (first >>= onward) before = onward value between := by
  change onward (first before).1 (first before).2 = _
  rw [ran]

section
variable {σ : Type} [Storage (StateM σ)]

/-- Files that are written one after another, each where the one before it has left
storage, with the answer to each. -/
inductive Attempts : σ → List (OutputFile × Bool) → σ → Prop where
  | done (state : σ) : Attempts state [] state
  | write {file : OutputFile} {answer : Bool} {before between after : σ}
      {rest : List (OutputFile × Bool)}
      (answered : (Storage.write file.path file.contents : StateM σ Bool) before =
        (answer, between))
      (onward : Attempts between rest after) : Attempts before ((file, answer) :: rest) after

theorem Output.writeAll_attempts (files : List OutputFile) (before : σ) :
    ∃ outcomes after, outcomes.map Prod.fst = files ∧ Attempts before outcomes after ∧
      (Output.writeAll files : StateM σ _) before = (outcomes, after) := by
  induction files generalizing before with
  | nil => exact ⟨[], before, rfl, .done before, rfl⟩
  | cons file rest ih =>
      obtain ⟨answer, between, answered⟩ :
          ∃ answer between, (Storage.write file.path file.contents : StateM σ Bool) before =
            (answer, between) := ⟨_, _, rfl⟩
      obtain ⟨outcomes, after, files, attempts, wrote⟩ := ih between
      refine ⟨(file, answer) :: outcomes, after, by simp [files], .write answered attempts, ?_⟩
      rw [Output.writeAll, run_bind answered, run_bind wrote]
      rfl

theorem Session.finalize_attempts (session : Session) (path : Path) (bag : DiagnosticBag)
    (before : σ) :
    ∃ outcomes after, outcomes.map Prod.fst = session.assemble path ∧
      Attempts before outcomes after ∧
      (session.finalize path bag : StateM σ _) before =
        (⟨{ session with pending := #[] }, Output.written outcomes,
          (bag.addAll session.pendingWarnings).addAll (Output.failures outcomes)⟩, after) := by
  obtain ⟨outcomes, after, files, attempts, wrote⟩ :=
    Output.writeAll_attempts (session.assemble path) before
  exact ⟨outcomes, after, files, attempts, run_bind wrote⟩

/-- What is left after files were written: `warnings` were pending, `prior` was in the bag
before, and `outcomes` are the answers of storage. -/
structure Finalized.Accounts (result : Finalized) (session : Session)
    (warnings prior : List Diagnostic) (outcomes : List (OutputFile × Bool)) : Prop where
  written : result.written =
    (outcomes.filter fun outcome => outcome.2).map fun outcome => outcome.1.path
  reported : result.bag.toList = prior ++ warnings ++
    (outcomes.filter fun outcome => !outcome.2).map fun outcome =>
      ⟨outcome.1.path.text, "Could not create output file: " ++ outcome.1.path.text, .error⟩
  counted : result.bag.errorCount = (result.bag.toList.filter Diagnostic.isError).length
  flagged : result.bag.hasErrors = true ↔
    ∃ diagnostic ∈ result.bag.toList, diagnostic.isError = true
  settled : result.session.pendingWarnings = []
  options : result.session.options = session.options
  cursor : result.session.cursor = session.cursor
  buffers : result.session.buffers = session.buffers

theorem Session.finalize_ofList (session : Session) (path : Path) (prior : List Diagnostic)
    (before : σ) :
    ∃ outcomes after result, outcomes.map Prod.fst = session.assemble path ∧
      Attempts before outcomes after ∧
      (session.finalize path (.ofList prior) : StateM σ _) before = (result, after) ∧
      result.session = { session with pending := #[] } ∧
      result.Accounts session session.pendingWarnings prior outcomes := by
  obtain ⟨outcomes, after, files, attempts, finalized⟩ :=
    session.finalize_attempts path (.ofList prior) before
  refine ⟨outcomes, after, _, files, attempts, finalized, rfl, ?_⟩
  have bag : ((DiagnosticBag.ofList prior).addAll session.pendingWarnings).addAll
        (Output.failures outcomes) =
      .ofList (prior ++ session.pendingWarnings ++ Output.failures outcomes) := by
    rw [DiagnosticBag.ofList, DiagnosticBag.addAll_addAll, DiagnosticBag.addAll_addAll,
      List.append_assoc]
    rfl
  rw [bag]
  constructor
  case written => rfl
  case reported => exact DiagnosticBag.toList_ofList _
  case counted => exact DiagnosticBag.errorCount_ofList _
  case flagged =>
      rw [DiagnosticBag.toList_ofList]
      exact DiagnosticBag.hasErrors_ofList _
  case settled => rfl
  case options => rfl
  case cursor => rfl
  case buffers => rfl

theorem Output.length_written (outcomes : List (OutputFile × Bool)) :
    (Output.written outcomes).length + (Output.failures outcomes).length = outcomes.length := by
  rw [written, failures, List.length_map, List.length_map]
  exact (List.length_eq_length_filter_add fun outcome : OutputFile × Bool => outcome.2).symm

theorem hasErrors_warned (warnings : List Dropped) (outcomes : List (OutputFile × Bool)) :
    (DiagnosticBag.ofList (warnings.map Dropped.warning ++ Output.failures outcomes)).hasErrors =
        true ↔
      (Output.written outcomes).length < outcomes.length := by
  rw [DiagnosticBag.hasErrors_ofList, ← Output.length_written, Nat.lt_add_right_iff_pos,
    List.length_pos_iff_exists_mem]
  constructor
  · rintro ⟨diagnostic, member, isError⟩
    rcases List.mem_append.mp member with warned | failed
    · obtain ⟨dropped, _, rfl⟩ := List.mem_map.mp warned
      cases isError
    · exact ⟨diagnostic, failed⟩
  · rintro ⟨diagnostic, failed⟩
    refine ⟨diagnostic, List.mem_append_right _ failed, ?_⟩
    obtain ⟨outcome, _, rfl⟩ := List.mem_map.mp failed
    rfl

theorem generate_attempts (dump : TokenDump) (options : SessionOptions) (output : Path)
    (className : Option String) (before : σ) :
    ∃ outcomes after,
      outcomes.map Prod.fst = (Session.ofDump dump options className).assemble output ∧
        Attempts before outcomes after ∧
        (generate dump options output className : StateM σ Outcome) before =
          (⟨(DiagnosticBag.empty.addAll (Session.ofDump dump options className).pendingWarnings).addAll
            (Output.failures outcomes), Output.written outcomes⟩, after) := by
  obtain ⟨outcomes, after, files, attempts, finalized⟩ :=
    (Session.ofDump dump options className).finalize_attempts output .empty before
  exact ⟨outcomes, after, files, attempts, run_bind finalized⟩

theorem hasErrors_generate (dump : TokenDump) (options : SessionOptions) (output : Path)
    (className : Option String) (before : σ) :
    ((generate dump options output className : StateM σ Outcome) before).1.bag.hasErrors = true ↔
      ((generate dump options output className : StateM σ Outcome) before).1.emitted.length <
        ((Session.ofDump dump options className).assemble output).length := by
  obtain ⟨outcomes, after, files, _, generated⟩ :=
    generate_attempts dump options output className before
  rw [generated, ← files, List.length_map, DiagnosticBag.addAll_addAll]
  exact hasErrors_warned _ outcomes

end

/-- Whatever storage answers, every assembled file is attempted once and in order; the
paths that were written, and the diagnostics of a bag, follow from the answers. Nothing is
pending afterwards and the rest of the session is as it was: to finalize again attempts
the same files and repeats no warning. A generation has errors exactly if fewer files were
emitted than assembled. -/
theorem finalize_accounts {σ : Type} [Storage (StateM σ)] :
    (∀ (session : Session) (path : Path) (prior : List Diagnostic) (before : σ),
      ∃ outcomes after result, outcomes.map Prod.fst = session.assemble path ∧
        Attempts before outcomes after ∧
        (session.finalize path (.ofList prior) : StateM σ _) before = (result, after) ∧
        result.Accounts session session.pendingWarnings prior outcomes ∧
        ∀ (later : List Diagnostic) (again : σ),
          ∃ outcomes after repeated, outcomes.map Prod.fst = session.assemble path ∧
            Attempts again outcomes after ∧
            (result.session.finalize path (.ofList later) : StateM σ _) again =
              (repeated, after) ∧
            repeated.Accounts session [] later outcomes) ∧
    ∀ (dump : TokenDump) (options : SessionOptions) (output : Path) (className : Option String)
      (before : σ),
      ((generate dump options output className : StateM σ Outcome) before).1.bag.hasErrors = true ↔
        ((generate dump options output className : StateM σ Outcome) before).1.emitted.length <
          ((Session.ofDump dump options className).assemble output).length := by
  constructor
  · intro session path prior before
    obtain ⟨outcomes, after, result, files, attempts, finalized, session', accounts⟩ :=
      session.finalize_ofList path prior before
    refine ⟨outcomes, after, result, files, attempts, finalized, accounts, ?_⟩
    intro later again
    obtain ⟨outcomes, after, repeated, files, attempts, finalized, _, accounts⟩ :=
      result.session.finalize_ofList path later again
    rw [session'] at files accounts
    exact ⟨outcomes, after, repeated, files, attempts, finalized, accounts.written,
      accounts.reported, accounts.counted, accounts.flagged, accounts.settled, accounts.options,
      accounts.cursor, accounts.buffers⟩
  · exact hasErrors_generate

end ActionReprint
