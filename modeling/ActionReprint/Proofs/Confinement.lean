import ActionReprint.Proofs.Reprinting
import ActionReprint.Proofs.Survival

/-!
What a run can touch. Until every input has been read and accepted a run only looks, so a
run that fails leaves the files as it has found them. A finished run has written its
assembled files and nothing else. Main statement: `run_confined`.
-/

namespace ActionReprint

/-- A file system. To look at a file changes nothing; to write one changes that file alone,
whether or not it succeeds. -/
class FileStore (σ : Type) extends Storage (StateM σ) where
  content : σ → Path → Option ByteArray
  /-- Both paths lead to one file, or to the place where one would be created. -/
  SameFile : σ → Path → Path → Prop
  read_keeps (path : Path) (state : σ) : ((Storage.read path : StateM σ _) state).2 = state
  isFile_keeps (path : Path) (state : σ) : ((Storage.isFile path : StateM σ _) state).2 = state
  sameFile_of_write {path : Path} {text : String} {before after : σ} {answer : Bool} :
    (Storage.write path text : StateM σ Bool) before = (answer, after) →
      SameFile after = SameFile before
  content_elsewhere {path other : Path} {text : String} {before after : σ} {answer : Bool} :
    (Storage.write path text : StateM σ Bool) before = (answer, after) →
      ¬ SameFile before path other → content after other = content before other
  content_of_write {path : Path} {text : String} {before after : σ} :
    (Storage.write path text : StateM σ Bool) before = (true, after) →
      content after path = some text.toUTF8

namespace FileTree

def content (tree : FileTree) (path : Path) : Option ByteArray :=
  match (tree.locate path).bind tree.lookup with
  | some (.file content) => some content
  | _ => none

def SameFile (tree : FileTree) (path other : Path) : Prop :=
  ∃ place, tree.locate path = some place ∧ tree.locate other = some place

theorem SameFile.of_locate {tree : FileTree} {path other : Path} {place : Place}
    (located : tree.locate path = some place) (same : tree.locate other = tree.locate path) :
    tree.SameFile path other :=
  ⟨place, located, same.trans located⟩

theorem content_written {tree after : FileTree} {path : Path} {text : String}
    (wrote : tree.write? path text = some after) : after.content path = some text.toUTF8 := by
  simp [content, entry_written wrote]

theorem content_unwritten {tree after : FileTree} {path other : Path} {text : String}
    (wrote : tree.write? path text = some after) (apart : ¬ tree.SameFile path other) :
    after.content other = tree.content other := by
  obtain ⟨place, located, _, _⟩ := write?_eq_some wrote
  have elsewhere : tree.locate other ≠ tree.locate path :=
    fun same => apart (SameFile.of_locate located same)
  rw [content, content, entry_elsewhere wrote elsewhere]

theorem write?_or_same {before after : FileTree} {path : Path} {text : String} {answer : Bool}
    (answered : (Storage.write path text : StateM FileTree Bool) before = (answer, after)) :
    before.write? path text = some after ∨ after = before := by
  cases answer with
  | true => exact Or.inl (write?_of_answer answered)
  | false =>
      simp only [Storage.write] at answered
      split at answered
      · cases answered
      · cases answered
        exact Or.inr rfl

instance : FileStore FileTree where
  content := content
  SameFile := SameFile
  read_keeps _ _ := rfl
  isFile_keeps _ _ := rfl
  sameFile_of_write answered := by
    rcases write?_or_same answered with wrote | rfl
    · funext path other
      simp only [SameFile, locate_written wrote]
    · rfl
  content_elsewhere answered apart := by
    rcases write?_or_same answered with wrote | rfl
    · exact content_unwritten wrote apart
    · rfl
  content_of_write answered := content_written (write?_of_answer answered)

end FileTree

section
variable {σ : Type} [FileStore σ] (state : σ)

def FileStore.textOf? (path : Path) : Option String :=
  ((Storage.read path : StateM σ _) state).1

def FileStore.hasFile (path : Path) : Bool :=
  ((Storage.isFile path : StateM σ _) state).1

/-- The options file that a run goes by: the one that is named, or else the default one if
there is such a file. -/
def optionsPath? (explicit : Option Path) (workingDirectory : Path) : Option Path :=
  match explicit with
  | some path => some path
  | none =>
      let path := workingDirectory.join defaultOptionsPath
      if FileStore.hasFile state path then some path else none

inductive OptionsLoaded (arguments : Arguments) (workingDirectory : Path) : OptionsFile → Prop where
  | missing (nowhere : optionsPath? state arguments.config workingDirectory = none) :
      OptionsLoaded arguments workingDirectory .empty
  | read {path : Path} {text : String} {file : OptionsFile}
      (chosen : optionsPath? state arguments.config workingDirectory = some path)
      (readable : FileStore.textOf? state path = some text)
      (parsed : OptionsFile.parse? text = some file) :
      OptionsLoaded arguments workingDirectory file

/-- The reasons for an error. Each requires that none of those in front of it holds. -/
inductive Rejected (arguments : Arguments) (workingDirectory : Path) : RunError → Prop where
  | optionsUnreadable {path : Path}
      (chosen : optionsPath? state arguments.config workingDirectory = some path)
      (unreadable : FileStore.textOf? state path = none) :
      Rejected arguments workingDirectory (.optionsUnreadable path)
  | optionsMalformed {path : Path} {text : String}
      (chosen : optionsPath? state arguments.config workingDirectory = some path)
      (readable : FileStore.textOf? state path = some text)
      (malformed : OptionsFile.parse? text = none) :
      Rejected arguments workingDirectory (.optionsMalformed path)
  | unknownLanguage {file : OptionsFile} {name : String}
      (loaded : OptionsLoaded state arguments workingDirectory file)
      (unflagged : arguments.language = none) (named : file.outputLanguage = some name)
      (unknown : TargetLanguage.ofIdentifier? (Text.fold name) = none) :
      Rejected arguments workingDirectory (.unknownLanguage ⟨name⟩)
  | dumpUnreadable {file : OptionsFile} {options : ResolvedOptions}
      (loaded : OptionsLoaded state arguments workingDirectory file)
      (resolved : ResolvedOptions.resolve file arguments = .ok options)
      (unreadable : FileStore.textOf? state (workingDirectory.join arguments.tokens) = none) :
      Rejected arguments workingDirectory
        (.dumpUnreadable (workingDirectory.join arguments.tokens))
  | dumpMalformed {file : OptionsFile} {options : ResolvedOptions} {text : String}
      (loaded : OptionsLoaded state arguments workingDirectory file)
      (resolved : ResolvedOptions.resolve file arguments = .ok options)
      (readable : FileStore.textOf? state (workingDirectory.join arguments.tokens) = some text)
      (malformed : TokenDump.parse? text = none) :
      Rejected arguments workingDirectory
        (.dumpMalformed (workingDirectory.join arguments.tokens))

/-- All that a run reads is there and well formed. -/
structure Accepted (arguments : Arguments) (workingDirectory : Path) (plan : Plan) : Prop where
  resolved : ∃ file, OptionsLoaded state arguments workingDirectory file ∧
    ResolvedOptions.resolve file arguments = .ok plan.options
  parsed : ∃ text, FileStore.textOf? state (workingDirectory.join arguments.tokens) = some text ∧
    TokenDump.parse? text = some plan.dump

end

theorem bind_eq_error_iff {ε α β : Type} {first : Except ε α} {onward : α → Except ε β}
    {error : ε} :
    first >>= onward = .error error ↔
      first = .error error ∨ ∃ value, first = .ok value ∧ onward value = .error error := by
  cases first <;> simp [bind, Except.bind]

theorem bind_eq_ok_iff {ε α β : Type} {first : Except ε α} {onward : α → Except ε β} {result : β} :
    first >>= onward = .ok result ↔ ∃ value, first = .ok value ∧ onward value = .ok result := by
  cases first <;> simp [bind, Except.bind]

theorem mapError_eq_error_iff {ε δ α : Type} {verdict : Except ε α} {widen : ε → δ} {error : δ} :
    verdict.mapError widen = .error error ↔
      ∃ narrow, verdict = .error narrow ∧ widen narrow = error := by
  cases verdict <;> simp [Except.mapError]

theorem mapError_eq_ok_iff {ε δ α : Type} {verdict : Except ε α} {widen : ε → δ} {value : α} :
    verdict.mapError widen = .ok value ↔ verdict = .ok value := by
  cases verdict <;> simp [Except.mapError]

def judge {α : Type} (parse? : String → Option α) (unreadable malformed : RunError) :
    Option String → Except RunError α
  | none => .error unreadable
  | some text => match parse? text with
    | none => .error malformed
    | some value => .ok value

theorem judge_eq_error_iff {α : Type} {parse? : String → Option α}
    {unreadable malformed error : RunError} {text? : Option String} :
    judge parse? unreadable malformed text? = .error error ↔
      text? = none ∧ error = unreadable ∨
        ∃ text, text? = some text ∧ parse? text = none ∧ error = malformed := by
  cases text? with
  | none => simp [judge, eq_comm]
  | some text => cases parsed : parse? text <;> simp [judge, parsed, eq_comm]

theorem judge_eq_ok_iff {α : Type} {parse? : String → Option α} {unreadable malformed : RunError}
    {text? : Option String} {value : α} :
    judge parse? unreadable malformed text? = .ok value ↔
      ∃ text, text? = some text ∧ parse? text = some value := by
  cases text? with
  | none => simp [judge]
  | some text => cases parsed : parse? text <;> simp [judge, parsed]

theorem resolve_eq_error_iff {file : OptionsFile} {arguments : Arguments}
    {unknown : UnknownLanguage} :
    ResolvedOptions.resolve file arguments = .error unknown ↔
      arguments.language = none ∧ file.outputLanguage = some unknown.name ∧
        TargetLanguage.ofIdentifier? (Text.fold unknown.name) = none := by
  have chosen : ResolvedOptions.resolve file arguments = .error unknown ↔
      ResolvedOptions.language file arguments = .error unknown := by
    rw [ResolvedOptions.resolve, bind_eq_error_iff]
    simp
  rw [chosen, ResolvedOptions.language]
  cases arguments.language with
  | some language => simp
  | none =>
      cases file.outputLanguage with
      | none => simp
      | some name =>
          obtain ⟨given⟩ := unknown
          have same : TargetLanguage.named name = .error ⟨given⟩ ↔
              name = given ∧ TargetLanguage.ofIdentifier? (Text.fold name) = none := by
            cases known : TargetLanguage.ofIdentifier? (Text.fold name) <;>
              simp [TargetLanguage.named, known]
          simp only [same, Option.some_inj, true_and]
          apply and_congr_right
          rintro rfl
          rfl

section
variable {σ : Type} [FileStore σ] (state : σ)

theorem read_bind {α : Type} (path : Path) (onward : Option String → StateM σ α) :
    (Storage.read path >>= onward) state = onward (FileStore.textOf? state path) state := by
  have same : (Storage.read path : StateM σ _) state = (FileStore.textOf? state path, state) :=
    Prod.ext rfl (FileStore.read_keeps path state)
  exact run_bind same

theorem isFile_bind {α : Type} (path : Path) (onward : Bool → StateM σ α) :
    (Storage.isFile path >>= onward) state = onward (FileStore.hasFile state path) state := by
  have same : (Storage.isFile path : StateM σ _) state = (FileStore.hasFile state path, state) :=
    Prod.ext rfl (FileStore.isFile_keeps path state)
  exact run_bind same

theorem loadOptions_eq (path : Path) :
    (loadOptions path : StateM σ _) state =
      (judge OptionsFile.parse? (.optionsUnreadable path) (.optionsMalformed path)
        (FileStore.textOf? state path), state) := by
  rw [loadOptions, read_bind]
  cases FileStore.textOf? state path with
  | none => rfl
  | some text => cases parsed : OptionsFile.parse? text <;> simp only [judge, parsed] <;> rfl

theorem loadDump_eq (path : Path) :
    (loadDump path : StateM σ _) state =
      (judge TokenDump.parse? (.dumpUnreadable path) (.dumpMalformed path)
        (FileStore.textOf? state path), state) := by
  rw [loadDump, read_bind]
  cases FileStore.textOf? state path with
  | none => rfl
  | some text => cases parsed : TokenDump.parse? text <;> simp only [judge, parsed] <;> rfl

def judgeOptions (explicit : Option Path) (workingDirectory : Path) :
    Except RunError OptionsFile :=
  match optionsPath? state explicit workingDirectory with
  | none => .ok .empty
  | some path =>
      judge OptionsFile.parse? (.optionsUnreadable path) (.optionsMalformed path)
        (FileStore.textOf? state path)

theorem findOptions_eq (explicit : Option Path) (workingDirectory : Path) :
    (findOptions explicit workingDirectory : StateM σ _) state =
      (judgeOptions state explicit workingDirectory, state) := by
  cases explicit with
  | some path => exact loadOptions_eq state path
  | none =>
      rw [findOptions, isFile_bind, judgeOptions, optionsPath?]
      cases FileStore.hasFile state (workingDirectory.join defaultOptionsPath) with
      | true => exact loadOptions_eq state _
      | false => rfl

def judgeInputs (arguments : Arguments) (workingDirectory : Path) : Except RunError Plan := do
  let file ← judgeOptions state arguments.config workingDirectory
  let options ← (ResolvedOptions.resolve file arguments).mapError .unknownLanguage
  let path := workingDirectory.join arguments.tokens
  let dump ← judge TokenDump.parse? (.dumpUnreadable path) (.dumpMalformed path)
    (FileStore.textOf? state path)
  .ok ⟨options, dump⟩

theorem prepare_eq (arguments : Arguments) (workingDirectory : Path) :
    (prepare arguments workingDirectory : StateM σ _) state =
      (judgeInputs state arguments workingDirectory, state) := by
  rw [prepare, run_bind (findOptions_eq state _ _), judgeInputs]
  cases judgeOptions state arguments.config workingDirectory with
  | error error => rfl
  | ok file =>
      cases resolved : ResolvedOptions.resolve file arguments with
      | error unknown =>
          simp only [bind, Except.bind, resolved, Except.mapError]
          rfl
      | ok options =>
          simp only [resolved, run_bind (loadDump_eq state _)]
          cases judge TokenDump.parse? _ _ (FileStore.textOf? state _) <;>
            simp only [bind, Except.bind, resolved, Except.mapError] <;> rfl

variable {state}

theorem judgeOptions_eq_ok_iff {arguments : Arguments} {workingDirectory : Path}
    {file : OptionsFile} :
    judgeOptions state arguments.config workingDirectory = .ok file ↔
      OptionsLoaded state arguments workingDirectory file := by
  unfold judgeOptions
  constructor
  · intro judged
    split at judged
    next nowhere =>
      cases judged
      exact .missing nowhere
    next path chosen =>
      obtain ⟨text, readable, parsed⟩ := judge_eq_ok_iff.mp judged
      exact .read chosen readable parsed
  · rintro (nowhere | ⟨chosen, readable, parsed⟩)
    · simp [nowhere]
    · simp [chosen, judge_eq_ok_iff, readable, parsed]

theorem judgeInputs_eq_ok_iff {arguments : Arguments} {workingDirectory : Path} {plan : Plan} :
    judgeInputs state arguments workingDirectory = .ok plan ↔
      Accepted state arguments workingDirectory plan := by
  simp only [judgeInputs, bind_eq_ok_iff, judgeOptions_eq_ok_iff, mapError_eq_ok_iff,
    judge_eq_ok_iff, Except.ok.injEq]
  constructor
  · rintro ⟨file, loaded, options, resolved, dump, parsed, rfl⟩
    exact ⟨⟨file, loaded, resolved⟩, parsed⟩
  · rintro ⟨⟨file, loaded, resolved⟩, parsed⟩
    exact ⟨file, loaded, plan.options, resolved, plan.dump, parsed, rfl⟩

theorem judgeOptions_eq_error_iff {arguments : Arguments} {workingDirectory : Path}
    {error : RunError} :
    judgeOptions state arguments.config workingDirectory = .error error ↔
      ∃ path, optionsPath? state arguments.config workingDirectory = some path ∧
        (FileStore.textOf? state path = none ∧ error = .optionsUnreadable path ∨
          ∃ text, FileStore.textOf? state path = some text ∧ OptionsFile.parse? text = none ∧
            error = .optionsMalformed path) := by
  unfold judgeOptions
  cases optionsPath? state arguments.config workingDirectory with
  | none => simp
  | some path => simp [judge_eq_error_iff]

theorem judgeInputs_eq_error_iff {arguments : Arguments} {workingDirectory : Path}
    {error : RunError} :
    judgeInputs state arguments workingDirectory = .error error ↔
      Rejected state arguments workingDirectory error := by
  simp only [judgeInputs, bind_eq_error_iff, judgeOptions_eq_ok_iff, judgeOptions_eq_error_iff,
    mapError_eq_ok_iff, mapError_eq_error_iff, judge_eq_error_iff, resolve_eq_error_iff]
  constructor
  · rintro (⟨path, chosen, ⟨unreadable, rfl⟩ | ⟨text, readable, malformed, rfl⟩⟩ |
      ⟨file, loaded, ⟨unknown, ⟨unflagged, named, missing⟩, rfl⟩ | ⟨options, resolved,
        (⟨unreadable, rfl⟩ | ⟨text, readable, malformed, rfl⟩) | ⟨_, _, impossible⟩⟩⟩)
    · exact .optionsUnreadable chosen unreadable
    · exact .optionsMalformed chosen readable malformed
    · exact .unknownLanguage loaded unflagged named missing
    · exact .dumpUnreadable loaded resolved unreadable
    · exact .dumpMalformed loaded resolved readable malformed
    · cases impossible
  · intro rejected
    cases rejected with
    | optionsUnreadable chosen unreadable =>
        exact Or.inl ⟨_, chosen, Or.inl ⟨unreadable, rfl⟩⟩
    | optionsMalformed chosen readable malformed =>
        exact Or.inl ⟨_, chosen, Or.inr ⟨_, readable, malformed, rfl⟩⟩
    | unknownLanguage loaded unflagged named unknown =>
        exact Or.inr ⟨_, loaded, Or.inl ⟨_, ⟨unflagged, named, unknown⟩, rfl⟩⟩
    | dumpUnreadable loaded resolved unreadable =>
        exact Or.inr ⟨_, loaded, Or.inr ⟨_, resolved, Or.inl (Or.inl ⟨unreadable, rfl⟩)⟩⟩
    | dumpMalformed loaded resolved readable malformed =>
        exact Or.inr ⟨_, loaded, Or.inr ⟨_, resolved,
          Or.inl (Or.inr ⟨_, readable, malformed, rfl⟩)⟩⟩

end

section
variable {σ : Type} [FileStore σ] {before after : σ} {outcomes : List (OutputFile × Bool)}

theorem Attempts.elsewhere (attempts : Attempts before outcomes after) {path : Path}
    (apart : ∀ outcome ∈ outcomes, ¬ FileStore.SameFile before outcome.1.path path) :
    FileStore.content after path = FileStore.content before path := by
  induction attempts with
  | done => rfl
  | write answered _ ih =>
      have step := FileStore.content_elsewhere answered (apart _ List.mem_cons_self)
      rw [← FileStore.sameFile_of_write answered] at apart
      exact (ih fun outcome later => apart outcome (List.mem_cons_of_mem _ later)).trans step

theorem Attempts.holds {front back : List (OutputFile × Bool)} {file : OutputFile}
    (attempts : Attempts before (front ++ (file, true) :: back) after)
    (last : ∀ later ∈ back, ¬ FileStore.SameFile before later.1.path file.path) :
    FileStore.content after file.path = some file.contents.toUTF8 := by
  induction front generalizing before with
  | nil =>
      cases attempts with
      | write answered onward =>
          rw [← FileStore.sameFile_of_write answered] at last
          exact (onward.elsewhere last).trans (FileStore.content_of_write answered)
  | cons first rest ih =>
      cases attempts with
      | write answered onward =>
          rw [← FileStore.sameFile_of_write answered] at last
          exact ih onward last

/-- What may have changed after these files were attempted for an output path: that path
and, in a split layout, the path of its header. -/
structure Confined (before : σ) (output : Path) (language : TargetLanguage)
    (outcomes : List (OutputFile × Bool)) (after : σ) : Prop where
  elsewhere : ∀ path, FileStore.content after path ≠ FileStore.content before path →
    FileStore.SameFile before output path ∨
      ∃ extension, language.headerExtension? = some extension ∧
        FileStore.SameFile before (output.withExtension extension) path
  /-- Unless the same place was attempted again, what was written is there. -/
  holds : ∀ front file back, outcomes = front ++ (file, true) :: back →
    (∀ later ∈ back, ¬ FileStore.SameFile before later.1.path file.path) →
      FileStore.content after file.path = some file.contents.toUTF8

end

namespace Session

theorem path_of_mem_assemble {session : Session} {path : Path} {file : OutputFile}
    (member : file ∈ session.assemble path) :
    file.path = path ∨ ∃ extension, session.language.headerExtension? = some extension ∧
      file.path = path.withExtension extension := by
  unfold assemble at member
  split at member
  next =>
    rw [List.mem_singleton] at member
    exact Or.inl (congrArg OutputFile.path member)
  next extension header =>
    rcases List.mem_cons.mp member with first | second
    · exact Or.inr ⟨extension, header, congrArg OutputFile.path first⟩
    · exact Or.inl (congrArg OutputFile.path (List.mem_singleton.mp second))

theorem language_ofDump (dump : TokenDump) (options : SessionOptions) (className : Option String) :
    (ofDump dump options className).language = options.language := by
  obtain ⟨cursor, same⟩ := ofDump_eq dump options className
  rw [same]
  rfl

end Session

section
variable {σ : Type} [FileStore σ]

theorem Session.confined {session : Session} {output : Path} {before after : σ}
    {outcomes : List (OutputFile × Bool)} (files : outcomes.map Prod.fst = session.assemble output)
    (attempts : Attempts before outcomes after) :
    Confined before output session.language outcomes after := by
  constructor
  case elsewhere =>
      intro path changed
      by_contra outside
      refine changed (attempts.elsewhere ?_)
      intro outcome attempted same
      have member : outcome.1 ∈ session.assemble output :=
        files ▸ List.mem_map_of_mem attempted
      apply outside
      rcases session.path_of_mem_assemble member with body | ⟨extension, header, renamed⟩
      · exact Or.inl (body ▸ same)
      · exact Or.inr ⟨extension, header, renamed ▸ same⟩
  case holds =>
      rintro front file back rfl last
      exact attempts.holds last

structure Finished (before : σ) (arguments : Arguments) (workingDirectory : Path) (plan : Plan)
    (outcomes : List (OutputFile × Bool)) (outcome : Outcome) (after : σ) : Prop where
  files : outcomes.map Prod.fst =
    (Session.ofDump plan.dump plan.options.session arguments.className).assemble
      (plan.options.outputPath arguments.output workingDirectory)
  emitted : outcome.emitted = Output.written outcomes
  confined : Confined before (plan.options.outputPath arguments.output workingDirectory)
    plan.options.session.language outcomes after

theorem run_eq_generate {arguments : Arguments} {workingDirectory : Path} {before : σ}
    {plan : Plan} (accepted : Accepted before arguments workingDirectory plan) :
    (run arguments workingDirectory : StateM σ _) before =
      Prod.map Except.ok id ((generate plan.dump plan.options.session
        (plan.options.outputPath arguments.output workingDirectory)
        arguments.className : StateM σ Outcome) before) := by
  rw [run, run_bind (prepare_eq before _ _), judgeInputs_eq_ok_iff.mpr accepted]
  rfl

theorem run_of_accepted {arguments : Arguments} {workingDirectory : Path} {before : σ}
    {plan : Plan} (accepted : Accepted before arguments workingDirectory plan) :
    ∃ outcomes outcome after,
      (run arguments workingDirectory : StateM σ _) before = (.ok outcome, after) ∧
        Finished before arguments workingDirectory plan outcomes outcome after := by
  obtain ⟨outcomes, after, files, attempts, generated⟩ :=
    generate_attempts plan.dump plan.options.session
      (plan.options.outputPath arguments.output workingDirectory) arguments.className before
  have confined := Session.confined files attempts
  rw [Session.language_ofDump] at confined
  have ran := run_eq_generate accepted
  rw [generated] at ran
  exact ⟨outcomes, _, after, ran, files, rfl, confined⟩

theorem run_of_rejected {arguments : Arguments} {workingDirectory : Path} {before : σ}
    {error : RunError} (rejected : Rejected before arguments workingDirectory error) :
    (run arguments workingDirectory : StateM σ _) before = (.error error, before) := by
  rw [run, run_bind (prepare_eq before _ _), judgeInputs_eq_error_iff.mpr rejected]
  rfl

theorem rejected_or_accepted (before : σ) (arguments : Arguments) (workingDirectory : Path) :
    (∃ error, Rejected before arguments workingDirectory error) ∨
      ∃ plan, Accepted before arguments workingDirectory plan := by
  cases judged : judgeInputs before arguments workingDirectory with
  | error error => exact Or.inl ⟨error, judgeInputs_eq_error_iff.mp judged⟩
  | ok plan => exact Or.inr ⟨plan, judgeInputs_eq_ok_iff.mp judged⟩

theorem run_fails_iff {arguments : Arguments} {workingDirectory : Path} {before : σ}
    {error : RunError} :
    ((run arguments workingDirectory : StateM σ _) before).1 = .error error ↔
      Rejected before arguments workingDirectory error := by
  constructor
  · intro failed
    rcases rejected_or_accepted before arguments workingDirectory with
      ⟨reason, rejected⟩ | ⟨plan, accepted⟩
    · rw [run_of_rejected rejected] at failed
      cases failed
      exact rejected
    · obtain ⟨_, _, _, ran, _⟩ := run_of_accepted accepted
      rw [ran] at failed
      cases failed
  · intro rejected
    rw [run_of_rejected rejected]

/-- A run fails exactly for the first of the reasons that holds, and then everything is as
it was. A run that does not fail changes at most its output and, in a split layout, its
header, and what it says that it has emitted is there unless it has itself attempted a later
file at the same place. -/
theorem run_confined (arguments : Arguments) (workingDirectory : Path) (before : σ) :
    (∀ error, ((run arguments workingDirectory : StateM σ _) before).1 = .error error ↔
        Rejected before arguments workingDirectory error) ∧
      (∀ error after,
        (run arguments workingDirectory : StateM σ _) before = (.error error, after) →
          after = before) ∧
      ∀ outcome after, (run arguments workingDirectory : StateM σ _) before = (.ok outcome, after) →
        ∃ plan outcomes, Accepted before arguments workingDirectory plan ∧
          Finished before arguments workingDirectory plan outcomes outcome after := by
  refine ⟨fun error => run_fails_iff, ?_, ?_⟩
  · intro error after failed
    have rejected := run_fails_iff.mp (congrArg Prod.fst failed)
    rw [run_of_rejected rejected] at failed
    exact (congrArg Prod.snd failed).symm
  · intro outcome after succeeded
    rcases rejected_or_accepted before arguments workingDirectory with
      ⟨reason, rejected⟩ | ⟨plan, accepted⟩
    · rw [run_of_rejected rejected] at succeeded
      cases succeeded
    · obtain ⟨outcomes, result, last, ran, finished⟩ := run_of_accepted accepted
      rw [ran] at succeeded
      cases succeeded
      exact ⟨plan, outcomes, accepted, finished⟩

end

def emptyDump : FileTree :=
  ⟨[(["t.json"], .file "\x7b\"tokens\":[]\x7d".toUTF8)], []⟩

def splitArguments (tokens : Path) : Arguments :=
  ⟨tokens, ⟨"a.cc"⟩, none, some .cpp, none, none, false, false⟩

theorem run_confined_emptyDump :
    Rejected emptyDump (splitArguments ⟨"u.json"⟩) ⟨"/"⟩ (.dumpUnreadable ⟨"/u.json"⟩) ∧
      ∃ plan outcomes, Accepted emptyDump (splitArguments ⟨"t.json"⟩) ⟨"/"⟩ plan ∧
        Finished emptyDump (splitArguments ⟨"t.json"⟩) ⟨"/"⟩ plan outcomes
          ⟨.empty, [⟨"/a.h"⟩, ⟨"/a.cc"⟩]⟩
          ((run (splitArguments ⟨"t.json"⟩) ⟨"/"⟩ : StateM FileTree _) emptyDump).2 := by
  have missing : ((run (splitArguments ⟨"u.json"⟩) ⟨"/"⟩ : StateM FileTree _) emptyDump).1 =
      .error (.dumpUnreadable ⟨"/u.json"⟩) := by decide +kernel
  have emitted : ((run (splitArguments ⟨"t.json"⟩) ⟨"/"⟩ : StateM FileTree _) emptyDump).1 =
      .ok ⟨.empty, [⟨"/a.h"⟩, ⟨"/a.cc"⟩]⟩ := by decide +kernel
  constructor
  · exact ((run_confined (splitArguments ⟨"u.json"⟩) ⟨"/"⟩ emptyDump).1 _).mp missing
  · apply (run_confined (splitArguments ⟨"t.json"⟩) ⟨"/"⟩ emptyDump).2.2
    exact Prod.ext emitted rfl

end ActionReprint
