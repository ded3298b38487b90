import ActionReprint.Language
import ActionReprint.Path

/-!
Reading the command line. Arguments are taken from left to right; an argument that
has a value is settled only when the next one comes, so of two mistakes the one that
is seen first need not be the one that stands first. After two dashes everything is
positional.
-/

namespace ActionReprint

/-- Why a command line is not taken. Asking for help or for the version is one of the
reasons: nothing else is done then. -/
inductive UsageError where
  | missingRequired
  | unknownArgument
  | invalidValue
  | conflict
  /-- A value is joined to a switch. -/
  | tooManyValues
  | helpRequested
  | versionRequested
  deriving DecidableEq, Repr

structure Arguments where
  tokens : Path
  output : Path
  config : Option Path
  language : Option TargetLanguage
  className : Option String
  outDir : Option Path
  warnUnsupported : Bool
  pretty : Bool
  deriving DecidableEq, Repr

namespace CommandLine

/-- An argument that takes a value. The first two are known by their position. -/
inductive Slot where
  | tokens
  | output
  | config
  | language
  | className
  | outDir
  deriving DecidableEq, Repr

inductive Switch where
  | warnUnsupported
  | pretty
  | help
  | version
  deriving DecidableEq, Repr

inductive Named where
  | option (slot : Slot)
  | switch (switch : Switch)
  deriving DecidableEq, Repr

def longNames : List (String × Named) :=
  [("config", .option .config), ("language", .option .language),
   ("class", .option .className), ("out-dir", .option .outDir),
   ("warn-unsupported", .switch .warnUnsupported), ("pretty", .switch .pretty),
   ("help", .switch .help), ("version", .switch .version)]

def shortNames : List (Char × Named) :=
  [('c', .option .config), ('l', .option .language), ('o', .option .outDir),
   ('h', .switch .help), ('V', .switch .version)]

structure Draft where
  tokens : Option Path
  output : Option Path
  config : Option Path
  language : Option TargetLanguage
  className : Option String
  outDir : Option Path
  warnUnsupported : Bool
  pretty : Bool
  deriving DecidableEq, Repr

def Draft.empty : Draft := ⟨none, none, none, none, none, none, false, false⟩

def pathValue (text : String) : Except UsageError Path :=
  if text.isEmpty then .error .invalidValue else .ok ⟨text⟩

def languageValue (text : String) : Except UsageError TargetLanguage :=
  match TargetLanguage.ofIdentifier? (text.map Char.toLower) with
  | some language => .ok language
  | none => .error .invalidValue

def fill {α : Type} (field : Option α) (value : Except UsageError α) :
    Except UsageError (Option α) :=
  if field.isSome then .error .conflict else value.map some

def Draft.store (draft : Draft) (slot : Slot) (text : String) : Except UsageError Draft :=
  match slot with
  | .tokens => (fill draft.tokens (pathValue text)).map fun tokens => { draft with tokens }
  | .output => (fill draft.output (pathValue text)).map fun output => { draft with output }
  | .config => (fill draft.config (pathValue text)).map fun config => { draft with config }
  | .language =>
      (fill draft.language (languageValue text)).map fun language => { draft with language }
  | .className => (fill draft.className (.ok text)).map fun className => { draft with className }
  | .outDir => (fill draft.outDir (pathValue text)).map fun outDir => { draft with outDir }

def Draft.turnOn (draft : Draft) : Switch → Except UsageError Draft
  | .warnUnsupported =>
      if draft.warnUnsupported then .error .conflict
      else .ok { draft with warnUnsupported := true }
  | .pretty => if draft.pretty then .error .conflict else .ok { draft with pretty := true }
  | .help => .error .helpRequested
  | .version => .error .versionRequested

structure State where
  draft : Draft
  waiting : Option (Slot × Option String)
  positionals : Nat
  /-- Two dashes were seen. -/
  trailing : Bool
  deriving DecidableEq, Repr

namespace State

def start : State := ⟨.empty, none, 0, false⟩

def settle (state : State) : Except UsageError State :=
  match state.waiting with
  | none => .ok state
  | some (_, none) => .error .invalidValue
  | some (slot, some text) =>
      (state.draft.store slot text).map fun draft => { state with draft, waiting := none }

def positional (state : State) (text : String) : Except UsageError State := do
  let slot ← match state.positionals with
    | 0 => .ok .tokens
    | 1 => .ok .output
    | _ => .error .unknownArgument
  let settled ← state.settle
  .ok { settled with waiting := some (slot, some text), positionals := state.positionals + 1 }

def option (state : State) (slot : Slot) (joined : Option String) : Except UsageError State := do
  let settled ← state.settle
  let next : State := { settled with waiting := some (slot, joined) }
  if joined.isSome then next.settle else .ok next

def turnOn (state : State) (switch : Switch) : Except UsageError State := do
  let settled ← state.settle
  let draft ← settled.draft.turnOn switch
  .ok { settled with draft }

def long (state : State) (text : List Char) : Except UsageError State :=
  let name := String.ofList (text.takeWhile (· != '='))
  let joined := match text.dropWhile (· != '=') with
    | _ :: value => some (String.ofList value)
    | [] => none
  match longNames.lookup name with
  | none => .error .unknownArgument
  | some (.option slot) => state.option slot joined
  | some (.switch switch) =>
      if joined.isSome then .error .tooManyValues else state.turnOn switch

/-- An argument of one dash and a letter. What follows the letter of an option is its
value, but for an equals sign in front. -/
def short (state : State) (letter : Char) (text : List Char) : Except UsageError State :=
  match shortNames.lookup letter with
  | none => .error .unknownArgument
  | some (.switch switch) => state.turnOn switch
  | some (.option slot) =>
      state.option slot (match text with
        | [] => none
        | '=' :: value => some (String.ofList value)
        | value => some (String.ofList value))

def plain (state : State) (text : String) : Except UsageError State :=
  match state.waiting with
  | some (slot, none) => .ok { state with waiting := some (slot, some text) }
  | _ => state.positional text

def step (state : State) (argument : String) : Except UsageError State :=
  if state.trailing then state.positional argument
  else match argument.toList with
    | ['-', '-'] => .ok { state with trailing := true }
    | '-' :: '-' :: text => state.long text
    | '-' :: letter :: text => state.short letter text
    | _ => state.plain argument

def finish (state : State) : Except UsageError Arguments := do
  let settled ← state.settle
  match settled.draft.tokens, settled.draft.output with
  | some tokens, some output =>
      .ok ⟨tokens, output, settled.draft.config, settled.draft.language,
        settled.draft.className, settled.draft.outDir, settled.draft.warnUnsupported,
        settled.draft.pretty⟩
  | _, _ => .error .missingRequired

end State

def parse (arguments : List String) : Except UsageError Arguments :=
  arguments.foldlM State.step State.start >>= State.finish

end CommandLine

end ActionReprint
