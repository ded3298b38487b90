import ActionReprint.Arena
import ActionReprint.Diagnostic
import ActionReprint.Json.Shape
import ActionReprint.Language

/-!
The JSON forms of tokens, token dumps, diagnostics and languages. Each has a reader
and, where this library hands the value out again, a writer.
-/

namespace ActionReprint

structure TokenDump where
  arena : TokenArena
  sequence : List TokenId
  deriving DecidableEq, Repr

namespace Json

def tokenKind? (value : Value) : Option TokenKind :=
  (choice? value).bind TokenKind.ofIdentifier?

def tokenFields : List String :=
  ["kind", "image", "beginLine", "beginColumn", "endLine", "endColumn", "specialToken", "next"]

/-- The kind and the links may be missing. -/
def token? (value : Value) : Option Token := do
  match ← fields? tokenFields value with
  | [kind, image, beginLine, beginColumn, endLine, endColumn, special, next] =>
      some {
        kind := ← optional? .other tokenKind? kind
        image := ← required? text? image
        origin := ⟨← required? word? beginLine, ← required? word? beginColumn⟩
        final := ⟨← required? word? endLine, ← required? word? endColumn⟩
        special := ← optional? none (nullable? natural?) special
        next := ← optional? none (nullable? natural?) next }
  | _ => none

def ofToken (token : Token) : Value :=
  record [
    ("kind", ofText token.kind.identifier),
    ("image", ofText token.image),
    ("beginLine", ofNat token.origin.line.toNat),
    ("beginColumn", ofNat token.origin.column.toNat),
    ("endLine", ofNat token.final.line.toNat),
    ("endColumn", ofNat token.final.column.toNat),
    ("specialToken", ofOption ofNat token.special),
    ("next", ofOption ofNat token.next)]

def arena? (value : Value) : Option TokenArena :=
  (list? token? value).map fun tokens => ⟨tokens.toArray⟩

def ofArena (arena : TokenArena) : Value :=
  .array (arena.tokens.toList.map ofToken)

def dump? (value : Value) : Option TokenDump := do
  match ← fields? ["tokens", "sequence"] value with
  | [tokens, sequence] =>
      some ⟨← required? arena? tokens, ← optional? [] (list? natural?) sequence⟩
  | _ => none

def ofDump (dump : TokenDump) : Value :=
  record [("tokens", ofArena dump.arena), ("sequence", .array (dump.sequence.map ofNat))]

def severity? (value : Value) : Option Severity :=
  (choice? value).bind Severity.ofIdentifier?

def diagnostic? (value : Value) : Option Diagnostic := do
  match ← fields? ["file_name", "message", "severity"] value with
  | [file, message, severity] =>
      some ⟨← optional? "" text? file, ← required? text? message,
        ← required? severity? severity⟩
  | _ => none

def ofDiagnostic (diagnostic : Diagnostic) : Value :=
  record ((if diagnostic.file.isEmpty then [] else [("file_name", ofText diagnostic.file)]) ++
    [("message", ofText diagnostic.message),
      ("severity", ofText diagnostic.severity.identifier)])

def language? (value : Value) : Option TargetLanguage :=
  (choice? value).bind TargetLanguage.ofIdentifier?

def ofLanguage (language : TargetLanguage) : Value :=
  ofText language.identifier

end Json

namespace TokenDump

def parse? (text : String) : Option TokenDump :=
  (Json.parse? text).bind Json.dump?

def attached (arena : TokenArena) : List TokenId :=
  arena.ids.flatMap arena.specialChain

/-- The sequence that the dump asks for; if it asks for none, every token that is not
attached to another, in the order of the arena. -/
def effectiveSequence (dump : TokenDump) : List TokenId :=
  if dump.sequence.isEmpty then
    let passed := attached dump.arena
    dump.arena.ids.filter fun id => !passed.contains id
  else dump.sequence

end TokenDump

end ActionReprint
