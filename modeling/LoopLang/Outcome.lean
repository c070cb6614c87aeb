import LoopLang.Reader.Program

/-!
# Parsing a source text

`parse` reads a whole text and gives an `Outcome`: the program, without the statements that are
wrong, and every diagnostic.  `trace` is the same reading told step by step.
-/

namespace LoopLang

/-- How deep parentheses may nest where nothing else is said. -/
def defaultLimit : Nat := 256

/-! ## Outcomes -/

/-- What became of a source text: as much of a program as it holds, and everything that is wrong
with it. -/
structure Outcome where
  program : Program
  diagnostics : List Diagnostic
deriving DecidableEq

namespace Outcome

/-- Whether anything is wrong with the source text. -/
def hasErrors (outcome : Outcome) : Bool := !outcome.diagnostics.isEmpty

/-- The program, if nothing is wrong with the source text, and otherwise all diagnostics together
with the text. -/
def toExcept (outcome : Outcome) (source : String) : Except Failure Program :=
  if outcome.hasErrors then .error ⟨source, outcome.diagnostics⟩ else .ok outcome.program

end Outcome

/-- Parses a source text in which parentheses nest no deeper than `limit`. -/
def parse (source : String) (limit : Nat) : Outcome :=
  match (Reader.start source limit).program with
  | (program, reader) => ⟨program, reader.diagnostics⟩

/-! ## Traces -/

/-- A step of a parse that an observer is told about. -/
inductive TraceEntry where
  /-- A text of so many bytes is parsed. -/
  | started (bytes : Nat)
  /-- A token has become current. -/
  | token (token : Token)
  | diagnostic (diagnostic : Diagnostic)
  | recovered (boundary : Boundary) (skipped : Nat)
  | finished (statements diagnostics : Nat)
deriving DecidableEq

namespace TraceEntry

/-- How an observer is told about an event, if at all. -/
def ofEvent? : Event → Option TraceEntry
  | .reached t => some (token t)
  | .reported d => some (diagnostic d)
  | .recovered boundary skipped => some (recovered boundary skipped)
  | .kept _ | .entered _ | .left _ | .descended | .ascended => none

/-- What kind of step an entry tells of. -/
def text : TraceEntry → String
  | started _ => "span parse"
  | token _ => "token"
  | diagnostic _ => "diagnostic"
  | recovered boundary _ => boundary.text
  | finished _ _ => "parse finished"

/-- Whether an entry is of interest only to someone who follows each token. -/
def isFine : TraceEntry → Bool
  | token _ => true
  | _ => false

end TraceEntry

/-- The parse of a source text, step by step. -/
def trace (source : String) (limit : Nat) : List TraceEntry :=
  match (Reader.start source limit).program with
  | (program, reader) =>
    .started source.utf8ByteSize :: reader.events.filterMap TraceEntry.ofEvent? ++
      [.finished program.statements.length reader.diagnostics.length]

end LoopLang
