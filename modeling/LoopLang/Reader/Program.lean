import LoopLang.Reader.Block

/-!
# Reading programs

    program ::= (declaration | assignment | conditional | loop)*

A program is read to the end of the text.  Each statement is read by itself: one with an error is
skipped and leaves nothing in the program, and the statements around it are kept.
-/

namespace LoopLang

namespace Rule

/-- A declaration or an assignment. -/
def simpleStatement : Rule Statement := do
  match ← lexeme with
  | .keyword .intWord => return .declaration (← declaration)
  | .ident target => return .assignment (← assignment target)
  | _ => fail .statement

/-- A statement.  When it fails, the reader is at a boundary of statements or of blocks. -/
def statement : Rule Statement := do
  match ← lexeme with
  | .keyword .ifWord => return .conditional (← conditional)
  | .keyword .loopWord => return .loop (← loop)
  | lexeme =>
    if lexeme.opensBlock then (fail .statement).recoveringBy Reader.skipChain
    else simpleStatement.recoveringBy (Reader.recover .statement)

/-- A statement, noted as kept. -/
def keptStatement : Rule Statement := do
  let statement ← statement
  note (.kept statement)
  return statement

/-- All statements up to the end of the text, without those that fail.  The guard that pushes the
reader on by a token after a round that passed none (`Rule.pushing`) is left out.  It never acts,
since in a source each round starts at a later byte than the one before it: with it the loop leads
to the same result (`Reader.ReadsFrom.runs_pushing` in `LoopLang.Proofs.Outcome.Progress`). -/
def program : Rule Program := do
  let outcomes ← attemptWhile (· ≠ .endOfInput) keptStatement
  return { statements := outcomes.filterMap id }

end Rule

/-- Reads a program.  There always is one, however much of the text is wrong. -/
def Reader.program (reader : Reader) : Program × Reader :=
  match Rule.program reader with
  | (program, reader) => (program.getD ⟨[]⟩, reader)

end LoopLang
