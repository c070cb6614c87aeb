import LoopLang.Cursor
import LoopLang.Diagnostic
import LoopLang.Tree

/-!
# The reader of a program

A `Reader` stands in a list of tokens and reads a program from it.  It knows the tokens in front
of it, the constructs it is inside of, and whether the token right in front of it has a diagnostic
already; and it keeps a log of everything it does.

The token right in front of the reader is its `current` token.  The end of input is never passed:
a reader at the end stays there.
-/

namespace LoopLang

/-! ## Constructs -/

/-- A part of a program that has a beginning and an end of its own. -/
inductive Construct where
  | declaration
  | assignment
  | parenthesized
  | ifBlock
  | elifBlock
  | elseBlock
  | loopBlock
deriving DecidableEq

/-- A construct as messages call it. -/
def Construct.text : Construct → String
  | declaration => "declaration"
  | assignment => "assignment"
  | parenthesized => "parenthesized expression"
  | ifBlock => "'if' block"
  | elifBlock => "'elif' block"
  | elseBlock => "'else' block"
  | loopBlock => "'loopc' block"

/-- A construct that has begun, and where. -/
structure Opening where
  construct : Construct
  location : Location
deriving DecidableEq

/-! ## What a reader wants -/

/-- Something a reader wants to find at the current token. -/
inductive Wanted where
  | statement
  | variableName
  | assignmentOperator
  | expression
  | comparisonOperator
  | semicolonAfterDeclaration
  | semicolonAfterAssignment
  | closeParen
  | colon
  | beginWord
  | endWord
  | assignmentOrEnd
deriving DecidableEq

/-- What is wanted, as messages call it. -/
def Wanted.text : Wanted → String
  | statement => "a statement"
  | variableName => "a variable name"
  | assignmentOperator => "an assignment operator"
  | expression => "an expression"
  | comparisonOperator => "a comparison operator"
  | semicolonAfterDeclaration => "';' after declaration"
  | semicolonAfterAssignment => "';' after assignment"
  | closeParen => "')'"
  | colon => "':'"
  | beginWord => "'begin'"
  | endWord => "'end'"
  | assignmentOrEnd => "an assignment or 'end'"

/-! ## Events -/

/-- A place where reading goes on after an error. -/
inductive Boundary where
  /-- Behind a statement, or before the next one. -/
  | statement
  /-- Behind a statement of a body, or before the end of the body. -/
  | insideBlock
  /-- Behind the end of a block. -/
  | block
deriving DecidableEq

/-- Something a reader did. -/
inductive Event where
  /-- It passed a token, and this one became current. -/
  | reached (token : Token)
  | reported (diagnostic : Diagnostic)
  /-- It passed over tokens to find a boundary. -/
  | recovered (boundary : Boundary) (skipped : Nat)
  /-- It read a statement without an error, and kept it. -/
  | kept (statement : Statement)
  | entered (opening : Opening)
  | left (opening : Opening)
  /-- It counted one level of parentheses more. -/
  | descended
  /-- It counted one level of parentheses less. -/
  | ascended
deriving DecidableEq

/-- The diagnostic an event reports, if it does. -/
def Event.diagnostic? : Event → Option Diagnostic
  | reported diagnostic => some diagnostic
  | _ => none

/-! ## Readers -/

/-- A place in a list of tokens, and what led there. -/
structure Reader where
  /-- The tokens in front of the reader, up to the end of input. -/
  ahead : List Token
  /-- The end of input. -/
  endToken : Token
  /-- Whether a diagnostic already points at the current token. -/
  reported : Bool
  /-- The constructs the reader is inside of, innermost first. -/
  enclosing : List Opening
  /-- How many levels of parentheses the reader counts around it. -/
  depth : Nat
  /-- How deep parentheses may nest. -/
  limit : Nat
  /-- What the reader did, latest first. -/
  log : List Event
deriving DecidableEq

namespace Reader

/-- A reader before the first token of a source text. -/
def start (source : String) (limit : Nat) : Reader where
  ahead := (Cursor.start source).tokens
  endToken := (Cursor.start source).endToken
  reported := false
  enclosing := []
  depth := 0
  limit := limit
  log := []

/-- The token right in front of the reader. -/
def current (reader : Reader) : Token := reader.ahead.headD reader.endToken

/-- Everything the reader did, in order. -/
def events (reader : Reader) : List Event := reader.log.reverse

/-- The diagnostics the reader reported, in order. -/
def diagnostics (reader : Reader) : List Diagnostic := reader.events.filterMap Event.diagnostic?

/-- The reader with one more event in its log. -/
def record (reader : Reader) (event : Event) : Reader := { reader with log := event :: reader.log }

/-- The reader with a problem reported at a token. -/
def report (reader : Reader) (token : Token) (cause : Cause) : Reader :=
  reader.record (.reported ⟨cause, token.location, token.span⟩)

/-! ## Passing a token -/

/-- The reader with a diagnostic for its current token, if that is a character outside the
language that has none yet. -/
def reportStray (reader : Reader) : Reader :=
  match reader.current.lexeme, reader.reported with
  | .unknown found, false => reader.report reader.current (.strayCharacter found)
  | _, _ => reader

/-- The reader behind its current token.  A character outside the language is never passed
without a diagnostic. -/
def advance (reader : Reader) : Reader :=
  match reader.ahead with
  | [] => reader
  | _ :: behind =>
    let reader := reader.reportStray
    { reader with
      ahead := behind
      reported := false
      log := .reached (behind.headD reader.endToken) :: reader.log }

/-- The reader behind as many tokens as asked for. -/
def advanceBy (reader : Reader) : Nat → Reader
  | 0 => reader
  | count + 1 => reader.advance.advanceBy count

/-! ## Complaints -/

/-- What is wrong with the current token when something else is wanted.  A character outside the
language is a problem of its own, and at the end of input the innermost open construct is to
blame. -/
def complaint (reader : Reader) (wanted : Wanted) : Cause :=
  match reader.current.lexeme, reader.enclosing with
  | .unknown found, _ => .strayCharacter found
  | .endOfInput, opening :: _ =>
    .unterminated opening.construct.text opening.location wanted.text
  | lexeme, _ => .unexpected wanted.text lexeme.describe

/-- The reader after it wanted something that is not there.  Of several complaints about one
token only the first is reported. -/
def complain (reader : Reader) (wanted : Wanted) : Reader :=
  if reader.reported then reader
  else { reader.report reader.current (reader.complaint wanted) with reported := true }

/-! ## Constructs -/

/-- The reader inside one more construct. -/
def enter (reader : Reader) (opening : Opening) : Reader :=
  { reader.record (.entered opening) with enclosing := opening :: reader.enclosing }

/-- The reader outside the innermost construct. -/
def leave (reader : Reader) : Reader :=
  match reader.enclosing with
  | [] => reader
  | opening :: enclosing => { reader.record (.left opening) with enclosing := enclosing }

/-! ## Levels of parentheses -/

/-- The reader with the levels of parentheses counted that a construct adds. -/
def descendInto (reader : Reader) : Construct → Reader
  | .parenthesized => { reader.record .descended with depth := reader.depth + 1 }
  | _ => reader

/-- The reader without the levels of parentheses that a construct added. -/
def ascendFrom (reader : Reader) : Construct → Reader
  | .parenthesized => { reader.record .ascended with depth := reader.depth - 1 }
  | _ => reader

end Reader

end LoopLang
