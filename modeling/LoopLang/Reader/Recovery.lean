import LoopLang.Reader.Basic

/-!
# Going on after an error

After an error the reader passes over tokens until it stands at a boundary where reading can go
on.  There are three kinds of boundaries, and for each a count of the tokens to pass over, which
depends on nothing but the lexemes of the tokens in front of the reader.
-/

namespace LoopLang

namespace Boundary

/-- How many tokens stand before the next boundary of statements: behind a semicolon or an `end`,
or in front of a word that starts a statement. -/
def statementSkip : List Token → Nat
  | [] => 0
  | ⟨lexeme, _, _⟩ :: behind =>
    if lexeme.startsStatement then 0
    else if lexeme = .mark .semicolon ∨ lexeme = .keyword .endWord then 1
    else statementSkip behind + 1

/-- How many tokens stand before the next boundary inside a body: behind a semicolon, or in front
of the `end` of the body. -/
def insideBlockSkip : List Token → Nat
  | [] => 0
  | ⟨lexeme, _, _⟩ :: behind =>
    if lexeme = .keyword .endWord then 0
    else if lexeme = .mark .semicolon then 1
    else insideBlockSkip behind + 1

/-- How many tokens stand before the place behind the `end` of a block, where `opened` times
`begin` was passed and not matched by an `end` yet.  The first `begin` is the one of the block
itself; an `end` before any `begin` ends the block as well. -/
def blockSkip (opened : Nat) : List Token → Nat
  | [] => 0
  | ⟨lexeme, _, _⟩ :: behind =>
    if lexeme = .keyword .beginWord then blockSkip (opened + 1) behind + 1
    else if lexeme = .keyword .endWord then
      if opened ≤ 1 then 1 else blockSkip (opened - 1) behind + 1
    else blockSkip opened behind + 1

/-- How many tokens stand before the next boundary of a kind. -/
def skip : Boundary → List Token → Nat
  | statement => statementSkip
  | insideBlock => insideBlockSkip
  | block => blockSkip 0

/-- The kind of boundary, as traces call it. -/
def text : Boundary → String
  | statement => "recovered at statement boundary"
  | insideBlock => "recovered inside block"
  | block => "recovered at block boundary"

end Boundary

namespace Reader

/-- The reader at the next boundary of a kind. -/
def recover (boundary : Boundary) (reader : Reader) : Reader :=
  let skipped := boundary.skip reader.ahead
  (reader.advanceBy skipped).record (.recovered boundary skipped)

/-- The reader behind each `elif` and `else` block that follows, at most `budget` of them. -/
def skipFollowers : List Token → Reader → Reader
  | [], reader => reader
  | _ :: budget, reader =>
    if reader.current.lexeme.continuesChain then skipFollowers budget (reader.recover .block)
    else reader

/-- The reader behind a block that may not stand where it is, and behind each `elif` and `else`
block that follows it. -/
def skipChain (reader : Reader) : Reader :=
  let reader := reader.recover .block
  skipFollowers reader.ahead reader

end Reader

end LoopLang
