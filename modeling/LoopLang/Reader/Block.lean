import LoopLang.Reader.Recovery
import LoopLang.Reader.Simple

/-!
# Reading blocks

    conditional ::= "if" guarded ("elif" guarded)* ("else" ":" body)?
    loop        ::= "loopc" guarded
    guarded     ::= conditions ":" body
    body        ::= "begin" assignment* "end"

A block is read to its `end` whatever is wrong inside it: an error in its header skips it whole,
and an error in its body skips to the next assignment.  A block with an error fails, but only when
it has been read; and a conditional fails, when all its blocks have been read, if one of them did.
-/

namespace LoopLang

namespace Rule

/-! ## Bodies -/

/-- An assignment of a body.  Anything else is skipped: a block whole, with the chain that follows
it, and other tokens up to the next boundary inside the body. -/
def bodyItem : Rule Assignment := do
  match ← lexeme with
  | .ident target => (assignment target).recoveringBy (Reader.recover .insideBlock)
  | lexeme =>
    if lexeme.opensBlock then (fail .assignmentOrEnd).recoveringBy Reader.skipChain
    else (fail .assignmentOrEnd).recoveringBy (Reader.recover .insideBlock)

/-- The assignments of a body, and the `end` behind them. -/
def body : Rule (List Assignment) := do
  let items ← attemptWhile
    (fun lexeme => lexeme ≠ .keyword .endWord ∧ lexeme ≠ .endOfInput) bodyItem
  let _ ← expect (.keyword .endWord) .endWord
  ofOption (items.mapM id)

/-! ## Single blocks -/

/-- What stands between the header of a block and its body. -/
def blockStart : Rule Unit := do
  let _ ← expect (.mark .colon) .colon
  let _ ← expect (.keyword .beginWord) .beginWord
  return ()

/-- The conditions of a block, and what stands between them and its body. -/
def guard : Rule Conditions := do
  let conditions ← conditions
  blockStart
  return conditions

/-- A block with conditions; the current token is the word that begins it. -/
def guarded (construct : Construct) : Rule Guarded := do
  let word ← advance
  inside ⟨construct, word.location⟩ do
    let conditions ← guard.recoveringBy (Reader.recover .block)
    let body ← body
    return { conditions, body, location := word.location }

/-- An `else` block; the current token is `else`. -/
def otherwise : Rule Otherwise := do
  let word ← advance
  inside ⟨.elseBlock, word.location⟩ do
    blockStart.recoveringBy (Reader.recover .block)
    let body ← body
    return { body, location := word.location }

/-! ## Chains of blocks -/

/-- The `else` block, if there is one, or what became of the attempt to read it. -/
def otherwise? : Rule (Option (Option Otherwise)) := do
  if (← lexeme) = .keyword .elseWord then
    return some (← attempt otherwise)
  else
    return none

/-- A conditional; the current token is `if`.  All its blocks are read before it fails. -/
def conditional : Rule Conditional := do
  let head ← attempt (guarded .ifBlock)
  let elifs ← attemptWhile (· = .keyword .elifWord) (guarded .elifBlock)
  let otherwise ← otherwise?
  let head ← ofOption head
  let elifs ← ofOption (elifs.mapM id)
  let otherwise ← ofOption (otherwise.mapM id)
  return { head, elifs, otherwise }

/-- A loop; the current token is `loopc`. -/
def loop : Rule Guarded := guarded .loopBlock

end Rule

end LoopLang
