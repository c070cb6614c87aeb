import LoopLang.Cursor

/-!
# A session with one cursor

The tokens of a text can be asked for one at a time, with or without the end of input, all at
once, or only counted; and a place in the text can be kept and returned to.  A `Session` answers
such requests in turn.
-/

namespace LoopLang

namespace Cursor

/-- A request to a session. -/
inductive Request where
  /-- The next token; at the end of the text, the end of input. -/
  | token
  /-- The next token; at the end of the text, nothing. -/
  | tokenBeforeEnd
  /-- All tokens from here on, the end of input included. -/
  | allTokens
  /-- The number of tokens before the end of input. -/
  | count
  /-- Keep the present place. -/
  | save
  /-- Return to the place kept last, or to the start of the session. -/
  | restore
deriving DecidableEq

/-- The answer to a request. -/
inductive Answer where
  | token (token : Token)
  | tokenBeforeEnd (token : Option Token)
  | allTokens (tokens : List Token)
  | count (count : Nat)
  | saved
  | restored
deriving DecidableEq

/-- The present place, and the place kept for `restore`. -/
structure Session where
  cursor : Cursor
  kept : Cursor
deriving DecidableEq

namespace Session

/-- A session that begins at a cursor. -/
def start (cursor : Cursor) : Session := ⟨cursor, cursor⟩

/-- The answer to one request, and the session after it.  The requests that ask for all tokens, or
for their number, leave the session at the end of the text. -/
def answer (session : Session) : Request → Answer × Session
  | .token =>
    match session.cursor.next with
    | (token, behind) => (.token token, { session with cursor := behind })
  | .tokenBeforeEnd =>
    match session.cursor.next with
    | (token, behind) =>
      (.tokenBeforeEnd (if token.lexeme = .endOfInput then none else some token),
        { session with cursor := behind })
  | .allTokens =>
    (.allTokens session.cursor.tokenize, { session with cursor := session.cursor.toEnd })
  | .count =>
    (.count session.cursor.tokens.length, { session with cursor := session.cursor.toEnd })
  | .save => (.saved, { session with kept := session.cursor })
  | .restore => (.restored, { session with cursor := session.kept })

/-- The answers to a list of requests, in turn. -/
def answers (session : Session) : List Request → List Answer
  | [] => []
  | request :: requests =>
    match session.answer request with
    | (answer, session) => answer :: session.answers requests

end Session

end Cursor

end LoopLang
