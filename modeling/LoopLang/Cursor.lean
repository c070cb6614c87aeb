import LoopLang.Token

/-!
# Splitting a text into tokens

A `Cursor` stands in a source text: it holds the characters in front of it, and how many bytes,
lines and columns lie behind it.  `Cursor.next` reads one token.  The tokens of the whole text are
`Cursor.tokens`, up to the end of the text, with `Cursor.endToken` behind them.
-/

namespace LoopLang

/-- Whether a character is white space, which only separates lexemes. -/
def isBlank (c : Char) : Bool :=
  c == ' ' || c == '\t' || c == '\n' || c == '\r' || c == '\x0b' || c == '\x0c'

/-- A place in a source text, with the text that is still to be read. -/
structure Cursor where
  rest : List Char
  offset : Nat
  location : Location
deriving DecidableEq

namespace Cursor

/-- The cursor before the first character of a source text. -/
def start (source : String) : Cursor := ⟨source.toList, 0, .first⟩

/-- The cursor behind the characters `passed`, with `rest` still to be read. -/
def past (cursor : Cursor) (passed rest : List Char) : Cursor :=
  ⟨rest, cursor.offset + utf8Length passed, cursor.location.afterAll passed⟩

/-- The cursor behind all white space that stands right in front of it. -/
def pastBlanks (cursor : Cursor) : Cursor :=
  cursor.past (cursor.rest.takeWhile isBlank) (cursor.rest.dropWhile isBlank)

/-- The next token, and the cursor behind it.  White space in front of the token is skipped; when
nothing else is left, the token is the end of input, however often it is asked for. -/
def next (cursor : Cursor) : Token × Cursor :=
  let before := cursor.pastBlanks
  let (lexeme, rest) := Lexeme.read before.rest
  (⟨lexeme, before.offset, before.location⟩, before.past lexeme.text.toList rest)

/-! ## All tokens -/

/-- At most as many tokens as `budget` is long.  Each token takes a character or more, so the
characters in front of the cursor are budget enough. -/
def tokensWithin : List Char → Cursor → List Token
  | [], _ => []
  | _ :: budget, cursor =>
    match cursor.next with
    | (token, behind) =>
      if token.lexeme = .endOfInput then [] else token :: tokensWithin budget behind

/-- The tokens in front of the cursor, up to the end of the text. -/
def tokens (cursor : Cursor) : List Token := tokensWithin cursor.rest cursor

/-- The cursor behind everything that is still to be read. -/
def toEnd (cursor : Cursor) : Cursor := cursor.past cursor.rest []

/-- The end of input, as a token behind all text. -/
def endToken (cursor : Cursor) : Token :=
  ⟨.endOfInput, cursor.toEnd.offset, cursor.toEnd.location⟩

/-- The tokens in front of the cursor, the end of input included. -/
def tokenize (cursor : Cursor) : List Token := cursor.tokens ++ [cursor.endToken]

end Cursor

end LoopLang
