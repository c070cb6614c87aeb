import LoopLang.Lexeme
import LoopLang.Location

/-!
# Tokens

A `Token` is a lexeme at its place in a source text.  Its place is given twice, as the byte its
text starts at and as a line and a column; where its text ends follows from the lexeme.
-/

namespace LoopLang

/-- A lexeme and where its text starts. -/
structure Token where
  lexeme : Lexeme
  /-- How many bytes of the source stand before the text. -/
  offset : Nat
  location : Location
deriving DecidableEq

namespace Token

/-- The bytes of the source that hold the token's text. -/
def span (token : Token) : Span :=
  ⟨token.offset, token.offset + utf8Length token.lexeme.text.toList⟩

end Token

end LoopLang
