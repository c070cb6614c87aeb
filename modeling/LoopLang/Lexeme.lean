import LoopLang.Operator

/-!
# Lexemes

A `Lexeme` is one word of the language together with everything its text says: the kind and the
text are a single value, so two lexemes are equal exactly when both agree.  A character that
belongs to no word of the language is a lexeme of its own, `unknown`, and the end of the text is
the lexeme `endOfInput`, the only one with an empty text.

`Lexeme.read` says which lexeme a text begins with, always the longest one possible.
-/

namespace LoopLang

/-- The reserved words other than the connectives. -/
inductive Keyword where
  | intWord
  | ifWord
  | elifWord
  | elseWord
  | loopWord
  | beginWord
  | endWord
deriving DecidableEq

namespace Keyword

/-- Every keyword. -/
def all : List Keyword := [intWord, ifWord, elifWord, elseWord, loopWord, beginWord, endWord]

/-- The letters of a keyword. -/
def text : Keyword → String
  | intWord => "int"
  | ifWord => "if"
  | elifWord => "elif"
  | elseWord => "else"
  | loopWord => "loopc"
  | beginWord => "begin"
  | endWord => "end"

end Keyword

/-- The punctuation marks. -/
inductive Mark where
  | openParen
  | closeParen
  | semicolon
  | comma
  | colon
deriving DecidableEq

/-- The text of a punctuation mark. -/
def Mark.text : Mark → String
  | openParen => "("
  | closeParen => ")"
  | semicolon => ";"
  | comma => ","
  | colon => ":"

/-- A word of the language. -/
inductive Lexeme where
  /-- A run of letters that is not reserved. -/
  | ident (name : String)
  /-- A run of digits, kept as it is written. -/
  | number (digits : String)
  | keyword (word : Keyword)
  | arith (op : ArithOp)
  | assign (op : AssignOp)
  | relation (op : RelOp)
  | connective (op : BoolOp)
  | mark (mark : Mark)
  /-- A character outside the language. -/
  | unknown (found : Char)
  | endOfInput
deriving DecidableEq

namespace Lexeme

/-! ## Texts of a lexeme -/

/-- The text a lexeme is written with. -/
def text : Lexeme → String
  | ident name => name
  | number digits => digits
  | keyword word => word.text
  | arith op => op.symbol
  | assign op => op.symbol
  | relation op => op.symbol
  | connective op => op.symbol
  | mark m => m.text
  | unknown found => found.toString
  | endOfInput => ""

/-- What kind of lexeme this is, as messages call it: a lexeme that can be written in one way only
is quoted, every other kind has a name. -/
def kindText : Lexeme → String
  | ident _ => "identifier"
  | number _ => "number"
  | unknown _ => "unrecognized character"
  | endOfInput => "end of input"
  | lexeme => "'" ++ lexeme.text ++ "'"

/-- The lexeme as messages describe it: its kind, and its text where the kind leaves it open. -/
def describe : Lexeme → String
  | ident name => "identifier '" ++ name ++ "'"
  | number digits => "number " ++ digits
  | unknown found => "unrecognized character '" ++ found.toString ++ "'"
  | lexeme => lexeme.kindText

/-! ## Roles of a lexeme -/

/-- Whether the lexeme can only stand at the beginning of a statement. -/
def startsStatement : Lexeme → Bool
  | keyword .intWord | keyword .ifWord | keyword .loopWord => true
  | _ => false

/-- Whether the lexeme begins a block. -/
def opensBlock : Lexeme → Bool
  | keyword .ifWord | keyword .loopWord | keyword .elifWord | keyword .elseWord
  | keyword .beginWord => true
  | _ => false

/-- Whether the lexeme continues a chain of blocks that `if` began. -/
def continuesChain : Lexeme → Bool
  | keyword .elifWord | keyword .elseWord => true
  | _ => false

variable {lexeme : Lexeme}

theorem startsStatement_iff :
    lexeme.startsStatement = true ↔
      lexeme = keyword .intWord ∨ lexeme = keyword .ifWord ∨ lexeme = keyword .loopWord := by
  unfold startsStatement
  split <;> simp_all

theorem opensBlock_of_continuesChain (hcontinues : lexeme.continuesChain = true) :
    lexeme.opensBlock = true := by
  unfold continuesChain at hcontinues
  split at hcontinues <;> simp_all [opensBlock]

theorem continuesChain_eq_false_iff :
    lexeme.continuesChain = false ↔
      lexeme ≠ keyword .elifWord ∧ lexeme ≠ keyword .elseWord := by
  unfold continuesChain
  split <;> simp_all

/-! ## Reserved words -/

/-- Every lexeme that is written with letters and is not an identifier. -/
def reserved : List Lexeme := Keyword.all.map keyword ++ BoolOp.all.map connective

/-- The reserved word with a given text. -/
def reserved? (text : String) : Option Lexeme := reserved.find? (·.text == text)

/-- The lexeme of a run of letters. -/
def ofWord (word : String) : Lexeme := (reserved? word).getD (ident word)

/-! ## Reading a lexeme -/

/-- The lexeme of a character and an equals sign behind it, if the two make one. -/
def withEquals? : Char → Option Lexeme
  | '+' => some (assign (.compound .add))
  | '-' => some (assign (.compound .sub))
  | '*' => some (assign (.compound .mul))
  | '/' => some (assign (.compound .div))
  | '%' => some (assign (.compound .mod))
  | '^' => some (assign (.compound .pow))
  | '=' => some (relation .eq)
  | '!' => some (relation .ne)
  | '<' => some (relation .le)
  | '>' => some (relation .ge)
  | _ => none

/-- The lexeme of a character by itself, when it is neither a letter nor a digit. -/
def ofSign : Char → Lexeme
  | '+' => arith .add
  | '-' => arith .sub
  | '*' => arith .mul
  | '/' => arith .div
  | '%' => arith .mod
  | '^' => arith .pow
  | '=' => assign .plain
  | '<' => relation .lt
  | '>' => relation .gt
  | '(' => mark .openParen
  | ')' => mark .closeParen
  | ';' => mark .semicolon
  | ',' => mark .comma
  | ':' => mark .colon
  | c => unknown c

/-- The lexeme that begins with a sign, and the text behind it: an equals sign right behind the
sign belongs to the lexeme where the two make one. -/
def readSign (c : Char) (rest : List Char) : Lexeme × List Char :=
  match withEquals? c, rest with
  | some lexeme, '=' :: behind => (lexeme, behind)
  | _, _ => (ofSign c, rest)

/-- The lexeme a text begins with, and the text behind it.  Runs of letters and runs of digits are
read to their end. -/
def read : List Char → Lexeme × List Char
  | [] => (endOfInput, [])
  | c :: rest =>
    if c.isAlpha then
      (ofWord (String.ofList (c :: rest.takeWhile Char.isAlpha)), rest.dropWhile Char.isAlpha)
    else if c.isDigit then
      (number (String.ofList (c :: rest.takeWhile Char.isDigit)), rest.dropWhile Char.isDigit)
    else readSign c rest

@[simp] theorem read_nil : read [] = (endOfInput, []) := rfl

/-! ## Reading loses nothing -/

/-- A run of letters is the text of its lexeme, whether it is reserved or not. -/
theorem text_ofWord (word : String) : (ofWord word).text = word := by
  unfold ofWord reserved?
  cases hfound : reserved.find? (·.text == word) with
  | none => rfl
  | some lexeme => simpa using List.find?_some hfound

theorem text_of_withEquals {c : Char} {lexeme : Lexeme} (hlexeme : withEquals? c = some lexeme) :
    lexeme.text.toList = [c, '='] := by
  unfold withEquals? at hlexeme
  split at hlexeme <;> simp only [Option.some.injEq, reduceCtorEq] at hlexeme
  all_goals
    subst hlexeme
    decide

theorem text_ofSign (c : Char) : (ofSign c).text.toList = [c] := by
  unfold ofSign
  split
  all_goals simp [text, ArithOp.symbol, AssignOp.symbol, RelOp.symbol, Mark.text]

theorem text_readSign (c : Char) (rest : List Char) :
    (readSign c rest).1.text.toList ++ (readSign c rest).2 = c :: rest := by
  unfold readSign
  split
  · rename_i lexeme behind hlexeme
    simp [text_of_withEquals hlexeme]
  · simp [text_ofSign]

/-- The text of the lexeme, and the text behind it, make up the text that was read. -/
theorem text_read (cs : List Char) : (read cs).1.text.toList ++ (read cs).2 = cs := by
  cases cs with
  | nil => rfl
  | cons c rest =>
    unfold read
    dsimp only
    split
    · simp [text_ofWord]
    · split
      · simp [text]
      · exact text_readSign c rest

end Lexeme

end LoopLang
