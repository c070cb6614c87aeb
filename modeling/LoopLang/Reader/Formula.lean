import LoopLang.Reader.Rule

/-!
# Reading expressions and conditions

An expression is read in three layers, one for each level of precedence, and conditions in one.
Each layer reads operands with operators of its level between them, and folds them to the left:

    expression     ::= term (("+" | "-") term)*
    term           ::= factor (("*" | "/" | "%") factor)*
    factor         ::= operand ("^" operand)*
    operand        ::= name | number | "(" expression ")"
    conditions     ::= comparison (("and" | "or") comparison)*
    comparison     ::= expression relation expression

Parentheses may nest as deep as the reader's limit says.  `Rule.expressionWithin` counts down how
much room is left for them, so it recurses on that number.
-/

namespace LoopLang

namespace Lexeme

/-- The arithmetic operator of a given level that a lexeme is, if it is one. -/
def arithAt? (level : Precedence) : Lexeme → Option ArithOp
  | arith op => if op.precedence = level then some op else none
  | _ => none

/-- The connective that a lexeme is, if it is one. -/
def connective? : Lexeme → Option BoolOp
  | connective op => some op
  | _ => none

end Lexeme

namespace Rule

/-! ## Expressions -/

/-- One layer of an expression: operands with operators of one level between them. -/
def layer (level : Precedence) (operand : Rule Expr) : Rule Expr := do
  let first ← operand
  repeatWhile (Lexeme.arithAt? level) (fun op left => do
    let sign ← advance
    let right ← operand
    return .binary op left right sign.location) first

/-- A name, a number, or what `nested` reads behind an opening parenthesis. -/
def operand (nested : Token → Rule Expr) : Rule Expr := do
  match ← current with
  | ⟨.ident name, _, location⟩ =>
    let _ ← advance
    return .ident name location
  | ⟨.number digits, _, location⟩ =>
    let _ ← advance
    return .number digits location
  | ⟨.mark .openParen, _, _⟩ =>
    let opening ← advance
    nested opening
  | _ => fail .expression

/-- An expression whose parentheses are read by `nested`. -/
def layers (nested : Token → Rule Expr) : Rule Expr :=
  layer .additive (layer .multiplicative (layer .power (operand nested)))

/-- What stands behind an opening parenthesis, up to the closing one. -/
def parenthesized (expression : Rule Expr) (opening : Token) : Rule Expr :=
  inside ⟨.parenthesized, opening.location⟩ do
    let inner ← expression
    let _ ← expect (.mark .closeParen) .closeParen
    return inner

/-- Fails behind a parenthesis that opens one level too many. -/
def tooDeep (opening : Token) : Rule Expr := fun reader =>
  (none, reader.report opening (.tooDeep reader.limit))

/-- An expression with room for so many levels of parentheses. -/
def expressionWithin : Nat → Rule Expr
  | 0 => fun reader => layers tooDeep reader
  | room + 1 => fun reader =>
    layers
      (fun opening => parenthesized (fun reader => expressionWithin room reader) opening) reader

/-- An expression, with room for what the limit leaves of the levels that are not open yet. -/
def expression : Rule Expr := fun reader =>
  expressionWithin (reader.limit - reader.depth) reader

/-! ## Conditions -/

/-- Passes a relation and yields it, or complains. -/
def relation : Rule RelOp := do
  match ← lexeme with
  | .relation op =>
    let _ ← advance
    return op
  | _ => fail .comparisonOperator

/-- Two expressions with a relation between them.  A comparison is located where its left side
is. -/
def comparison : Rule Comparison := do
  let left ← expression
  let op ← relation
  let right ← expression
  return { op, left, right, location := left.location }

/-- Comparisons with connectives between them. -/
def conditions : Rule Conditions := do
  let first ← comparison
  repeatWhile Lexeme.connective? (fun op left => do
    let word ← advance
    let right ← comparison
    return .combined op left right word.location) (.single first)

end Rule

end LoopLang
