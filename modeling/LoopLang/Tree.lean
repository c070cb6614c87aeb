import LoopLang.Location
import LoopLang.Operator

/-!
# Syntax trees

A program is a list of statements: declarations, assignments, conditionals and loops.  Blocks do
not nest, so the body of a block is a list of assignments.  A tree keeps names and numbers as they
are written, and compound assignments as such; parentheses leave no trace but the shape of the
expression.

Expressions, conditions and statements are located.  A binary expression is located at its operator,
joined conditions at their connective, and a comparison where its left side is, so at the operator
of a left side that has one.  Everything else is located at its first token, but for parentheses,
which have no place in the tree: an expression inside them is located as it is without them.
-/

namespace LoopLang

/-! ## Expressions -/

/-- An arithmetic expression. -/
inductive Expr where
  | ident (name : String) (location : Location)
  | number (digits : String) (location : Location)
  | binary (op : ArithOp) (left right : Expr) (location : Location)
deriving DecidableEq

namespace Expr

/-- Where an expression is located. -/
def location : Expr → Location
  | ident _ location => location
  | number _ location => location
  | binary _ _ _ location => location

/-- How tightly the outermost operator of an expression binds, if there is one. -/
def precedence? : Expr → Option Precedence
  | ident _ _ => none
  | number _ _ => none
  | binary op _ _ _ => some op.precedence

end Expr

/-! ## Conditions -/

/-- Two expressions under a relation. -/
structure Comparison where
  op : RelOp
  left : Expr
  right : Expr
  location : Location
deriving DecidableEq

/-- Comparisons joined by connectives, which chain to the left. -/
inductive Conditions where
  | single (comparison : Comparison)
  | combined (op : BoolOp) (left : Conditions) (right : Comparison) (location : Location)
deriving DecidableEq

/-- Where conditions are located. -/
def Conditions.location : Conditions → Location
  | single comparison => comparison.location
  | combined _ _ _ location => location

/-! ## Statements -/

/-- `target op value ;` -/
structure Assignment where
  target : String
  op : AssignOp
  value : Expr
  location : Location
deriving DecidableEq

/-- `int name , … , name = initial ;`, where the initial value may be missing. -/
structure Declaration where
  names : List String
  initial : Option Expr
  location : Location
deriving DecidableEq

/-- `conditions : begin … end`, the part that `if`, `elif` and `loopc` have in common.  It is
located at that word. -/
structure Guarded where
  conditions : Conditions
  body : List Assignment
  location : Location
deriving DecidableEq

/-- `else : begin … end` -/
structure Otherwise where
  body : List Assignment
  location : Location
deriving DecidableEq

/-- An `if` block, the `elif` blocks behind it, and the `else` block if there is one. -/
structure Conditional where
  head : Guarded
  elifs : List Guarded
  otherwise : Option Otherwise
deriving DecidableEq

/-- What may stand at the top level of a program. -/
inductive Statement where
  | declaration (declaration : Declaration)
  | assignment (assignment : Assignment)
  | conditional (conditional : Conditional)
  | loop (block : Guarded)
deriving DecidableEq

/-- Where a statement is located. -/
def Statement.location : Statement → Location
  | declaration d => d.location
  | assignment a => a.location
  | conditional c => c.head.location
  | loop block => block.location

/-- A whole program. -/
structure Program where
  statements : List Statement
deriving DecidableEq

end LoopLang
