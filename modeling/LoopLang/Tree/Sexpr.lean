import LoopLang.Tree.Node

/-!
# Trees as s-expressions

An s-expression shows the shape of a tree and nothing of its layout: each node becomes a list that
begins with an operator or a word, and names and numbers become atoms.
-/

namespace LoopLang

/-- An atom, or a list of s-expressions. -/
inductive Sexpr where
  | atom (word : String)
  | list (items : List Sexpr)

namespace Sexpr

mutual

/-- The text with an s-expression written behind it: an atom as it is, a list in parentheses. -/
def writeBehind : Sexpr → String → String
  | atom word, text => text ++ word
  | list items, text => writeItems items (text ++ "(") ++ ")"

/-- The text with the items of a list written behind it, a space between each two. -/
def writeItems : List Sexpr → String → String
  | [], text => text
  | item :: items, text => writeFurther items (item.writeBehind text)

/-- The text with further items of a list written behind it, a space before each. -/
def writeFurther : List Sexpr → String → String
  | [], text => text
  | item :: items, text => writeFurther items (item.writeBehind (text ++ " "))

end

/-- The text of an s-expression. -/
def text (sexpr : Sexpr) : String := sexpr.writeBehind ""

end Sexpr

/-! ## The s-expression of each part of a tree -/

/-- The s-expression of an expression: its leaf, or the operator before both operands. -/
def Expr.sexpr : Expr → Sexpr
  | ident name _ => .atom name
  | number digits _ => .atom digits
  | binary op left right _ => .list [.atom op.symbol, left.sexpr, right.sexpr]

/-- The s-expression of a comparison: the relation before both sides. -/
def Comparison.sexpr (c : Comparison) : Sexpr :=
  .list [.atom c.op.symbol, c.left.sexpr, c.right.sexpr]

/-- The s-expression of conditions: a single comparison by itself, a connective before both
sides. -/
def Conditions.sexpr : Conditions → Sexpr
  | single c => c.sexpr
  | combined op left right _ => .list [.atom op.symbol, left.sexpr, right.sexpr]

/-- The s-expression of an assignment: the operator, the target and the value. -/
def Assignment.sexpr (a : Assignment) : Sexpr :=
  .list [.atom a.op.symbol, .atom a.target, a.value.sexpr]

/-- The s-expression of a declaration: the list of names, and the initial value if there is one. -/
def Declaration.sexpr (d : Declaration) : Sexpr :=
  .list (.atom "int" :: .list (d.names.map .atom) :: d.initial.toList.map Expr.sexpr)

/-- The items of a guarded block: the word that begins it, the conditions, the body. -/
def Guarded.sexprItems (word : String) (block : Guarded) : List Sexpr :=
  .atom word :: block.conditions.sexpr :: block.body.map Assignment.sexpr

/-- The s-expression of an `elif` block. -/
def Guarded.elifSexpr (block : Guarded) : Sexpr := .list (block.sexprItems "elif")

/-- The s-expression of a loop. -/
def Guarded.loopSexpr (block : Guarded) : Sexpr := .list (block.sexprItems "loopc")

/-- The s-expression of an `else` block. -/
def Otherwise.sexpr (block : Otherwise) : Sexpr :=
  .list (.atom "else" :: block.body.map Assignment.sexpr)

/-- The s-expression of a conditional: the items of the `if` block, then one list for each block
behind it. -/
def Conditional.sexpr (c : Conditional) : Sexpr :=
  .list (c.head.sexprItems "if" ++ c.elifs.map Guarded.elifSexpr ++
    c.otherwise.toList.map Otherwise.sexpr)

/-- The s-expression of a statement. -/
def Statement.sexpr : Statement → Sexpr
  | declaration d => d.sexpr
  | assignment a => a.sexpr
  | conditional c => c.sexpr
  | loop block => block.loopSexpr

/-- The s-expression of a program. -/
def Program.sexpr (p : Program) : Sexpr :=
  .list (.atom "program" :: p.statements.map Statement.sexpr)

/-- The s-expression of a node. -/
def Node.sexpr : Node → Sexpr
  | program p => p.sexpr
  | declaration d => d.sexpr
  | assignment a => a.sexpr
  | conditional c => c.sexpr
  | elif block => block.elifSexpr
  | otherwise block => block.sexpr
  | loop block => block.loopSexpr
  | conditions c => c.sexpr
  | comparison c => c.sexpr
  | expr e => e.sexpr

end LoopLang
