import LoopLang.Tree.Node

/-!
# The canonical layout of a tree

Each statement stands on a line of its own, a body is indented by four spaces, and parentheses
stand only where precedence asks for them.  Expressions and conditions are parts of a line, and
end no line.

A `Page` is what has been written so far, with the indentation of the next line.  The header of a
block is laid out on a page of its own and then copied as a whole.
-/

namespace LoopLang

/-- A text under construction. -/
structure Page where
  text : String
  /-- How many levels the next line is indented by. -/
  indent : Nat
deriving DecidableEq

namespace Page

/-- A page with nothing on it. -/
def blank : Page := ⟨"", 0⟩

/-- The page with a text written behind what is there. -/
def write (page : Page) (text : String) : Page := { page with text := page.text ++ text }

@[simp] theorem text_write (page : Page) (text : String) :
    (page.write text).text = page.text ++ text := rfl

@[simp] theorem indent_write (page : Page) (text : String) :
    (page.write text).indent = page.indent := rfl

/-- What a line begins with at a level of indentation: four spaces for each level. -/
def indentation : Nat → String
  | 0 => ""
  | level + 1 => indentation level ++ "    "

/-- The page at the start of a line, with the line's indentation written. -/
def startLine (page : Page) : Page := page.write (indentation page.indent)

@[simp] theorem indent_startLine (page : Page) : page.startLine.indent = page.indent := rfl

/-- The page with the next lines one level deeper. -/
def deeper (page : Page) : Page := { page with indent := page.indent + 1 }

/-- The page with the next lines one level less deep. -/
def shallower (page : Page) : Page := { page with indent := page.indent - 1 }

end Page

/-! ## Expressions and conditions -/

/-- The side of an operator that an operand stands on. -/
inductive Side where
  | left
  | right
deriving DecidableEq

/-- Whether an operand of an operator needs parentheses.  Operators associate to the left, so an
operand with an operator of the same level needs them on the right side only. -/
def Expr.needsParens (parent : Precedence) (side : Side) (operand : Expr) : Bool :=
  match operand.precedence?, side with
  | none, _ => false
  | some inner, .left => inner < parent
  | some inner, .right => inner ≤ parent

/-- The page with a part of a line in parentheses, where they are needed. -/
def Page.parenthesize (needed : Bool) (part : Page → Page) (page : Page) : Page :=
  if needed then (part (page.write "(")).write ")" else part page

/-- The page with an expression written on it. -/
def Expr.layOut : Expr → Page → Page
  | ident name _, page => page.write name
  | number digits _, page => page.write digits
  | binary op left right _, page =>
    let page := page.parenthesize (left.needsParens op.precedence .left) left.layOut
    let page := ((page.write " ").write op.symbol).write " "
    page.parenthesize (right.needsParens op.precedence .right) right.layOut

/-- The page with a comparison written on it. -/
def Comparison.layOut (c : Comparison) (page : Page) : Page :=
  c.right.layOut ((((c.left.layOut page).write " ").write c.op.symbol).write " ")

/-- The page with conditions written on it. -/
def Conditions.layOut : Conditions → Page → Page
  | single c, page => c.layOut page
  | combined op left right _, page =>
    right.layOut ((((left.layOut page).write " ").write op.symbol).write " ")

/-- Conditions as a text, laid out on a page of their own. -/
def Conditions.text (c : Conditions) : String := (c.layOut .blank).text

/-! ## Statements -/

/-- The page with an assignment on the next line. -/
def Assignment.layOut (a : Assignment) (page : Page) : Page :=
  let page := (((page.startLine.write a.target).write " ").write a.op.symbol).write " "
  (a.value.layOut page).write ";\n"

/-- The page with a declaration on the next line. -/
def Declaration.layOut (d : Declaration) (page : Page) : Page :=
  let page := (page.startLine.write "int ").write (", ".intercalate d.names)
  let page :=
    match d.initial with
    | some initial => initial.layOut (page.write " = ")
    | none => page
  page.write ";\n"

/-- The page with a block on the next lines: its header, its body one level deeper, its end. -/
def Page.block (header : String) (body : List Assignment) (page : Page) : Page :=
  let page := (page.startLine.write header).write " : begin\n"
  let page := (body.foldl (fun page a => a.layOut page) page.deeper).shallower
  page.startLine.write "end\n"

/-- The page with a guarded block that a given word begins. -/
def Guarded.layOut (word : String) (block : Guarded) (page : Page) : Page :=
  page.block (word ++ " " ++ block.conditions.text) block.body

/-- The page with an `else` block. -/
def Otherwise.layOut (block : Otherwise) (page : Page) : Page := page.block "else" block.body

/-- The page with a conditional: the `if` block, each `elif` block, the `else` block. -/
def Conditional.layOut (c : Conditional) (page : Page) : Page :=
  let page := c.head.layOut "if" page
  let page := c.elifs.foldl (fun page block => block.layOut "elif" page) page
  match c.otherwise with
  | some block => block.layOut page
  | none => page

/-- The page with a statement on the next lines. -/
def Statement.layOut : Statement → Page → Page
  | declaration d, page => d.layOut page
  | assignment a, page => a.layOut page
  | conditional c, page => c.layOut page
  | loop block, page => block.layOut "loopc" page

/-- The page with a program on the next lines. -/
def Program.layOut (p : Program) (page : Page) : Page :=
  p.statements.foldl (fun page statement => statement.layOut page) page

/-! ## Nodes -/

/-- The page with a node written on it. -/
def Node.layOut : Node → Page → Page
  | program p, page => p.layOut page
  | declaration d, page => d.layOut page
  | assignment a, page => a.layOut page
  | conditional c, page => c.layOut page
  | elif block, page => block.layOut "elif" page
  | otherwise block, page => block.layOut page
  | loop block, page => block.layOut "loopc" page
  | conditions c, page => c.layOut page
  | comparison c, page => c.layOut page
  | expr e, page => e.layOut page

/-- The page with nodes written on it, one behind the other. -/
def Page.add (page : Page) (nodes : List Node) : Page :=
  nodes.foldl (fun page node => node.layOut page) page

/-- A node as canonical text. -/
def Node.text (node : Node) : String := (node.layOut .blank).text

/-- A program as canonical text. -/
def Program.text (p : Program) : String := (p.layOut .blank).text

end LoopLang
