import LoopLang.Tree

/-!
# Nodes of a tree

A `Node` is any part of a syntax tree that a traversal stops at.  `Node.children` lists the nodes
right below one, in the order of the source; `Node.label` is what the node itself says, without
its children and its location.
-/

namespace LoopLang

/-- A part of a syntax tree. -/
inductive Node where
  | program (program : Program)
  | declaration (declaration : Declaration)
  | assignment (assignment : Assignment)
  | conditional (conditional : Conditional)
  | elif (block : Guarded)
  | otherwise (block : Otherwise)
  | loop (block : Guarded)
  | conditions (conditions : Conditions)
  | comparison (comparison : Comparison)
  | expr (expr : Expr)
deriving DecidableEq

/-- The node of a statement. -/
def Statement.node : Statement → Node
  | .declaration d => .declaration d
  | .assignment a => .assignment a
  | .conditional c => .conditional c
  | .loop block => .loop block

/-! ## Kinds and labels -/

/-- The kinds of nodes.  Names and numbers are of one kind, the leaves. -/
inductive NodeKind where
  | program
  | declaration
  | assignment
  | conditional
  | elif
  | otherwise
  | loop
  | conditions
  | comparison
  | binary
  | leaf
deriving DecidableEq

/-- What a node says by itself. -/
inductive Label where
  | program (statements : Nat)
  | declaration (names : List String)
  | assignment (op : AssignOp) (target : String)
  | conditional (body elifs : Nat) (hasOtherwise : Bool)
  | elif (body : Nat)
  | otherwise (body : Nat)
  | loop (body : Nat)
  /-- The connective, where two conditions are joined. -/
  | conditions (connective : Option BoolOp)
  | comparison (op : RelOp)
  | binary (op : ArithOp)
  | ident (name : String)
  | number (digits : String)
deriving DecidableEq

/-- The kind of node that has a label. -/
def Label.kind : Label → NodeKind
  | program _ => .program
  | declaration _ => .declaration
  | assignment _ _ => .assignment
  | conditional _ _ _ => .conditional
  | elif _ => .elif
  | otherwise _ => .otherwise
  | loop _ => .loop
  | conditions _ => .conditions
  | comparison _ => .comparison
  | binary _ => .binary
  | ident _ => .leaf
  | number _ => .leaf

/-- The label of an expression. -/
def Expr.label : Expr → Label
  | ident name _ => .ident name
  | number digits _ => .number digits
  | binary op _ _ _ => .binary op

/-- The label of conditions. -/
def Conditions.label : Conditions → Label
  | single _ => .conditions none
  | combined op _ _ _ => .conditions (some op)

namespace Node

/-- What a node says by itself. -/
def label : Node → Label
  | program p => .program p.statements.length
  | declaration d => .declaration d.names
  | assignment a => .assignment a.op a.target
  | conditional c => .conditional c.head.body.length c.elifs.length c.otherwise.isSome
  | elif block => .elif block.body.length
  | otherwise block => .otherwise block.body.length
  | loop block => .loop block.body.length
  | conditions c => c.label
  | comparison c => .comparison c.op
  | expr e => e.label

/-- The kind of a node. -/
def kind (node : Node) : NodeKind := node.label.kind

/-- Where a node is located; a program as a whole is nowhere. -/
def location? : Node → Option Location
  | program _ => none
  | declaration d => some d.location
  | assignment a => some a.location
  | conditional c => some c.head.location
  | elif block => some block.location
  | otherwise block => some block.location
  | loop block => some block.location
  | conditions c => some c.location
  | comparison c => some c.location
  | expr e => some e.location

/-! ## Children -/

/-- The nodes right below a guarded block: its conditions, then its body. -/
def guardedChildren (block : Guarded) : List Node :=
  conditions block.conditions :: block.body.map assignment

/-- The nodes right below a node, in the order of the source. -/
def children : Node → List Node
  | program p => p.statements.map Statement.node
  | declaration d => d.initial.toList.map expr
  | assignment a => [expr a.value]
  | conditional c =>
    guardedChildren c.head ++ c.elifs.map elif ++ c.otherwise.toList.map otherwise
  | elif block => guardedChildren block
  | otherwise block => block.body.map assignment
  | loop block => guardedChildren block
  | conditions (.single c) => [comparison c]
  | conditions (.combined _ left right _) => [conditions left, comparison right]
  | comparison c => [expr c.left, expr c.right]
  | expr (.binary _ left right _) => [expr left, expr right]
  | expr _ => []

end Node

end LoopLang
