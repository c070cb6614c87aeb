import LoopLang.Tree.Node

/-!
# Walking a tree

A walk stops at a node, and then walks its children in turn, each one level deeper, unless the
kind of the node is one that is not entered.  It leaves a list of visits, each with the depth of
the node, what the node says by itself, and where it is located.

The walk follows the types of the tree; that it visits exactly `Node.children` below each node is
a fact about it, not its definition.  Each walk is a function on the visits that follow it, so that
no list is copied.
-/

namespace LoopLang

/-- One stop of a walk. -/
structure Visit where
  depth : Nat
  label : Label
  location : Option Location
deriving DecidableEq

/-- The stop of a walk at a node. -/
def Node.visit (node : Node) (depth : Nat) : Visit := ⟨depth, node.label, node.location?⟩

section Walk

/-! ## The walk of each part of a tree

Here `closed` says which kinds are not entered, and `behind` is what follows in the list of
visits. -/

variable (closed : NodeKind → Bool)

/-- The visit of a node; then the visits below it, unless its kind is closed; then `behind`. -/
def Node.enter (node : Node) (depth : Nat) (below : List Visit → List Visit)
    (behind : List Visit) : List Visit :=
  node.visit depth :: if closed node.kind then behind else below behind

/-- The walk of an expression. -/
def Expr.walk (depth : Nat) : Expr → List Visit → List Visit
  | .binary op left right location, behind =>
    (Node.expr (.binary op left right location)).enter closed depth
      (fun behind => left.walk (depth + 1) (right.walk (depth + 1) behind)) behind
  | leaf, behind => (Node.expr leaf).enter closed depth id behind

/-- The walk of a comparison. -/
def Comparison.walk (depth : Nat) (c : Comparison) : List Visit → List Visit :=
  (Node.comparison c).enter closed depth
    fun behind => c.left.walk closed (depth + 1) (c.right.walk closed (depth + 1) behind)

/-- The walk of conditions. -/
def Conditions.walk (depth : Nat) : Conditions → List Visit → List Visit
  | .single c, behind =>
    (Node.conditions (.single c)).enter closed depth (c.walk closed (depth + 1)) behind
  | .combined op left right location, behind =>
    (Node.conditions (.combined op left right location)).enter closed depth
      (fun behind => left.walk (depth + 1) (right.walk closed (depth + 1) behind)) behind

/-- The walk of an assignment. -/
def Assignment.walk (depth : Nat) (a : Assignment) : List Visit → List Visit :=
  (Node.assignment a).enter closed depth (a.value.walk closed (depth + 1))

/-- The walk of a body, each assignment at the same depth. -/
def Assignment.walkAll (depth : Nat) (body : List Assignment) (behind : List Visit) : List Visit :=
  body.foldr (fun a => a.walk closed depth) behind

/-- The walk of a declaration. -/
def Declaration.walk (depth : Nat) (d : Declaration) : List Visit → List Visit :=
  (Node.declaration d).enter closed depth
    (match d.initial with
      | some initial => initial.walk closed (depth + 1)
      | none => id)

/-- The walk of what lies below a guarded block. -/
def Guarded.walkInside (depth : Nat) (block : Guarded) (behind : List Visit) : List Visit :=
  block.conditions.walk closed depth (Assignment.walkAll closed depth block.body behind)

/-- The walk of an `elif` block. -/
def Guarded.walkElif (depth : Nat) (block : Guarded) : List Visit → List Visit :=
  (Node.elif block).enter closed depth (block.walkInside closed (depth + 1))

/-- The walk of a loop. -/
def Guarded.walkLoop (depth : Nat) (block : Guarded) : List Visit → List Visit :=
  (Node.loop block).enter closed depth (block.walkInside closed (depth + 1))

/-- The walk of an `else` block. -/
def Otherwise.walk (depth : Nat) (block : Otherwise) : List Visit → List Visit :=
  (Node.otherwise block).enter closed depth (Assignment.walkAll closed (depth + 1) block.body)

/-- The walk of the blocks behind an `if` block: each `elif` block, then the `else` block. -/
def Conditional.walkBehind (depth : Nat) (c : Conditional) (behind : List Visit) : List Visit :=
  c.elifs.foldr (fun block => block.walkElif closed depth)
    (match c.otherwise with
      | some block => block.walk closed depth behind
      | none => behind)

/-- The walk of a conditional. -/
def Conditional.walk (depth : Nat) (c : Conditional) : List Visit → List Visit :=
  (Node.conditional c).enter closed depth
    fun behind => c.head.walkInside closed (depth + 1) (c.walkBehind closed (depth + 1) behind)

/-- The walk of a statement. -/
def Statement.walk (depth : Nat) : Statement → List Visit → List Visit
  | .declaration d => d.walk closed depth
  | .assignment a => a.walk closed depth
  | .conditional c => c.walk closed depth
  | .loop block => block.walkLoop closed depth

/-- The walk of a program. -/
def Program.walk (depth : Nat) (p : Program) : List Visit → List Visit :=
  (Node.program p).enter closed depth
    fun behind => p.statements.foldr (fun s => s.walk closed (depth + 1)) behind

/-- The walk of a node. -/
def Node.walk (depth : Nat) : Node → List Visit → List Visit
  | .program p => p.walk closed depth
  | .declaration d => d.walk closed depth
  | .assignment a => a.walk closed depth
  | .conditional c => c.walk closed depth
  | .elif block => block.walkElif closed depth
  | .otherwise block => block.walk closed depth
  | .loop block => block.walkLoop closed depth
  | .conditions c => c.walk closed depth
  | .comparison c => c.walk closed depth
  | .expr e => e.walk closed depth

/-- The visits of a tree from its root on, without those below nodes of a closed kind. -/
def Node.visits (node : Node) : List Visit := node.walk closed 0 []

end Walk

/-- The visits of all nodes of a tree. -/
def Node.allVisits (node : Node) : List Visit := node.visits fun _ => false

end LoopLang
