import LoopLang.Proofs.Lexing.Spelling
import LoopLang.Tree.Node
import Mathlib.Logic.Relation

/-!
# The parts of a tree

The parts of a node are the node itself and whatever is reached from it by going down to a child,
any number of times.  What holds of all parts of a node holds of the node and of all parts of each
of its children (`Node.everywhere_iff`).  The lemmas behind that one say the same of each kind of
node, in terms of the tree.

A tree is well formed if its names and numbers are spelled as such, and each declaration lists
names, all of them distinct.
-/

namespace LoopLang

namespace Node

/-- A node is another one, or stands somewhere below it. -/
def IsPartOf (part node : Node) : Prop :=
  Relation.ReflTransGen (fun parent child : Node => child ∈ parent.children) node part

/-- Something holds of every part of a node. -/
def Everywhere (P : Node → Prop) (node : Node) : Prop := ∀ part : Node, part.IsPartOf node → P part

variable {P : Node → Prop} {node : Node}

theorem everywhere_iff :
    node.Everywhere P ↔ P node ∧ ∀ child ∈ node.children, child.Everywhere P := by
  constructor
  · intro h
    refine ⟨h node .refl, fun child hchild part hpart => ?_⟩
    exact h part (.head hchild hpart)
  · rintro ⟨hnode, hchildren⟩ part hpart
    -- A part is the node itself, or is reached by a step down to a child first.
    obtain rfl | ⟨child, hchild, hrest⟩ := hpart.cases_head
    · exact hnode
    · exact hchildren child hchild part hrest

/-- What holds of a node if it holds of its children holds of every node. -/
theorem induction (step : ∀ node : Node, (∀ child ∈ node.children, P child) → P node)
    (node : Node) : P node := by
  -- Kind by kind, from the leaves up; only expressions and conditions stand below their own kind.
  have hexpr : ∀ e : Expr, P (expr e) := by
    intro e
    induction e with
    | ident name location => exact step _ (by simp [children])
    | number digits location => exact step _ (by simp [children])
    | binary op left right location ihleft ihright =>
        exact step _ (by simp [children, ihleft, ihright])
  have hcomparison : ∀ c : Comparison, P (comparison c) :=
    fun c => step _ (by simp [children, hexpr])
  have hconditions : ∀ cs : Conditions, P (conditions cs) := by
    intro cs
    induction cs with
    | single c => exact step _ (by simp [children, hcomparison])
    | combined op left right location ih => exact step _ (by simp [children, ih, hcomparison])
  have hassignment : ∀ a : Assignment, P (assignment a) :=
    fun a => step _ (by simp [children, hexpr])
  have hguarded : ∀ block : Guarded, ∀ child ∈ guardedChildren block, P child := by
    simp [guardedChildren, hconditions, hassignment]
  have helif : ∀ block : Guarded, P (elif block) := fun block => step _ (hguarded block)
  have hotherwise : ∀ block : Otherwise, P (otherwise block) :=
    fun block => step _ (by simp [children, hassignment])
  have hdeclaration : ∀ d : Declaration, P (declaration d) :=
    fun d => step _ (by simp [children, hexpr])
  have hloop : ∀ block : Guarded, P (loop block) := fun block => step _ (hguarded block)
  have hconditional : ∀ c : Conditional, P (conditional c) := by
    intro c
    apply step
    simp only [children, List.forall_mem_append, List.forall_mem_map]
    exact ⟨⟨hguarded c.head, fun block _ => helif block⟩, fun block _ => hotherwise block⟩
  have hstatement : ∀ s : Statement, P s.node := by
    rintro (d | a | c | block)
    · exact hdeclaration d
    · exact hassignment a
    · exact hconditional c
    · exact hloop block
  cases node with
  | program p => exact step _ (by simp [children, hstatement])
  | declaration d => exact hdeclaration d
  | assignment a => exact hassignment a
  | conditional c => exact hconditional c
  | elif block => exact helif block
  | otherwise block => exact hotherwise block
  | loop block => exact hloop block
  | conditions cs => exact hconditions cs
  | comparison c => exact hcomparison c
  | expr e => exact hexpr e

/-! ## The parts of each kind of node -/

theorem everywhere_program {p : Program} :
    (program p).Everywhere P ↔ P (program p) ∧ ∀ s ∈ p.statements, s.node.Everywhere P := by
  rw [everywhere_iff]
  simp [children]

theorem everywhere_declaration {d : Declaration} :
    (declaration d).Everywhere P ↔
      P (declaration d) ∧ ∀ e ∈ d.initial, (expr e).Everywhere P := by
  rw [everywhere_iff]
  simp [children]

theorem everywhere_assignment {a : Assignment} :
    (assignment a).Everywhere P ↔ P (assignment a) ∧ (expr a.value).Everywhere P := by
  rw [everywhere_iff]
  simp [children]

/-- What a guarded block has below it, whatever its word is. -/
theorem forall_mem_guardedChildren {block : Guarded} {Q : Node → Prop} :
    (∀ child ∈ guardedChildren block, Q child) ↔
      Q (conditions block.conditions) ∧ ∀ a ∈ block.body, Q (assignment a) := by
  simp [guardedChildren]

theorem everywhere_conditional {c : Conditional} :
    (conditional c).Everywhere P ↔ P (conditional c) ∧
      (∀ child ∈ guardedChildren c.head, child.Everywhere P) ∧
      (∀ block ∈ c.elifs, (elif block).Everywhere P) ∧
      ∀ block ∈ c.otherwise, (otherwise block).Everywhere P := by
  rw [everywhere_iff]
  simp only [children, List.forall_mem_append, List.forall_mem_map, Option.mem_toList,
    Option.mem_def, and_assoc]

theorem everywhere_elif {block : Guarded} :
    (elif block).Everywhere P ↔
      P (elif block) ∧ ∀ child ∈ guardedChildren block, child.Everywhere P :=
  everywhere_iff

theorem everywhere_otherwise {block : Otherwise} :
    (otherwise block).Everywhere P ↔
      P (otherwise block) ∧ ∀ a ∈ block.body, (assignment a).Everywhere P := by
  rw [everywhere_iff]
  simp [children]

theorem everywhere_loop {block : Guarded} :
    (loop block).Everywhere P ↔
      P (loop block) ∧ ∀ child ∈ guardedChildren block, child.Everywhere P :=
  everywhere_iff

theorem everywhere_single {c : Comparison} :
    (conditions (.single c)).Everywhere P ↔
      P (conditions (.single c)) ∧ (comparison c).Everywhere P := by
  rw [everywhere_iff]
  simp [children]

theorem everywhere_combined {op : BoolOp} {left : Conditions} {right : Comparison}
    {location : Location} :
    (conditions (.combined op left right location)).Everywhere P ↔
      P (conditions (.combined op left right location)) ∧ (conditions left).Everywhere P ∧
        (comparison right).Everywhere P := by
  rw [everywhere_iff]
  simp [children]

theorem everywhere_comparison {c : Comparison} :
    (comparison c).Everywhere P ↔
      P (comparison c) ∧ (expr c.left).Everywhere P ∧ (expr c.right).Everywhere P := by
  rw [everywhere_iff]
  simp [children]

theorem everywhere_ident {name : String} {location : Location} :
    (expr (.ident name location)).Everywhere P ↔ P (expr (.ident name location)) := by
  rw [everywhere_iff]
  simp [children]

theorem everywhere_number {digits : String} {location : Location} :
    (expr (.number digits location)).Everywhere P ↔ P (expr (.number digits location)) := by
  rw [everywhere_iff]
  simp [children]

theorem everywhere_binary {op : ArithOp} {left right : Expr} {location : Location} :
    (expr (.binary op left right location)).Everywhere P ↔
      P (expr (.binary op left right location)) ∧ (expr left).Everywhere P ∧
        (expr right).Everywhere P := by
  rw [everywhere_iff]
  simp [children]

end Node

/-! ## Well-formed trees -/

/-- Whether the names and numbers of a node are spelled as such.  A declaration lists at least one
name, and none of them twice. -/
def Label.WellFormed : Label → Prop
  | declaration names => names ≠ [] ∧ names.Nodup ∧ ∀ name ∈ names, IsName name
  | assignment _ target => IsName target
  | ident name => IsName name
  | number digits => IsNumeral digits
  | _ => True

/-- Whether every node of a tree is well formed. -/
def Node.WellFormed (node : Node) : Prop := node.Everywhere fun part => part.label.WellFormed

/-- Whether every node of a program is well formed. -/
def Program.WellFormed (p : Program) : Prop := (Node.program p).WellFormed

end LoopLang
