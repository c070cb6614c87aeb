import LoopLang.Proofs.Grammar.Derivation
import LoopLang.Tree.Layout
import LoopLang.Tree.Sexpr

/-!
# Trees at other places

`relocate` moves every location of a tree by a function, and leaves everything else as it is.  Two
trees are equal up to locations if they are equal once both are moved to one place, their `bare`
trees.  What does not speak of locations is the same for both: the canonical text, the s-expression,
and whether names are distinct.
-/

namespace LoopLang

/-! ## Moving the locations of a tree -/

/-- The expression with its locations moved. -/
@[simp] def Expr.relocate (move : Location → Location) : Expr → Expr
  | ident name location => ident name (move location)
  | number digits location => number digits (move location)
  | binary op left right location =>
    binary op (left.relocate move) (right.relocate move) (move location)

/-- The comparison with its locations moved. -/
@[simp] def Comparison.relocate (move : Location → Location) (c : Comparison) : Comparison :=
  ⟨c.op, c.left.relocate move, c.right.relocate move, move c.location⟩

/-- The conditions with their locations moved. -/
@[simp] def Conditions.relocate (move : Location → Location) : Conditions → Conditions
  | single c => single (c.relocate move)
  | combined op left right location =>
    combined op (left.relocate move) (right.relocate move) (move location)

/-- The assignment with its locations moved. -/
@[simp] def Assignment.relocate (move : Location → Location) (a : Assignment) : Assignment :=
  ⟨a.target, a.op, a.value.relocate move, move a.location⟩

/-- The declaration with its locations moved. -/
@[simp] def Declaration.relocate (move : Location → Location) (d : Declaration) : Declaration :=
  ⟨d.names, d.initial.map (Expr.relocate move), move d.location⟩

/-- The block with its locations moved. -/
@[simp] def Guarded.relocate (move : Location → Location) (block : Guarded) : Guarded :=
  ⟨block.conditions.relocate move, block.body.map (Assignment.relocate move), move block.location⟩

/-- The block with its locations moved. -/
@[simp] def Otherwise.relocate (move : Location → Location) (block : Otherwise) : Otherwise :=
  ⟨block.body.map (Assignment.relocate move), move block.location⟩

/-- The conditional with its locations moved. -/
@[simp] def Conditional.relocate (move : Location → Location) (c : Conditional) : Conditional :=
  ⟨c.head.relocate move, c.elifs.map (Guarded.relocate move),
    c.otherwise.map (Otherwise.relocate move)⟩

/-- The statement with its locations moved. -/
@[simp] def Statement.relocate (move : Location → Location) : Statement → Statement
  | declaration d => declaration (d.relocate move)
  | assignment a => assignment (a.relocate move)
  | conditional c => conditional (c.relocate move)
  | loop block => loop (block.relocate move)

/-- The program with its locations moved. -/
@[simp] def Program.relocate (move : Location → Location) (p : Program) : Program :=
  ⟨p.statements.map (Statement.relocate move)⟩

/-- The program without its locations: they are all the first one. -/
def Program.bare (p : Program) : Program := p.relocate fun _ => .first

/-! ## Locations of moved trees -/

theorem Expr.location_relocate (move : Location → Location) (e : Expr) :
    (e.relocate move).location = move e.location := by
  cases e <;> rfl

theorem Conditions.location_relocate (move : Location → Location) (cs : Conditions) :
    (cs.relocate move).location = move cs.location := by
  cases cs <;> rfl

/-! ## Trees that stay where they are -/

@[simp] theorem Expr.relocate_id (e : Expr) : e.relocate id = e := by
  induction e with
  | binary op left right location ihleft ihright => simp [ihleft, ihright]
  | _ => rfl

@[simp] theorem Comparison.relocate_id (c : Comparison) : c.relocate id = c := by simp

@[simp] theorem Conditions.relocate_id (cs : Conditions) : cs.relocate id = cs := by
  induction cs with
  | single c => rw [relocate, Comparison.relocate_id]
  | combined op left right location ih => rw [relocate, ih, Comparison.relocate_id, id]

private theorem Expr.relocate_id_eq : Expr.relocate id = id := funext Expr.relocate_id

@[simp] theorem Assignment.relocate_id : Assignment.relocate id = id := by
  funext a
  rw [relocate, Expr.relocate_id]
  rfl

@[simp] theorem Declaration.relocate_id : Declaration.relocate id = id := by
  funext d
  rw [relocate, Expr.relocate_id_eq, Option.map_id]
  rfl

@[simp] theorem Guarded.relocate_id : Guarded.relocate id = id := by
  funext block
  rw [relocate, Conditions.relocate_id, Assignment.relocate_id, List.map_id]
  rfl

@[simp] theorem Otherwise.relocate_id : Otherwise.relocate id = id := by
  funext block
  rw [relocate, Assignment.relocate_id, List.map_id]
  rfl

@[simp] theorem Conditional.relocate_id : Conditional.relocate id = id := by
  funext c
  rw [relocate, Guarded.relocate_id, Otherwise.relocate_id, List.map_id, Option.map_id]
  rfl

@[simp] theorem Statement.relocate_id : Statement.relocate id = id := by
  funext s
  cases s <;> simp only [relocate, Declaration.relocate_id, Assignment.relocate_id,
    Conditional.relocate_id, Guarded.relocate_id, id]

theorem Program.relocate_id (p : Program) : p.relocate id = p := by
  rw [relocate, Statement.relocate_id, List.map_id]

/-! ## Layout of moved trees -/

variable (move : Location → Location)

@[simp] theorem Expr.precedence?_relocate (e : Expr) :
    (e.relocate move).precedence? = e.precedence? := by
  cases e <;> rfl

@[simp] theorem Expr.needsParens_relocate (parent : Precedence) (side : Side) (e : Expr) :
    (e.relocate move).needsParens parent side = e.needsParens parent side := by
  simp [needsParens]

private theorem Expr.layOut_relocate (e : Expr) : (e.relocate move).layOut = e.layOut := by
  induction e with
  | ident => rfl
  | number => rfl
  | binary op left right location ihleft ihright =>
      funext page
      simp [layOut, ihleft, ihright]

private theorem Comparison.layOut_relocate (c : Comparison) :
    (c.relocate move).layOut = c.layOut := by
  funext page
  simp [layOut, Expr.layOut_relocate]

private theorem Conditions.layOut_relocate (cs : Conditions) :
    (cs.relocate move).layOut = cs.layOut := by
  induction cs with
  | single c =>
      funext page
      simp only [relocate, layOut, Comparison.layOut_relocate]
  | combined op left right location ih =>
      funext page
      simp only [relocate, layOut, Comparison.layOut_relocate, ih]

private theorem Assignment.layOut_relocate (a : Assignment) :
    (a.relocate move).layOut = a.layOut := by
  funext page
  simp [layOut, Expr.layOut_relocate]

private theorem Declaration.layOut_relocate (d : Declaration) :
    (d.relocate move).layOut = d.layOut := by
  funext page
  cases hinitial : d.initial <;> simp [layOut, hinitial, Expr.layOut_relocate]

private theorem Page.block_relocate (header : String) (body : List Assignment) :
    Page.block header (body.map (Assignment.relocate move)) = Page.block header body := by
  funext page
  simp only [Page.block, List.foldl_map, Assignment.layOut_relocate]

private theorem Guarded.layOut_relocate (word : String) (block : Guarded) :
    (block.relocate move).layOut word = block.layOut word := by
  funext page
  simp only [layOut, relocate, Page.block_relocate, Conditions.text, Conditions.layOut_relocate]

private theorem Otherwise.layOut_relocate (block : Otherwise) :
    (block.relocate move).layOut = block.layOut := by
  funext page
  simp only [layOut, relocate, Page.block_relocate]

private theorem Conditional.layOut_relocate (c : Conditional) :
    (c.relocate move).layOut = c.layOut := by
  funext page
  cases hotherwise : c.otherwise <;>
    simp only [layOut, relocate, hotherwise, Option.map_none, Option.map_some, List.foldl_map,
      Guarded.layOut_relocate, Otherwise.layOut_relocate]

private theorem Statement.layOut_relocate (s : Statement) :
    (s.relocate move).layOut = s.layOut := by
  funext page
  cases s with
  | declaration d => exact congrFun (d.layOut_relocate move) page
  | assignment a => exact congrFun (a.layOut_relocate move) page
  | conditional c => exact congrFun (c.layOut_relocate move) page
  | loop block => exact congrFun (block.layOut_relocate move "loopc") page

/-- The canonical text of a program says nothing of locations. -/
theorem Program.text_relocate (p : Program) : (p.relocate move).text = p.text := by
  simp only [Program.text, Program.layOut, Program.relocate, List.foldl_map,
    Statement.layOut_relocate]

theorem Program.text_eq_of_bare_eq {p q : Program} (hbare : p.bare = q.bare) : p.text = q.text := by
  rw [← p.text_relocate fun _ => .first, ← q.text_relocate fun _ => .first]
  exact congrArg Program.text hbare

/-! ## S-expressions of moved trees -/

private theorem Expr.sexpr_relocate (e : Expr) : (e.relocate move).sexpr = e.sexpr := by
  induction e with
  | binary op left right location ihleft ihright => simp [sexpr, ihleft, ihright]
  | _ => rfl

private theorem Comparison.sexpr_relocate (c : Comparison) : (c.relocate move).sexpr = c.sexpr := by
  simp [sexpr, Expr.sexpr_relocate]

private theorem Conditions.sexpr_relocate (cs : Conditions) :
    (cs.relocate move).sexpr = cs.sexpr := by
  induction cs with
  | single c => exact c.sexpr_relocate move
  | combined op left right location ih =>
      simp only [relocate, sexpr, ih, Comparison.sexpr_relocate]

private theorem Assignment.sexpr_relocate (a : Assignment) : (a.relocate move).sexpr = a.sexpr := by
  simp [sexpr, Expr.sexpr_relocate]

private theorem Declaration.sexpr_relocate (d : Declaration) :
    (d.relocate move).sexpr = d.sexpr := by
  cases hinitial : d.initial <;> simp [sexpr, hinitial, Expr.sexpr_relocate]

private theorem Guarded.sexprItems_relocate (word : String) (block : Guarded) :
    (block.relocate move).sexprItems word = block.sexprItems word := by
  simp only [sexprItems, relocate, Conditions.sexpr_relocate, List.map_map, Function.comp_def,
    Assignment.sexpr_relocate]

private theorem Guarded.elifSexpr_relocate (block : Guarded) :
    (block.relocate move).elifSexpr = block.elifSexpr :=
  congrArg Sexpr.list (block.sexprItems_relocate move "elif")

private theorem Otherwise.sexpr_relocate (block : Otherwise) :
    (block.relocate move).sexpr = block.sexpr := by
  simp only [sexpr, relocate, List.map_map, Function.comp_def, Assignment.sexpr_relocate]

private theorem Conditional.sexpr_relocate (c : Conditional) :
    (c.relocate move).sexpr = c.sexpr := by
  cases hotherwise : c.otherwise <;>
    simp only [sexpr, relocate, hotherwise, Guarded.sexprItems_relocate,
      Guarded.elifSexpr_relocate, Otherwise.sexpr_relocate, List.map_map, Function.comp_def,
      Option.map_none, Option.map_some, Option.toList_none, Option.toList_some, List.map_nil,
      List.map_cons]

private theorem Statement.sexpr_relocate (s : Statement) : (s.relocate move).sexpr = s.sexpr := by
  cases s with
  | declaration d => exact d.sexpr_relocate move
  | assignment a => exact a.sexpr_relocate move
  | conditional c => exact c.sexpr_relocate move
  | loop block => exact congrArg Sexpr.list (block.sexprItems_relocate move "loopc")

/-- The s-expression of a program says nothing of locations. -/
theorem Program.sexpr_relocate (p : Program) : (p.relocate move).sexpr = p.sexpr := by
  simp only [sexpr, relocate, List.map_map, Function.comp_def, Statement.sexpr_relocate]

theorem Program.sexpr_eq_of_bare_eq {p q : Program} (hbare : p.bare = q.bare) :
    p.sexpr = q.sexpr := by
  rw [← p.sexpr_relocate fun _ => .first, ← q.sexpr_relocate fun _ => .first]
  exact congrArg Program.sexpr hbare

/-! ## Names of moved trees -/

theorem Program.distinctNames_relocate (p : Program) :
    (p.relocate move).DistinctNames ↔ p.DistinctNames := by
  have hone : ∀ s : Statement, (s.relocate move).DistinctNames ↔ s.DistinctNames := by
    intro s
    cases s <;> rfl
  simp only [Program.DistinctNames, Program.relocate, List.forall_mem_map, hone]

theorem Program.distinctNames_of_bare_eq {p q : Program} (hbare : p.bare = q.bare)
    (hdistinct : q.DistinctNames) : p.DistinctNames := by
  rw [← p.distinctNames_relocate fun _ => .first]
  rw [← q.distinctNames_relocate fun _ => .first] at hdistinct
  exact (congrArg Program.DistinctNames hbare).mpr hdistinct

end LoopLang
