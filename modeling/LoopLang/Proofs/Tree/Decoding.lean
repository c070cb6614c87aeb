import LoopLang.Proofs.Tree.Preorder
import LoopLang.Proofs.Tree.Relocation

/-!
# Trees from the visits of a traversal

A list of visits says which node was traversed (`Node.isKnownByVisits`), and without its locations
it says so up to locations (`Program.bare_eq_of_visits`).

What a node says by itself, where it is and what its children are make up the node
(`Node.eq_of_children`), so there is only to find the children of a node in a flat list.  The depths
do that: the visits below a node end where the depth comes back to that of the node or a smaller one
(`Node.IsBack`), and the visits of one child where it comes back to that of the next.

Without its locations a list of visits is still that of a tree: the one whose locations are all the
same.
-/

namespace LoopLang

namespace Node

/-! ## One node from its children -/

private theorem statementNode_injective : Function.Injective Statement.node := by
  intro s t hst
  cases s <;> cases t <;> simp_all [Statement.node]

private theorem eq_of_map_assignment {body other : List Assignment}
    (hbody : body.map assignment = other.map assignment) : body = other :=
  List.map_injective_iff.mpr (fun _ _ => assignment.inj) hbody

private theorem eq_of_map_toList {α : Type} {f : α → Node} (hf : Function.Injective f)
    {first second : Option α} (hsame : first.toList.map f = second.toList.map f) :
    first = second := by
  have hlist : first.toList = second.toList := List.map_injective_iff.mpr hf hsame
  cases first <;> cases second <;> simp_all

private theorem eq_of_guardedChildren {block other : Guarded}
    (hchildren : guardedChildren block = guardedChildren other)
    (hlocation : block.location = other.location) : block = other := by
  obtain ⟨first, body, location⟩ := block
  obtain ⟨first', body', location'⟩ := other
  rw [guardedChildren, guardedChildren, List.cons.injEq, Node.conditions.injEq] at hchildren
  obtain ⟨hfirst, hbody⟩ := hchildren
  have hbody : body = body' := eq_of_map_assignment hbody
  simp_all

/-- The numbers in the label of a conditional say where its blocks end among its children. -/
private theorem eq_of_conditional {c other : Conditional}
    (hlabel : (conditional c).label = (conditional other).label)
    (hchildren : (conditional c).children = (conditional other).children)
    (hlocation : c.head.location = other.head.location) : c = other := by
  obtain ⟨head, elifs, last⟩ := c
  obtain ⟨head', elifs', last'⟩ := other
  simp only [label, Label.conditional.injEq] at hlabel
  obtain ⟨hbody, helifs, -⟩ := hlabel
  have hlength : (guardedChildren head).length = (guardedChildren head').length := by
    simp [guardedChildren, hbody]
  simp only [children, List.append_assoc] at hchildren
  obtain ⟨hhead, hrest⟩ := List.append_inj hchildren hlength
  obtain ⟨hmiddle, hlast⟩ := List.append_inj hrest (by simpa using helifs)
  have hhead : head = head' := eq_of_guardedChildren hhead hlocation
  have hmiddle : elifs = elifs' := List.map_injective_iff.mpr (fun _ _ => elif.inj) hmiddle
  have hlast : last = last' := eq_of_map_toList (fun _ _ => otherwise.inj) hlast
  rw [hhead, hmiddle, hlast]

/-- A node is known by its label, its location and its children. -/
theorem eq_of_children {node other : Node} (hlabel : node.label = other.label)
    (hlocation : node.location? = other.location?) (hchildren : node.children = other.children) :
    node = other := by
  -- Nodes of different kinds differ in their labels.
  rcases node with p | d | a | c | block | block | block | (c | ⟨op, left, right, location⟩) | c |
      (⟨name, location⟩ | ⟨digits, location⟩ | ⟨op, left, right, location⟩) <;>
    rcases other with p' | d' | a' | c' | block' | block' | block' |
      (c' | ⟨op', left', right', location'⟩) | c' |
      (⟨name', location'⟩ | ⟨digits', location'⟩ | ⟨op', left', right', location'⟩) <;>
    try (simp [label, Conditions.label, Expr.label] at hlabel; done)
  case program.program =>
    have hstatements := List.map_injective_iff.mpr statementNode_injective hchildren
    cases p; cases p'; simp_all
  case declaration.declaration =>
    have hinitial := eq_of_map_toList (fun _ _ => expr.inj) hchildren
    cases d; cases d'; simp_all [label, location?]
  case assignment.assignment =>
    cases a; cases a'; simp_all [label, location?, children]
  case conditional.conditional =>
    rw [eq_of_conditional hlabel hchildren (by simpa [location?] using hlocation)]
  case elif.elif =>
    rw [eq_of_guardedChildren hchildren (by simpa [location?] using hlocation)]
  case otherwise.otherwise =>
    have hbody := eq_of_map_assignment hchildren
    cases block; cases block'; simp_all [location?]
  case loop.loop =>
    rw [eq_of_guardedChildren hchildren (by simpa [location?] using hlocation)]
  case comparison.comparison =>
    cases c; cases c'; simp_all [label, location?, children]
  all_goals
    simp_all [label, location?, children, Conditions.label, Expr.label, Conditions.location,
      Expr.location]

/-! ## A node from its visits -/

/-- The visits of a node and of everything below it. -/
def visitsFrom (node : Node) (depth : Nat) : List Visit := node.walk (fun _ => false) depth []

theorem visitsFrom_eq (node : Node) (depth : Nat) :
    node.visitsFrom depth =
      node.visit depth :: node.children.flatMap fun child => child.visitsFrom (depth + 1) :=
  node.walk_nil depth

/-- A list of visits does not go on below a depth. -/
def IsBack (depth : Nat) (visits : List Visit) : Prop := ∀ visit ∈ visits.head?, visit.depth ≤ depth

private theorem isBack_row {depth : Nat} {rest : List Visit} (hrest : IsBack depth rest)
    (nodes : List Node) :
    IsBack (depth + 1) (nodes.flatMap (fun node => node.visitsFrom (depth + 1)) ++ rest) := by
  cases nodes with
  | nil => exact fun visit hvisit => (hrest visit hvisit).trans (Nat.le_succ depth)
  | cons node nodes =>
      rw [List.flatMap_cons, visitsFrom_eq]
      rintro visit ⟨⟩
      exact Nat.le_refl _

/-- The visits of a node say which node it is, and where they end. -/
def IsKnownByVisits (node : Node) : Prop :=
  ∀ {other : Node} {depth : Nat} {rest behind : List Visit}, IsBack depth rest →
    IsBack depth behind → node.visitsFrom depth ++ rest = other.visitsFrom depth ++ behind →
      node = other ∧ rest = behind

/-- Nodes in a row are known by their visits, if each of them is. -/
private theorem eq_of_row {depth : Nat} {nodes others : List Node} {rest behind : List Visit}
    (hnodes : ∀ node ∈ nodes, node.IsKnownByVisits) (hrest : IsBack depth rest)
    (hbehind : IsBack depth behind)
    (hsame : nodes.flatMap (fun node => node.visitsFrom (depth + 1)) ++ rest =
      others.flatMap (fun node => node.visitsFrom (depth + 1)) ++ behind) :
    nodes = others ∧ rest = behind := by
  induction nodes generalizing others with
  | nil =>
      cases others with
      | nil => exact ⟨rfl, hsame⟩
      | cons other others =>
          -- The list would go on one level deeper.
          rw [List.flatMap_nil, List.nil_append, List.flatMap_cons, visitsFrom_eq] at hsame
          have hdepth := hrest (other.visit (depth + 1)) (by rw [hsame]; rfl)
          exact absurd hdepth (Nat.not_succ_le_self depth)
  | cons node nodes ih =>
      rw [List.forall_mem_cons] at hnodes
      cases others with
      | nil =>
          rw [List.flatMap_nil, List.nil_append, List.flatMap_cons, visitsFrom_eq] at hsame
          have hdepth := hbehind (node.visit (depth + 1)) (by rw [← hsame]; rfl)
          exact absurd hdepth (Nat.not_succ_le_self depth)
      | cons other others =>
          rw [List.flatMap_cons, List.flatMap_cons, List.append_assoc, List.append_assoc] at hsame
          obtain ⟨hnode, hrow⟩ :=
            hnodes.1 (isBack_row hrest nodes) (isBack_row hbehind others) hsame
          obtain ⟨hothers, hend⟩ := ih hnodes.2 hrow
          exact ⟨by rw [hnode, hothers], hend⟩

theorem isKnownByVisits (node : Node) : node.IsKnownByVisits := by
  induction node using Node.induction with
  | step node ih =>
      intro other depth rest behind hrest hbehind hsame
      rw [visitsFrom_eq, visitsFrom_eq, List.cons_append, List.cons_append,
        List.cons.injEq] at hsame
      obtain ⟨hvisit, hbelow⟩ := hsame
      obtain ⟨hchildren, hend⟩ := eq_of_row ih hrest hbehind hbelow
      rw [visit, visit, Visit.mk.injEq] at hvisit
      exact ⟨eq_of_children hvisit.2.1 hvisit.2.2 hchildren, hend⟩

/-- Two nodes with the same visits are the same. -/
theorem allVisits_injective : Function.Injective Node.allVisits := by
  intro node other hsame
  have hend : IsBack 0 [] := by rintro visit ⟨⟩
  exact (node.isKnownByVisits hend hend (by rw [List.append_nil, List.append_nil]; exact hsame)).1

end Node

/-! ## Visits of moved trees -/

/-- The node with its locations moved. -/
def Node.relocate (move : Location → Location) : Node → Node
  | program p => program (p.relocate move)
  | declaration d => declaration (d.relocate move)
  | assignment a => assignment (a.relocate move)
  | conditional c => conditional (c.relocate move)
  | elif block => elif (block.relocate move)
  | otherwise block => otherwise (block.relocate move)
  | loop block => loop (block.relocate move)
  | conditions cs => conditions (cs.relocate move)
  | comparison c => comparison (c.relocate move)
  | expr e => expr (e.relocate move)

/-- The visit with its location moved. -/
def Visit.relocate (move : Location → Location) (visit : Visit) : Visit :=
  { visit with location := visit.location.map move }

/-- What a visit says apart from where the node is. -/
def Visit.bare (visit : Visit) : Nat × Label := (visit.depth, visit.label)

variable (move : Location → Location)

namespace Node

private theorem label_relocate (node : Node) : (node.relocate move).label = node.label := by
  cases node with
  | conditions cs => cases cs <;> rfl
  | expr e => cases e <;> rfl
  | _ => simp [relocate, label]

private theorem location?_relocate (node : Node) :
    (node.relocate move).location? = node.location?.map move := by
  cases node with
  | conditions cs => exact congrArg some (cs.location_relocate move)
  | expr e => exact congrArg some (e.location_relocate move)
  | _ => rfl

private theorem visit_relocate (node : Node) (depth : Nat) :
    (node.relocate move).visit depth = (node.visit depth).relocate move := by
  rw [visit, label_relocate, location?_relocate]
  rfl

private theorem statementNode_relocate (s : Statement) :
    (s.relocate move).node = s.node.relocate move := by
  cases s <;> rfl

private theorem guardedChildren_relocate (block : Guarded) :
    guardedChildren (block.relocate move) = (guardedChildren block).map (relocate move) := by
  simp only [guardedChildren, Guarded.relocate, List.map_cons, List.map_map]
  rfl

private theorem children_relocate (node : Node) :
    (node.relocate move).children = node.children.map (relocate move) := by
  cases node with
  | program p =>
      simp only [relocate, children, Program.relocate, List.map_map]
      exact List.map_congr_left fun s _ => statementNode_relocate move s
  | declaration d => cases hinitial : d.initial <;> simp [relocate, children, hinitial]
  | assignment a => rfl
  | conditional c =>
      simp only [relocate, children, Conditional.relocate, guardedChildren_relocate,
        List.map_append, List.map_map]
      cases c.otherwise <;> rfl
  | elif block => exact guardedChildren_relocate move block
  | otherwise block =>
      simp only [relocate, children, Otherwise.relocate, List.map_map]
      rfl
  | loop block => exact guardedChildren_relocate move block
  | conditions cs => cases cs <;> rfl
  | comparison c => rfl
  | expr e => cases e <;> rfl

private theorem visitsFrom_relocate (node : Node) (depth : Nat) :
    (node.relocate move).visitsFrom depth =
      (node.visitsFrom depth).map (Visit.relocate move) := by
  induction node using Node.induction generalizing depth with
  | step node ih =>
      rw [visitsFrom_eq, visitsFrom_eq, visit_relocate, children_relocate, List.flatMap_map,
        List.map_cons, List.map_flatMap]
      congr 1
      exact List.flatMap_congr fun child hchild => ih child hchild (depth + 1)

end Node

/-! ## Visits without locations -/

/-- The location of a node with a label, when it does not matter where the node is: a program as a
whole is nowhere. -/
def Label.somewhere? : Label → Option Location
  | program _ => none
  | _ => some .first

/-- The visit that says something at some depth, when it does not matter where the node is. -/
def Visit.ofBare (said : Nat × Label) : Visit := ⟨said.1, said.2, said.2.somewhere?⟩

namespace Node

private theorem location?_map_first (node : Node) :
    node.location?.map (fun _ => Location.first) = node.label.somewhere? := by
  cases node with
  | conditions cs => cases cs <;> rfl
  | expr e => cases e <;> rfl
  | _ => rfl

private theorem exists_of_mem_visitsFrom (node : Node) (depth : Nat) :
    ∀ visit ∈ node.visitsFrom depth, ∃ (part : Node) (level : Nat), visit = part.visit level := by
  induction node using Node.induction generalizing depth with
  | step node ih =>
      rw [visitsFrom_eq, List.forall_mem_cons]
      refine ⟨⟨node, depth, rfl⟩, fun visit hvisit => ?_⟩
      obtain ⟨child, hchild, hbelow⟩ := List.mem_flatMap.mp hvisit
      exact ih child hchild (depth + 1) visit hbelow

/-- Visits at one place are known by what they say apart from it. -/
private theorem map_relocate_first (node : Node) (depth : Nat) :
    (node.visitsFrom depth).map (Visit.relocate fun _ => .first) =
      ((node.visitsFrom depth).map Visit.bare).map Visit.ofBare := by
  rw [List.map_map]
  refine List.map_congr_left fun visit hvisit => ?_
  obtain ⟨part, level, rfl⟩ := node.exists_of_mem_visitsFrom depth visit hvisit
  exact congrArg (Visit.mk level part.label) part.location?_map_first

end Node

/-- Programs with the same visits apart from locations are equal up to locations. -/
theorem Program.bare_eq_of_visits {p q : Program}
    (hsame : (Node.program p).allVisits.map Visit.bare =
      (Node.program q).allVisits.map Visit.bare) : p.bare = q.bare := by
  have hbare : ∀ r : Program, (Node.program r.bare).allVisits =
      ((Node.program r).allVisits.map Visit.bare).map Visit.ofBare := fun r =>
    ((Node.program r).visitsFrom_relocate _ 0).trans ((Node.program r).map_relocate_first 0)
  have hvisits : (Node.program p.bare).allVisits = (Node.program q.bare).allVisits := by
    rw [hbare, hbare, hsame]
  exact Node.program.inj (Node.allVisits_injective hvisits)

private theorem Program.map_bare_visits (p : Program) :
    (Node.program p.bare).allVisits.map Visit.bare = (Node.program p).allVisits.map Visit.bare := by
  have hmoved : (Node.program p.bare).allVisits =
      (Node.program p).allVisits.map (Visit.relocate fun _ => .first) :=
    (Node.program p).visitsFrom_relocate _ 0
  rw [hmoved, List.map_map]
  rfl

/-- A walk visits the nodes of a program that have no node of a closed kind above them, each of
them once: a node before what is below it, what is below a child before the next child, and every
node one level below its parent.  When nothing is closed the visits say which program it is, and
without their locations they say which it is up to locations. -/
theorem visits_faithful :
    (∀ (closed : NodeKind → Bool) (p : Program), ∃ addresses,
      Node.InPreorder ((Node.program p).Reaches closed) (Node.program p).at? 0 addresses
        ((Node.program p).visits closed)) ∧
    ∀ p q : Program,
      ((Node.program p).allVisits = (Node.program q).allVisits ↔ p = q) ∧
      ((Node.program p).allVisits.map Visit.bare = (Node.program q).allVisits.map Visit.bare ↔
        p.bare = q.bare) := by
  refine ⟨fun closed p => (Node.program p).exists_inPreorder 0, fun p q => ⟨⟨?_, ?_⟩, ?_, ?_⟩⟩
  · exact fun hsame => Node.program.inj (Node.allVisits_injective hsame)
  · rintro rfl
    rfl
  · exact Program.bare_eq_of_visits
  · intro hbare
    rw [← p.map_bare_visits, ← q.map_bare_visits, hbare]

end LoopLang
