import LoopLang.Proofs.Tree.Nodes
import LoopLang.Tree.Walk
import Mathlib.Data.List.Forall2
import Mathlib.Data.List.Induction
import Mathlib.Data.List.Lex

/-!
# The order of a walk

A walk lists the visit of a node, and then the walks of its children (`Node.walk_nil`).  To say
which nodes that makes and in which order, each node of a tree gets an address: the numbers of the
children to go down to from the root.  A walk that does not enter closed kinds visits the addresses
that have no node of such a kind above them, each of them once and in lexicographic order, and it
visits each at a depth that is the length of the address (`Node.exists_inPreorder`).  In that order
a node comes before everything below it, and everything below a child before the next child.
-/

namespace LoopLang

variable {closed : NodeKind → Bool}

/-! ## A walk and the walks of the children -/

section

variable (closed)

/-- The walks of nodes, one behind the other. -/
def Node.walkAll (depth : Nat) (nodes : List Node) (behind : List Visit) : List Visit :=
  nodes.foldr (fun node => node.walk closed depth) behind

private theorem Statement.walk_node (depth : Nat) (s : Statement) :
    s.node.walk closed depth = s.walk closed depth := by
  cases s <;> rfl

private theorem Node.walkAll_guardedChildren (depth : Nat) (block : Guarded) (behind : List Visit) :
    walkAll closed depth (guardedChildren block) behind =
      block.walkInside closed depth behind := by
  simp only [walkAll, guardedChildren, List.foldr_cons, List.foldr_map]
  rfl

private theorem Node.walkAll_append (depth : Nat) (nodes others : List Node) (behind : List Visit) :
    walkAll closed depth (nodes ++ others) behind =
      walkAll closed depth nodes (walkAll closed depth others behind) :=
  List.foldr_append

/-- A walk stops at a node, and goes on with its children, unless the kind of the node is closed. -/
private theorem Node.walk_eq (depth : Nat) (node : Node) (behind : List Visit) :
    node.walk closed depth behind =
      node.visit depth ::
        if closed node.kind then behind
        else walkAll closed (depth + 1) node.children behind := by
  cases node with
  | program p =>
      simp only [walkAll, children, List.foldr_map, Statement.walk_node]
      rfl
  | declaration d =>
      cases hinitial : d.initial <;>
        simp [walk, Declaration.walk, enter, walkAll, children, hinitial]
  | assignment a => rfl
  | conditional c =>
      simp only [walk, Conditional.walk, enter, children, walkAll_append, walkAll_guardedChildren]
      cases hotherwise : c.otherwise <;>
        simp [Conditional.walkBehind, walkAll, hotherwise, List.foldr_map, walk]
  | elif block =>
      simp only [children, walkAll_guardedChildren]
      rfl
  | otherwise block =>
      simp only [walk, Otherwise.walk, enter, children, walkAll, List.foldr_map,
        Assignment.walkAll]
  | loop block =>
      simp only [children, walkAll_guardedChildren]
      rfl
  | conditions cs => cases cs <;> rfl
  | comparison c => rfl
  | expr e => cases e <;> rfl

end

namespace Node

private theorem walkAll_eq_flatMap {depth : Nat} {nodes : List Node}
    (happend : ∀ node ∈ nodes, ∀ behind,
      node.walk closed depth behind = node.walk closed depth [] ++ behind) (behind : List Visit) :
    walkAll closed depth nodes behind =
      nodes.flatMap (fun node => node.walk closed depth []) ++ behind := by
  induction nodes with
  | nil => rfl
  | cons node nodes ih =>
      rw [List.forall_mem_cons] at happend
      rw [walkAll, List.foldr_cons, ← walkAll, happend.1, ih happend.2, List.flatMap_cons,
        List.append_assoc]

/-- What follows a walk in the list does not change it. -/
private theorem walk_append (node : Node) (depth : Nat) (behind : List Visit) :
    node.walk closed depth behind = node.walk closed depth [] ++ behind := by
  induction node using Node.induction generalizing depth behind with
  | step node ih =>
      have happend : ∀ child ∈ node.children, ∀ behind,
          child.walk closed (depth + 1) behind = child.walk closed (depth + 1) [] ++ behind :=
        fun child hchild => ih child hchild (depth + 1)
      rw [walk_eq, walk_eq closed depth node []]
      split
      · rfl
      · rw [walkAll_eq_flatMap happend, walkAll_eq_flatMap happend, List.append_nil]
        rfl

/-- A walk is the visit of a node and, unless the kind of the node is closed, the walks of its
children, each one level deeper. -/
theorem walk_nil (node : Node) (depth : Nat) :
    node.walk closed depth [] =
      node.visit depth ::
        if closed node.kind then []
        else node.children.flatMap fun child => child.walk closed (depth + 1) [] := by
  rw [walk_eq, walkAll_eq_flatMap fun child _ => child.walk_append (depth + 1), List.append_nil]

/-! ## Addresses -/

/-- The node at an address, which says at each level what child to go down to. -/
def at? : Node → List Nat → Option Node
  | node, [] => some node
  | node, i :: address => node.children[i]?.bind fun child => child.at? address

/-- A walk reaches an address: there is a node, and no node above it is of a closed kind. -/
def Reaches (closed : NodeKind → Bool) (node : Node) (address : List Nat) : Prop :=
  (node.at? address).isSome ∧
    ∀ above, above <+: address → above ≠ address →
      ∀ part ∈ node.at? above, closed part.kind = false

private theorem reaches_nil (node : Node) : node.Reaches closed [] := by
  refine ⟨rfl, fun above hprefix hne => ?_⟩
  exact absurd (List.prefix_nil.mp hprefix) hne

private theorem reaches_cons {node : Node} {i : Nat} {address : List Nat} :
    node.Reaches closed (i :: address) ↔
      closed node.kind = false ∧ ∃ child, node.children[i]? = some child ∧
        child.Reaches closed address := by
  constructor
  · rintro ⟨hsome, hopen⟩
    refine ⟨hopen [] List.nil_prefix (List.cons_ne_nil i address).symm node rfl, ?_⟩
    obtain ⟨part, hpart⟩ := Option.isSome_iff_exists.mp hsome
    obtain ⟨child, hchild, hbelow⟩ := Option.bind_eq_some_iff.mp hpart
    refine ⟨child, hchild, Option.isSome_iff_exists.mpr ⟨part, hbelow⟩, ?_⟩
    intro above hprefix hne other hother
    refine hopen (i :: above) (List.cons_prefix_cons.mpr ⟨rfl, hprefix⟩) (by simpa using hne)
      other ?_
    exact Option.bind_eq_some_iff.mpr ⟨child, hchild, hother⟩
  · rintro ⟨hnode, child, hchild, hsome, hopen⟩
    refine ⟨by rwa [at?, hchild], ?_⟩
    intro above hprefix hne other hother
    cases above with
    | nil =>
        obtain rfl : node = other := by simpa [at?] using hother
        exact hnode
    | cons j above =>
        obtain ⟨rfl, hrest⟩ := List.cons_prefix_cons.mp hprefix
        rw [at?, hchild] at hother
        exact hopen above hrest (by simpa using hne) other hother

/-! ## Lexicographic order -/

/-- Addresses with visits, in the order of a walk: the addresses are those that are reached, in
lexicographic order, and each has the visit of the node that is found there. -/
structure InPreorder (reached : List Nat → Prop) (found : List Nat → Option Node) (depth : Nat)
    (addresses : List (List Nat)) (visits : List Visit) : Prop where
  sorted : addresses.Pairwise (· < ·)
  mem_iff : ∀ address, address ∈ addresses ↔ reached address
  visited : List.Forall₂
    (fun address visit => ∃ part ∈ found address, visit = part.visit (depth + address.length))
    addresses visits

/-- The node at an address below nodes in a row. -/
def below? (nodes : List Node) : List Nat → Option Node
  | [] => none
  | i :: address => nodes[i]?.bind fun node => node.at? address

/-- A walk of nodes in a row reaches an address below them. -/
def ReachesBelow (closed : NodeKind → Bool) (nodes : List Node) (address : List Nat) : Prop :=
  ∃ i rest node, address = i :: rest ∧ nodes[i]? = some node ∧ node.Reaches closed rest

private theorem getElem?_concat_eq_some_iff {nodes : List Node} {node found : Node} {i : Nat} :
    (nodes ++ [node])[i]? = some found ↔
      nodes[i]? = some found ∨ i = nodes.length ∧ node = found := by
  rcases lt_or_ge i nodes.length with hlt | hge
  · rw [List.getElem?_append_left hlt]
    simp [hlt.ne]
  · rw [List.getElem?_append_right hge, List.getElem?_eq_none hge,
      List.getElem?_singleton]
    simp only [Option.ite_none_right_eq_some, Option.some.injEq, reduceCtorEq, false_or]
    rw [show i - nodes.length = 0 ↔ i = nodes.length by omega]

private theorem reachesBelow_concat {nodes : List Node} {node : Node} {address : List Nat} :
    ReachesBelow closed (nodes ++ [node]) address ↔
      ReachesBelow closed nodes address ∨
        ∃ rest, node.Reaches closed rest ∧ nodes.length :: rest = address := by
  constructor
  · rintro ⟨i, rest, found, rfl, hfound, hreaches⟩
    obtain hfound | ⟨rfl, rfl⟩ := getElem?_concat_eq_some_iff.mp hfound
    · exact Or.inl ⟨i, rest, found, rfl, hfound, hreaches⟩
    · exact Or.inr ⟨rest, hreaches, rfl⟩
  · rintro (⟨i, rest, found, rfl, hfound, hreaches⟩ | ⟨rest, hreaches, rfl⟩)
    · exact ⟨i, rest, found, rfl, getElem?_concat_eq_some_iff.mpr (Or.inl hfound), hreaches⟩
    · exact ⟨_, rest, node, rfl, getElem?_concat_eq_some_iff.mpr (Or.inr ⟨rfl, rfl⟩), hreaches⟩

/-- Below nodes in a row an address leads to a child first. -/
private theorem mem_below?_iff {nodes : List Node} {part : Node} {i : Nat} {address : List Nat} :
    part ∈ below? nodes (i :: address) ↔ ∃ node, nodes[i]? = some node ∧ part ∈ node.at? address :=
  Option.bind_eq_some_iff

private theorem below?_concat_of_mem {nodes : List Node} {part : Node} {address : List Nat}
    (node : Node) (hpart : part ∈ below? nodes address) :
    part ∈ below? (nodes ++ [node]) address := by
  cases address with
  | nil => simp [below?] at hpart
  | cons i address =>
      obtain ⟨found, hfound, hbelow⟩ := mem_below?_iff.mp hpart
      exact mem_below?_iff.mpr ⟨found, getElem?_concat_eq_some_iff.mpr (Or.inl hfound), hbelow⟩

/-- The walks of nodes in a row make one list in order, if each of them does. -/
private theorem exists_inPreorder_below {depth : Nat} {nodes : List Node}
    (hnodes : ∀ node ∈ nodes, ∃ addresses, InPreorder (node.Reaches closed) node.at? (depth + 1)
      addresses (node.walk closed (depth + 1) [])) :
    ∃ addresses, InPreorder (ReachesBelow closed nodes) (below? nodes) depth addresses
      (nodes.flatMap fun node => node.walk closed (depth + 1) []) := by
  induction nodes using List.reverseRecOn with
  | nil =>
      refine ⟨[], List.Pairwise.nil, fun address => ?_, List.Forall₂.nil⟩
      simp [ReachesBelow]
  | append_singleton nodes node ih =>
      rw [List.forall_mem_append, List.forall_mem_singleton] at hnodes
      obtain ⟨front, hfront⟩ := ih hnodes.1
      obtain ⟨back, hback⟩ := hnodes.2
      refine ⟨front ++ back.map (nodes.length :: ·), ?_, fun address => ?_, ?_⟩
      · -- What is below the nodes before comes first, whatever there is below them.
        rw [List.pairwise_append, List.pairwise_map]
        refine ⟨hfront.sorted,
          hback.sorted.imp fun hlt => List.cons_lt_cons_iff.mpr (Or.inr ⟨rfl, hlt⟩), ?_⟩
        intro earlier hearlier later hlater
        obtain ⟨i, rest, found, rfl, hfound, -⟩ := (hfront.mem_iff earlier).mp hearlier
        obtain ⟨address, -, rfl⟩ := List.mem_map.mp hlater
        have hlt : i < nodes.length := (List.getElem?_eq_some_iff.mp hfound).1
        exact List.cons_lt_cons_iff.mpr (Or.inl hlt)
      · rw [List.mem_append, hfront.mem_iff, List.mem_map, reachesBelow_concat]
        simp only [hback.mem_iff]
      · rw [List.flatMap_append, List.flatMap_singleton]
        refine List.rel_append (hfront.visited.imp ?_)
          (List.forall₂_map_left_iff.mpr (hback.visited.imp ?_))
        · rintro address visit ⟨part, hpart, hvisit⟩
          exact ⟨part, below?_concat_of_mem node hpart, hvisit⟩
        · rintro address visit ⟨part, hpart, rfl⟩
          refine ⟨part, mem_below?_iff.mpr ⟨node, List.getElem?_concat_length, hpart⟩, ?_⟩
          rw [List.length_cons, Nat.add_assoc, Nat.add_comm 1]

/-- A walk of a node visits, in lexicographic order, the addresses it reaches. -/
theorem exists_inPreorder (node : Node) (depth : Nat) :
    ∃ addresses, InPreorder (node.Reaches closed) node.at? depth addresses
      (node.walk closed depth []) := by
  induction node using Node.induction generalizing depth with
  | step node ih =>
      rw [walk_nil]
      by_cases hkind : closed node.kind = true
      -- Of a closed node nothing but the node is visited.
      · refine ⟨[[]], List.pairwise_singleton _ _, fun address => ?_, ?_⟩
        · cases address with
          | nil => simpa using node.reaches_nil
          | cons i address => simp [reaches_cons, hkind]
        · rw [if_pos hkind]
          exact .cons ⟨node, rfl, rfl⟩ .nil
      · obtain ⟨addresses, hbelow⟩ :=
          exists_inPreorder_below fun child hchild => ih child hchild (depth + 1)
        refine ⟨[] :: addresses, ?_, fun address => ?_, ?_⟩
        · refine List.pairwise_cons.mpr ⟨fun address hmem => ?_, hbelow.sorted⟩
          obtain ⟨i, rest, child, rfl, -⟩ := (hbelow.mem_iff address).mp hmem
          exact List.nil_lt_cons i rest
        · rw [List.mem_cons, hbelow.mem_iff]
          cases address with
          | nil => simpa using node.reaches_nil
          | cons i address => simp [reaches_cons, hkind, ReachesBelow]
        · rw [if_neg hkind]
          refine .cons ⟨node, rfl, rfl⟩ (hbelow.visited.imp ?_)
          rintro address visit ⟨part, hpart, rfl⟩
          cases address with
          | nil => simp [below?] at hpart
          | cons i address => exact ⟨part, hpart, rfl⟩

end Node

end LoopLang
