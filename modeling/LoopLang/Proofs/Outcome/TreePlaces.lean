import LoopLang.Proofs.Lexing.Places
import LoopLang.Proofs.Outcome.RoundTrip
import LoopLang.Proofs.Outcome.Segments
import LoopLang.Proofs.Tree.Nodes

/-!
# Where the nodes of a program stand

Whatever a parse returns, on a valid text or not, all of its nodes are well formed, and each one
is located at a token that says what the node is (`Node.Placed`): the word that begins a block, the
name of a leaf, the sign between two operands.  A comparison has no token of its own, and is located
where its left operand is.

Both are facts about sentences (`Grammar.IsStatement.settled`): a node is made where its token is
passed.  Every statement of a program is denoted by tokens of the text, so its nodes are located at
tokens of the text.  The statement itself is located at the first of them, which puts the statements
in the order of the text.
-/

namespace LoopLang

open Grammar

/-! ## The token of a node -/

/-- One of some tokens has this lexeme, and stands at this place. -/
def StandsAt (tokens : List Token) (lexeme : Lexeme) (location : Location) : Prop :=
  ∃ token ∈ tokens, token.lexeme = lexeme ∧ token.location = location

/-- Whether a node is located at the token that it is made for, one of some tokens.  A comparison is
located where its left operand is. -/
def Node.Placed (tokens : List Token) : Node → Prop
  | program _ => True
  | declaration d => StandsAt tokens (.keyword .intWord) d.location
  | assignment a => StandsAt tokens (.ident a.target) a.location
  | conditional c => StandsAt tokens (.keyword .ifWord) c.head.location
  | elif block => StandsAt tokens (.keyword .elifWord) block.location
  | otherwise block => StandsAt tokens (.keyword .elseWord) block.location
  | loop block => StandsAt tokens (.keyword .loopWord) block.location
  | conditions (.single c) => c.location = c.left.location
  | conditions (.combined op _ _ location) => StandsAt tokens (.connective op) location
  | comparison c => c.location = c.left.location
  | expr (.ident name location) => StandsAt tokens (.ident name) location
  | expr (.number digits location) => StandsAt tokens (.number digits) location
  | expr (.binary op _ _ location) => StandsAt tokens (.arith op) location

/-- A node is well formed and in its place. -/
def Node.Settled (tokens : List Token) (node : Node) : Prop :=
  node.label.WellFormed ∧ node.Placed tokens

/-! ## Sentences make settled nodes -/

namespace Grammar

variable {room : Nat} {all tokens : List Token} {keyword : Keyword}
  (hlexical : ∀ token ∈ all, token.lexeme.Lexical)

include hlexical

private theorem isName_of_mem {token : Token} {name : String} (hmem : token ∈ all)
    (htoken : token.lexeme = .ident name) : IsName name := by
  have hname := hlexical token hmem
  rw [htoken] at hname
  exact hname

private theorem IsExpr.settled {level : Option Precedence} {e : Expr}
    (h : IsExpr room level tokens e) (hwithin : tokens ⊆ all) :
    (Node.expr e).Everywhere (Node.Settled all) := by
  induction h with
  | @ident _ token name htoken =>
      have hmem : token ∈ all := hwithin List.mem_cons_self
      rw [Node.everywhere_ident]
      exact ⟨isName_of_mem hlexical hmem htoken, token, hmem, htoken, rfl⟩
  | @number _ token digits htoken =>
      have hmem : token ∈ all := hwithin List.mem_cons_self
      have hdigits := hlexical token hmem
      rw [htoken] at hdigits
      rw [Node.everywhere_number]
      exact ⟨hdigits, token, hmem, htoken, rfl⟩
  | parenthesized _ _ _ ih =>
      -- Parentheses make no node of their own.
      apply ih
      rw [List.cons_subset, List.append_subset] at hwithin
      exact hwithin.2.1
  | single _ ih => exact ih hwithin
  | @binary _ _ left right sign _ _ _ _ hsign _ _ ihleft ihright =>
      rw [List.append_subset, List.cons_subset] at hwithin
      obtain ⟨hleft, hmem, hright⟩ := hwithin
      rw [Node.everywhere_binary]
      exact ⟨⟨trivial, sign, hmem, hsign, rfl⟩, ihleft hleft, ihright hright⟩

private theorem IsComparison.settled {c : Comparison} (h : IsComparison room tokens c)
    (hwithin : tokens ⊆ all) : (Node.comparison c).Everywhere (Node.Settled all) := by
  obtain ⟨hleft, hsign, hright⟩ := h
  rw [List.append_subset, List.cons_subset] at hwithin
  rw [Node.everywhere_comparison]
  exact ⟨⟨trivial, rfl⟩, hleft.settled hlexical hwithin.1, hright.settled hlexical hwithin.2.2⟩

private theorem IsConditions.settled {cs : Conditions} (h : IsConditions room tokens cs)
    (hwithin : tokens ⊆ all) : (Node.conditions cs).Everywhere (Node.Settled all) := by
  induction h with
  | single htokens =>
      have hcomparison := htokens.settled hlexical hwithin
      obtain ⟨⟨-, hplaced⟩, -⟩ := Node.everywhere_comparison.mp hcomparison
      rw [Node.everywhere_single]
      exact ⟨⟨trivial, hplaced⟩, hcomparison⟩
  | @combined _ _ word _ _ _ _ hword hright ih =>
      rw [List.append_subset, List.cons_subset] at hwithin
      obtain ⟨hleft, hmem, hbehind⟩ := hwithin
      rw [Node.everywhere_combined]
      exact ⟨⟨trivial, word, hmem, hword, rfl⟩, ih hleft, hright.settled hlexical hbehind⟩

private theorem IsAssignment.settled {a : Assignment} (h : IsAssignment room tokens a)
    (hwithin : tokens ⊆ all) : (Node.assignment a).Everywhere (Node.Settled all) := by
  obtain ⟨htoken, -, hvalue, -⟩ := h
  rw [List.cons_subset, List.cons_subset, List.append_subset] at hwithin
  obtain ⟨hmem, -, hbehind, -⟩ := hwithin
  rw [Node.everywhere_assignment]
  exact ⟨⟨isName_of_mem hlexical hmem htoken, _, hmem, htoken, rfl⟩,
    hvalue.settled hlexical hbehind⟩

private theorem IsNames.isName {names : List String} (h : IsNames tokens names)
    (hwithin : tokens ⊆ all) :
    ∀ name ∈ names, IsName name := by
  induction h with
  | one htoken =>
      rw [List.forall_mem_singleton]
      exact isName_of_mem hlexical (hwithin List.mem_cons_self) htoken
  | more _ _ htoken ih =>
      rw [List.append_subset, List.cons_subset, List.cons_subset] at hwithin
      obtain ⟨hfront, -, hmem, -⟩ := hwithin
      rw [List.forall_mem_append, List.forall_mem_singleton]
      exact ⟨ih hfront, isName_of_mem hlexical hmem htoken⟩

private theorem IsDeclaration.settled {d : Declaration} (h : IsDeclaration room tokens d)
    (hdistinct : d.names.Nodup) (hwithin : tokens ⊆ all) :
    (Node.declaration d).Everywhere (Node.Settled all) := by
  obtain ⟨hword, hnames, hinitial, -⟩ := h
  rw [List.cons_subset, List.append_subset, List.append_subset] at hwithin
  obtain ⟨hmem, hfront, hback, -⟩ := hwithin
  rw [Node.everywhere_declaration]
  refine ⟨⟨⟨hnames.ne_nil, hdistinct, hnames.isName hlexical hfront⟩, _, hmem, hword, rfl⟩, ?_⟩
  cases hinitial with
  | none => simp
  | some hvalue =>
      obtain ⟨-, hexpr⟩ := hvalue
      rintro _ ⟨⟩
      exact hexpr.settled hlexical (List.cons_subset.mp hback).2

private theorem IsBody.settled {body : List Assignment} (h : IsBody room tokens body)
    (hwithin : tokens ⊆ all) : ∀ a ∈ body, (Node.assignment a).Everywhere (Node.Settled all) := by
  obtain ⟨-, htokens, -⟩ := h
  rw [List.cons_subset, List.append_subset] at hwithin
  intro a hmem
  obtain ⟨part, hpart, ha⟩ := htokens.exists_tokens a hmem
  exact ha.settled hlexical (List.Subset.trans hpart hwithin.2.1)

/-- What is below a guarded block is settled, and so is the word that begins it. -/
theorem IsGuarded.settled {block : Guarded} (h : IsGuarded room keyword tokens block)
    (hwithin : tokens ⊆ all) : StandsAt all (.keyword keyword) block.location ∧
      ∀ child ∈ Node.guardedChildren block, child.Everywhere (Node.Settled all) := by
  obtain ⟨hword, hconditions, -, hbody⟩ := h
  rw [List.cons_subset, List.append_subset, List.cons_subset] at hwithin
  obtain ⟨hmem, hfront, -, hback⟩ := hwithin
  rw [Node.forall_mem_guardedChildren]
  exact ⟨⟨_, hmem, hword, rfl⟩, hconditions.settled hlexical hfront, hbody.settled hlexical hback⟩

private theorem IsOtherwise.settled {block : Otherwise} (h : IsOtherwise room tokens block)
    (hwithin : tokens ⊆ all) : (Node.otherwise block).Everywhere (Node.Settled all) := by
  obtain ⟨hword, -, hbody⟩ := h
  rw [List.cons_subset, List.cons_subset] at hwithin
  obtain ⟨hmem, -, hbehind⟩ := hwithin
  rw [Node.everywhere_otherwise]
  exact ⟨⟨trivial, _, hmem, hword, rfl⟩, hbody.settled hlexical hbehind⟩

private theorem IsConditional.settled {c : Conditional} (h : IsConditional room tokens c)
    (hwithin : tokens ⊆ all) : (Node.conditional c).Everywhere (Node.Settled all) := by
  obtain ⟨hhead, helifs, hotherwise⟩ := h
  rw [List.append_subset, List.append_subset] at hwithin
  obtain ⟨hfront, hmiddle, hback⟩ := hwithin
  obtain ⟨hword, hchildren⟩ := hhead.settled hlexical hfront
  rw [Node.everywhere_conditional]
  refine ⟨⟨trivial, hword⟩, hchildren, fun block hmem => ?_, ?_⟩
  · obtain ⟨part, hpart, hblock⟩ := helifs.exists_tokens block hmem
    obtain ⟨helif, hbelow⟩ := hblock.settled hlexical (List.Subset.trans hpart hmiddle)
    exact Node.everywhere_elif.mpr ⟨⟨trivial, helif⟩, hbelow⟩
  · cases hotherwise with
    | none => simp
    | some hblock =>
        rintro _ ⟨⟩
        exact hblock.settled hlexical hback

/-- All nodes of a statement are settled among the tokens that denote it. -/
theorem IsStatement.settled {s : Statement} (h : IsStatement room tokens s)
    (hdistinct : s.DistinctNames) (hwithin : tokens ⊆ all) :
    s.node.Everywhere (Node.Settled all) := by
  cases h with
  | declaration htokens => exact htokens.settled hlexical hdistinct hwithin
  | assignment htokens => exact htokens.settled hlexical hwithin
  | conditional htokens => exact htokens.settled hlexical hwithin
  | loop htokens =>
      obtain ⟨hword, hchildren⟩ := htokens.settled hlexical hwithin
      exact Node.everywhere_loop.mpr ⟨⟨trivial, hword⟩, hchildren⟩

end Grammar

/-! ## The order of statements -/

/-- A statement is located at the first of the tokens that denote it. -/
private theorem Grammar.IsStatement.exists_first {room : Nat} {tokens : List Token} {s : Statement}
    (h : IsStatement room tokens s) :
    ∃ token rest, tokens = token :: rest ∧ token.location = s.location := by
  cases h with
  | declaration htokens =>
      obtain ⟨-, -, -, -⟩ := htokens
      exact ⟨_, _, rfl, rfl⟩
  | assignment htokens =>
      obtain ⟨-, -, -, -⟩ := htokens
      exact ⟨_, _, rfl, rfl⟩
  | conditional htokens =>
      obtain ⟨⟨-, -, -, -⟩, -, -⟩ := htokens
      exact ⟨_, _, rfl, rfl⟩
  | loop htokens =>
      obtain ⟨-, -, -, -⟩ := htokens
      exact ⟨_, _, rfl, rfl⟩

/-- The statements of segments are located at some of their tokens, in the same order. -/
private theorem sublist_locations {limit : Nat} {segments : List Segment}
    (hsound : ∀ segment ∈ segments, segment.Sound limit) :
    ((segments.filterMap Segment.outcome).map Statement.location).Sublist
      ((segments.flatMap Segment.tokens).map Token.location) := by
  induction segments with
  | nil => exact List.Sublist.refl _
  | cons segment segments ih =>
      rw [List.forall_mem_cons] at hsound
      have hrest := (ih hsound.2).trans
        (List.sublist_append_right (segment.tokens.map Token.location) _)
      rw [List.flatMap_cons, List.map_append]
      cases houtcome : segment.outcome with
      | none =>
          rw [List.filterMap_cons_none houtcome]
          exact hrest
      | some s =>
          obtain ⟨token, rest, htokens, hlocation⟩ := (hsound.1.kept s houtcome).1.exists_first
          rw [List.filterMap_cons_some houtcome, htokens, List.map_cons, List.map_cons, hlocation]
          exact ((ih hsound.2).trans (List.sublist_append_right _ _)).cons_cons _

/-- The statements of a program stand one behind the other. -/
theorem pairwise_location_lt_parse (source : String) (limit : Nat) :
    (parse source limit).program.statements.Pairwise fun s t => s.location < t.location := by
  have hat := Reader.atStatement_start source limit
  obtain ⟨outcomes, later, hattempts, hresult, hlast⟩ := Reader.program_apply hat
  -- The calls of the statement rule cut the text into segments, which follow one another.
  obtain ⟨segments, hcalls, houtcomes, hsound⟩ := hattempts.exists_segments hat
  have htokens : (Cursor.start source).tokens = segments.flatMap Segment.tokens := by
    have hahead := hcalls.ahead_eq
    rw [hlast, List.append_nil] at hahead
    exact hahead
  have hstatements : (parse source limit).program.statements =
      segments.filterMap Segment.outcome := by
    rw [parse_program_eq, hresult, houtcomes]
    simp [List.filterMap_map]
  have hsorted := Cursor.pairwise_location_lt (Cursor.start source)
  rw [Cursor.tokenize, htokens] at hsorted
  have hplaces : ((segments.flatMap Segment.tokens).map Token.location).Pairwise (· < ·) :=
    List.pairwise_map.mpr (List.pairwise_append.mp hsorted).1
  rw [hstatements]
  exact List.pairwise_map.mp (hplaces.sublist (sublist_locations hsound))

/-! ## Programs -/

/-- All nodes of what a parse returns are settled among the tokens of the text. -/
theorem settled_parse (source : String) (limit : Nat) :
    (Node.program (parse source limit).program).Everywhere
      (Node.Settled (Cursor.start source).tokens) := by
  rw [Node.everywhere_program]
  refine ⟨⟨trivial, trivial⟩, fun s hmem => ?_⟩
  obtain ⟨tokens, hwithin, hstatement, hdistinct⟩ := exists_tokens_of_mem hmem
  exact hstatement.settled (Cursor.lexical_of_mem_tokens _) hdistinct hwithin.subset

/-- Whatever a parse returns is well formed. -/
theorem wellFormed_parse (source : String) (limit : Nat) :
    (parse source limit).program.WellFormed :=
  fun part hpart => (settled_parse source limit part hpart).1

/-- Every node of what a parse returns is well formed, and located at the token of the text that it
is made for; and the statements stand at places that come one after the other. -/
theorem parse_nodes_settled (source : String) (limit : Nat) :
    (∀ node : Node, node.IsPartOf (.program (parse source limit).program) →
      node.label.WellFormed ∧ node.Placed (Cursor.start source).tokens) ∧
    (parse source limit).program.statements.Pairwise fun s t => s.location < t.location :=
  ⟨settled_parse source limit, pairwise_location_lt_parse source limit⟩

end LoopLang
