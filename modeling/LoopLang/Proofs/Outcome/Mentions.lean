import LoopLang.Proofs.Outcome.Exactness
import LoopLang.Proofs.Tree.Decoding

/-!
# The names and numbers of a program

A program that is parsed without a diagnostic holds the names and numbers of its text, and a walk
comes by them in the order of the text (`parse_mentions`).  A declaration does not say where its
names stand; the target of an assignment and a leaf are located at the token they are made from.

The tokens of a sentence that are names or numbers are those of its parts, in the order of the parts
(`named`), and what the nodes in a row mention is what each of them mentions, in turn (`Mention`).
So for each judgment of the grammar the two lists agree if they do for its parts: chains of
operators and of conditions nest to the left, but their leaves keep their order, and parentheses add
neither a node nor a name.
-/

namespace LoopLang

open Grammar

/-! ## Mentions -/

/-- A name or a number that a tree holds. -/
inductive Mention where
  /-- A name that a declaration lists. -/
  | listed (name : String)
  /-- The target of an assignment, or a leaf. -/
  | located (lexeme : Lexeme) (location : Option Location)
deriving DecidableEq

namespace Mention

/-- The text of a name or a number. -/
def text : Mention → String
  | listed name => name
  | located lexeme _ => lexeme.text

/-- Whether a name or a number is that of a token, and located there, if it says where it is. -/
def IsAt : Mention → Token → Prop
  | listed name, token => token.lexeme = .ident name
  | located lexeme location, token => token.lexeme = lexeme ∧ location = some token.location

private theorem IsAt.text_eq {mention : Mention} {token : Token} (hat : mention.IsAt token) :
    mention.text = token.lexeme.text := by
  cases mention with
  | listed name => exact (congrArg Lexeme.text hat).symm
  | located lexeme location => exact (congrArg Lexeme.text hat.1).symm

end Mention

/-- The names and numbers that a visit comes by. -/
def Visit.mentions (visit : Visit) : List Mention :=
  match visit.label with
  | .declaration names => names.map .listed
  | .assignment _ target => [.located (.ident target) visit.location]
  | .ident name => [.located (.ident name) visit.location]
  | .number digits => [.located (.number digits) visit.location]
  | _ => []

/-- Whether a lexeme is a name or a number. -/
def Lexeme.isNameOrNumber : Lexeme → Bool
  | ident _ | number _ => true
  | _ => false

/-- The tokens that are names or numbers. -/
def named (tokens : List Token) : List Token :=
  tokens.filter fun token => token.lexeme.isNameOrNumber

@[simp] theorem named_nil : named [] = [] := rfl

@[simp] theorem named_append (tokens others : List Token) :
    named (tokens ++ others) = named tokens ++ named others :=
  List.filter_append ..

private theorem named_cons_of_name {token : Token} (tokens : List Token)
    (htoken : token.lexeme.isNameOrNumber = true) :
    named (token :: tokens) = token :: named tokens :=
  List.filter_cons_of_pos htoken

private theorem named_cons_of_not {token : Token} (tokens : List Token)
    (htoken : token.lexeme.isNameOrNumber = false) : named (token :: tokens) = named tokens :=
  List.filter_cons_of_neg (by simp [htoken])

/-! ## What nodes in a row mention -/

/-- Walking nodes in a row comes by some tokens, in turn. -/
def Mentions (nodes : List Node) (tokens : List Token) : Prop :=
  ∀ depth : Nat, List.Forall₂ Mention.IsAt
    ((nodes.flatMap fun node => node.visitsFrom depth).flatMap Visit.mentions) tokens

variable {nodes others : List Node} {tokens front back : List Token}

private theorem mentions_nil : Mentions [] [] := fun _ => .nil

private theorem Mentions.append (hnodes : Mentions nodes front) (hothers : Mentions others back) :
    Mentions (nodes ++ others) (front ++ back) := by
  intro depth
  rw [List.flatMap_append, List.flatMap_append]
  exact List.rel_append (hnodes depth) (hothers depth)

/-- A node mentions what its visit does, and then what its children do. -/
private theorem Mentions.below {node : Node}
    (hvisit : ∀ depth, List.Forall₂ Mention.IsAt (node.visit depth).mentions front)
    (hchildren : Mentions node.children back) : Mentions [node] (front ++ back) := by
  intro depth
  rw [List.flatMap_singleton, Node.visitsFrom_eq, List.flatMap_cons]
  exact List.rel_append (hvisit depth) (hchildren (depth + 1))

/-- A node that is itself the place of one name or number. -/
theorem Mentions.behind {node : Node} {token : Token}
    (hvisit : ∀ depth, List.Forall₂ Mention.IsAt (node.visit depth).mentions [token])
    (hchildren : Mentions node.children tokens) : Mentions [node] (token :: tokens) :=
  Mentions.below hvisit hchildren

/-- A node that does not mention anything itself. -/
private theorem Mentions.within {node : Node} (hvisit : ∀ depth, (node.visit depth).mentions = [])
    (hchildren : Mentions node.children tokens) : Mentions [node] tokens := by
  have hnothing : ∀ depth, List.Forall₂ Mention.IsAt (node.visit depth).mentions [] := by
    intro depth
    rw [hvisit]
    exact .nil
  exact Mentions.below hnothing hchildren

namespace Grammar

variable {room : Nat} {keyword : Keyword}

private theorem IsExpr.mentions {level : Option Precedence} {e : Expr}
    (h : IsExpr room level tokens e) :
    Mentions [.expr e] (named tokens) := by
  induction h with
  | @ident _ token name htoken =>
      rw [named_cons_of_name [] (by rw [htoken]; rfl)]
      exact Mentions.behind (fun depth => .cons ⟨htoken, rfl⟩ .nil) mentions_nil
  | @number _ token digits htoken =>
      rw [named_cons_of_name [] (by rw [htoken]; rfl)]
      exact Mentions.behind (fun depth => .cons ⟨htoken, rfl⟩ .nil) mentions_nil
  | parenthesized hopening _ hclosing ih =>
      rw [named_cons_of_not _ (by rw [hopening]; rfl), named_append,
        named_cons_of_not _ (by rw [hclosing]; rfl), named_nil, List.append_nil]
      exact ih
  | single _ ih => exact ih
  | binary _ hsign _ _ ihleft ihright =>
      rw [named_append, named_cons_of_not _ (by rw [hsign]; rfl)]
      exact Mentions.within (fun _ => rfl) (ihleft.append ihright)

private theorem IsComparison.mentions {c : Comparison} (h : IsComparison room tokens c) :
    Mentions [.comparison c] (named tokens) := by
  obtain ⟨hleft, hsign, hright⟩ := h
  rw [named_append, named_cons_of_not _ (by rw [hsign]; rfl)]
  exact Mentions.within (fun _ => rfl) (hleft.mentions.append hright.mentions)

private theorem IsConditions.mentions {cs : Conditions} (h : IsConditions room tokens cs) :
    Mentions [.conditions cs] (named tokens) := by
  induction h with
  | single htokens => exact Mentions.within (fun _ => rfl) htokens.mentions
  | combined _ hword hright ih =>
      rw [named_append, named_cons_of_not _ (by rw [hword]; rfl)]
      exact Mentions.within (fun _ => rfl) (ih.append hright.mentions)

private theorem IsAssignment.mentions {a : Assignment} (h : IsAssignment room tokens a) :
    Mentions [.assignment a] (named tokens) := by
  obtain ⟨htoken, hsign, hvalue, hsemicolon⟩ := h
  rw [named_cons_of_name _ (by rw [htoken]; rfl), named_cons_of_not _ (by rw [hsign]; rfl),
    named_append, named_cons_of_not [] (by rw [hsemicolon]; rfl), named_nil, List.append_nil]
  exact Mentions.behind (fun depth => .cons ⟨htoken, rfl⟩ .nil) hvalue.mentions

private theorem IsNames.mentions {names : List String} (h : IsNames tokens names) :
    List.Forall₂ Mention.IsAt (names.map .listed) (named tokens) := by
  induction h with
  | one htoken =>
      rw [named_cons_of_name [] (by rw [htoken]; rfl)]
      exact .cons htoken .nil
  | more _ hcomma htoken ih =>
      rw [List.map_append, named_append, named_cons_of_not _ (by rw [hcomma]; rfl),
        named_cons_of_name [] (by rw [htoken]; rfl)]
      exact List.rel_append ih (.cons htoken .nil)

private theorem IsDeclaration.mentions {d : Declaration} (h : IsDeclaration room tokens d) :
    Mentions [.declaration d] (named tokens) := by
  obtain ⟨hword, hnames, hinitial, hsemicolon⟩ := h
  rw [named_cons_of_not _ (by rw [hword]; rfl), named_append, named_append,
    named_cons_of_not [] (by rw [hsemicolon]; rfl), named_nil, List.append_nil]
  refine Mentions.below (fun depth => hnames.mentions) ?_
  cases hinitial with
  | none => exact mentions_nil
  | some hvalue =>
      obtain ⟨hsign, hexpr⟩ := hvalue
      rw [named_cons_of_not _ (by rw [hsign]; rfl)]
      exact hexpr.mentions

private theorem IsSequence.mentions {α : Type} {P : List Token → α → Prop} {node : α → Node}
    (hone : ∀ part a, P part a → Mentions [node a] (named part)) {as : List α}
    (h : IsSequence P tokens as) : Mentions (as.map node) (named tokens) := by
  induction h with
  | nil => exact mentions_nil
  | cons hfirst _ ih =>
      rw [named_append]
      exact (hone _ _ hfirst).append ih

private theorem IsBody.mentions {body : List Assignment} (h : IsBody room tokens body) :
    Mentions (body.map .assignment) (named tokens) := by
  obtain ⟨hfirst, htokens, hlast⟩ := h
  rw [named_cons_of_not _ (by rw [hfirst]; rfl), named_append,
    named_cons_of_not [] (by rw [hlast]; rfl), named_nil, List.append_nil]
  exact htokens.mentions fun _ _ hassignment => hassignment.mentions

private theorem IsGuarded.mentions {block : Guarded} (h : IsGuarded room keyword tokens block) :
    Mentions (Node.guardedChildren block) (named tokens) := by
  obtain ⟨hword, hconditions, hcolon, hbody⟩ := h
  rw [named_cons_of_not _ (by rw [hword]; rfl), named_append,
    named_cons_of_not _ (by rw [hcolon]; rfl)]
  exact hconditions.mentions.append hbody.mentions

private theorem IsOtherwise.mentions {block : Otherwise} (h : IsOtherwise room tokens block) :
    Mentions [.otherwise block] (named tokens) := by
  obtain ⟨hword, hcolon, hbody⟩ := h
  rw [named_cons_of_not _ (by rw [hword]; rfl), named_cons_of_not _ (by rw [hcolon]; rfl)]
  exact Mentions.within (fun _ => rfl) hbody.mentions

private theorem IsConditional.mentions {c : Conditional} (h : IsConditional room tokens c) :
    Mentions [.conditional c] (named tokens) := by
  obtain @⟨_, middle, _, _, elifs, _, hhead, helifs, hotherwise⟩ := h
  have hmiddle : Mentions (elifs.map .elif) (named middle) :=
    helifs.mentions fun _ _ hblock => Mentions.within (fun _ => rfl) hblock.mentions
  rw [named_append, named_append, ← List.append_assoc]
  refine Mentions.within (fun _ => rfl) ((hhead.mentions.append hmiddle).append ?_)
  cases hotherwise with
  | none => exact mentions_nil
  | some hblock => exact hblock.mentions

private theorem IsStatement.mentions {s : Statement} (h : IsStatement room tokens s) :
    Mentions [s.node] (named tokens) := by
  cases h with
  | declaration htokens => exact htokens.mentions
  | assignment htokens => exact htokens.mentions
  | conditional htokens => exact htokens.mentions
  | loop htokens => exact Mentions.within (fun _ => rfl) htokens.mentions

/-- A program mentions the names and numbers of its tokens. -/
theorem IsProgram.mentions {p : Program} (h : IsProgram room tokens p) :
    Mentions [.program p] (named tokens) :=
  Mentions.within (fun _ => rfl) (IsSequence.mentions (fun _ _ hstatement => hstatement.mentions) h)

end Grammar

/-! ## Programs -/

/-- A walk through a program that is parsed without a diagnostic comes by the names and numbers of
the text, in their order, and by no others; those that are located are located at their tokens. -/
theorem parse_mentions {source : String} {limit : Nat}
    (hclean : (parse source limit).diagnostics = []) :
    ((Node.program (parse source limit).program).allVisits.flatMap Visit.mentions).map
        Mention.text =
      (named (Cursor.start source).tokenize).map (fun token => token.lexeme.text) ∧
    List.Forall₂ Mention.IsAt
      ((Node.program (parse source limit).program).allVisits.flatMap Visit.mentions)
      (named (Cursor.start source).tokenize) := by
  obtain ⟨room, hprogram⟩ := (isValid_of_diagnostics_eq_nil hclean).derived
  have hnamed : named (Cursor.start source).tokenize = named (Cursor.start source).tokens := by
    rw [Cursor.tokenize, named_append, named_cons_of_not [] rfl, named_nil, List.append_nil]
  have hmentions : List.Forall₂ Mention.IsAt
      ((Node.program (parse source limit).program).allVisits.flatMap Visit.mentions)
      (named (Cursor.start source).tokenize) := by
    have hwalk := hprogram.mentions 0
    rwa [List.flatMap_singleton, ← hnamed] at hwalk
  refine ⟨?_, hmentions⟩
  have htexts := hmentions.imp fun _ _ hat => hat.text_eq
  rwa [← List.forall₂_eq_eq_eq, List.forall₂_map_left_iff, List.forall₂_map_right_iff]

/-- Parentheses, conditions and blocks do not change the order of names and numbers. -/
theorem parse_mentions_conditional :
    (parse "int a, b = 1;\nif (a) > 2 : begin b += c ^ (3 - a); end" 1).diagnostics = [] ∧
      ((Node.program (parse "int a, b = 1;\nif (a) > 2 : begin b += c ^ (3 - a); end"
          1).program).allVisits.flatMap Visit.mentions).map Mention.text =
        ["a", "b", "1", "a", "2", "b", "c", "3", "a"] := by
  have hclean : (parse "int a, b = 1;\nif (a) > 2 : begin b += c ^ (3 - a); end"
      1).diagnostics = [] := by
    decide +kernel
  exact ⟨hclean, (parse_mentions hclean).1.trans (by decide +kernel)⟩

end LoopLang
