import LoopLang.Proofs.Lexing.Places
import LoopLang.Proofs.Outcome.Exactness
import LoopLang.Proofs.Reading.Invariants
import LoopLang.Proofs.Tree.Nodes
import Mathlib.Data.List.Forall2

/-!
# Where comparisons stand

The text of a comparison begins behind the word of a block or behind a connective, and ends in front
of a connective or of the colon (`comparisonTexts`).  In a text that is parsed without a diagnostic,
each of these texts denotes a comparison of the program, in the order of the tree
(`Grammar.IsProgram.compares`).

A comparison is located where its left side is, and that is at the first token of its text only
where the left side is a single token (`parse_comparison_places`).  An operator in the left side has
its own place, behind its left operand, and parentheses leave nothing in the tree, so that any other
comparison is located further to the right.
-/

namespace LoopLang

open Grammar

/-! ## The comparisons of a tree -/

/-- The comparisons that are joined to conditions. -/
def Conditions.comparisons : Conditions → List Comparison
  | single c => [c]
  | combined _ left right _ => left.comparisons ++ [right]

/-- The comparisons of a conditional, block by block. -/
def Conditional.comparisons (c : Conditional) : List Comparison :=
  c.head.conditions.comparisons ++ c.elifs.flatMap fun block => block.conditions.comparisons

/-- The comparisons of a statement. -/
def Statement.comparisons : Statement → List Comparison
  | conditional c => c.comparisons
  | loop block => block.conditions.comparisons
  | _ => []

/-- The comparisons of a program, statement by statement. -/
def Program.comparisons (p : Program) : List Comparison :=
  p.statements.flatMap Statement.comparisons

namespace Node

/-- The comparisons of a node and of all below it. -/
def comparisons : Node → List Comparison
  | program p => p.comparisons
  | conditional c => c.comparisons
  | elif block => block.conditions.comparisons
  | loop block => block.conditions.comparisons
  | conditions cs => cs.comparisons
  | comparison c => [c]
  | _ => []

/-- A node as a comparison, if it is one. -/
def comparison? : Node → Option Comparison
  | comparison c => some c
  | _ => none

private theorem comparison?_eq_some_iff {node : Node} {c : Comparison} :
    node.comparison? = some c ↔ node = comparison c := by
  cases node <;> simp [comparison?]

private theorem comparisons_node (s : Statement) : s.node.comparisons = s.comparisons := by
  cases s <;> rfl

/-- Below the conditions of a block there is no other comparison. -/
private theorem flatMap_comparisons_guardedChildren (block : Guarded) :
    (guardedChildren block).flatMap comparisons = block.conditions.comparisons := by
  have hbody : (block.body.map assignment).flatMap comparisons = [] := by
    simp [List.flatMap_map, comparisons]
  rw [guardedChildren, List.flatMap_cons, hbody, List.append_nil]
  rfl

/-- The comparisons of a node are the node, if it is one, and those of its children. -/
private theorem comparisons_eq (node : Node) :
    node.comparisons = node.comparison?.toList ++ node.children.flatMap comparisons := by
  cases node with
  | program p =>
      have hstatements : (p.statements.map Statement.node).flatMap comparisons = p.comparisons := by
        rw [List.flatMap_map, Program.comparisons]
        exact congrArg p.statements.flatMap (funext comparisons_node)
      exact hstatements.symm
  | conditional c =>
      have hotherwise : (c.otherwise.toList.map otherwise).flatMap comparisons = [] := by
        simp [List.flatMap_map, comparisons]
      rw [children, List.flatMap_append, List.flatMap_append, flatMap_comparisons_guardedChildren,
        hotherwise, List.flatMap_map]
      simp [comparison?, comparisons, Conditional.comparisons]
  | elif block => exact (flatMap_comparisons_guardedChildren block).symm
  | loop block => exact (flatMap_comparisons_guardedChildren block).symm
  | otherwise block => simp [children, comparison?, comparisons, List.flatMap_map]
  | conditions cs => cases cs <;> rfl
  | expr e => cases e <;> rfl
  | declaration d =>
      cases hinitial : d.initial <;> simp [children, comparison?, comparisons, hinitial]
  | _ => rfl

/-- The comparisons of a node are all the comparisons that are parts of it. -/
theorem mem_comparisons_iff {node : Node} {c : Comparison} :
    c ∈ node.comparisons ↔ (comparison c).IsPartOf node := by
  induction node using Node.induction with
  | step node ih =>
      have hbelow : (∃ child ∈ node.children, c ∈ child.comparisons) ↔
          ∃ child ∈ node.children, (comparison c).IsPartOf child :=
        exists_congr fun child => and_congr_right (ih child)
      rw [comparisons_eq, List.mem_append, Option.mem_toList, comparison?_eq_some_iff,
        List.mem_flatMap, hbelow, IsPartOf, Relation.ReflTransGen.cases_head_iff]
      exact Iff.rfl

end Node

/-! ## The texts of comparisons -/

/-- Whether a comparison stands behind a lexeme: behind the word of a block with conditions, or
behind a connective. -/
def Lexeme.beforeComparison : Lexeme → Bool
  | keyword .ifWord | keyword .elifWord | keyword .loopWord | connective _ => true
  | _ => false

/-- Whether a comparison ends in front of a lexeme: a connective, or the colon behind the
conditions. -/
def Lexeme.behindComparison : Lexeme → Bool
  | mark .colon | connective _ => true
  | _ => false

/-- The texts that stand where comparisons do, in order. -/
def comparisonTexts : List Token → List (List Token)
  | [] => []
  | token :: behind =>
    if token.lexeme.beforeComparison then
      behind.takeWhile (fun token => !token.lexeme.behindComparison) :: comparisonTexts behind
    else comparisonTexts behind

variable {room : Nat} {tokens front back text : List Token} {cs others : List Comparison}
  {token word stop : Token}

/-- Behind none of some tokens a comparison stands. -/
def NoneBefore (tokens : List Token) : Prop :=
  ∀ token ∈ tokens, token.lexeme.beforeComparison = false

@[simp] theorem noneBefore_nil : NoneBefore [] := by
  simp [NoneBefore]

@[simp] theorem noneBefore_cons : NoneBefore (token :: tokens) ↔
    token.lexeme.beforeComparison = false ∧ NoneBefore tokens :=
  List.forall_mem_cons

@[simp] theorem noneBefore_append :
    NoneBefore (front ++ back) ↔ NoneBefore front ∧ NoneBefore back :=
  List.forall_mem_append

private theorem comparisonTexts_append_of_noneBefore (hnone : NoneBefore tokens)
    (behind : List Token) :
    comparisonTexts (tokens ++ behind) = comparisonTexts behind := by
  induction tokens with
  | nil => rfl
  | cons token tokens ih =>
      obtain ⟨htoken, htokens⟩ := noneBefore_cons.mp hnone
      rw [List.cons_append, comparisonTexts, if_neg (by simp [htoken]), ih htokens]

/-- One text, between a token that it stands behind and one that ends it. -/
private theorem comparisonTexts_cons (hword : word.lexeme.beforeComparison = true)
    (hnone : NoneBefore text) (hinside : ∀ token ∈ text, token.lexeme.behindComparison = false)
    (hstop : stop.lexeme.behindComparison = true) (behind : List Token) :
    comparisonTexts (word :: (text ++ stop :: behind)) =
      text :: comparisonTexts (stop :: behind) := by
  have htext : (text ++ stop :: behind).takeWhile (fun token => !token.lexeme.behindComparison) =
      text := by
    rw [List.takeWhile_append_of_pos (by simpa using hinside),
      List.takeWhile_cons_of_neg (by simp [hstop]), List.append_nil]
  rw [comparisonTexts, if_pos hword, htext, comparisonTexts_append_of_noneBefore hnone]

private theorem isInfix_of_mem_comparisonTexts (hmem : text ∈ comparisonTexts tokens) :
    text <:+: tokens := by
  induction tokens with
  | nil => simp [comparisonTexts] at hmem
  | cons token tokens ih =>
      have hbehind : tokens <:+: token :: tokens := (List.suffix_cons token tokens).isInfix
      rw [comparisonTexts] at hmem
      split at hmem
      · rcases List.mem_cons.mp hmem with rfl | hmem
        · exact (List.takeWhile_prefix _).isInfix.trans hbehind
        · exact (ih hmem).trans hbehind
      · exact (ih hmem).trans hbehind

/-! ## The texts of a sentence -/

/-- The texts of comparisons among some tokens, whatever stands behind these, denote some
comparisons, in turn. -/
def Compares (room : Nat) (tokens : List Token) (cs : List Comparison) : Prop :=
  ∃ texts, (∀ behind, comparisonTexts (tokens ++ behind) = texts ++ comparisonTexts behind) ∧
    List.Forall₂ (IsComparison room) texts cs

private theorem compares_of_noneBefore (hnone : NoneBefore tokens) : Compares room tokens [] :=
  ⟨[], comparisonTexts_append_of_noneBefore hnone, .nil⟩

private theorem Compares.append (hfront : Compares room front cs)
    (hback : Compares room back others) :
    Compares room (front ++ back) (cs ++ others) := by
  obtain ⟨texts, htexts, hdenote⟩ := hfront
  obtain ⟨more, hmore, hdenoteMore⟩ := hback
  refine ⟨texts ++ more, fun behind => ?_, List.rel_append hdenote hdenoteMore⟩
  calc comparisonTexts (front ++ back ++ behind)
      = texts ++ comparisonTexts (back ++ behind) := by rw [List.append_assoc, htexts]
    _ = texts ++ more ++ comparisonTexts behind := by rw [hmore, List.append_assoc]

namespace Grammar

variable {keyword : Keyword}

private theorem IsExpr.inExpression {level : Option Precedence} {e : Expr}
    (h : IsExpr room level tokens e) : ∀ token ∈ tokens, token.lexeme.inExpression = true := by
  induction h with
  | ident htoken | number htoken => simp [htoken, Lexeme.inExpression]
  | parenthesized hopening _ hclosing ih =>
      simp only [List.mem_cons, List.mem_append, List.not_mem_nil, or_false]
      rintro token (rfl | hmem | rfl)
      · simp [hopening, Lexeme.inExpression]
      · exact ih token hmem
      · simp [hclosing, Lexeme.inExpression]
  | single _ ih => exact ih
  | binary _ hsign _ _ ihleft ihright =>
      simp only [List.mem_append, List.mem_cons]
      rintro token (hmem | rfl | hmem)
      · exact ihleft token hmem
      · simp [hsign, Lexeme.inExpression]
      · exact ihright token hmem

private theorem IsExpr.noneBefore {level : Option Precedence} {e : Expr}
    (h : IsExpr room level tokens e) : NoneBefore tokens := by
  intro token hmem
  have htoken := h.inExpression token hmem
  cases hlexeme : token.lexeme <;> simp_all [Lexeme.inExpression, Lexeme.beforeComparison]

private theorem IsExpr.behindComparison {level : Option Precedence} {e : Expr}
    (h : IsExpr room level tokens e) :
    ∀ token ∈ tokens, token.lexeme.behindComparison = false := by
  intro token hmem
  have htoken := h.inExpression token hmem
  unfold Lexeme.inExpression at htoken
  split at htoken <;> simp_all [Lexeme.behindComparison]

private theorem IsComparison.noneBefore {c : Comparison} (h : IsComparison room tokens c) :
    NoneBefore tokens := by
  obtain ⟨hleft, hsign, hright⟩ := h
  simp [hleft.noneBefore, hsign, Lexeme.beforeComparison, hright.noneBefore]

/-- Inside a comparison none ends. -/
private theorem IsComparison.behindComparison {c : Comparison} (h : IsComparison room tokens c) :
    ∀ token ∈ tokens, token.lexeme.behindComparison = false := by
  obtain ⟨hleft, hsign, hright⟩ := h
  rw [List.forall_mem_append, List.forall_mem_cons]
  exact ⟨hleft.behindComparison, by simp [hsign, Lexeme.behindComparison],
    hright.behindComparison⟩

/-- Behind a word and in front of what ends them, conditions are the texts of their comparisons. -/
private theorem IsConditions.exists_texts {conditions : Conditions}
    (h : IsConditions room tokens conditions) (hword : word.lexeme.beforeComparison = true) :
    ∃ texts, List.Forall₂ (IsComparison room) texts conditions.comparisons ∧
      ∀ stop behind, stop.lexeme.behindComparison = true →
        comparisonTexts (word :: (tokens ++ stop :: behind)) =
          texts ++ comparisonTexts (stop :: behind) := by
  induction h with
  | @single tokens c htokens =>
      exact ⟨[tokens], .cons htokens .nil, fun stop behind hstop =>
        comparisonTexts_cons hword htokens.noneBefore htokens.behindComparison hstop behind⟩
  | @combined left right connective op _ c _ hconnective hright ih =>
      obtain ⟨texts, hdenote, htexts⟩ := ih
      -- The connective ends the text before it, and the next one stands behind it.
      have hends : connective.lexeme.behindComparison = true := by
        simp [hconnective, Lexeme.behindComparison]
      have hbegins : connective.lexeme.beforeComparison = true := by
        simp [hconnective, Lexeme.beforeComparison]
      refine ⟨texts ++ [right], List.rel_append hdenote (.cons hright .nil),
        fun stop behind hstop => ?_⟩
      calc comparisonTexts (word :: (left ++ connective :: right ++ stop :: behind))
          = comparisonTexts (word :: (left ++ connective :: (right ++ stop :: behind))) := by simp
        _ = texts ++ comparisonTexts (connective :: (right ++ stop :: behind)) :=
          htexts connective _ hends
        _ = texts ++ [right] ++ comparisonTexts (stop :: behind) := by
          rw [comparisonTexts_cons hbegins hright.noneBefore hright.behindComparison hstop,
            List.append_assoc]
          rfl

private theorem IsAssignment.noneBefore {a : Assignment} (h : IsAssignment room tokens a) :
    NoneBefore tokens := by
  obtain ⟨htoken, hsign, hvalue, hsemicolon⟩ := h
  simp [htoken, hsign, hvalue.noneBefore, hsemicolon, Lexeme.beforeComparison]

private theorem IsNames.noneBefore {names : List String} (h : IsNames tokens names) :
    NoneBefore tokens := by
  induction h with
  | one htoken => simp [htoken, Lexeme.beforeComparison]
  | more _ hcomma htoken ih => simp [ih, hcomma, htoken, Lexeme.beforeComparison]

private theorem IsDeclaration.noneBefore {d : Declaration} (h : IsDeclaration room tokens d) :
    NoneBefore tokens := by
  obtain @⟨word, semicolon, names, initial, _, _, hword, hnames, hinitial, hsemicolon⟩ := h
  have hvalue : NoneBefore initial := by
    cases hinitial with
    | none => exact noneBefore_nil
    | some hvalue =>
        obtain ⟨hsign, hexpr⟩ := hvalue
        simp [hsign, hexpr.noneBefore, Lexeme.beforeComparison]
  simp [hword, hnames.noneBefore, hvalue, hsemicolon, Lexeme.beforeComparison]

private theorem IsBody.noneBefore {body : List Assignment} (h : IsBody room tokens body) :
    NoneBefore tokens := by
  obtain @⟨first, last, inner, _, hfirst, htokens, hlast⟩ := h
  have hinner : NoneBefore inner := by
    induction htokens with
    | nil => exact noneBefore_nil
    | cons hassignment _ ih => exact noneBefore_append.mpr ⟨hassignment.noneBefore, ih⟩
  simp [hfirst, hinner, hlast, Lexeme.beforeComparison]

private theorem IsOtherwise.noneBefore {block : Otherwise} (h : IsOtherwise room tokens block) :
    NoneBefore tokens := by
  obtain ⟨hword, hcolon, hbody⟩ := h
  simp [hword, hcolon, hbody.noneBefore, Lexeme.beforeComparison]

private theorem IsGuarded.compares {block : Guarded} (h : IsGuarded room keyword tokens block)
    (hkeyword : (Lexeme.keyword keyword).beforeComparison = true) :
    Compares room tokens block.conditions.comparisons := by
  obtain @⟨word, colon, front, back, _, _, hword, hconditions, hcolon, hbody⟩ := h
  obtain ⟨texts, hdenote, htexts⟩ := hconditions.exists_texts (hword ▸ hkeyword)
  have hrest : NoneBefore (colon :: back) := by
    simp [hcolon, hbody.noneBefore, Lexeme.beforeComparison]
  refine ⟨texts, fun behind => ?_, hdenote⟩
  calc comparisonTexts (word :: (front ++ colon :: back) ++ behind)
      = comparisonTexts (word :: (front ++ colon :: (back ++ behind))) := by simp
    _ = texts ++ comparisonTexts (colon :: (back ++ behind)) :=
      htexts colon _ (by simp [hcolon, Lexeme.behindComparison])
    _ = texts ++ comparisonTexts behind := by
      rw [← List.cons_append, comparisonTexts_append_of_noneBefore hrest]

private theorem IsSequence.compares {α : Type} {P : List Token → α → Prop} {f : α → List Comparison}
    (hone : ∀ part a, P part a → Compares room part (f a)) {as : List α}
    (h : IsSequence P tokens as) : Compares room tokens (as.flatMap f) := by
  induction h with
  | nil => exact compares_of_noneBefore noneBefore_nil
  | cons hfirst _ ih => exact (hone _ _ hfirst).append ih

private theorem IsConditional.compares {c : Conditional} (h : IsConditional room tokens c) :
    Compares room tokens c.comparisons := by
  obtain @⟨_, middle, back, _, elifs, otherwise, hhead, helifs, hotherwise⟩ := h
  have hmiddle : Compares room middle (elifs.flatMap fun block => block.conditions.comparisons) :=
    helifs.compares fun _ _ hblock => hblock.compares rfl
  have hback : NoneBefore back := by
    cases hotherwise with
    | none => exact noneBefore_nil
    | some hblock => exact hblock.noneBefore
  have hrest := hmiddle.append (compares_of_noneBefore hback)
  rw [List.append_nil] at hrest
  exact (hhead.compares rfl).append hrest

private theorem IsStatement.compares {s : Statement} (h : IsStatement room tokens s) :
    Compares room tokens s.comparisons := by
  cases h with
  | declaration htokens => exact compares_of_noneBefore htokens.noneBefore
  | assignment htokens => exact compares_of_noneBefore htokens.noneBefore
  | conditional htokens => exact htokens.compares
  | loop htokens => exact htokens.compares rfl

/-- The texts of comparisons in a program denote its comparisons. -/
theorem IsProgram.compares {p : Program} (h : IsProgram room tokens p) :
    List.Forall₂ (IsComparison room) (comparisonTexts tokens) p.comparisons := by
  obtain ⟨texts, htexts, hdenote⟩ : Compares room tokens p.comparisons :=
    IsSequence.compares (fun _ _ hstatement => hstatement.compares) h
  have hall := htexts []
  rw [List.append_nil, comparisonTexts, List.append_nil] at hall
  rwa [hall]

/-! ## The place of a comparison -/

/-- An expression of one token is located there, and any other one behind its first token. -/
private theorem IsExpr.place {level : Option Precedence} {e : Expr}
    (h : IsExpr room level tokens e) :
    ∃ first rest, tokens = first :: rest ∧
      (rest = [] ∧ e.location = first.location ∨
        rest ≠ [] ∧ ∃ token ∈ rest, token.location = e.location) := by
  induction h with
  | @ident _ token _ _ => exact ⟨token, [], rfl, .inl ⟨rfl, rfl⟩⟩
  | @number _ token _ _ => exact ⟨token, [], rfl, .inl ⟨rfl, rfl⟩⟩
  | @parenthesized _ opening closing inner e _ _ _ ih =>
      obtain ⟨first, rest, rfl, hplace⟩ := ih
      refine ⟨opening, first :: rest ++ [closing], rfl, .inr ⟨by simp, ?_⟩⟩
      rcases hplace with ⟨-, hlocation⟩ | ⟨-, token, hmem, hlocation⟩
      · exact ⟨first, by simp, hlocation.symm⟩
      · exact ⟨token, by simp [hmem], hlocation⟩
  | single _ ih => exact ih
  | @binary _ _ left right sign _ _ _ _ _ _ _ ihleft _ =>
      obtain ⟨first, rest, rfl, -⟩ := ihleft
      exact ⟨first, rest ++ sign :: right, rfl, .inr ⟨by simp, sign, by simp, rfl⟩⟩

end Grammar

/-- The text of a comparison with a single token on its left side, a name or a number. -/
def LeftIsOneToken (text : List Token) : Prop :=
  ∃ first sign behind op, text = first :: sign :: behind ∧ sign.lexeme = .relation op

/-- A comparison at its place in a text: at the first token if the left side is a single token, and
at a later one otherwise. -/
def Comparison.PlacedIn (text : List Token) (c : Comparison) : Prop :=
  ∃ first rest, text = first :: rest ∧ (c.location = first.location ↔ LeftIsOneToken text) ∧
    (c.location ≠ first.location →
      ∃ token ∈ rest, token.location = c.location ∧ first.location < token.location)

/-- A comparison that is denoted by tokens at places one behind the other has its place in them. -/
private theorem Grammar.IsComparison.placedIn {c : Comparison} (h : IsComparison room text c)
    (hsorted : text.Pairwise fun before token => before.location < token.location) :
    c.PlacedIn text := by
  obtain @⟨left, right, sign, op, e, f, hleft, hsign, hright⟩ := h
  obtain ⟨first, rest, rfl, hplace⟩ := hleft.place
  rw [List.cons_append, List.pairwise_cons] at hsorted
  refine ⟨first, rest ++ sign :: right, rfl, ?_⟩
  rcases hplace with ⟨rfl, hlocation⟩ | ⟨hrest, token, hmem, hlocation⟩
  · exact ⟨⟨fun _ => ⟨first, sign, right, op, rfl, hsign⟩, fun _ => hlocation⟩,
      fun hne => absurd hlocation hne⟩
  · have hlt : first.location < token.location := hsorted.1 token (List.mem_append_left _ hmem)
    have hne : e.location ≠ first.location := hlocation ▸ hlt.ne'
    refine ⟨⟨fun heq => absurd heq hne, ?_⟩,
      fun _ => ⟨token, List.mem_append_left _ hmem, hlocation, hlt⟩⟩
    -- The second token belongs to the left side, and so it is no relation.
    rintro ⟨_, second, behind, relation, heq, hsecond⟩
    obtain ⟨other, others, rfl⟩ := List.exists_cons_of_ne_nil hrest
    have hsame : other = second := by
      simpa using (List.cons.inj (List.cons.inj heq).2).1
    have hother := hleft.inExpression other (by simp)
    rw [hsame, hsecond] at hother
    simp [Lexeme.inExpression] at hother

/-! ## Programs -/

/-- Each comparison is located at the first token of its text. -/
def ComparisonsAtFirst (tokens : List Token) (p : Program) : Prop :=
  (comparisonTexts tokens).map (fun text => text.head?.map Token.location) =
    p.comparisons.map fun c => some c.location

instance (tokens : List Token) (p : Program) : Decidable (ComparisonsAtFirst tokens p) :=
  inferInstanceAs (Decidable (_ = _))

private theorem comparisonsAtFirst_iff_of_placedIn {p : Program}
    (hplaces : List.Forall₂ (fun text c => c.PlacedIn text) (comparisonTexts tokens)
      p.comparisons) :
    ComparisonsAtFirst tokens p ↔ ∀ text ∈ comparisonTexts tokens, LeftIsOneToken text := by
  unfold ComparisonsAtFirst
  generalize comparisonTexts tokens = texts, p.comparisons = cs at hplaces ⊢
  induction hplaces with
  | nil => simp
  | cons hplace _ ih =>
      obtain ⟨first, rest, rfl, hfirst, -⟩ := hplace
      rw [List.map_cons, List.map_cons, List.cons.injEq, List.forall_mem_cons, ih]
      refine and_congr_left fun _ => ?_
      rw [← hfirst, List.head?_cons, Option.map_some, Option.some.injEq, eq_comm]

/-- In a text that is parsed without a diagnostic, the texts of comparisons denote the comparisons
of the program, which are all the comparisons in its tree, in turn.  A comparison is located at the
first token of its text if the left side is a single token, and at a later token of it otherwise, so
that all of them are located at first tokens only where each left side is a single token. -/
theorem parse_comparison_places {source : String} {limit : Nat}
    (hclean : (parse source limit).diagnostics = []) :
    (∀ c, c ∈ (parse source limit).program.comparisons ↔
      (Node.comparison c).IsPartOf (.program (parse source limit).program)) ∧
    List.Forall₂ (fun text c => IsComparison limit text c ∧ c.PlacedIn text)
      (comparisonTexts (Cursor.start source).tokens) (parse source limit).program.comparisons ∧
    (ComparisonsAtFirst (Cursor.start source).tokens (parse source limit).program ↔
      ∀ text ∈ comparisonTexts (Cursor.start source).tokens, LeftIsOneToken text) := by
  have hdenote := (isValid_iff.mp (isValid_of_diagnostics_eq_nil hclean)).1.compares
  have hsorted : ∀ text ∈ comparisonTexts (Cursor.start source).tokens,
      text.Pairwise fun before token => before.location < token.location := by
    intro text hmem
    have hall := Cursor.pairwise_location_lt (Cursor.start source)
    rw [Cursor.tokenize] at hall
    exact (List.pairwise_append.mp hall).1.sublist (isInfix_of_mem_comparisonTexts hmem).sublist
  have hplaces : List.Forall₂ (fun text c => IsComparison limit text c ∧ c.PlacedIn text)
      (comparisonTexts (Cursor.start source).tokens) (parse source limit).program.comparisons :=
    ((List.forall₂_and_left _ _).mpr ⟨hsorted, hdenote⟩).imp
      fun _ _ h => ⟨h.2, h.2.placedIn h.1⟩
  refine ⟨fun c => ?_, hplaces, comparisonsAtFirst_iff_of_placedIn (hplaces.imp fun _ _ h => h.2)⟩
  show c ∈ (Node.program (parse source limit).program).comparisons ↔ _
  exact Node.mem_comparisons_iff

/-- A sum and a parenthesis on the left side, behind a comparison of a single name. -/
theorem parse_comparison_places_joined :
    (parse "if a > 1 and b + c > 2 or (d) > 3 : begin end" 1).diagnostics = [] ∧
      (parse "if a > 1 and b + c > 2 or (d) > 3 : begin end" 1).program.comparisons.map
          (fun c => c.location.column) = [4, 16, 28] ∧
      (comparisonTexts (Cursor.start "if a > 1 and b + c > 2 or (d) > 3 : begin end").tokens).map
          (fun text => text.head?.map fun token => token.location.column) =
        [some 4, some 14, some 27] ∧
      ¬∀ text ∈ comparisonTexts
          (Cursor.start "if a > 1 and b + c > 2 or (d) > 3 : begin end").tokens,
        LeftIsOneToken text := by
  have hclean : (parse "if a > 1 and b + c > 2 or (d) > 3 : begin end" 1).diagnostics = [] := by
    decide +kernel
  refine ⟨hclean, by decide +kernel, by decide +kernel, fun hall => ?_⟩
  have hfirst := (parse_comparison_places hclean).2.2.mpr hall
  revert hfirst
  decide +kernel

/-- A comparison is not always located at the first token of its text. -/
theorem not_comparisonsAtFirst :
    ¬∀ source limit, (parse source limit).diagnostics = [] →
      ComparisonsAtFirst (Cursor.start source).tokens (parse source limit).program := by
  intro hall
  have hfirst := hall "if a + b > 1 : begin end" 0 (by decide +kernel)
  revert hfirst
  decide +kernel

end LoopLang
