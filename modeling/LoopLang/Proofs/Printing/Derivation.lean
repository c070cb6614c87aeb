import LoopLang.Proofs.Printing.Lexemes
import LoopLang.Proofs.Tree.Relocation
import Mathlib.Data.List.Induction

/-!
# What canonical lexemes denote

Tokens with the canonical lexemes of a tree are a sentence, wherever they stand, and they denote
that tree up to locations (`derives_program`).  All that is asked of the tree is that its
declarations list names, and that there is room for the parentheses of its expressions.
-/

namespace LoopLang

open Grammar

/-- All locations moved to one place. -/
def nowhere : Location → Location := fun _ => .first

variable {α : Type} {room : Nat}

/-- Tokens with these lexemes are a sentence of a kind, and denote the same tree up to locations. -/
def Derives (P : List Token → α → Prop) (move : (Location → Location) → α → α)
    (lexemes : List Lexeme) (a : α) : Prop :=
  ∀ tokens : List Token, tokens.map Token.lexeme = lexemes →
    ∃ b, P tokens b ∧ move nowhere b = move nowhere a

/-! ## Expressions -/

private theorem isExpr_of_operand {b : Expr} {tokens : List Token} (h : IsExpr room none tokens b)
    (level : Option Precedence) : IsExpr room level tokens b := by
  induction level using Precedence.induction with
  | operand => exact h
  | layer level ih => exact .single ih

/-- A sentence for an expression can stand wherever the expression fits. -/
private theorem isExpr_of_fits {e b : Expr} {level : Option Precedence} {tokens : List Token}
    (hfits : e.fits level = true) (h : IsExpr room e.precedence? tokens b) :
    IsExpr room level tokens b := by
  unfold Expr.fits at hfits
  generalize e.precedence? = inner at hfits h
  cases inner with
  | none => exact isExpr_of_operand h level
  | some inner =>
      rcases level with _ | level
      · cases hfits
      · have hle : level ≤ inner := of_decide_eq_true hfits
        cases inner <;> cases level
        · exact h
        · exact absurd hle (by decide)
        · exact absurd hle (by decide)
        · exact .single h
        · exact h
        · exact absurd hle (by decide)
        · exact .single (.single h)
        · exact .single h
        · exact h

/-- An expression that is derived at its own level is derived at each level, in parentheses where it
does not fit. -/
private theorem derives_expr_of_own {e : Expr}
    (hown : ∀ room, e.depth ≤ room → Derives (IsExpr room e.precedence?) Expr.relocate e.lexemes e)
    (level : Option Precedence) (hroom : e.depthAt level ≤ room) :
    Derives (IsExpr room level) Expr.relocate (e.lexemesAt level) e := by
  intro tokens htokens
  by_cases hfits : e.fits level = true
  · rw [Expr.lexemesAt_of_fits hfits] at htokens
    rw [Expr.depthAt_of_fits hfits] at hroom
    obtain ⟨b, hb, hsame⟩ := hown room hroom tokens htokens
    exact ⟨b, isExpr_of_fits hfits hb, hsame⟩
  · simp only [Expr.lexemesAt, inParens, hfits, Bool.not_false, if_true] at htokens
    simp only [Expr.depthAt, hfits, Bool.not_false, Bool.toNat_true] at hroom
    obtain ⟨opening, behind, rfl, hopening, hbehind⟩ := List.map_eq_cons_iff.mp htokens
    obtain ⟨inner, last, rfl, hinner, hlast⟩ := List.map_eq_append_iff.mp hbehind
    obtain ⟨closing, rfl, hclosing⟩ := List.map_eq_singleton_iff.mp hlast
    obtain ⟨room, rfl⟩ : ∃ less, room = less + 1 := ⟨room - 1, by omega⟩
    obtain ⟨b, hb, hsame⟩ := hown room (by omega) inner hinner
    have hoperand := IsExpr.parenthesized hopening (isExpr_of_fits e.fits_additive hb) hclosing
    exact ⟨b, isExpr_of_operand hoperand level, hsame⟩

/-- The canonical lexemes of an expression at a level denote it, where there is room for its
parentheses. -/
private theorem derives_expr (e : Expr) (level : Option Precedence)
    (hroom : e.depthAt level ≤ room) :
    Derives (IsExpr room level) Expr.relocate (e.lexemesAt level) e := by
  induction e generalizing room level with
  | ident name location =>
      refine derives_expr_of_own (fun room _ tokens htokens => ?_) level hroom
      obtain ⟨token, rfl, htoken⟩ := List.map_eq_singleton_iff.mp htokens
      exact ⟨_, .ident htoken, rfl⟩
  | number digits location =>
      refine derives_expr_of_own (fun room _ tokens htokens => ?_) level hroom
      obtain ⟨token, rfl, htoken⟩ := List.map_eq_singleton_iff.mp htokens
      exact ⟨_, .number htoken, rfl⟩
  | binary op left right location ihleft ihright =>
      refine derives_expr_of_own (fun room hroom tokens htokens => ?_) level hroom
      rw [Expr.depth_binary, Nat.max_le] at hroom
      rw [Expr.lexemes_binary] at htokens
      obtain ⟨front, rest, rfl, hfront, hrest⟩ := List.map_eq_append_iff.mp htokens
      obtain ⟨sign, back, rfl, hsign, hback⟩ := List.map_eq_cons_iff.mp hrest
      -- Chains are to the left, so the right operand stands at the next tighter level.
      obtain ⟨e, he, hleft⟩ := ihleft (some op.precedence) hroom.1 front hfront
      obtain ⟨f, hf, hright⟩ := ihright op.precedence.tighter hroom.2 back hback
      refine ⟨_, .binary he hsign rfl hf, ?_⟩
      rw [Expr.relocate, Expr.relocate, hleft, hright]
      rfl

private theorem derives_expr_additive (e : Expr) (hroom : e.depth ≤ room) :
    Derives (IsExpr room (some .additive)) Expr.relocate e.lexemes e := by
  have h := derives_expr e (some .additive) (by simpa using hroom)
  simpa using h

/-! ## Conditions -/

private theorem derives_comparison (c : Comparison) (hleft : c.left.depth ≤ room)
    (hright : c.right.depth ≤ room) :
    Derives (IsComparison room) Comparison.relocate c.lexemes c := by
  intro tokens htokens
  rw [Comparison.lexemes] at htokens
  obtain ⟨front, rest, rfl, hfront, hrest⟩ := List.map_eq_append_iff.mp htokens
  obtain ⟨sign, back, rfl, hsign, hback⟩ := List.map_eq_cons_iff.mp hrest
  obtain ⟨e, he, hsame⟩ := derives_expr_additive c.left hleft front hfront
  obtain ⟨f, hf, hother⟩ := derives_expr_additive c.right hright back hback
  refine ⟨_, .mk he hsign hf, ?_⟩
  rw [Comparison.relocate, Comparison.relocate, hsame, hother]
  rfl

private theorem derives_conditions (cs : Conditions) (hroom : ∀ e ∈ cs.exprs, e.depth ≤ room) :
    Derives (IsConditions room) Conditions.relocate cs.lexemes cs := by
  induction cs with
  | single c =>
      simp only [Conditions.exprs, List.mem_cons, List.not_mem_nil, or_false, forall_eq_or_imp,
        forall_eq] at hroom
      intro tokens htokens
      obtain ⟨b, hb, hsame⟩ := derives_comparison c hroom.1 hroom.2 tokens htokens
      exact ⟨_, .single hb, congrArg Conditions.single hsame⟩
  | combined op left right location ih =>
      simp only [Conditions.exprs, List.mem_append, List.mem_cons, List.not_mem_nil, or_false,
        or_imp, forall_and, forall_eq] at hroom
      intro tokens htokens
      rw [Conditions.lexemes] at htokens
      obtain ⟨front, rest, rfl, hfront, hrest⟩ := List.map_eq_append_iff.mp htokens
      obtain ⟨word, back, rfl, hword, hback⟩ := List.map_eq_cons_iff.mp hrest
      obtain ⟨cs, hcs, hsame⟩ := ih hroom.1 front hfront
      obtain ⟨c, hc, hother⟩ := derives_comparison right hroom.2.1 hroom.2.2 back hback
      refine ⟨_, .combined hcs hword hc, ?_⟩
      rw [Conditions.relocate, Conditions.relocate, hsame, hother]
      rfl

/-! ## Lists -/

private theorem derives_sequence {P : List Token → α → Prop} {move : (Location → Location) → α → α}
    {f : α → List Lexeme} (as : List α) (hone : ∀ a ∈ as, Derives P move (f a) a) :
    Derives (IsSequence P) (fun place => List.map (move place)) (as.flatMap f) as := by
  induction as with
  | nil =>
      intro tokens htokens
      rw [List.flatMap_nil, List.map_eq_nil_iff] at htokens
      subst htokens
      exact ⟨[], .nil, rfl⟩
  | cons a as ih =>
      intro tokens htokens
      rw [List.flatMap_cons] at htokens
      obtain ⟨front, back, rfl, hfront, hback⟩ := List.map_eq_append_iff.mp htokens
      obtain ⟨b, hb, hsame⟩ := hone a List.mem_cons_self front hfront
      obtain ⟨bs, hbs, hrest⟩ := ih (fun a hmem => hone a (List.mem_cons_of_mem _ hmem)) back hback
      refine ⟨b :: bs, .cons hb hbs, ?_⟩
      show move nowhere b :: bs.map (move nowhere) = move nowhere a :: as.map (move nowhere)
      rw [hsame]
      exact congrArg _ hrest

private theorem isNames_of_lexemes {names : List String} (hnames : names ≠ []) :
    ∀ tokens : List Token, tokens.map Token.lexeme = nameLexemes names → IsNames tokens names := by
  -- The grammar builds a list of names from its end.
  induction names using List.reverseRecOn with
  | nil => exact absurd rfl hnames
  | append_singleton names name ih =>
      intro tokens htokens
      by_cases hfirst : names = []
      · subst hfirst
        obtain ⟨token, rfl, htoken⟩ := List.map_eq_singleton_iff.mp htokens
        exact .one htoken
      · rw [nameLexemes_append _ _ hfirst] at htokens
        obtain ⟨front, back, rfl, hfront, hback⟩ := List.map_eq_append_iff.mp htokens
        obtain ⟨comma, rest, rfl, hcomma, hrest⟩ := List.map_eq_cons_iff.mp hback
        obtain ⟨token, rfl, htoken⟩ := List.map_eq_singleton_iff.mp hrest
        exact .more (ih hfirst front hfront) hcomma htoken

/-! ## Statements -/

private theorem derives_assignment (a : Assignment) (hroom : a.value.depth ≤ room) :
    Derives (IsAssignment room) Assignment.relocate a.lexemes a := by
  intro tokens htokens
  obtain ⟨token, rest, rfl, htoken, hrest⟩ := List.map_eq_cons_iff.mp htokens
  obtain ⟨sign, behind, rfl, hsign, hbehind⟩ := List.map_eq_cons_iff.mp hrest
  obtain ⟨value, last, rfl, hvalue, hlast⟩ := List.map_eq_append_iff.mp hbehind
  obtain ⟨semicolon, rfl, hsemicolon⟩ := List.map_eq_singleton_iff.mp hlast
  obtain ⟨e, he, hsame⟩ := derives_expr_additive a.value hroom value hvalue
  refine ⟨_, .mk htoken hsign he hsemicolon, ?_⟩
  rw [Assignment.relocate, Assignment.relocate, hsame]
  rfl

private theorem derives_initial (initial : Option Expr) (hroom : ∀ e ∈ initial, e.depth ≤ room) :
    Derives (IsOptional (IsInitial room)) (fun place => Option.map (Expr.relocate place))
      (initialLexemes initial) initial := by
  intro tokens htokens
  cases initial with
  | none =>
      obtain rfl : tokens = [] := List.map_eq_nil_iff.mp htokens
      exact ⟨none, .none, rfl⟩
  | some e =>
      obtain ⟨sign, behind, rfl, hsign, hbehind⟩ := List.map_eq_cons_iff.mp htokens
      obtain ⟨b, hb, hsame⟩ := derives_expr_additive e (hroom e rfl) behind hbehind
      exact ⟨some b, .some (.mk hsign hb), congrArg some hsame⟩

private theorem derives_declaration (d : Declaration) (hnames : d.names ≠ [])
    (hroom : ∀ e ∈ d.initial, e.depth ≤ room) :
    Derives (IsDeclaration room) Declaration.relocate d.lexemes d := by
  intro tokens htokens
  obtain ⟨word, rest, rfl, hword, hrest⟩ := List.map_eq_cons_iff.mp htokens
  obtain ⟨front, behind, rfl, hfront, hbehind⟩ := List.map_eq_append_iff.mp hrest
  obtain ⟨back, last, rfl, hback, hlast⟩ := List.map_eq_append_iff.mp hbehind
  obtain ⟨semicolon, rfl, hsemicolon⟩ := List.map_eq_singleton_iff.mp hlast
  obtain ⟨initial, hinitial, hsame⟩ := derives_initial d.initial hroom back hback
  have hmap : initial.map (Expr.relocate nowhere) = d.initial.map (Expr.relocate nowhere) := hsame
  refine ⟨_, .mk hword (isNames_of_lexemes hnames front hfront) hinitial hsemicolon, ?_⟩
  rw [Declaration.relocate, Declaration.relocate, hmap]
  rfl

private theorem derives_body (body : List Assignment)
    (hroom : ∀ e ∈ body.map Assignment.value, e.depth ≤ room)
    {tokens : List Token} (htokens : tokens.map Token.lexeme = bodyLexemes body) :
    ∃ colon rest items, tokens = colon :: rest ∧ colon.lexeme = .mark .colon ∧
      IsBody room rest items ∧
      items.map (Assignment.relocate nowhere) = body.map (Assignment.relocate nowhere) := by
  obtain ⟨colon, rest, rfl, hcolon, hrest⟩ := List.map_eq_cons_iff.mp htokens
  obtain ⟨first, behind, rfl, hfirst, hbehind⟩ := List.map_eq_cons_iff.mp hrest
  obtain ⟨inner, closing, rfl, hinner, hclosing⟩ := List.map_eq_append_iff.mp hbehind
  obtain ⟨last, rfl, hlast⟩ := List.map_eq_singleton_iff.mp hclosing
  have hitems : ∀ a ∈ body, Derives (IsAssignment room) Assignment.relocate a.lexemes a :=
    fun a hmem => derives_assignment a (hroom _ (List.mem_map_of_mem hmem))
  obtain ⟨items, hsequence, hsame⟩ := derives_sequence body hitems inner hinner
  exact ⟨colon, _, items, rfl, hcolon, .mk hfirst hsequence hlast, hsame⟩

private theorem derives_guarded (keyword : Keyword) (block : Guarded)
    (hroom : ∀ e ∈ block.exprs, e.depth ≤ room) :
    Derives (IsGuarded room keyword) Guarded.relocate (block.lexemes keyword) block := by
  intro tokens htokens
  obtain ⟨word, rest, rfl, hword, hrest⟩ := List.map_eq_cons_iff.mp htokens
  obtain ⟨front, behind, rfl, hfront, hbehind⟩ := List.map_eq_append_iff.mp hrest
  obtain ⟨cs, hcs, hsame⟩ := derives_conditions block.conditions
    (fun e hmem => hroom e (List.mem_append_left _ hmem)) front hfront
  obtain ⟨colon, back, items, rfl, hcolon, hbody, hitems⟩ := derives_body block.body
    (fun e hmem => hroom e (List.mem_append_right _ hmem)) hbehind
  refine ⟨_, .mk hword hcs hcolon hbody, ?_⟩
  rw [Guarded.relocate, Guarded.relocate, hsame, hitems]
  rfl

private theorem derives_otherwise (block : Otherwise)
    (hroom : ∀ e ∈ block.body.map Assignment.value, e.depth ≤ room) :
    Derives (IsOtherwise room) Otherwise.relocate block.lexemes block := by
  intro tokens htokens
  obtain ⟨word, rest, rfl, hword, hrest⟩ := List.map_eq_cons_iff.mp htokens
  obtain ⟨colon, back, items, rfl, hcolon, hbody, hitems⟩ := derives_body block.body hroom hrest
  refine ⟨_, .mk hword hcolon hbody, ?_⟩
  rw [Otherwise.relocate, Otherwise.relocate, hitems]
  rfl

private theorem derives_conditional (c : Conditional) (hroom : ∀ e ∈ c.exprs, e.depth ≤ room) :
    Derives (IsConditional room) Conditional.relocate c.lexemes c := by
  intro tokens htokens
  obtain ⟨front, rest, rfl, hfront, hrest⟩ := List.map_eq_append_iff.mp htokens
  obtain ⟨middle, back, rfl, hmiddle, hback⟩ := List.map_eq_append_iff.mp hrest
  obtain ⟨head, hhead, hsame⟩ := derives_guarded .ifWord c.head
    (fun e hmem => hroom e (List.mem_append_left _ hmem)) front hfront
  have helifs : ∀ block ∈ c.elifs,
      Derives (IsGuarded room .elifWord) Guarded.relocate (block.lexemes .elifWord) block := by
    intro block hblock
    apply derives_guarded
    intro e hmem
    apply hroom
    simp only [Conditional.exprs, List.mem_append, List.mem_flatMap]
    exact Or.inr (Or.inl ⟨block, hblock, hmem⟩)
  obtain ⟨elifs, hsequence, hothers⟩ := derives_sequence c.elifs helifs middle hmiddle
  have helifs : elifs.map (Guarded.relocate nowhere) = c.elifs.map (Guarded.relocate nowhere) :=
    hothers
  cases hlast : c.otherwise with
  | none =>
      rw [hlast] at hback
      obtain rfl : back = [] := List.map_eq_nil_iff.mp hback
      refine ⟨_, .mk hhead hsequence .none, ?_⟩
      rw [Conditional.relocate, Conditional.relocate, hsame, helifs, hlast]
  | some block =>
      rw [hlast] at hback
      obtain ⟨last, hblock, hother⟩ := derives_otherwise block
        (fun e hmem => hroom e (by simp [Conditional.exprs, hlast]; simp at hmem; tauto)) back hback
      refine ⟨_, .mk hhead hsequence (.some hblock), ?_⟩
      rw [Conditional.relocate, Conditional.relocate, hsame, helifs, hlast, Option.map_some,
        Option.map_some, hother]

/-- Whether a declaration, if the statement is one, lists names. -/
def Statement.ListsNames : Statement → Prop
  | declaration d => d.names ≠ []
  | _ => True

private theorem derives_statement (s : Statement) (hnames : s.ListsNames)
    (hroom : ∀ e ∈ s.exprs, e.depth ≤ room) :
    Derives (IsStatement room) Statement.relocate s.lexemes s := by
  intro tokens htokens
  cases s with
  | declaration d =>
      obtain ⟨b, hb, hsame⟩ := derives_declaration d hnames
        (fun e hmem => hroom e (Option.mem_toList.mpr hmem)) tokens htokens
      exact ⟨_, .declaration hb, congrArg Statement.declaration hsame⟩
  | assignment a =>
      obtain ⟨b, hb, hsame⟩ := derives_assignment a (hroom _ List.mem_cons_self) tokens htokens
      exact ⟨_, .assignment hb, congrArg Statement.assignment hsame⟩
  | conditional c =>
      obtain ⟨b, hb, hsame⟩ := derives_conditional c hroom tokens htokens
      exact ⟨_, .conditional hb, congrArg Statement.conditional hsame⟩
  | loop block =>
      obtain ⟨b, hb, hsame⟩ := derives_guarded .loopWord block hroom tokens htokens
      exact ⟨_, .loop hb, congrArg Statement.loop hsame⟩

/-- The canonical lexemes of a program denote it. -/
theorem derives_program (p : Program) (hnames : ∀ s ∈ p.statements, s.ListsNames)
    (hroom : ∀ s ∈ p.statements, ∀ e ∈ s.exprs, e.depth ≤ room) :
    Derives (IsProgram room) Program.relocate p.lexemes p := by
  intro tokens htokens
  have hone : ∀ s ∈ p.statements,
      Derives (IsStatement room) Statement.relocate s.lexemes s :=
    fun s hmem => derives_statement s (hnames s hmem) (hroom s hmem)
  obtain ⟨statements, hsequence, hsame⟩ := derives_sequence p.statements hone tokens htokens
  exact ⟨⟨statements⟩, hsequence, congrArg Program.mk hsame⟩

/-- The canonical parentheses of a program nest no deeper than there is room for. -/
theorem nesting_lexemes_le {p : Program} (hnames : ∀ s ∈ p.statements, s.ListsNames)
    (hroom : ∀ s ∈ p.statements, ∀ e ∈ s.exprs, e.depth ≤ room) : nesting p.lexemes ≤ room := by
  let tokens := p.lexemes.map fun lexeme => (⟨lexeme, 0, .first⟩ : Token)
  have hlexemes : tokens.map Token.lexeme = p.lexemes := by simp [tokens, Function.comp_def]
  obtain ⟨q, hq, -⟩ := derives_program p hnames hroom tokens hlexemes
  have hnests := nestsWithin_iff.mp (isProgram_iff.mp hq).2
  rwa [hlexemes] at hnests

end LoopLang
