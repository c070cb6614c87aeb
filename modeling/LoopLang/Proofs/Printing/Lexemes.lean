import LoopLang.Proofs.Printing.Parentheses
import LoopLang.Tree.Layout

/-!
# The canonical lexemes of a tree

Each tree has one canonical list of lexemes, which is what its canonical text is made of.  It has
parentheses only where precedence asks for them, so it is what is left of any sentence that denotes
the tree when the other pairs of parentheses are taken away (`losesPairs`), and it nests no deeper
than the sentence (`depth_le`).
-/

namespace LoopLang

open Grammar

/-! ## Parentheses -/

/-- Lexemes in parentheses, where they are needed. -/
def inParens (needed : Bool) (lexemes : List Lexeme) : List Lexeme :=
  if needed then .mark .openParen :: (lexemes ++ [.mark .closeParen]) else lexemes

namespace Expr

/-- Whether an expression stands at a level without parentheses. -/
def fits (level : Option Precedence) (e : Expr) : Bool :=
  match e.precedence?, level with
  | none, _ => true
  | some _, none => false
  | some inner, some level => level ≤ inner

private theorem needsParens_left (level : Precedence) (e : Expr) :
    e.needsParens level .left = !e.fits (some level) := by
  unfold needsParens fits
  rcases e.precedence? with _ | inner
  · rfl
  · cases level <;> cases inner <;> rfl

private theorem needsParens_right (level : Precedence) (e : Expr) :
    e.needsParens level .right = !e.fits level.tighter := by
  unfold needsParens fits
  rcases e.precedence? with _ | inner
  · rfl
  · cases level <;> cases inner <;> rfl

/-- Everything fits at the loosest level. -/
theorem fits_additive (e : Expr) : e.fits (some .additive) = true := by
  unfold fits
  rcases e.precedence? with _ | inner
  · rfl
  · cases inner <;> rfl

/-- What fits at a level fits at each looser one. -/
private theorem fits_of_tighter {level : Precedence} {e : Expr}
    (hfits : e.fits level.tighter = true) :
    e.fits (some level) = true := by
  unfold fits at *
  rcases hprecedence : e.precedence? with _ | inner
  · rfl
  · rw [hprecedence] at hfits
    cases level <;> cases inner <;> first | rfl | exact hfits

/-! ## Expressions -/

/-- The canonical lexemes of an expression. -/
def lexemes : Expr → List Lexeme
  | ident name _ => [.ident name]
  | number digits _ => [.number digits]
  | binary op left right _ =>
    inParens (left.needsParens op.precedence .left) left.lexemes ++
      .arith op :: inParens (right.needsParens op.precedence .right) right.lexemes

/-- How deep the parentheses among the canonical lexemes of an expression nest. -/
def depth : Expr → Nat
  | ident _ _ => 0
  | number _ _ => 0
  | binary op left right _ =>
    max (left.depth + (left.needsParens op.precedence .left).toNat)
      (right.depth + (right.needsParens op.precedence .right).toNat)

/-- The canonical lexemes of an expression at a level. -/
def lexemesAt (level : Option Precedence) (e : Expr) : List Lexeme :=
  inParens (!e.fits level) e.lexemes

/-- How deep parentheses nest at a level. -/
def depthAt (level : Option Precedence) (e : Expr) : Nat := e.depth + (!e.fits level).toNat

@[simp] theorem lexemesAt_additive (e : Expr) : e.lexemesAt (some .additive) = e.lexemes := by
  simp [lexemesAt, inParens, e.fits_additive]

@[simp] theorem depthAt_additive (e : Expr) : e.depthAt (some .additive) = e.depth := by
  simp [depthAt, e.fits_additive]

theorem lexemes_binary (op : ArithOp) (left right : Expr) (location : Location) :
    (binary op left right location).lexemes = left.lexemesAt (some op.precedence) ++
      .arith op :: right.lexemesAt op.precedence.tighter := by
  rw [lexemes, needsParens_left, needsParens_right, lexemesAt, lexemesAt]

theorem depth_binary (op : ArithOp) (left right : Expr) (location : Location) :
    (binary op left right location).depth =
      max (left.depthAt (some op.precedence)) (right.depthAt op.precedence.tighter) := by
  rw [depth, needsParens_left, needsParens_right, depthAt, depthAt]

private theorem fits_binary (op : ArithOp) (left right : Expr) (location : Location) :
    (binary op left right location).fits (some op.precedence) = true := by
  simp [fits, precedence?]
  exact Nat.le_refl _

theorem lexemesAt_of_fits {level : Option Precedence} {e : Expr} (hfits : e.fits level = true) :
    e.lexemesAt level = e.lexemes := by
  simp [lexemesAt, inParens, hfits]

theorem depthAt_of_fits {level : Option Precedence} {e : Expr} (hfits : e.fits level = true) :
    e.depthAt level = e.depth := by
  simp [depthAt, hfits]

/-- The parentheses among canonical lexemes match. -/
theorem isMatched_lexemes (e : Expr) : IsMatched e.lexemes := by
  have hparens : ∀ (needed : Bool) {lexemes : List Lexeme}, IsMatched lexemes →
      IsMatched (inParens needed lexemes) := by
    intro needed lexemes h
    unfold inParens
    split
    · exact .pair h .nil
    · exact h
  induction e with
  | ident name location => exact .other (by simp) (by simp) .nil
  | number digits location => exact .other (by simp) (by simp) .nil
  | binary op left right location ihleft ihright =>
      exact (hparens _ ihleft).append (.other (by simp) (by simp) (hparens _ ihright))

/-- At a looser level there is a pair of parentheses less, if there is a difference at all. -/
private theorem losesPairs_tighter (level : Precedence) (e : Expr) :
    LosesPairs (e.lexemesAt level.tighter) (e.lexemesAt (some level)) := by
  by_cases hfits : e.fits level.tighter = true
  · rw [lexemesAt_of_fits hfits, lexemesAt_of_fits (fits_of_tighter hfits)]
  · have htighter : e.lexemesAt level.tighter =
        .mark .openParen :: (e.lexemes ++ [.mark .closeParen]) := by
      simp [lexemesAt, inParens, hfits]
    by_cases hlooser : e.fits (some level) = true
    · rw [lexemesAt_of_fits hlooser, htighter]
      exact losesPairs_unwrap e.isMatched_lexemes
    · have hsame : e.lexemesAt (some level) = e.lexemesAt level.tighter := by
        rw [htighter]
        simp [lexemesAt, inParens, hlooser]
      rw [hsame]

private theorem depthAt_le_tighter (level : Precedence) (e : Expr) :
    e.depthAt (some level) ≤ e.depthAt level.tighter := by
  by_cases hfits : e.fits level.tighter = true
  · have hsame : e.depthAt (some level) = e.depthAt level.tighter := by
      rw [depthAt_of_fits hfits, depthAt_of_fits (fits_of_tighter hfits)]
    exact Nat.le_of_eq hsame
  · have hone : (!e.fits (some level)).toNat ≤ 1 := Bool.toNat_le _
    simp only [depthAt, hfits, Bool.not_false, Bool.toNat_true]
    omega

end Expr

namespace Grammar

/-- Whatever denotes an expression has its canonical lexemes, and other pairs of parentheses. -/
theorem IsExpr.losesPairs {room : Nat} {level : Option Precedence} {tokens : List Token}
    {e : Expr} (h : IsExpr room level tokens e) :
    LosesPairs (tokens.map Token.lexeme) (e.lexemesAt level) := by
  induction h with
  | ident htoken =>
      simp [Expr.lexemesAt, Expr.fits, Expr.precedence?, inParens, Expr.lexemes, htoken]
      exact .refl
  | number htoken =>
      simp [Expr.lexemesAt, Expr.fits, Expr.precedence?, inParens, Expr.lexemes, htoken]
      exact .refl
  | @parenthesized room opening closing inner e hopening hinner hclosing ih =>
      rw [Expr.lexemesAt_additive] at ih
      rw [List.map_cons, List.map_append, List.map_singleton, hopening, hclosing]
      unfold Expr.lexemesAt inParens
      -- Where the inner expression fits without its parentheses, one pair is lost.
      split
      · exact (ih.append .refl).cons _
      · exact (losesPairs_unwrap (isMatched_of_bracketed (bracketed_isExpr hinner))).trans ih
  | single _ ih => exact ih.trans (Expr.losesPairs_tighter _ _)
  | @binary room level left right sign op e f _ hsign hlevel _ ihleft ihright =>
      subst hlevel
      rw [Expr.lexemesAt_of_fits (Expr.fits_binary op e f _), Expr.lexemes_binary,
        List.map_append, List.map_cons, hsign]
      exact ihleft.append (ihright.cons _)

/-- Whatever denotes an expression has room for its canonical parentheses. -/
theorem IsExpr.depth_le {room : Nat} {level : Option Precedence} {tokens : List Token}
    {e : Expr} (h : IsExpr room level tokens e) : e.depthAt level ≤ room := by
  induction h with
  | ident => simp [Expr.depthAt, Expr.fits, Expr.precedence?, Expr.depth]
  | number => simp [Expr.depthAt, Expr.fits, Expr.precedence?, Expr.depth]
  | @parenthesized room opening closing inner e _ _ _ ih =>
      rw [Expr.depthAt_additive] at ih
      have hone : (!e.fits none).toNat ≤ 1 := Bool.toNat_le _
      unfold Expr.depthAt
      omega
  | single _ ih => exact Nat.le_trans (Expr.depthAt_le_tighter _ _) ih
  | @binary room level left right sign op e f _ _ hlevel _ ihleft ihright =>
      subst hlevel
      rw [Expr.depthAt_of_fits (Expr.fits_binary op e f _), Expr.depth_binary]
      exact Nat.max_le.mpr ⟨ihleft, ihright⟩

end Grammar

/-! ## Conditions and statements -/

/-- The canonical lexemes of a comparison. -/
def Comparison.lexemes (c : Comparison) : List Lexeme :=
  c.left.lexemes ++ .relation c.op :: c.right.lexemes

/-- The canonical lexemes of conditions. -/
def Conditions.lexemes : Conditions → List Lexeme
  | single c => c.lexemes
  | combined op left right _ => left.lexemes ++ .connective op :: right.lexemes

/-- The canonical lexemes of an assignment. -/
def Assignment.lexemes (a : Assignment) : List Lexeme :=
  .ident a.target :: .assign a.op :: (a.value.lexemes ++ [.mark .semicolon])

/-- Names with commas between them. -/
def nameLexemes : List String → List Lexeme
  | [] => []
  | [name] => [.ident name]
  | name :: names => .ident name :: .mark .comma :: nameLexemes names

/-- An equals sign and an initial value, if there is one. -/
def initialLexemes : Option Expr → List Lexeme
  | none => []
  | some e => .assign .plain :: e.lexemes

/-- The canonical lexemes of a declaration. -/
def Declaration.lexemes (d : Declaration) : List Lexeme :=
  .keyword .intWord :: (nameLexemes d.names ++ (initialLexemes d.initial ++ [.mark .semicolon]))

/-- The canonical lexemes of a body, from the colon in front of it on. -/
def bodyLexemes (body : List Assignment) : List Lexeme :=
  .mark .colon :: .keyword .beginWord ::
    (body.flatMap Assignment.lexemes ++ [.keyword .endWord])

/-- The canonical lexemes of a block that a given word begins. -/
def Guarded.lexemes (word : Keyword) (block : Guarded) : List Lexeme :=
  .keyword word :: (block.conditions.lexemes ++ bodyLexemes block.body)

/-- The canonical lexemes of an `else` block. -/
def Otherwise.lexemes (block : Otherwise) : List Lexeme :=
  .keyword .elseWord :: bodyLexemes block.body

/-- The canonical lexemes of a conditional. -/
def Conditional.lexemes (c : Conditional) : List Lexeme :=
  c.head.lexemes .ifWord ++ (c.elifs.flatMap (Guarded.lexemes .elifWord) ++
    (c.otherwise.elim [] Otherwise.lexemes))

/-- The canonical lexemes of a statement. -/
def Statement.lexemes : Statement → List Lexeme
  | declaration d => d.lexemes
  | assignment a => a.lexemes
  | conditional c => c.lexemes
  | loop block => block.lexemes .loopWord

/-- The canonical lexemes of a program. -/
def Program.lexemes (p : Program) : List Lexeme := p.statements.flatMap Statement.lexemes

/-! ## The expressions of a statement -/

/-- The expressions of conditions. -/
def Conditions.exprs : Conditions → List Expr
  | single c => [c.left, c.right]
  | combined _ left right _ => left.exprs ++ [right.left, right.right]

/-- The expressions of a block. -/
def Guarded.exprs (block : Guarded) : List Expr :=
  block.conditions.exprs ++ block.body.map Assignment.value

/-- The expressions of a conditional. -/
def Conditional.exprs (c : Conditional) : List Expr :=
  c.head.exprs ++ (c.elifs.flatMap Guarded.exprs ++
    c.otherwise.elim [] fun block => block.body.map Assignment.value)

/-- The expressions of a statement, each as a whole. -/
def Statement.exprs : Statement → List Expr
  | declaration d => d.initial.toList
  | assignment a => [a.value]
  | conditional c => c.exprs
  | loop block => block.exprs

/-! ## Sentences and their trees -/

namespace Grammar

theorem IsSequence.losesPairs {α : Type} {P : List Token → α → Prop} {f : α → List Lexeme}
    {tokens : List Token} {as : List α} (h : IsSequence P tokens as)
    (hone : ∀ tokens a, P tokens a → LosesPairs (tokens.map Token.lexeme) (f a)) :
    LosesPairs (tokens.map Token.lexeme) (as.flatMap f) := by
  induction h with
  | nil => exact .refl
  | cons hfirst _ ih =>
      rw [List.flatMap_cons, List.map_append]
      exact (hone _ _ hfirst).append ih

/-- Each member of a sequence is denoted by some of its tokens. -/
theorem IsSequence.exists_tokens {α : Type} {P : List Token → α → Prop} {tokens : List Token}
    {as : List α} (h : IsSequence P tokens as) : ∀ a ∈ as, ∃ part, part ⊆ tokens ∧ P part a := by
  induction h with
  | nil => simp
  | @cons first rest _ _ hfirst _ ih =>
      intro a hmem
      rcases List.mem_cons.mp hmem with rfl | hmem
      · exact ⟨first, List.subset_append_left _ _, hfirst⟩
      · obtain ⟨part, hwithin, hpart⟩ := ih a hmem
        exact ⟨part, List.subset_append_of_subset_right _ hwithin, hpart⟩

theorem IsSequence.forall_mem {α : Type} {P : List Token → α → Prop} {Q : α → Prop}
    {tokens : List Token} {as : List α} (h : IsSequence P tokens as)
    (hone : ∀ tokens a, P tokens a → Q a) : ∀ a ∈ as, Q a := by
  intro a hmem
  obtain ⟨part, -, hpart⟩ := h.exists_tokens a hmem
  exact hone part a hpart

variable {room : Nat} {tokens : List Token} {keyword : Keyword}

private theorem IsExpr.losesPairs_additive {e : Expr} (h : IsExpr room (some .additive) tokens e) :
    LosesPairs (tokens.map Token.lexeme) e.lexemes := by
  simpa using h.losesPairs

private theorem IsComparison.losesPairs {c : Comparison} (h : IsComparison room tokens c) :
    LosesPairs (tokens.map Token.lexeme) c.lexemes := by
  obtain ⟨hleft, hsign, hright⟩ := h
  rw [Comparison.lexemes, List.map_append, List.map_cons, hsign]
  exact hleft.losesPairs_additive.append (hright.losesPairs_additive.cons _)

private theorem IsConditions.losesPairs {cs : Conditions} (h : IsConditions room tokens cs) :
    LosesPairs (tokens.map Token.lexeme) cs.lexemes := by
  induction h with
  | single htokens => exact htokens.losesPairs
  | combined _ hword hright ih =>
      rw [Conditions.lexemes, List.map_append, List.map_cons, hword]
      exact ih.append (hright.losesPairs.cons _)

private theorem IsAssignment.losesPairs {a : Assignment} (h : IsAssignment room tokens a) :
    LosesPairs (tokens.map Token.lexeme) a.lexemes := by
  obtain ⟨htoken, hsign, hvalue, hsemicolon⟩ := h
  rw [Assignment.lexemes, List.map_cons, List.map_cons, List.map_append, List.map_singleton, htoken,
    hsign, hsemicolon]
  exact ((hvalue.losesPairs_additive.append .refl).cons _).cons _

theorem nameLexemes_append (names : List String) (name : String) (hnames : names ≠ []) :
    nameLexemes (names ++ [name]) = nameLexemes names ++ [.mark .comma, .ident name] := by
  induction names with
  | nil => exact absurd rfl hnames
  | cons first names ih =>
      cases names with
      | nil => rfl
      | cons second names =>
          have hrest := ih (by simp)
          simp only [List.cons_append] at hrest
          simp only [List.cons_append, nameLexemes, hrest]

theorem IsNames.ne_nil {names : List String} (h : IsNames tokens names) : names ≠ [] := by
  cases h <;> simp

/-- A list of names has no lexemes but the canonical ones. -/
private theorem IsNames.lexemes_eq {names : List String} (h : IsNames tokens names) :
    nameLexemes names = tokens.map Token.lexeme := by
  induction h with
  | one htoken => simp [nameLexemes, htoken]
  | more hnames hcomma htoken ih =>
      rw [nameLexemes_append _ _ hnames.ne_nil, ih]
      simp [hcomma, htoken]

private theorem IsOptional.losesPairs {initial : Option Expr}
    (h : IsOptional (IsInitial room) tokens initial) :
    LosesPairs (tokens.map Token.lexeme) (initialLexemes initial) := by
  cases h with
  | none => exact .refl
  | some htokens =>
      obtain ⟨hsign, htokens⟩ := htokens
      rw [initialLexemes, List.map_cons, hsign]
      exact htokens.losesPairs_additive.cons _

private theorem IsDeclaration.losesPairs {d : Declaration} (h : IsDeclaration room tokens d) :
    LosesPairs (tokens.map Token.lexeme) d.lexemes := by
  obtain ⟨hword, hnames, hinitial, hsemicolon⟩ := h
  rw [Declaration.lexemes, List.map_cons, List.map_append, List.map_append, List.map_singleton,
    hword, hnames.lexemes_eq, hsemicolon]
  have hvalue := hinitial.losesPairs
  exact (LosesPairs.append .refl (hvalue.append .refl)).cons _

private theorem IsBody.losesPairs {colon : Token} {body : List Assignment}
    (hcolon : colon.lexeme = .mark .colon) (h : IsBody room tokens body) :
    LosesPairs ((colon :: tokens).map Token.lexeme) (bodyLexemes body) := by
  obtain ⟨hfirst, htokens, hlast⟩ := h
  rw [bodyLexemes, List.map_cons, List.map_cons, List.map_append, List.map_singleton, hcolon,
    hfirst, hlast]
  have hitems := htokens.losesPairs fun _ _ => IsAssignment.losesPairs
  exact ((hitems.append .refl).cons _).cons _

private theorem IsGuarded.losesPairs {block : Guarded} (h : IsGuarded room keyword tokens block) :
    LosesPairs (tokens.map Token.lexeme) (block.lexemes keyword) := by
  obtain ⟨hword, hconditions, hcolon, hbody⟩ := h
  rw [Guarded.lexemes, List.map_cons, List.map_append, hword]
  exact (hconditions.losesPairs.append (hbody.losesPairs hcolon)).cons _

private theorem IsOtherwise.losesPairs {block : Otherwise} (h : IsOtherwise room tokens block) :
    LosesPairs (tokens.map Token.lexeme) block.lexemes := by
  obtain ⟨hword, hcolon, hbody⟩ := h
  rw [Otherwise.lexemes, List.map_cons, hword]
  exact (hbody.losesPairs hcolon).cons _

private theorem IsConditional.losesPairs {c : Conditional} (h : IsConditional room tokens c) :
    LosesPairs (tokens.map Token.lexeme) c.lexemes := by
  obtain ⟨hhead, helifs, hotherwise⟩ := h
  have hlast : ∀ {tokens : List Token} {block : Option Otherwise},
      IsOptional (IsOtherwise room) tokens block →
      LosesPairs (tokens.map Token.lexeme) (block.elim [] Otherwise.lexemes) := by
    intro tokens block h
    cases h with
    | none => exact .refl
    | some htokens => exact htokens.losesPairs
  have hmiddle := helifs.losesPairs fun _ _ => IsGuarded.losesPairs
  rw [Conditional.lexemes, List.map_append, List.map_append]
  exact hhead.losesPairs.append (hmiddle.append (hlast hotherwise))

/-- Whatever denotes a statement has its canonical lexemes, and other pairs of parentheses. -/
theorem IsStatement.losesPairs {s : Statement} (h : IsStatement room tokens s) :
    LosesPairs (tokens.map Token.lexeme) s.lexemes := by
  cases h with
  | declaration htokens => exact htokens.losesPairs
  | assignment htokens => exact htokens.losesPairs
  | conditional htokens => exact htokens.losesPairs
  | loop htokens => exact htokens.losesPairs

/-! ## Room for the expressions of a sentence -/

private theorem IsExpr.depth_le_additive {e : Expr} (h : IsExpr room (some .additive) tokens e) :
    e.depth ≤ room := by
  simpa using h.depth_le

private theorem IsConditions.depth_le {cs : Conditions} (h : IsConditions room tokens cs) :
    ∀ e ∈ cs.exprs, e.depth ≤ room := by
  induction h with
  | single htokens =>
      obtain ⟨hleft, -, hright⟩ := htokens
      simpa [Conditions.exprs] using ⟨hleft.depth_le_additive, hright.depth_le_additive⟩
  | combined _ _ hright ih =>
      obtain ⟨hleft, -, hright⟩ := hright
      intro e hmem
      simp only [Conditions.exprs, List.mem_append, List.mem_cons, List.not_mem_nil,
        or_false] at hmem
      rcases hmem with hmem | rfl | rfl
      · exact ih e hmem
      · exact hleft.depth_le_additive
      · exact hright.depth_le_additive

private theorem IsBody.depth_le {body : List Assignment} (h : IsBody room tokens body) :
    ∀ e ∈ body.map Assignment.value, e.depth ≤ room := by
  obtain ⟨-, htokens, -⟩ := h
  intro e hmem
  obtain ⟨a, ha, rfl⟩ := List.mem_map.mp hmem
  refine htokens.forall_mem (Q := fun a => a.value.depth ≤ room) ?_ a ha
  rintro _ _ ⟨-, -, hvalue, -⟩
  exact hvalue.depth_le_additive

private theorem IsGuarded.depth_le {block : Guarded} (h : IsGuarded room keyword tokens block) :
    ∀ e ∈ block.exprs, e.depth ≤ room := by
  obtain ⟨-, hconditions, -, hbody⟩ := h
  intro e hmem
  rcases List.mem_append.mp hmem with hmem | hmem
  · exact hconditions.depth_le e hmem
  · exact hbody.depth_le e hmem

/-- Whatever denotes a statement has room for its canonical parentheses. -/
theorem IsStatement.depth_le {s : Statement} (h : IsStatement room tokens s) :
    ∀ e ∈ s.exprs, e.depth ≤ room := by
  cases h with
  | declaration htokens =>
      obtain ⟨-, -, hinitial, -⟩ := htokens
      cases hinitial with
      | none => simp [Statement.exprs]
      | some htokens =>
          obtain ⟨-, htokens⟩ := htokens
          simpa [Statement.exprs] using htokens.depth_le_additive
  | assignment htokens =>
      obtain ⟨-, -, hvalue, -⟩ := htokens
      simpa [Statement.exprs] using hvalue.depth_le_additive
  | conditional htokens =>
      obtain ⟨hhead, helifs, hotherwise⟩ := htokens
      intro e hmem
      simp only [Statement.exprs, Conditional.exprs, List.mem_append, List.mem_flatMap] at hmem
      rcases hmem with hmem | ⟨block, hblock, hmem⟩ | hmem
      · exact hhead.depth_le e hmem
      · exact helifs.forall_mem (fun _ _ => IsGuarded.depth_le) block hblock e hmem
      · cases hotherwise with
        | none => simp at hmem
        | some htokens =>
            obtain ⟨-, -, hbody⟩ := htokens
            exact hbody.depth_le e hmem
  | loop htokens => exact htokens.depth_le

end Grammar

end LoopLang
