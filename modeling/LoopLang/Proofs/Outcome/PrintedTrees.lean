import LoopLang.Proofs.Outcome.Limits
import LoopLang.Proofs.Outcome.RoundTrip
import LoopLang.Proofs.Tree.Nodes

/-!
# Printing any tree and parsing the text

A tree need not come from a parse to be printed.  If it is well formed, its canonical text is parsed
to the tree again, up to locations, with any limit that the parentheses of the text stay within; and
with any other limit the parse says that they nest too deep (`parse_text_of_wellFormed`).

That the text is a valid one, where there is room enough, only takes that the names and numbers of
the tree can stand in a text.  That no other diagnostic is reported in place of the one about
parentheses is a matter of two runs with different limits (`parse_more_room`): the one that has room
reports nothing, so the other one reports nothing before it has no room left.
-/

namespace LoopLang

open Grammar

/-! ## The lexemes of a well-formed tree -/

private theorem allLexical_expr {e : Expr} (hformed : (Node.expr e).WellFormed) :
    AllLexical e.lexemes := by
  induction e with
  | ident name location =>
      have hname : IsName name := Node.everywhere_ident.mp hformed
      simpa [AllLexical, Expr.lexemes] using hname
  | number digits location =>
      have hdigits : IsNumeral digits := Node.everywhere_number.mp hformed
      simpa [AllLexical, Expr.lexemes] using hdigits
  | binary op left right location ihleft ihright =>
      obtain ⟨-, hleft, hright⟩ := Node.everywhere_binary.mp hformed
      rw [Expr.lexemes, allLexical_append, allLexical_cons, allLexical_inParens,
        allLexical_inParens]
      exact ⟨ihleft hleft, trivial, ihright hright⟩

private theorem allLexical_comparison {c : Comparison} (hformed : (Node.comparison c).WellFormed) :
    AllLexical c.lexemes := by
  obtain ⟨-, hleft, hright⟩ := Node.everywhere_comparison.mp hformed
  rw [Comparison.lexemes, allLexical_append, allLexical_cons]
  exact ⟨allLexical_expr hleft, trivial, allLexical_expr hright⟩

private theorem allLexical_conditions {cs : Conditions}
    (hformed : (Node.conditions cs).WellFormed) :
    AllLexical cs.lexemes := by
  induction cs with
  | single c => exact allLexical_comparison (Node.everywhere_single.mp hformed).2
  | combined op left right location ih =>
      obtain ⟨-, hleft, hright⟩ := Node.everywhere_combined.mp hformed
      rw [Conditions.lexemes, allLexical_append, allLexical_cons]
      exact ⟨ih hleft, trivial, allLexical_comparison hright⟩

private theorem allLexical_assignment {a : Assignment} (hformed : (Node.assignment a).WellFormed) :
    AllLexical a.lexemes := by
  obtain ⟨htarget, hvalue⟩ := Node.everywhere_assignment.mp hformed
  rw [Assignment.lexemes, allLexical_cons, allLexical_cons, allLexical_append]
  exact ⟨htarget, trivial, allLexical_expr hvalue, by simp [AllLexical]⟩

private theorem allLexical_names {names : List String} (hnames : ∀ name ∈ names, IsName name) :
    AllLexical (nameLexemes names) := by
  induction names using nameLexemes.induct with
  | case1 => simp [AllLexical, nameLexemes]
  | case2 name => simpa [AllLexical, nameLexemes] using hnames
  | case3 name names hmore ih =>
      rw [List.forall_mem_cons] at hnames
      rw [nameLexemes, allLexical_cons, allLexical_cons]
      · exact ⟨hnames.1, trivial, ih hnames.2⟩
      · exact hmore

private theorem allLexical_declaration {d : Declaration}
    (hformed : (Node.declaration d).WellFormed) :
    AllLexical d.lexemes := by
  obtain ⟨⟨-, -, hnames⟩, hinitial⟩ := Node.everywhere_declaration.mp hformed
  have hvalue : AllLexical (initialLexemes d.initial) := by
    cases hcase : d.initial with
    | none => simp [AllLexical, initialLexemes]
    | some e =>
        rw [initialLexemes, allLexical_cons]
        exact ⟨trivial, allLexical_expr (hinitial e hcase)⟩
  rw [Declaration.lexemes, allLexical_cons, allLexical_append, allLexical_append]
  exact ⟨trivial, allLexical_names hnames, hvalue, by simp [AllLexical]⟩

private theorem allLexical_body {body : List Assignment}
    (hformed : ∀ a ∈ body, (Node.assignment a).WellFormed) : AllLexical (bodyLexemes body) := by
  rw [bodyLexemes, allLexical_cons, allLexical_cons, allLexical_append, allLexical_flatMap]
  exact ⟨trivial, trivial, fun a hmem => allLexical_assignment (hformed a hmem),
    by simp [AllLexical]⟩

private theorem allLexical_guarded {keyword : Keyword} {block : Guarded}
    (hformed : ∀ child ∈ Node.guardedChildren block, child.WellFormed) :
    AllLexical (block.lexemes keyword) := by
  obtain ⟨hconditions, hbody⟩ := Node.forall_mem_guardedChildren.mp hformed
  rw [Guarded.lexemes, allLexical_cons, allLexical_append]
  exact ⟨trivial, allLexical_conditions hconditions, allLexical_body hbody⟩

private theorem allLexical_otherwise {block : Otherwise}
    (hformed : (Node.otherwise block).WellFormed) :
    AllLexical block.lexemes := by
  rw [Otherwise.lexemes, allLexical_cons]
  exact ⟨trivial, allLexical_body (Node.everywhere_otherwise.mp hformed).2⟩

private theorem allLexical_conditional {c : Conditional}
    (hformed : (Node.conditional c).WellFormed) :
    AllLexical c.lexemes := by
  obtain ⟨-, hhead, helifs, hotherwise⟩ := Node.everywhere_conditional.mp hformed
  have hlast : AllLexical (c.otherwise.elim [] Otherwise.lexemes) := by
    cases hcase : c.otherwise with
    | none => simp [AllLexical]
    | some block => exact allLexical_otherwise (hotherwise block hcase)
  rw [Conditional.lexemes, allLexical_append, allLexical_append, allLexical_flatMap]
  exact ⟨allLexical_guarded hhead,
    fun block hmem => allLexical_guarded (Node.everywhere_elif.mp (helifs block hmem)).2, hlast⟩

private theorem allLexical_statement {s : Statement} (hformed : s.node.WellFormed) :
    AllLexical s.lexemes := by
  cases s with
  | declaration d => exact allLexical_declaration hformed
  | assignment a => exact allLexical_assignment hformed
  | conditional c => exact allLexical_conditional hformed
  | loop block => exact allLexical_guarded (Node.everywhere_loop.mp hformed).2

/-! ## Well-formed programs -/

namespace Program.WellFormed

variable {p : Program} (hformed : p.WellFormed)

include hformed

theorem allLexical : AllLexical p.lexemes := by
  obtain ⟨-, hstatements⟩ := Node.everywhere_program.mp hformed
  rw [Program.lexemes, allLexical_flatMap]
  exact fun s hmem => allLexical_statement (hstatements s hmem)

private theorem names_declaration {d : Declaration} (hmem : .declaration d ∈ p.statements) :
    d.names ≠ [] ∧ d.names.Nodup := by
  obtain ⟨-, hstatements⟩ := Node.everywhere_program.mp hformed
  obtain ⟨⟨hnames, hdistinct, -⟩, -⟩ := Node.everywhere_declaration.mp (hstatements _ hmem)
  exact ⟨hnames, hdistinct⟩

theorem listsNames : ∀ s ∈ p.statements, s.ListsNames := by
  intro s hmem
  cases s with
  | declaration d => exact (names_declaration hformed hmem).1
  | _ => trivial

theorem distinctNames : p.DistinctNames := by
  intro s hmem
  cases s with
  | declaration d => exact (names_declaration hformed hmem).2
  | _ => trivial

end Program.WellFormed

/-! ## The text of a well-formed program -/

/-- A text whose parentheses nest deeper than the limit is not parsed without a diagnostic. -/
theorem nesting_le_of_diagnostics_eq_nil {source : String} {limit : Nat}
    (hclean : (parse source limit).diagnostics = []) :
    nesting (lexemesOf source.toList) ≤ limit := by
  have hnests := (isValid_of_diagnostics_eq_nil hclean).nests
  rw [nestsWithin_iff, Cursor.map_lexeme_tokens] at hnests
  exact hnests

/-- The canonical text of a well-formed program is parsed to the program, up to locations and with
nothing to report, with every limit that its parentheses stay within.  With every other limit it is
reported that they nest too deep. -/
theorem parse_text_of_wellFormed {p : Program} (hformed : p.WellFormed) (limit : Nat) :
    (nesting (lexemesOf p.text.toList) ≤ limit →
      (parse p.text limit).diagnostics = [] ∧ (parse p.text limit).program.bare = p.bare) ∧
    (limit < nesting (lexemesOf p.text.toList) →
      ∃ d ∈ (parse p.text limit).diagnostics, d.cause = .tooDeep limit) := by
  obtain ⟨q, hbare, hvalid⟩ :=
    exists_isValid_text hformed.allLexical hformed.listsNames hformed.distinctNames
  constructor
  · intro hlimit
    obtain ⟨hclean, hprogram⟩ := parse_of_isValid (hvalid limit hlimit)
    rw [hprogram]
    exact ⟨hclean, hbare⟩
  · intro hlimit
    rcases parse_more_room p.text (Nat.le_of_lt hlimit) with
      ⟨-, hsame⟩ | ⟨before, d, after, hdiagnostics, hcause, -⟩
    · -- With room enough nothing is reported, so nothing would be reported with the smaller limit.
      have hclean := (parse_of_isValid (hvalid _ (Nat.le_refl _))).1
      rw [hsame] at hclean
      exact absurd (nesting_le_of_diagnostics_eq_nil hclean) (Nat.not_le.mpr hlimit)
    · exact ⟨d, by simp [hdiagnostics], hcause⟩

/-- A chain of operators that nests to the right, which only parentheses can say. -/
def rightNested : Program where
  statements := [.assignment
    { target := "x"
      op := .compound .mod
      value := .binary .sub (.ident "a" .first)
        (.binary .add (.number "2" .first)
          (.binary .pow (.ident "b" .first)
            (.binary .pow (.number "3" .first) (.ident "c" .first) .first) .first) .first) .first
      location := .first }]

/-- The chain takes two levels of parentheses, and is refused where there is room for one. -/
theorem parse_text_of_wellFormed_rightNested :
    rightNested.text = "x %= a - (2 + b ^ (3 ^ c));\n" ∧ rightNested.WellFormed ∧
      (parse rightNested.text 2).diagnostics = [] ∧
      (parse rightNested.text 2).program.bare = rightNested.bare ∧
      ∃ d ∈ (parse rightNested.text 1).diagnostics, d.cause = .tooDeep 1 := by
  have hnumeral : ∀ digits ∈ ["2", "3"], IsNumeral digits := by decide
  have hname : ∀ name ∈ ["x", "a", "b", "c"], IsName name := by decide
  have hformed : rightNested.WellFormed := by
    simp only [Program.WellFormed, Node.WellFormed, rightNested, Node.everywhere_program,
      List.forall_mem_singleton, Statement.node, Node.everywhere_assignment,
      Node.everywhere_binary, Node.everywhere_ident, Node.everywhere_number]
    simp_all [Node.label, Expr.label, Label.WellFormed]
  have hnesting : nesting (lexemesOf rightNested.text.toList) = 2 := by decide +kernel
  obtain ⟨hclean, hbare⟩ := (parse_text_of_wellFormed hformed 2).1 (by rw [hnesting])
  have hdeep := (parse_text_of_wellFormed hformed 1).2 (by rw [hnesting]; decide)
  exact ⟨by decide +kernel, hformed, hclean, hbare, hdeep⟩

end LoopLang
