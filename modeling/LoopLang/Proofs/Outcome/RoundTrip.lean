import LoopLang.Proofs.Outcome.Exactness
import LoopLang.Proofs.Printing.Derivation
import LoopLang.Proofs.Printing.Pages

/-!
# Printing a program and parsing it again

Whatever a parse returns, on a valid text or not, its canonical text is parsed without a diagnostic,
with the same limit, to the same program up to locations (`parse_text_parse`).  All that this takes
of a program is gathered in `Program.Printable`: its names and numbers can stand in a text, its
declarations list names that are distinct, and there is room for its parentheses.
-/

namespace LoopLang

open Grammar

/-- A program whose canonical text is a valid text under a limit. -/
structure Program.Printable (limit : Nat) (p : Program) : Prop where
  lexical : AllLexical p.lexemes
  lists_names : ∀ s ∈ p.statements, s.ListsNames
  distinct : p.DistinctNames
  depth_le : ∀ s ∈ p.statements, ∀ e ∈ s.exprs, e.depth ≤ limit

/-- There is room enough for every program. -/
theorem Program.exists_room (p : Program) :
    ∃ room, ∀ s ∈ p.statements, ∀ e ∈ s.exprs, e.depth ≤ room := by
  let depths := (p.statements.flatMap Statement.exprs).map Expr.depth
  refine ⟨depths.sum, fun s hs e he => ?_⟩
  have hmem : e.depth ∈ depths := List.mem_map_of_mem (List.mem_flatMap.mpr ⟨s, hs, he⟩)
  exact List.le_sum_of_mem hmem

/-- Where names and numbers can stand in a text, and declarations list distinct names, the canonical
text of a program denotes the program and is valid wherever its parentheses have room. -/
theorem exists_isValid_text {p : Program} (hlexical : AllLexical p.lexemes)
    (hnames : ∀ s ∈ p.statements, s.ListsNames) (hdistinct : p.DistinctNames) :
    ∃ q : Program, q.bare = p.bare ∧ ∀ limit, nesting (lexemesOf p.text.toList) ≤ limit →
      IsValid limit (Cursor.start p.text).tokens q := by
  have hlexemes : (Cursor.start p.text).tokens.map Token.lexeme = p.lexemes := by
    rw [Cursor.map_lexeme_tokens]
    exact lexemesOf_text p hlexical
  -- With room enough the text is a sentence, and how deep it nests says for which limits it is one.
  obtain ⟨room, hroom⟩ := p.exists_room
  obtain ⟨q, hq, hsame⟩ := derives_program p hnames hroom _ hlexemes
  have hbare : q.bare = p.bare := hsame
  refine ⟨q, hbare, fun limit hlimit => ⟨⟨room, hq⟩, ?_, ?_⟩⟩
  · exact Program.distinctNames_of_bare_eq hbare hdistinct
  · rw [nestsWithin_iff, Cursor.map_lexeme_tokens]
    exact hlimit

/-- The canonical text of a program denotes the program. -/
theorem parse_text_of_printable {limit : Nat} {p : Program} (hprintable : p.Printable limit) :
    (parse p.text limit).diagnostics = [] ∧ (parse p.text limit).program.bare = p.bare := by
  obtain ⟨q, hbare, hvalid⟩ :=
    exists_isValid_text hprintable.lexical hprintable.lists_names hprintable.distinct
  have hnesting : nesting (lexemesOf p.text.toList) ≤ limit := by
    rw [lexemesOf_text p hprintable.lexical]
    exact nesting_lexemes_le hprintable.lists_names hprintable.depth_le
  obtain ⟨hclean, hprogram⟩ := parse_of_isValid (hvalid limit hnesting)
  rw [hprogram]
  exact ⟨hclean, hbare⟩

/-- Every statement that a parse returns is denoted by tokens of the text. -/
theorem exists_tokens_of_mem {source : String} {limit : Nat} {s : Statement}
    (hmem : s ∈ (parse source limit).program.statements) :
    ∃ tokens, tokens <:+: (Cursor.start source).tokens ∧ IsStatement limit tokens s ∧
      s.DistinctNames := by
  have hat := Reader.atStatement_start source limit
  obtain ⟨outcomes, later, hattempts, hresult, -⟩ := Reader.program_apply hat
  rw [parse_program_eq, hresult] at hmem
  have hkept : some s ∈ outcomes := by simpa using hmem
  exact hattempts.exists_tokens Rule.repeats_keptStatement hat hkept

/-- Whatever a parse returns can be printed. -/
theorem printable_parse (source : String) (limit : Nat) :
    (parse source limit).program.Printable limit where
  lexical := by
    rw [Program.lexemes, allLexical_flatMap]
    intro s hmem lexeme hlexeme
    obtain ⟨tokens, hwithin, hstatement, -⟩ := exists_tokens_of_mem hmem
    obtain ⟨token, htoken, rfl⟩ := List.mem_map.mp (hstatement.losesPairs.sublist.subset hlexeme)
    exact Cursor.lexical_of_mem_tokens _ token (hwithin.subset htoken)
  lists_names := by
    intro s hmem
    obtain ⟨tokens, -, hstatement, -⟩ := exists_tokens_of_mem hmem
    cases hstatement with
    | declaration htokens =>
        obtain ⟨-, hnames, -, -⟩ := htokens
        exact hnames.ne_nil
    | _ => trivial
  distinct := by
    intro s hmem
    obtain ⟨tokens, -, -, hdistinct⟩ := exists_tokens_of_mem hmem
    exact hdistinct
  depth_le := by
    intro s hmem
    obtain ⟨tokens, -, hstatement, -⟩ := exists_tokens_of_mem hmem
    exact hstatement.depth_le

/-- The canonical text of whatever a parse returns is parsed to the same program up to locations,
with nothing to report, and printed in the same way. -/
theorem parse_text_parse (source : String) (limit : Nat) :
    (parse (parse source limit).program.text limit).diagnostics = [] ∧
      (parse (parse source limit).program.text limit).program.bare =
        (parse source limit).program.bare ∧
      (parse (parse source limit).program.text limit).program.text =
        (parse source limit).program.text := by
  obtain ⟨hdiagnostics, hbare⟩ := parse_text_of_printable (printable_parse source limit)
  exact ⟨hdiagnostics, hbare, Program.text_eq_of_bare_eq hbare⟩

end LoopLang
