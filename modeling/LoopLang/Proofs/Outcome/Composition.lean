import LoopLang.Proofs.Outcome.Below
import LoopLang.Proofs.Outcome.Exactness

/-!
# Texts one below the other

Behind a text that is correct a reader is as fresh as at the start: it is outside of all constructs,
the current token has no report, and nothing was reported.  So whatever stands on the lines below is
read as if it stood alone, with its errors, and only its places are others (`parse_append_line`).
-/

namespace LoopLang

/-- Turns of a program, and the program behind them. -/
theorem Reader.program_append {room : Nat} {reader later : Reader}
    {outcomes : List (Option Statement)} (hat : Rule.AtStatement room reader)
    (hattempted : Rule.Attempted Rule.programGoesOn Rule.keptStatement reader outcomes later)
    (hlater : Rule.AtStatement room later) :
    reader.program =
      (⟨outcomes.filterMap id ++ later.program.1.statements⟩, later.program.2) := by
  obtain ⟨others, last, hothers, hresult, hahead⟩ := program_apply hlater
  obtain ⟨all, final, hall, hprogram, -⟩ := program_apply hat
  obtain ⟨rfl, rfl⟩ := (hattempted.append hothers).unique hall
  rw [hprogram, hresult, List.filterMap_append]

/-- The outcome of a text that stands below one that is correct, where its first token does not
continue the last statement above: the statements above, and those below as if they stood alone,
with everything that is wrong about them. -/
theorem parse_append_line {first second : String} {limit : Nat}
    (hclean : (parse first limit).diagnostics = [])
    (hends : ∀ s, (parse first limit).program.statements.getLast? = some s →
      Rule.EndsBefore s (Reader.start second limit).current.lexeme) :
    parse (first ++ "\n" ++ second) limit =
      ⟨⟨(parse first limit).program.statements ++
          (parse second limit).program.statements.map
            (Statement.relocate (Location.down (lineCount first)))⟩,
        (parse second limit).diagnostics.map
          (Diagnostic.down (utf8Length first.toList + 1) (lineCount first))⟩ := by
  have hat := Reader.atStatement_start (first ++ "\n" ++ second) limit
  have hahead : (Reader.start (first ++ "\n" ++ second) limit).ahead =
      (Cursor.start first).tokens ++ (Reader.start second limit).ahead.map
        (Token.down (utf8Length first.toList + 1) (lineCount first)) :=
    Cursor.tokens_append_line first second
  have hend : (Reader.start (first ++ "\n" ++ second) limit).endToken =
      (Reader.start second limit).endToken.down (utf8Length first.toList + 1) (lineCount first) :=
    Cursor.endToken_append_line first second
  have hcurrent : (((Reader.start second limit).ahead.map
      (Token.down (utf8Length first.toList + 1) (lineCount first))).headD
        (Reader.start (first ++ "\n" ++ second) limit).endToken).lexeme =
      (Reader.start second limit).current.lexeme := by
    rw [hend, Reader.current]
    cases (Reader.start second limit).ahead <;> rfl
  obtain ⟨later, hattempted, hadvances, hlater⟩ := Rule.attempted_statements
    (isSequence_of_isValid (isValid_of_diagnostics_eq_nil hclean)) hat rfl hahead
    (by rwa [hcurrent])
  -- The reader behind the first text sees what a reader at the start of the second text would see.
  have hbelow : Reader.Below (utf8Length first.toList + 1) (lineCount first) []
      (Reader.start second limit) later :=
    { proper := (Reader.atStatement_start second limit).ready.proper
      ahead_eq := hadvances.ahead_later hahead
      endToken_eq := by rw [hadvances.steps.frame.endToken_eq, hend]
      reported_eq := hadvances.reported_eq
      enclosing_eq := hlater.enclosing_eq
      depth_eq := (hat.ready.levelled.depth_eq hadvances.steps hadvances.enclosing_eq)
      limit_eq := hadvances.steps.frame.limit_eq
      diagnostics_eq := hadvances.diagnostics_eq }
  obtain ⟨hstatements, hlast⟩ := hbelow.program
  rw [parse, Reader.program_append hat hattempted hlater, hstatements]
  simp only [hlast.diagnostics_eq, List.nil_append, List.filterMap_map, Function.id_comp,
    List.filterMap_some, parse_program_eq, parse_diagnostics_eq, Reader.final]

/-- Below a declaration and a conditional stand two statements that are broken, a name that is
declared twice and a block without an end, and an assignment between them. -/
theorem parse_append_line_errors :
    (parse "int a = 1;\nif a > 0 : begin a = 2; end" 3).diagnostics = [] ∧
    (∀ s, (parse "int a = 1;\nif a > 0 : begin a = 2; end" 3).program.statements.getLast? = some s →
      Rule.EndsBefore s
        (Reader.start "int b, b; c = d;\nloopc a > b : begin" 3).current.lexeme) ∧
    parse ("int a = 1;\nif a > 0 : begin a = 2; end" ++ "\n" ++
        "int b, b; c = d;\nloopc a > b : begin") 3 =
      ⟨⟨(parse "int a = 1;\nif a > 0 : begin a = 2; end" 3).program.statements ++
          [.assignment ⟨"c", .plain, .ident "d" ⟨3, 15⟩, ⟨3, 11⟩⟩]⟩,
        [⟨.duplicate "b", ⟨3, 8⟩, ⟨46, 47⟩⟩,
          ⟨.unterminated "'loopc' block" ⟨4, 1⟩ "'end'", ⟨4, 20⟩, ⟨75, 75⟩⟩]⟩ := by
  have hclean : (parse "int a = 1;\nif a > 0 : begin a = 2; end" 3).diagnostics = [] := by
    decide +kernel
  have hends : ∀ s,
      (parse "int a = 1;\nif a > 0 : begin a = 2; end" 3).program.statements.getLast? = some s →
        Rule.EndsBefore s
          (Reader.start "int b, b; c = d;\nloopc a > b : begin" 3).current.lexeme := by
    have hlexeme : (Reader.start "int b, b; c = d;\nloopc a > b : begin" 3).current.lexeme =
        .keyword .intWord := by decide +kernel
    rw [hlexeme]
    exact fun _ _ _ _ _ => ⟨by decide, by decide⟩
  exact ⟨hclean, hends, (parse_append_line hclean hends).trans (by decide +kernel)⟩

end LoopLang
