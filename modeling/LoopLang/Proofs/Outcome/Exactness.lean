import LoopLang.Proofs.Accepting.Statements
import LoopLang.Proofs.Grammar.Nesting
import LoopLang.Proofs.Outcome.Run

/-!
# A parse is exact

A text is parsed without a diagnostic if and only if its tokens are valid, and then the program is
the tree that the grammar gives to the tokens, locations and all (`parse_exact`).  In particular
no text has two trees.
-/

namespace LoopLang

open Grammar

theorem isSequence_of_isValid {limit : Nat} {tokens : List Token} {p : Program}
    (hvalid : IsValid limit tokens p) :
    IsSequence (Rule.IsDistinctStatement limit) tokens p.statements :=
  Rule.isSequence_isDistinctStatement_iff.mpr (isValid_iff.mp hvalid)

/-- A parse that reports nothing has read a valid text. -/
theorem isValid_of_diagnostics_eq_nil {source : String} {limit : Nat}
    (hclean : (parse source limit).diagnostics = []) :
    IsValid limit (Cursor.start source).tokens (parse source limit).program := by
  rcases Reader.program_cases (Reader.atStatement_start source limit) rfl with h | hrefuses
  · exact isValid_iff.mpr h.2
  · obtain ⟨-, -, passed, behind, cause, more, -, -, hdiagnostics, -⟩ := hrefuses
    rw [parse_diagnostics_eq, Reader.final, hdiagnostics] at hclean
    simp at hclean

/-- A valid text is parsed to the program it denotes. -/
theorem parse_of_isValid {source : String} {limit : Nat} {p : Program}
    (hvalid : IsValid limit (Cursor.start source).tokens p) :
    (parse source limit).diagnostics = [] ∧ (parse source limit).program = p := by
  obtain ⟨hprogram, hdistinct⟩ := isValid_iff.mp hvalid
  have hat := Reader.atStatement_start source limit
  obtain ⟨hresult, hadvances⟩ := Reader.program_of_isProgram hat rfl hprogram hdistinct
  exact ⟨hadvances.diagnostics_eq, hresult⟩

/-- A parse reports nothing exactly on valid texts, and its program is the tree that the grammar
gives them. -/
theorem parse_exact (source : String) (limit : Nat) :
    ((parse source limit).diagnostics = [] ↔
      ∃ p, IsValid limit (Cursor.start source).tokens p) ∧
    ∀ p, IsValid limit (Cursor.start source).tokens p → (parse source limit).program = p := by
  refine ⟨⟨fun hclean => ⟨_, isValid_of_diagnostics_eq_nil hclean⟩, ?_⟩, ?_⟩
  · rintro ⟨p, hvalid⟩
    exact (parse_of_isValid hvalid).1
  · exact fun p hvalid => (parse_of_isValid hvalid).2

end LoopLang
