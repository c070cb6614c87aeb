import LoopLang.Outcome
import LoopLang.Proofs.Lexing.Tokens
import LoopLang.Proofs.Reading.Statements

/-!
# The run of a parse

A parse runs from a reader in front of all tokens of the text to one behind them.  What holds of
all runs holds of parses by way of `Reader.steps_start`.
-/

namespace LoopLang

namespace Reader

/-- The reader that a parse leaves. -/
def final (source : String) (limit : Nat) : Reader := (start source limit).program.2

theorem atStatement_start (source : String) (limit : Nat) :
    Rule.AtStatement limit (start source limit) where
  ready := ⟨⟨rfl, fun token hmem => (Cursor.lexical_of_mem_tokens _ token hmem).ne_endOfInput⟩,
    rfl, rfl, rfl⟩
  enclosing_eq := rfl
  reported := by simp [start]

theorem steps_start (source : String) (limit : Nat) :
    Steps (start source limit) (final source limit) := by
  have hat := atStatement_start source limit
  obtain ⟨outcomes, later, hattempts, hresult, -⟩ := program_apply hat
  rw [final, hresult]
  exact (hattempts.steps Rule.repeats_keptStatement hat).1

/-- A parse reads all of the text. -/
theorem ahead_final (source : String) (limit : Nat) : (final source limit).ahead = [] := by
  obtain ⟨outcomes, later, -, hresult, hahead⟩ := program_apply (atStatement_start source limit)
  rw [final, hresult, hahead]

/-- A reader somewhere in a source: what is in front of it is what is left of the tokens of the
source.  What it is inside of, how deep, and what it has done before is left open. -/
structure ReadsFrom (source : String) (reader : Reader) : Prop where
  ahead_suffix : reader.ahead <:+ (Cursor.start source).tokens
  endToken_eq : reader.endToken = (Cursor.start source).endToken

theorem readsFrom_start (source : String) (limit : Nat) : (start source limit).ReadsFrom source :=
  ⟨List.suffix_rfl, rfl⟩

section

variable {source : String} {limit : Nat} {reader later : Reader}

theorem ReadsFrom.of_frame (hreads : reader.ReadsFrom source) (hframe : Frame reader later) :
    later.ReadsFrom source :=
  ⟨hframe.ahead_suffix.trans hreads.ahead_suffix, hframe.endToken_eq.trans hreads.endToken_eq⟩

/-- A parse stands in its source all the time. -/
theorem readsFrom_of_steps (hsteps : Steps (start source limit) reader) : reader.ReadsFrom source :=
  (readsFrom_start source limit).of_frame hsteps.frame

theorem ReadsFrom.proper (hreads : reader.ReadsFrom source) : reader.Proper where
  endToken_lexeme := by rw [hreads.endToken_eq, Cursor.endToken]
  ne_endOfInput := fun token hmem =>
    (Cursor.lexical_of_mem_tokens _ token (hreads.ahead_suffix.mem hmem)).ne_endOfInput

end

@[simp] theorem diagnostics_start (source : String) (limit : Nat) :
    (start source limit).diagnostics = [] := rfl

end Reader

theorem parse_program_eq (source : String) (limit : Nat) :
    (parse source limit).program = (Reader.start source limit).program.1 := rfl

theorem parse_diagnostics_eq (source : String) (limit : Nat) :
    (parse source limit).diagnostics = (Reader.final source limit).diagnostics := rfl

end LoopLang
