import LoopLang.Proofs.Outcome.Run
import LoopLang.Proofs.Reading.Progress

/-!
# Parses make progress

A program is read round by round, and a round that passes no token would come back for ever.
`Rule.pushing` guards against that: where a rule has left the reader at the byte it started at, one
token more is passed.  On statements the guard never acts
(`Reader.ReadsFrom.pushing_keptStatement`), so the loop of a program does without it
(`Reader.ReadsFrom.runs_pushing`).  A statement passes a token wherever there is one, whether it is
read or fails: what starts with a word of its own passes that word, and what does not is skipped by
a recovery that does not stop in front of it.  And no two tokens of a source start at the same byte.

`parse_makes_progress` puts this together with what every loop of a parse does at any place in a
source.  A parse stands at such a place all the time (`Reader.readsFrom_of_steps`).
-/

namespace LoopLang

namespace Rule

variable {α : Type}

/-- The rule, and one token more if the reader stands at the byte where it started, unless that is
the end of input. -/
def pushing (rule : Rule α) : Rule α := fun reader =>
  match rule reader with
  | (value, later) =>
    if later.current.span.start = reader.current.span.start ∧
        later.current.lexeme ≠ .endOfInput then
      (value, later.advance)
    else (value, later)

theorem pushing_of_lt {rule : Rule α} {reader : Reader}
    (hlt : reader.current.span.start < (rule reader).2.current.span.start) :
    pushing rule reader = rule reader := by
  unfold pushing
  dsimp only
  rw [if_neg fun hstuck => hlt.ne' hstuck.1]

end Rule

namespace Reader

variable {source : String} {limit : Nat} {reader later : Reader}

/-! ## Tokens that have passed -/

private theorem ReadsFrom.of_movesOn (hreads : reader.ReadsFrom source)
    (hmoves : reader.MovesOn later) :
    later.ReadsFrom source := by
  obtain ⟨hend, token, passed, hahead⟩ := hmoves
  have hsuffix : later.ahead <:+ reader.ahead := ⟨token :: passed, by rw [hahead, List.cons_append]⟩
  exact ⟨hsuffix.trans hreads.ahead_suffix, hend.trans hreads.endToken_eq⟩

/-- Behind a token that has passed every token starts at a later byte. -/
private theorem ReadsFrom.start_lt (hreads : reader.ReadsFrom source)
    (hmoves : reader.MovesOn later) :
    reader.current.span.start < later.current.span.start := by
  have hplaces : reader.sight.Pairwise fun before token => before.offset < token.offset := by
    refine List.Pairwise.sublist ?_ (Cursor.pairwise_offset_lt (Cursor.start source))
    rw [sight, hreads.endToken_eq]
    exact hreads.ahead_suffix.sublist.append_right _
  obtain ⟨hend, token, passed, hahead⟩ := hmoves
  have hsight : reader.sight = token :: (passed ++ later.sight) := by
    rw [sight, sight, hahead, hend, List.cons_append, List.append_assoc]
  rw [hsight, List.pairwise_cons] at hplaces
  rw [reader.current_of_ahead_eq_cons hahead]
  exact hplaces.1 _ (List.mem_append_right _ current_mem_sight)

/-! ## Statements -/

private theorem Proper.movesOn_statement (hproper : reader.Proper)
    (hmore : reader.current.lexeme ≠ .endOfInput) : reader.MovesOn (Rule.statement reader).2 := by
  have hahead : reader.ahead ≠ [] := fun hahead =>
    hmore (hproper.current_lexeme_eq_endOfInput_iff.mpr hahead)
  exact movesOn_of_frame (Rule.framed_statement reader) (Rule.length_statement_lt hahead)

/-- A statement never has to be pushed on. -/
theorem ReadsFrom.pushing_keptStatement (hreads : reader.ReadsFrom source)
    (hmore : reader.current.lexeme ≠ .endOfInput) :
    Rule.pushing Rule.keptStatement reader = Rule.keptStatement reader :=
  Rule.pushing_of_lt (hreads.start_lt
    (Rule.passing_keptStatement.movesOn hreads.proper (by simpa [Rule.programGoesOn] using hmore)))

/-! ## Whole parses -/

/-- The loop of a program leads to the same result if its rounds are pushed on. -/
theorem ReadsFrom.runs_pushing (hreads : reader.ReadsFrom source)
    (outcomes : List (Option Statement)) :
    Rule.Runs (Rule.another? Rule.programGoesOn)
      (Rule.attemptTurn (Rule.pushing Rule.keptStatement)) outcomes reader
      (Rule.repeatWhile (Rule.another? Rule.programGoesOn) (Rule.attemptTurn Rule.keptStatement)
        outcomes reader) := by
  -- The guard compares bytes, which tell tokens apart only as long as they are those of a source.
  refine Rule.Runs.congr hreads ReadsFrom.of_movesOn ?_
    (Rule.passing_keptStatement.consumes.runs hreads.proper outcomes)
  intro reader hreads choice outcomes hselect
  have hmore : reader.current.lexeme ≠ .endOfInput := by
    simpa [Rule.programGoesOn] using Rule.another?_eq_some_iff.mp hselect
  show (some ((Rule.pushing Rule.keptStatement reader).1 :: outcomes),
    (Rule.pushing Rule.keptStatement reader).2) = _
  rw [hreads.pushing_keptStatement hmore]
  rfl

private theorem program_of_loop {outcomes : List (Option Statement)}
    (hloop : Rule.repeatWhile (Rule.another? Rule.programGoesOn)
      (Rule.attemptTurn Rule.keptStatement) [] reader = (some outcomes, later)) :
    reader.program = (⟨outcomes.reverse.filterMap id⟩, later) := by
  have hattempts : Rule.attemptWhile Rule.programGoesOn Rule.keptStatement reader =
      (some outcomes.reverse, later) := by
    rw [Rule.attemptWhile_eq, Rule.bind_apply, hloop]
    rfl
  have hdecided : Rule.attemptWhile (fun lexeme => decide (lexeme ≠ .endOfInput)) Rule.keptStatement
      reader = (some outcomes.reverse, later) := hattempts
  rw [Reader.program, Rule.program, Rule.bind_apply, hdecided]
  rfl

/-- What a parse does at a reader makes progress: a statement passes a token, and all loops end by
themselves, each turn passing a token or more. -/
structure MakesProgress (reader : Reader) : Prop where
  /-- Whether it succeeds or fails, a statement leaves the reader in front of a later byte. -/
  statement : reader.current.lexeme ≠ .endOfInput →
    reader.MovesOn (Rule.statement reader).2 ∧
      reader.current.span.start < (Rule.statement reader).2.current.span.start
  unpushed : reader.current.lexeme ≠ .endOfInput →
    Rule.pushing Rule.keptStatement reader = Rule.keptStatement reader
  /-- The loop of attempts in a body, and the one behind the first block of a conditional. -/
  body : Rule.EndsByItself (Rule.another? Rule.bodyGoesOn) (Rule.attemptTurn Rule.bodyItem) reader
  elifs : Rule.EndsByItself (Rule.another? Rule.elifFollows)
    (Rule.attemptTurn (Rule.guarded .elifBlock)) reader
  skippedChain : (reader.recover .block).SkipsFollowers reader.skipChain
  /-- Recovery is at the end of input when it has found nothing else. -/
  recovery : ∀ boundary : Boundary, ∃ found, reader.SkipsTo boundary 0 found ∧
    reader.recover boundary = found.record (.recovered boundary (boundary.skip reader.ahead)) ∧
    boundary.skip reader.ahead ≤ reader.ahead.length
  layer : ∀ (room : Nat) (level : Precedence), Rule.EndsByItself (Lexeme.arithAt? level)
    (Rule.layerTurn (Rule.exprAt room level.tighter)) reader
  conditions : Rule.EndsByItself Lexeme.connective? Rule.conditionsTurn reader
  names : Rule.EndsByItself Rule.comma? Rule.namesTurn reader

private theorem ReadsFrom.makesProgress (hreads : reader.ReadsFrom source) :
    reader.MakesProgress where
  statement := fun hmore =>
    have hmoves := hreads.proper.movesOn_statement hmore
    ⟨hmoves, hreads.start_lt hmoves⟩
  unpushed := hreads.pushing_keptStatement
  body := Rule.passing_bodyItem.consumes.endsByItself hreads.proper
  elifs := Rule.passing_elif.consumes.endsByItself hreads.proper
  skippedChain := skipsFollowers_skipChain hreads.proper
  recovery := by
    intro boundary
    rw [recover, boundary.skip_eq_skipFrom]
    exact ⟨_, skipsTo_advanceBy boundary 0 reader, rfl, boundary.skipFrom_le_length 0 _⟩
  layer := fun room level =>
    (Rule.consumes_layer level (Rule.framed_exprAt room level.tighter)).endsByItself hreads.proper
  conditions := Rule.consumes_conditions.endsByItself hreads.proper
  names := Rule.consumes_names.endsByItself hreads.proper

end Reader

/-- Every source is parsed to its end, whatever the limit.  The loop of the program ends by itself,
also if a round that passes no token is pushed on, and such a round there never is.  At every place
in the source a statement passes a token whether it succeeds or fails, and so does each turn of each
loop of a parse. -/
theorem parse_makes_progress (source : String) (limit : Nat) :
    (∃ outcomes later,
      Rule.Runs (Rule.another? Rule.programGoesOn)
        (Rule.attemptTurn (Rule.pushing Rule.keptStatement)) [] (Reader.start source limit)
        (some outcomes, later) ∧
      (Reader.start source limit).program = (⟨outcomes.reverse.filterMap id⟩, later) ∧
      later.current.lexeme = .endOfInput) ∧
    ∀ reader : Reader, reader.ReadsFrom source → reader.MakesProgress := by
  refine ⟨?_, fun reader hreads => hreads.makesProgress⟩
  have hreads := Reader.readsFrom_start source limit
  have hruns := hreads.runs_pushing []
  obtain ⟨outcomes, later, hresult⟩ := Rule.exists_repeatWithin_attemptTurn Rule.programGoesOn
    Rule.keptStatement (Reader.start source limit).ahead [] (Reader.start source limit)
  have hloop : Rule.repeatWhile (Rule.another? Rule.programGoesOn)
      (Rule.attemptTurn Rule.keptStatement) [] (Reader.start source limit) =
        (some outcomes, later) := hresult
  rw [hloop] at hruns
  have hend := Rule.another?_eq_none_iff.mp hruns.select_eq_none
  exact ⟨outcomes, later, hruns, Reader.program_of_loop hloop,
    by simpa [Rule.programGoesOn] using hend⟩

/-- A parenthesis in place of a statement, and a block that nothing has begun. -/
theorem parse_makes_progress_garbage :
    (Reader.start ") elif end" 0).MovesOn (Rule.statement (Reader.start ") elif end" 0)).2 ∧
    (Reader.start ") elif end" 0).MakesProgress :=
  ⟨((parse_makes_progress ") elif end" 0).2 _ (Reader.readsFrom_start _ _)).statement
      (by decide +kernel) |>.1,
    (parse_makes_progress ") elif end" 0).2 _ (Reader.readsFrom_start _ _)⟩

end LoopLang
