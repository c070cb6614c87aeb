import LoopLang.Proofs.Blocks.Closing
import LoopLang.Proofs.Grammar.Moving
import LoopLang.Proofs.Lexing.Lines
import LoopLang.Proofs.Outcome.Exactness
import LoopLang.Proofs.Outcome.Order

/-!
# Blocks keep their own end

Whatever is wrong inside of a block, it is read to its own `end`, and what stands on the lines below
is read as if it stood alone (`parse_orderly_block`).
-/

namespace LoopLang

open Grammar

namespace Rule

variable {room : Nat} {reader : Reader} {tokens rest : List Token}

/-- A statement that is read to a given place is kept if the tokens up to there are one. -/
private theorem fst_keptStatement_eq_some_iff {s : Statement} (hat : AtStatement room reader)
    (hmore : programGoesOn reader.current.lexeme = true) (hahead : reader.ahead = tokens ++ rest)
    (hlands : (keptStatement reader).2.Lands rest)
    (hnext : StartsAnew (rest.headD reader.endToken).lexeme) :
    (keptStatement reader).1 = some s ↔ IsDistinctStatement room tokens s := by
  constructor
  · intro hkept
    have hyields := repeats_keptStatement.yields hat hmore
    rcases hresult : keptStatement reader with ⟨_ | s', later⟩
    · simp [hresult] at hkept
    · rw [hresult] at hyields hkept hlands
      obtain rfl : s' = s := Option.some.inj hkept
      obtain ⟨passed, hadvances, hstatement⟩ := hyields
      have heq := hadvances.ahead_eq
      rw [hlands.1, hahead, List.append_cancel_right_eq] at heq
      rwa [heq]
  · intro hstatement
    obtain ⟨later, hresult, -⟩ :=
      accepts_keptStatement hstatement hat.ready hahead fun _ _ _ => hnext
    rw [hresult]

end Rule

/-- A statement that is read to a given place, in front of statements that are correct. -/
theorem Reader.program_of_lands {room : Nat} {reader : Reader} {rest : List Token}
    {statements : List Statement} (hat : Rule.AtStatement room reader)
    (hmore : Rule.programGoesOn reader.current.lexeme = true)
    (hlands : (Rule.keptStatement reader).2.Lands rest)
    (hrest : IsSequence (Rule.IsDistinctStatement room) rest statements) :
    reader.program.1.statements = (Rule.keptStatement reader).1.toList ++ statements ∧
      reader.program.2.diagnostics = (Rule.keptStatement reader).2.diagnostics := by
  have hsecond := (Rule.repeats_keptStatement.passes hat hmore).1
  have hend := hsecond.ready.proper.endToken_lexeme
  have hahead : (Rule.keptStatement reader).2.ahead = rest ++ [] := by
    rw [hlands.1, List.append_nil]
  obtain ⟨later, hattempted, hadvances, hlater⟩ := Rule.attempted_statements hrest hsecond hlands.2
    hahead (by simp [hend, Rule.EndsBefore, Rule.StartsAnew])
  rw [program_of_attempted hat (.turn hmore hattempted) hlater (hadvances.ahead_later hahead)]
  refine ⟨?_, hadvances.diagnostics_eq⟩
  cases (Rule.keptStatement reader).1 <;> simp

/-- The lines below a text are read as statements that stand further down. -/
theorem isSequence_down {rest : String} {limit : Nat} (bytes lines : Nat)
    (hrest : (parse rest limit).diagnostics = []) :
    IsSequence (Rule.IsDistinctStatement limit)
      ((Cursor.start rest).tokens.map (Token.down bytes lines))
      ((parse rest limit).program.statements.map (Statement.relocate (Location.down lines))) := by
  obtain ⟨hprogram, hdistinct⟩ := isValid_iff.mp (isValid_of_diagnostics_eq_nil hrest)
  have hmoves : Moves (Location.down lines) (Token.down bytes lines) := ⟨fun _ => rfl, fun _ => rfl⟩
  have hmoved := hprogram.moved hmoves
  exact Rule.isSequence_isDistinctStatement_iff.mpr
    ⟨hmoved, (Program.distinctNames_relocate _ _).mpr hdistinct⟩

/-- A text above another one is kept or dropped by itself: the statements are its own one, if it is
one, and those of the other text further down, and everything reported points at one of its own
tokens. -/
structure KeepsOwnEnd (limit : Nat) (block rest : String) : Prop where
  statements : ∃ kept : Option Statement,
    (∀ s, kept = some s ↔ Rule.IsDistinctStatement limit (Cursor.start block).tokens s) ∧
    (parse (block ++ "\n" ++ rest) limit).program.statements =
      kept.toList ++ (parse rest limit).program.statements.map
        (Statement.relocate (Location.down (lineCount block)))
  points : ∀ d ∈ (parse (block ++ "\n" ++ rest) limit).diagnostics,
    ∃ token ∈ (Cursor.start block).tokens, d.PointsAt token

/-- A block keeps its own `end` above a text that is correct, unless its header is read and its body
is not laid out. -/
theorem parse_orderly_block {block rest : String} {limit : Nat} {word : Token} {tokens : List Token}
    (hblock : (Cursor.start block).tokens = word :: tokens)
    (hword : word.lexeme = .keyword .ifWord ∨ word.lexeme = .keyword .loopWord)
    (horderly : IsOrderly limit tokens) (hrest : (parse rest limit).diagnostics = []) :
    KeepsOwnEnd limit block rest := by
  have hat := Reader.atStatement_start (block ++ "\n" ++ rest) limit
  have hbelow := isSequence_down (utf8Length block.toList + 1) (lineCount block) hrest
  have hnext := Rule.startsAnew_of_isSequence hbelow hat.ready.proper.endToken_lexeme
  have htokens := Cursor.tokens_append_line block rest
  have hahead : (Reader.start (block ++ "\n" ++ rest) limit).ahead =
      word :: (tokens ++ (Cursor.start rest).tokens.map
        (Token.down (utf8Length block.toList + 1) (lineCount block))) := by
    rw [← List.cons_append, ← hblock]
    exact htokens
  have hmore : Rule.programGoesOn (Reader.start (block ++ "\n" ++ rest) limit).current.lexeme := by
    rw [Reader.current_of_ahead_eq_cons _ hahead]
    rcases hword with h | h <;> simp [h, Rule.programGoesOn]
  have hlands := Rule.lands_keptStatement hat.ready hword horderly hahead hnext
  obtain ⟨hstatements, hdiagnostics⟩ := Reader.program_of_lands hat hmore hlands hbelow
  refine ⟨⟨(Rule.keptStatement (Reader.start (block ++ "\n" ++ rest) limit)).1, fun s => ?_,
    by rw [parse_program_eq, hstatements]⟩, ?_⟩
  · rw [hblock]
    exact Rule.fst_keptStatement_eq_some_iff hat hmore hahead hlands hnext
  · have hsteps := (Rule.Yields.steps (Rule.repeats_keptStatement.yields hat hmore)).1
    have hall := Cursor.pairwise_offset_lt (Cursor.start (block ++ "\n" ++ rest))
    have hordered := (Reader.ordered_start (block ++ "\n" ++ rest) limit).steps hall hsteps
    rw [parse_diagnostics_eq, Reader.final, hdiagnostics]
    refine hordered.points_passed hall ?_ hlands.2
    rw [Cursor.tokenize, htokens, hlands.1, hsteps.frame.endToken_eq, List.append_assoc]
    rfl

section Example

variable {tokens inner : List Token} {first last : Token}

/-- A block with an assignment, a block and an assignment in it that are all broken. -/
theorem parse_orderly_block_broken :
    KeepsOwnEnd 256 "if a > b : begin c ; if begin end d end" "x = 1;" := by
  have hfirst : IsStretch [Token.onFirstLine (.ident "c") 18] :=
    ⟨by decide +kernel, by decide +kernel, by decide +kernel⟩
  have hsecond : IsBlock ([Token.onFirstLine (.keyword .ifWord) 22] ++
      Token.onFirstLine (.keyword .beginWord) 25 ::
        ([] ++ [Token.onFirstLine (.keyword .endWord) 31])) :=
    .mk (by decide +kernel) rfl (by decide +kernel) rfl
  have hthird : IsStretch [Token.onFirstLine (.ident "d") 35] :=
    ⟨by decide +kernel, by decide +kernel, by decide +kernel⟩
  have hlaid := @IsLaidOut.stretch _ _ (Token.onFirstLine (.mark .semicolon) 20) hfirst rfl
    (.block hsecond rfl rfl (.last hthird))
  have horderly : IsOrderly 256 ([Token.onFirstLine (.ident "a") 4,
        Token.onFirstLine (.relation .gt) 6, Token.onFirstLine (.ident "b") 8,
        Token.onFirstLine (.mark .colon) 10] ++
      Token.onFirstLine (.keyword .beginWord) 12 ::
        (_ ++ [Token.onFirstLine (.keyword .endWord) 37])) :=
    .mk (by decide +kernel) rfl hlaid.isBalanced (fun _ _ => hlaid) rfl
  refine @parse_orderly_block _ _ _ (Token.onFirstLine (.keyword .ifWord) 1) _ ?_ (Or.inl rfl)
    horderly (by decide +kernel)
  decide +kernel

private theorem isBlock_of_drop (count : Nat)
    (htokens : tokens.drop count = first :: (inner ++ [last]))
    (hhead : EdgeFree (tokens.take count)) (hfirst : first.lexeme = .keyword .beginWord)
    (hinner : IsBalanced inner) (hlast : last.lexeme = .keyword .endWord) : IsBlock tokens := by
  rw [← List.take_append_drop count tokens, htokens]
  exact .mk hhead hfirst hinner hlast

/-- A text that is no statement by itself adds none to those below it. -/
private theorem KeepsOwnEnd.length_eq {limit : Nat} {block rest : String}
    (hkeeps : KeepsOwnEnd limit block rest) (hblock : (parse block limit).diagnostics ≠ []) :
    (parse (block ++ "\n" ++ rest) limit).program.statements.length =
      (parse rest limit).program.statements.length := by
  obtain ⟨⟨kept, hkept, hstatements⟩, -⟩ := hkeeps
  have hnone : kept = none := by
    refine Option.eq_none_iff_forall_ne_some.mpr fun s hs => hblock ?_
    have hsequence := IsSequence.cons ((hkept s).mp hs) .nil
    rw [List.append_nil] at hsequence
    exact (parse_of_isValid (isValid_iff.mpr
      (@Rule.isSequence_isDistinctStatement_iff limit _ ⟨[s]⟩ |>.mp hsequence))).1
  rw [hstatements, hnone]
  simp

/-- A block without a `begin` of its own takes the `end` of the block around it, and so does a block
behind an assignment without a semicolon. -/
theorem not_keepsOwnEnd :
    (parse "x = 1;" 256).diagnostics = [] ∧
    (IsBlock (Cursor.start "if a > 1 : begin if b ; end").tokens ∧
      (Cursor.start "if a > 1 : begin if b ; end").tokens.head?.map Token.lexeme =
        some (.keyword .ifWord) ∧
      ¬ KeepsOwnEnd 256 "if a > 1 : begin if b ; end" "x = 1;") ∧
    (IsBlock (Cursor.start "if a > 1 : begin a = 1 if b > 1 : begin b = 2; end c = 3; end").tokens ∧
      (Cursor.start
        "if a > 1 : begin a = 1 if b > 1 : begin b = 2; end c = 3; end").tokens.head?.map
        Token.lexeme = some (.keyword .ifWord) ∧
      ¬ KeepsOwnEnd 256 "if a > 1 : begin a = 1 if b > 1 : begin b = 2; end c = 3; end"
        "x = 1;") := by
  refine ⟨by decide +kernel, ⟨?_, by decide +kernel, fun hkeeps => ?_⟩,
    ⟨?_, by decide +kernel, fun hkeeps => ?_⟩⟩
  · exact @isBlock_of_drop _ (((Cursor.start "if a > 1 : begin if b ; end").tokens.drop 6).dropLast)
      (Token.onFirstLine (.keyword .beginWord) 12) (Token.onFirstLine (.keyword .endWord) 25) 5
      (by decide +kernel) (by decide +kernel) rfl (by decide +kernel) rfl
  · exact absurd (hkeeps.length_eq (by decide +kernel)) (by decide +kernel)
  · exact @isBlock_of_drop _ (((Cursor.start
        "if a > 1 : begin a = 1 if b > 1 : begin b = 2; end c = 3; end").tokens.drop 6).dropLast)
      (Token.onFirstLine (.keyword .beginWord) 12) (Token.onFirstLine (.keyword .endWord) 59) 5
      (by decide +kernel) (by decide +kernel) rfl (by decide +kernel) rfl
  · exact absurd (hkeeps.length_eq (by decide +kernel)) (by decide +kernel)

end Example

end LoopLang
