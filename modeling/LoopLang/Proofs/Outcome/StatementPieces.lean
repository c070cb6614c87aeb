import LoopLang.Proofs.Outcome.Exactness
import LoopLang.Proofs.Pieces.Isolation

/-!
# Statements that fail by themselves

A text that is cut into pieces at its semicolons is read piece by piece.  Whatever is wrong with one
of them, it is dropped with what is reported about it, and all the others are read as if it were not
there (`parse_statement_pieces`).  Recovery behind a statement also stops behind `end` and in front
of a word that starts a statement, so a piece has none of these but at its beginning.
-/

namespace LoopLang

open Grammar

/-- A text up to its first semicolon, without the words that recovery stops at but for `int` at its
beginning, and not beginning with any other word of a block. -/
inductive IsStatementPiece : List Token → Prop where
  | mk {line : List Token} {semicolon : Token} (hline : Terminates line semicolon)
      (hwords : ∀ token ∈ line, token.lexeme ≠ .keyword .endWord ∧
        token.lexeme ≠ .keyword .ifWord ∧ token.lexeme ≠ .keyword .loopWord)
      (hint : ∀ token ∈ line.tail, token.lexeme ≠ .keyword .intWord)
      (hfirst : ∀ token ∈ line.head?, token.lexeme ≠ .keyword .beginWord ∧
        token.lexeme ≠ .keyword .elifWord ∧ token.lexeme ≠ .keyword .elseWord) :
      IsStatementPiece (line ++ [semicolon])

namespace Rule

variable {room : Nat} {reader : Reader} {tokens line passed more rest : List Token}
  {semicolon : Token}

/-! ## Simple statements are lines -/

private theorem IsSimpleStatement.exists_line {s : Statement}
    (hsimple : IsSimpleStatement room tokens s) :
    ∃ line semicolon, tokens = line ++ [semicolon] ∧ Terminates line semicolon := by
  cases hsimple with
  | declaration h =>
      obtain @⟨word, semicolon, front, back, names, initial, hword, hnames, hinitial, hsemicolon⟩ :=
        h.1
      refine ⟨word :: (front ++ back), semicolon, by simp, ⟨?_, hsemicolon⟩⟩
      simp only [List.mem_cons, List.mem_append]
      rintro token (rfl | hmem | hmem)
      · simp [hword]
      · exact (inLine_of_isNames hnames).ne_semicolon token hmem
      · exact (inLine_of_isOptional_isInitial hinitial).ne_semicolon token hmem
  | assignment h =>
      obtain ⟨line, semicolon, htokens, hline, hsemicolon⟩ := h.exists_line
      exact ⟨line, semicolon, htokens, hline.ne_semicolon, hsemicolon⟩

/-- A simple statement that fails has not come to its semicolon. -/
private theorem stays_simpleStatement (hnone : (simpleStatement reader).1 = none) :
    ∃ passed, reader.ahead = passed ++ (simpleStatement reader).2.ahead ∧
      ∀ token ∈ passed, token.lexeme ≠ .mark .semicolon := by
  rw [simpleStatement_apply] at hnone ⊢
  split at hnone
  · rename_i hword
    obtain ⟨passed, hpassed, hline⟩ := staysInLine_declaration (Option.map_eq_none_iff.mp hnone)
    cases hahead : reader.ahead with
    | nil =>
        rw [Reader.ahead_advance, hahead, List.tail_nil] at hpassed
        exact ⟨passed, hpassed, hline.ne_semicolon⟩
    | cons token behind =>
        rw [Reader.ahead_advance, hahead, List.tail_cons] at hpassed
        rw [reader.current_of_ahead_eq_cons hahead] at hword
        refine ⟨token :: passed, by rw [List.cons_append, ← hpassed], ?_⟩
        simpa [hword] using hline.ne_semicolon
  · rename_i target hname
    obtain ⟨passed, hpassed, hline⟩ :=
      staysInLine_assignment hname (Option.map_eq_none_iff.mp hnone)
    exact ⟨passed, hpassed, hline.ne_semicolon⟩
  · exact ⟨[], by simp [fail], by simp⟩

private theorem readsLines_simpleStatement (room : Nat) :
    ReadsLines room (IsSimpleStatement room) Statement.relocate simpleStatement where
  yields := yields_simpleStatement
  accepts := accepts_simpleStatement
  line := IsSimpleStatement.exists_line
  known := by
    intro tokens s hsimple
    cases hsimple with
    | declaration h => exact roomIsNesting_isDeclaration.bracketed h.1
    | assignment h => exact roomIsNesting_isAssignment.bracketed h
  stays := fun _ hnone => stays_simpleStatement hnone
  keeps := fun _ => Simulation.keeps_simpleStatement

/-! ## Statements at pieces -/

/-- A simple statement passes the word it begins with, so it leaves no other one in front of the
reader. -/
private theorem ne_intWord_of_ahead (hready : reader.Ready room)
    (hahead : reader.ahead = line ++ rest)
    (hint : ∀ token ∈ line.tail, token.lexeme ≠ .keyword .intWord) (hsplit : line = passed ++ more)
    (hmore : (simpleStatement reader).2.ahead = more ++ rest) :
    ∀ token ∈ more, token.lexeme ≠ .keyword .intWord := by
  subst hsplit
  cases passed with
  | cons first passed => exact fun token hmem => hint token (List.mem_append_right _ hmem)
  | nil =>
      cases more with
      | nil => simp
      | cons first more =>
          intro token hmem hword
          rcases List.mem_cons.mp hmem with rfl | hmem
          · have hcurrent : reader.current.lexeme = .keyword .intWord := by
              rw [reader.current_of_ahead_eq_cons hahead, hword]
            have hlt := (@yields_declaration room True _ hready hcurrent).2
            have hsame : (simpleStatement reader).2 = (declaration reader).2 := by
              rw [simpleStatement_apply, hcurrent]
            rw [← hsame, hmore, hahead] at hlt
            exact lt_irrefl _ hlt
          · exact hint token hmem hword

/-- Recovery behind a statement goes on at most lexemes. -/
private theorem verdict_statement {lexeme : Lexeme} (hsemicolon : lexeme ≠ .mark .semicolon)
    (hint : lexeme ≠ .keyword .intWord) (hwords : lexeme ≠ .keyword .endWord ∧
      lexeme ≠ .keyword .ifWord ∧ lexeme ≠ .keyword .loopWord) :
    Boundary.statement.verdict 0 lexeme = .further 0 := by
  have hstarts : lexeme.startsStatement = false := by
    rw [← Bool.not_eq_true, Lexeme.startsStatement_iff]
    simp [hint, hwords]
  rw [Boundary.verdict, hstarts, if_neg (by simp), if_neg (by simp [hsemicolon, hwords.1])]

/-- Recovery behind a statement goes on over what a simple statement leaves of a piece. -/
private theorem recovers_simpleStatement (hline : Terminates line semicolon)
    (hwords : ∀ token ∈ line, token.lexeme ≠ .keyword .endWord ∧
      token.lexeme ≠ .keyword .ifWord ∧ token.lexeme ≠ .keyword .loopWord)
    (hint : ∀ token ∈ line.tail, token.lexeme ≠ .keyword .intWord) :
    Recovers room .statement simpleStatement line where
  behind := rfl
  further := by
    intro reader passed more rest hready hahead hsplit hmore token hmem
    have hinside : token ∈ line := hsplit ▸ List.mem_append_right _ hmem
    exact verdict_statement (hline.ne_semicolon token hinside)
      (ne_intWord_of_ahead hready hahead hint hsplit hmore token hmem) (hwords token hinside)

/-- A statement at a piece reads the piece, and drops it if it is no statement. -/
private theorem exists_piece_keptStatement (hpiece : IsStatementPiece tokens)
    (hready : reader.Ready room) (hreported : reader.reported = false) (hsorted : reader.Sorted)
    (hahead : reader.ahead = tokens ++ rest) :
    programGoesOn reader.current.lexeme = true ∧
      ∃ read : Piece Statement, read.tokens = tokens ∧ read.Isolated (IsSimpleStatement room) ∧
        Ends reader tokens read.outcome read.reports (keptStatement reader) := by
  obtain @⟨line, semicolon, hline, hwords, hint, hfirst⟩ := hpiece
  have hcons : reader.ahead = line ++ semicolon :: rest := by simpa using hahead
  have hopens : reader.current.lexeme.opensBlock = false := by
    cases line with
    | nil =>
        rw [reader.current_of_ahead_eq_cons hcons, hline.lexeme_eq]
        rfl
    | cons first line =>
        rw [reader.current_of_ahead_eq_cons hcons]
        have hnone := hfirst first rfl
        have hstatement := hwords first List.mem_cons_self
        unfold Lexeme.opensBlock
        split <;> simp_all
  obtain ⟨read, htokens, hisolated, hends⟩ := (readsLines_simpleStatement room).exists_piece
    Statement.relocate_id (recovers_simpleStatement hline hwords hint) hready hreported hsorted
    hline hcons
  rw [← statement_of_not_opensBlock hopens] at hends
  refine ⟨?_, read, htokens, hisolated, hends.keptStatement⟩
  have hend := hready.proper.current_ne_endOfInput (by simp [hcons])
  simpa [programGoesOn] using hend

end Rule

/-- A text that is cut into pieces at its semicolons is read piece by piece: the program is the
trees of those pieces that are declarations or assignments, and each of the others is reported by
itself. -/
theorem parse_statement_pieces {source : String} {limit : Nat} {pieces : List (List Token)}
    (htokens : (Cursor.start source).tokens = pieces.flatten)
    (hpieces : ∀ piece ∈ pieces, IsStatementPiece piece) :
    ∃ read : List (Piece Statement), read.map Piece.tokens = pieces ∧
      (∀ piece ∈ read, piece.Isolated (Rule.IsSimpleStatement limit)) ∧
      (parse source limit).program.statements = read.filterMap Piece.outcome ∧
      (parse source limit).diagnostics = read.flatMap Piece.reports := by
  have hat := Reader.atStatement_start source limit
  have hahead : (Reader.start source limit).ahead = pieces.flatten ++ [] := by
    rw [List.append_nil]
    exact htokens
  obtain ⟨read, later, hread, hisolated, hattempted, hpasses, hlater⟩ :=
    Rule.attempted_pieces Rule.repeats_keptStatement pieces
      (fun hmem hinv hreported hsorted hrest =>
        Rule.exists_piece_keptStatement (hpieces _ hmem) hinv.ready hreported hsorted hrest)
      hat rfl (Cursor.pairwise_offset_lt _) hahead
  have hprogram := Reader.program_of_attempted hat hattempted hlater (hpasses.ahead_later hahead)
  refine ⟨read, hread, hisolated, ?_, ?_⟩
  · rw [parse_program_eq, hprogram]
    simp [List.filterMap_map]
  · rw [parse_diagnostics_eq, Reader.final, hprogram, hpasses.diagnostics_eq,
      Reader.diagnostics_start, List.nil_append]

/-- Of three pieces the one between a name declared twice and a stray character is kept. -/
theorem parse_statement_pieces_broken :
    (parse "int a, a; x = 1; y = $;" 1).program.statements =
        [.assignment ⟨"x", .plain, .number "1" ⟨1, 15⟩, ⟨1, 11⟩⟩] ∧
    (parse "int a, a; x = 1; y = $;" 1).diagnostics =
        [⟨.duplicate "a", ⟨1, 8⟩, ⟨7, 8⟩⟩, ⟨.strayCharacter '$', ⟨1, 22⟩, ⟨21, 22⟩⟩] ∧
    ∃ read : List (Piece Statement),
      read.map Piece.tokens =
        [[.onFirstLine (.keyword .intWord) 1, .onFirstLine (.ident "a") 5,
            .onFirstLine (.mark .comma) 6, .onFirstLine (.ident "a") 8,
            .onFirstLine (.mark .semicolon) 9],
          [.onFirstLine (.ident "x") 11, .onFirstLine (.assign .plain) 13,
            .onFirstLine (.number "1") 15, .onFirstLine (.mark .semicolon) 16],
          [.onFirstLine (.ident "y") 18, .onFirstLine (.assign .plain) 20,
            .onFirstLine (.unknown '$') 22, .onFirstLine (.mark .semicolon) 23]] ∧
      (∀ piece ∈ read, piece.Isolated (Rule.IsSimpleStatement 1)) ∧
      (parse "int a, a; x = 1; y = $;" 1).program.statements = read.filterMap Piece.outcome ∧
      (parse "int a, a; x = 1; y = $;" 1).diagnostics = read.flatMap Piece.reports := by
  refine ⟨by decide +kernel, by decide +kernel, parse_statement_pieces (by decide +kernel) ?_⟩
  simp only [List.forall_mem_cons, List.not_mem_nil, false_implies, implies_true, and_true]
  refine ⟨?_, ?_, ?_⟩
  · exact @IsStatementPiece.mk [_, _, _, _] _ ⟨by decide, rfl⟩ (by decide) (by decide) (by decide)
  · exact @IsStatementPiece.mk [_, _, _] _ ⟨by decide, rfl⟩ (by decide) (by decide) (by decide)
  · exact @IsStatementPiece.mk [_, _, _] _ ⟨by decide, rfl⟩ (by decide) (by decide) (by decide)

end LoopLang
