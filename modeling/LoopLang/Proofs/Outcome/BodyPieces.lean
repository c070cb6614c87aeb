import LoopLang.Proofs.Outcome.OwnEnd
import LoopLang.Proofs.Pieces.Isolation

/-!
# Assignments that fail by themselves

A body that is cut into pieces at its semicolons is read piece by piece.  A piece that is no
assignment costs the block, but none of the other pieces is reported for it, and the block still
ends at its `end`: the statements below are read as if they stood alone (`parse_body_pieces`).
-/

namespace LoopLang

open Grammar

/-- A text up to its first semicolon, without `end` and the words that begin a block. -/
inductive IsItemPiece : List Token → Prop where
  | mk {line : List Token} {semicolon : Token} (hline : Terminates line semicolon)
      (hwords : ∀ token ∈ line,
        token.lexeme ≠ .keyword .endWord ∧ token.lexeme.opensBlock = false) :
      IsItemPiece (line ++ [semicolon])

/-- The statement that is one block with conditions, by the word it begins with. -/
def Statement.ofBlock (word : Token) (conditions : Conditions) (body : List Assignment) :
    Statement :=
  if word.lexeme = .keyword .loopWord then .loop ⟨conditions, body, word.location⟩
  else .conditional ⟨⟨conditions, body, word.location⟩, [], none⟩

namespace Rule

variable {room : Nat} {reader : Reader} {tokens line front rest : List Token}
  {word colon first last semicolon : Token} {conditions : Conditions} {pieces : List (List Token)}

/-! ## Items of a body -/

/-- An assignment of a body, before any recovery. -/
def item : Rule Assignment := do
  match ← lexeme with
  | .ident target => assignment target
  | _ => fail .assignmentOrEnd

private theorem item_apply (reader : Reader) :
    item reader =
      match reader.current.lexeme with
      | .ident target => assignment target reader
      | _ => fail .assignmentOrEnd reader := by
  simp only [item, bind_apply, lexeme]
  cases reader.current.lexeme <;> rfl

/-- Where no block begins, an item that fails is recovered from inside the body. -/
private theorem bodyItem_of_not_opensBlock (hopens : reader.current.lexeme.opensBlock = false) :
    bodyItem reader = item.recoveringBy (Reader.recover .insideBlock) reader := by
  cases hlexeme : reader.current.lexeme with
  | ident target => simp only [bodyItem_apply, recoveringBy, item_apply, hlexeme]
  | _ =>
    rw [hlexeme] at hopens
    simp [bodyItem_apply, recoveringBy, item_apply, hlexeme, hopens, fail]

private theorem keeps_item (S : Simulation) : S.Keeps (S.Same Assignment.relocate) item item := by
  intro x y hstep
  rw [item_apply, item_apply, ← S.lexeme_eq hstep]
  split
  · rename_i target hname
    exact Simulation.meets_assignment target hstep (Simulation.ahead_ne_nil hstep (by simp [hname]))
  · exact Simulation.keeps_fail _ hstep

private theorem readsLines_item (room : Nat) :
    ReadsLines room (IsAssignment room) Assignment.relocate item where
  yields := by
    intro reader hready hreported hahead
    rw [item_apply]
    split
    · rename_i target hname
      exact (yields_assignment hready hname).1
    · exact .complain hreported (fun h => absurd h hahead) _ (viable_isAssignment room)
  accepts := by
    intro reader tokens rest a hassignment hready hahead
    have haccepts := accepts_assignment hassignment hready hahead
    obtain @⟨token, _, _, _, target, _, _, htoken, -, -, -⟩ := hassignment
    rwa [item_apply, reader.current_of_ahead_eq_cons hahead, htoken]
  line := by
    intro tokens a hassignment
    obtain ⟨line, semicolon, htokens, hline, hsemicolon⟩ := hassignment.exists_line
    exact ⟨line, semicolon, htokens, hline.ne_semicolon, hsemicolon⟩
  known := roomIsNesting_isAssignment.bracketed
  stays := by
    intro reader _ hnone
    rw [item_apply] at hnone ⊢
    split at hnone
    · rename_i target hname
      obtain ⟨passed, hpassed, hline⟩ := staysInLine_assignment hname hnone
      exact ⟨passed, hpassed, hline.ne_semicolon⟩
    · exact ⟨[], by simp [fail], by simp⟩
  keeps := keeps_item

/-- Recovery inside a body goes on over the tokens of a piece. -/
private theorem recovers_item (hline : Terminates line semicolon)
    (hwords : ∀ token ∈ line, token.lexeme ≠ .keyword .endWord ∧ token.lexeme.opensBlock = false) :
    Recovers room .insideBlock item line where
  behind := rfl
  further := by
    intro reader passed more rest _ _ hsplit _ token hmem
    have hinside : token ∈ line := hsplit ▸ List.mem_append_right _ hmem
    rw [Boundary.verdict, if_neg (hwords token hinside).1,
      if_neg (hline.ne_semicolon token hinside)]

/-- A turn of a body at a piece reads the piece, and drops it if it is no assignment. -/
private theorem exists_piece_bodyItem (hpiece : IsItemPiece tokens) (hready : reader.Ready room)
    (hreported : reader.reported = false) (hsorted : reader.Sorted)
    (hahead : reader.ahead = tokens ++ rest) :
    bodyGoesOn reader.current.lexeme = true ∧
      ∃ read : Piece Assignment, read.tokens = tokens ∧ read.Isolated (IsAssignment room) ∧
        Ends reader tokens read.outcome read.reports (bodyItem reader) := by
  obtain @⟨line, semicolon, hline, hwords⟩ := hpiece
  have hcons : reader.ahead = line ++ semicolon :: rest := by simpa using hahead
  have hcurrent : reader.current.lexeme ≠ .keyword .endWord ∧
      reader.current.lexeme.opensBlock = false := by
    cases line with
    | nil => simp [reader.current_of_ahead_eq_cons hcons, hline.lexeme_eq, Lexeme.opensBlock]
    | cons other line =>
        rw [reader.current_of_ahead_eq_cons hcons]
        exact hwords other List.mem_cons_self
  have hend := hready.proper.current_ne_endOfInput (by simp [hcons])
  obtain ⟨read, htokens, hisolated, hends⟩ := (readsLines_item room).exists_piece
    Assignment.relocate_id (recovers_item hline hwords) hready hreported hsorted hline hcons
  rw [← bodyItem_of_not_opensBlock hcurrent.2] at hends
  exact ⟨by simpa [bodyGoesOn] using ⟨hcurrent.1, hend⟩, read, htokens, hisolated, hends⟩

/-! ## Blocks -/

/-- A block with conditions, whose body is cut into pieces. -/
private theorem exists_pieces_guarded {construct : Construct} (hready : reader.Ready room)
    (hsorted : reader.Sorted) (hopens : construct.OpenedBy word.lexeme)
    (hconstruct : construct ≠ .parenthesized) (hconditions : IsConditions room front conditions)
    (hcolon : colon.lexeme = .mark .colon) (hfirst : first.lexeme = .keyword .beginWord)
    (hpieces : ∀ piece ∈ pieces, IsItemPiece piece) (hlast : last.lexeme = .keyword .endWord)
    (hahead : reader.ahead =
      word :: ((front ++ [colon, first]) ++ (pieces.flatten ++ last :: rest))) :
    ∃ read : List (Piece Assignment), read.map Piece.tokens = pieces ∧
      (∀ piece ∈ read, piece.Isolated (IsAssignment room)) ∧
      Ends reader (word :: ((front ++ [colon, first]) ++ (pieces.flatten ++ [last])))
        (((read.map Piece.outcome).mapM id).map fun body => ⟨conditions, body, word.location⟩)
        (read.flatMap Piece.reports) (guarded construct reader) := by
  obtain ⟨hwithin, hinto⟩ := within_advanceInto hready hahead hopens hconstruct
  have hheader : ∀ {other : Reader} {behind : List Token}, other.Within 0 room →
      other.ahead = (front ++ [colon, first]) ++ behind →
      Accepts other (front ++ [colon, first]) conditions (guard other) :=
    fun hother hsplit => accepts_guard hconditions hcolon hfirst hother hsplit
  obtain ⟨middle, hmiddle, hadvances⟩ :=
    (hheader hwithin hinto).recoveringBy (Reader.recover .block)
  -- The pieces are read by the reader behind the header.
  have hbody := hwithin.advances hadvances
  have hrest := hadvances.ahead_later hinto
  have hframe : Reader.Frame reader middle :=
    (Reader.frame_advanceInto _).trans hadvances.steps.frame
  obtain ⟨read, later, hread, hisolated, hattempted, hpasses, -⟩ :=
    attempted_pieces repeats_bodyItem pieces
      (fun hmem hinv hreported hsortedThere hsplit =>
        exists_piece_bodyItem (hpieces _ hmem) hinv.ready hreported hsortedThere hsplit)
      (⟨hbody.ready, hbody.enclosing_ne, by simp [hbody.reported_eq]⟩ : InBody room middle)
      hbody.reported_eq (hsorted.frame hframe) hrest
  refine ⟨read, hread, hisolated, ?_⟩
  rw [guarded_eq]
  refine ends_block construct _ hready hahead hopens hconstruct hheader
    fun {other} hother hotherWithin hotherAhead => ?_
  obtain rfl : middle = other := by
    rw [hmiddle] at hother
    exact congrArg Prod.snd hother
  exact ends_body hotherWithin hattempted hpasses hotherAhead hlast

/-- A conditional with one block, kept or not, and no other block behind it. -/
private theorem ends_conditional_alone {head : Option Guarded} {reports : List Diagnostic}
    (hready : reader.Ready room) (hhead : Ends reader tokens head reports (guarded .ifBlock reader))
    (hahead : reader.ahead = tokens ++ rest)
    (hnext : StartsAnew (rest.headD reader.endToken).lexeme) :
    Ends reader tokens (head.map fun head => ⟨head, [], none⟩) reports (conditional reader) := by
  have hbehind : reader.ahead = (tokens ++ []) ++ ([] ++ rest) := by simpa using hahead
  have hends := ends_conditional hhead
    (fun _ => ends_elifs_behind .nil hready hahead hnext.1)
    (fun _ => ends_otherwiseAll_behind .none hready hbehind fun _ => hnext.2)
  have hchain : chain head (some []) (some none) = head.map fun head => ⟨head, [], none⟩ := by
    cases head <;> rfl
  rw [hchain] at hends
  simpa using hends

/-- A statement that is one block with conditions, whose body is cut into pieces. -/
private theorem exists_pieces_statement (hready : reader.Ready room) (hsorted : reader.Sorted)
    (hword : word.lexeme = .keyword .ifWord ∨ word.lexeme = .keyword .loopWord)
    (hconditions : IsConditions room front conditions) (hcolon : colon.lexeme = .mark .colon)
    (hfirst : first.lexeme = .keyword .beginWord) (hpieces : ∀ piece ∈ pieces, IsItemPiece piece)
    (hlast : last.lexeme = .keyword .endWord)
    (hahead : reader.ahead =
      word :: ((front ++ [colon, first]) ++ (pieces.flatten ++ last :: rest)))
    (hnext : StartsAnew (rest.headD reader.endToken).lexeme) :
    ∃ read : List (Piece Assignment), read.map Piece.tokens = pieces ∧
      (∀ piece ∈ read, piece.Isolated (IsAssignment room)) ∧
      Ends reader (word :: ((front ++ [colon, first]) ++ (pieces.flatten ++ [last])))
        (((read.map Piece.outcome).mapM id).map (Statement.ofBlock word conditions))
        (read.flatMap Piece.reports) (statement reader) := by
  have hcurrent : reader.current = word := reader.current_of_ahead_eq_cons hahead
  rw [statement_apply, hcurrent]
  rcases hword with hword | hword
  · have hopens : Construct.ifBlock.OpenedBy word.lexeme := hword
    obtain ⟨read, hread, hisolated, hends⟩ := exists_pieces_guarded hready hsorted hopens (by simp)
      hconditions hcolon hfirst hpieces hlast hahead
    have hchain := (ends_conditional_alone hready hends (by simpa using hahead) hnext).map
      Statement.conditional
    have houtcome : (Statement.conditional ∘ fun head => ⟨head, [], none⟩) ∘
        (fun body => ⟨conditions, body, word.location⟩) = Statement.ofBlock word conditions := by
      funext body
      simp [Statement.ofBlock, hword]
    rw [Option.map_map, Option.map_map, houtcome] at hchain
    rw [hword]
    exact ⟨read, hread, hisolated, hchain⟩
  · have hopens : Construct.loopBlock.OpenedBy word.lexeme := hword
    obtain ⟨read, hread, hisolated, hends⟩ := exists_pieces_guarded hready hsorted hopens (by simp)
      hconditions hcolon hfirst hpieces hlast hahead
    have hloop := hends.map Statement.loop
    have houtcome : Statement.loop ∘ (fun body => ⟨conditions, body, word.location⟩) =
        Statement.ofBlock word conditions := by
      funext body
      simp [Statement.ofBlock, hword]
    rw [Option.map_map, houtcome] at hloop
    rw [hword]
    exact ⟨read, hread, hisolated, hloop⟩

end Rule

/-- A block whose body is cut into pieces, above a text that is correct: the block is kept, with an
assignment for each piece, if all pieces are assignments, each of the others is reported by itself,
and the statements below are kept in any case. -/
theorem parse_body_pieces {block rest : String} {limit : Nat} {word colon first last : Token}
    {front : List Token} {conditions : Conditions} {pieces : List (List Token)}
    (hblock : (Cursor.start block).tokens =
      word :: (front ++ colon :: first :: (pieces.flatten ++ [last])))
    (hword : word.lexeme = .keyword .ifWord ∨ word.lexeme = .keyword .loopWord)
    (hconditions : IsConditions limit front conditions) (hcolon : colon.lexeme = .mark .colon)
    (hfirst : first.lexeme = .keyword .beginWord) (hpieces : ∀ piece ∈ pieces, IsItemPiece piece)
    (hlast : last.lexeme = .keyword .endWord) (hrest : (parse rest limit).diagnostics = []) :
    ∃ read : List (Piece Assignment), read.map Piece.tokens = pieces ∧
      (∀ piece ∈ read, piece.Isolated (IsAssignment limit)) ∧
      (∀ body, read.map Piece.outcome = body.map some →
        (parse (block ++ "\n" ++ rest) limit).program.statements =
          Statement.ofBlock word conditions body :: (parse rest limit).program.statements.map
            (Statement.relocate (Location.down (lineCount block)))) ∧
      ((∃ piece ∈ read, piece.outcome = none) →
        (parse (block ++ "\n" ++ rest) limit).program.statements =
          (parse rest limit).program.statements.map
            (Statement.relocate (Location.down (lineCount block)))) ∧
      (parse (block ++ "\n" ++ rest) limit).diagnostics = read.flatMap Piece.reports := by
  have hat := Reader.atStatement_start (block ++ "\n" ++ rest) limit
  have hbelow := isSequence_down (utf8Length block.toList + 1) (lineCount block) hrest
  have hnext := Rule.startsAnew_of_isSequence hbelow hat.ready.proper.endToken_lexeme
  have hahead : (Reader.start (block ++ "\n" ++ rest) limit).ahead =
      word :: ((front ++ [colon, first]) ++ (pieces.flatten ++ last ::
        (Cursor.start rest).tokens.map
          (Token.down (utf8Length block.toList + 1) (lineCount block)))) := by
    have htokens : (Reader.start (block ++ "\n" ++ rest) limit).ahead =
        (Cursor.start block).tokens ++ (Cursor.start rest).tokens.map
          (Token.down (utf8Length block.toList + 1) (lineCount block)) :=
      Cursor.tokens_append_line block rest
    rw [hblock] at htokens
    simpa using htokens
  have hmore : Rule.programGoesOn (Reader.start (block ++ "\n" ++ rest) limit).current.lexeme := by
    rw [Reader.current_of_ahead_eq_cons _ hahead]
    rcases hword with h | h <;> simp [h, Rule.programGoesOn]
  obtain ⟨read, hread, hisolated, hends⟩ := Rule.exists_pieces_statement hat.ready
    (Cursor.pairwise_offset_lt _) hword hconditions hcolon hfirst hpieces hlast hahead hnext
  obtain ⟨houtcome, hpasses⟩ := hends.keptStatement
  have hlands : (Rule.keptStatement (Reader.start (block ++ "\n" ++ rest) limit)).2.Lands _ :=
    ⟨hpasses.ahead_later (by simpa using hahead), hpasses.reported_eq⟩
  obtain ⟨hstatements, hdiagnostics⟩ := Reader.program_of_lands hat hmore hlands hbelow
  rw [houtcome] at hstatements
  refine ⟨read, hread, hisolated, fun body hbody => ?_, fun hdropped => ?_, ?_⟩
  · rw [parse_program_eq, hstatements, Rule.mapM_id_eq_some_iff.mpr hbody]
    rfl
  · have hnone : (read.map Piece.outcome).mapM id = none := by
      refine Option.eq_none_iff_forall_ne_some.mpr fun body hbody => ?_
      obtain ⟨piece, hmem, hpiece⟩ := hdropped
      have hkept : none ∈ body.map some := by
        rw [← Rule.mapM_id_eq_some_iff.mp hbody, ← hpiece]
        exact List.mem_map_of_mem hmem
      simp at hkept
    rw [parse_program_eq, hstatements, hnone]
    rfl
  · rw [parse_diagnostics_eq, Reader.final, hdiagnostics, hpasses.diagnostics_eq,
      Reader.diagnostics_start, List.nil_append]

/-- Of three pieces the last two are no assignments, and are reported by themselves. -/
theorem parse_body_pieces_broken :
    (parse ("loopc a > b : begin c = 1; d = ; $ = 2; end" ++ "\n" ++ "x = 3;")
      1).program.statements =
        [.assignment ⟨"x", .plain, .number "3" ⟨2, 5⟩, ⟨2, 1⟩⟩] ∧
    (parse ("loopc a > b : begin c = 1; d = ; $ = 2; end" ++ "\n" ++ "x = 3;") 1).diagnostics =
        [⟨.unexpected "an expression" "';'", ⟨1, 32⟩, ⟨31, 32⟩⟩,
          ⟨.strayCharacter '$', ⟨1, 34⟩, ⟨33, 34⟩⟩] ∧
    ∃ read : List (Piece Assignment),
      read.map Piece.tokens =
        [[.onFirstLine (.ident "c") 21, .onFirstLine (.assign .plain) 23,
            .onFirstLine (.number "1") 25, .onFirstLine (.mark .semicolon) 26],
          [.onFirstLine (.ident "d") 28, .onFirstLine (.assign .plain) 30,
            .onFirstLine (.mark .semicolon) 32],
          [.onFirstLine (.unknown '$') 34, .onFirstLine (.assign .plain) 36,
            .onFirstLine (.number "2") 38, .onFirstLine (.mark .semicolon) 39]] ∧
      (∀ piece ∈ read, piece.Isolated (IsAssignment 1)) ∧
      (parse ("loopc a > b : begin c = 1; d = ; $ = 2; end" ++ "\n" ++ "x = 3;") 1).diagnostics =
        read.flatMap Piece.reports := by
  have hconditions : IsConditions 1
      [.onFirstLine (.ident "a") 7, .onFirstLine (.relation .gt) 9, .onFirstLine (.ident "b") 11]
      (.single ⟨.gt, .ident "a" ⟨1, 7⟩, .ident "b" ⟨1, 11⟩, ⟨1, 7⟩⟩) :=
    .single (@IsComparison.mk 1 [_] [_] _ _ _ _ (isExpr_ident rfl _) rfl (isExpr_ident rfl _))
  have hpieces : ∀ piece ∈ [[Token.onFirstLine (.ident "c") 21, .onFirstLine (.assign .plain) 23,
        .onFirstLine (.number "1") 25, .onFirstLine (.mark .semicolon) 26],
      [.onFirstLine (.ident "d") 28, .onFirstLine (.assign .plain) 30,
        .onFirstLine (.mark .semicolon) 32],
      [.onFirstLine (.unknown '$') 34, .onFirstLine (.assign .plain) 36,
        .onFirstLine (.number "2") 38, .onFirstLine (.mark .semicolon) 39]],
      IsItemPiece piece := by
    simp only [List.forall_mem_cons, List.not_mem_nil, false_implies, implies_true, and_true]
    refine ⟨?_, ?_, ?_⟩
    · exact @IsItemPiece.mk [_, _, _] _ ⟨by decide, rfl⟩ (by decide)
    · exact @IsItemPiece.mk [_, _] _ ⟨by decide, rfl⟩ (by decide)
    · exact @IsItemPiece.mk [_, _, _] _ ⟨by decide, rfl⟩ (by decide)
  obtain ⟨read, hread, hisolated, -, -, hdiagnostics⟩ := @parse_body_pieces
    "loopc a > b : begin c = 1; d = ; $ = 2; end" "x = 3;" 1 (.onFirstLine (.keyword .loopWord) 1)
    (.onFirstLine (.mark .colon) 13) (.onFirstLine (.keyword .beginWord) 15)
    (.onFirstLine (.keyword .endWord) 41) _ _ _ (by decide +kernel) (Or.inr rfl) hconditions rfl rfl
    hpieces rfl (by decide +kernel)
  exact ⟨by decide +kernel, by decide +kernel, read, hread, hisolated, hdiagnostics⟩

end LoopLang
