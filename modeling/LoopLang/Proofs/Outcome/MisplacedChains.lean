import LoopLang.Proofs.Blocks.Misplaced
import LoopLang.Proofs.Lexing.Lines
import LoopLang.Proofs.Outcome.Exactness

/-!
# Misplaced chains of blocks

A chain of blocks that stands where none may stand, in a text that is correct without it, costs one
diagnostic at its first token and nothing else (`parse_misplaced`).  Between the statements of a
program all of them are kept; between the assignments of a block the statement around the chain is
the only one that is lost.
-/

namespace LoopLang

open Grammar

/-- A text that is correct but for a chain of blocks where none may stand, with what is wanted in
place of the chain and the statements that remain. -/
inductive Misplaced (limit : Nat) (first : Token) (chain : List Token) :
    List Token → Wanted → List Statement → Prop where
  /-- The chain stands in a body of a statement: before the first assignment of the body, between
  two of them, or behind the last one. -/
  | inBody {front before after back : List Token} {p q : Program} {s : Statement}
      (hfront : IsValid limit front p) (hstatement : IsStatement limit (before ++ after) s)
      (hat : AtItem before) (hafter : after ≠ []) (hback : IsValid limit back q) :
      Misplaced limit first chain (front ++ (before ++ (chain ++ (after ++ back)))) .assignmentOrEnd
        (p.statements ++ q.statements)
  /-- The chain stands between two statements, and does not continue the one in front of it. -/
  | atTop {front back : List Token} {p q : Program} (hfront : IsValid limit front p)
      (hstarts : first.lexeme.startsStatement = false)
      (hends : ∀ s, p.statements.getLast? = some s → Rule.EndsBefore s first.lexeme)
      (hback : IsValid limit back q) :
      Misplaced limit first chain (front ++ (chain ++ back)) .statement
        (p.statements ++ q.statements)

namespace Reader

variable {room : Nat} {reader : Reader} {front gap back : List Token}
  {statements others : List Statement} {reports : List Diagnostic}

/-- A program that is correct but for a gap, which fails by itself. -/
private theorem program_gap (hat : Rule.AtStatement room reader)
    (hreported : reader.reported = false)
    (hfront : IsSequence (Rule.IsDistinctStatement room) front statements)
    (hback : IsSequence (Rule.IsDistinctStatement room) back others)
    (hahead : reader.ahead = front ++ (gap ++ back)) (hne : gap ≠ [])
    (hnext : ∀ s, statements.getLast? = some s →
      Rule.EndsBefore s ((gap ++ back).headD reader.endToken).lexeme)
    (hgap : ∀ later : Reader, later.Ready room → later.reported = false →
      later.ahead = gap ++ back → Rule.StartsAnew (back.headD later.endToken).lexeme →
      Rule.Ends later gap none reports (Rule.statement later)) :
    reader.program.1.statements = statements ++ others ∧
      reader.program.2.diagnostics = reader.diagnostics ++ reports := by
  have hend := hat.ready.proper.endToken_lexeme
  have hsplit : reader.ahead = front ++ (gap ++ (back ++ [])) := by simpa using hahead
  obtain ⟨last, hattempted, hpasses, hlast⟩ := Rule.attempted_gap Rule.repeats_keptStatement hsplit
    (Rule.attempted_statements hfront hat hreported hahead hnext)
    (fun later hlater hquiet hsame hrest => by
      rw [List.append_nil] at hrest
      refine ⟨?_, (hgap later hlater.ready hquiet hrest
        (Rule.startsAnew_of_isSequence hback (by rw [hsame, hend]))).keptStatement⟩
      have hlexeme := hlater.ready.proper.current_ne_endOfInput (by simp [hrest, hne])
      simpa [Rule.programGoesOn] using hlexeme)
    (fun later hlater hquiet hsame hrest => Rule.attempted_statements hback hlater hquiet hrest
      (by simp [hsame, hend, Rule.EndsBefore, Rule.StartsAnew]))
  have hnil : last.ahead = [] := hpasses.ahead_later (by simpa using hahead)
  rw [program_of_attempted hat hattempted hlast hnil]
  exact ⟨by simp, hpasses.diagnostics_eq⟩

end Reader

/-- A misplaced chain of blocks costs exactly one diagnostic, at its first token, and of the
statements at most the one it stands in. -/
theorem parse_misplaced {source : String} {limit : Nat} {first : Token} {chain : List Token}
    {wanted : Wanted} {kept : List Statement} (hchain : IsChain first chain)
    (hmisplaced : Misplaced limit first chain (Cursor.start source).tokens wanted kept) :
    (parse source limit).diagnostics =
        [⟨.unexpected wanted.text first.lexeme.describe, first.location, first.span⟩] ∧
      (parse source limit).program.statements = kept := by
  have hat := Reader.atStatement_start source limit
  have hsource : (Reader.start source limit).ahead = (Cursor.start source).tokens := rfl
  rw [parse_diagnostics_eq, Reader.final, parse_program_eq, and_comm]
  generalize (Cursor.start source).tokens = tokens at hmisplaced hsource
  cases hmisplaced with
  | @inBody front before after back p q s hfront hstatement hatItem hafter hback =>
      have hahead : (Reader.start source limit).ahead =
          front ++ ((before ++ (chain ++ after)) ++ back) := by simpa using hsource
      refine Reader.program_gap hat rfl (isSequence_of_isValid hfront) (isSequence_of_isValid hback)
        hahead (by simp [hatItem.ne_nil]) ?_ fun later hready _ hrest hanew =>
          Rule.ends_statement_chain hchain hstatement hatItem hafter hready (by simpa using hrest)
            hanew
      obtain ⟨token, more, rfl⟩ := List.exists_cons_of_ne_nil hatItem.ne_nil
      obtain ⟨other, behind, heq, -, hstarts⟩ := Rule.exists_startsAnew hstatement
      intro _ _ _ _ _
      rw [(List.cons_eq_cons.mp heq).1]
      exact hstarts
  | @atTop front back p q hfront hstarts hends hback =>
      obtain ⟨behind, rfl⟩ := hchain.exists_cons
      exact Reader.program_gap hat rfl (isSequence_of_isValid hfront) (isSequence_of_isValid hback)
        hsource (by simp) hends fun later _ hquiet hrest hanew =>
          Rule.ends_statement_misplaced hchain hstarts hquiet hrest hanew

section Example

variable {room : Nat} {word left sign right colon first last : Token} {a b : String}

private theorem isStatement_emptyBlock {op : RelOp} (hword : word.lexeme = .keyword .ifWord)
    (hleft : left.lexeme = .ident a) (hsign : sign.lexeme = .relation op)
    (hright : right.lexeme = .ident b) (hcolon : colon.lexeme = .mark .colon)
    (hfirst : first.lexeme = .keyword .beginWord) (hlast : last.lexeme = .keyword .endWord) :
    ∃ s, IsStatement room [word, left, sign, right, colon, first, last] s := by
  have hconditions := IsConditions.single
    (IsComparison.mk (@isExpr_ident room _ _ hleft _) hsign (isExpr_ident hright _))
  have hhead := IsGuarded.mk hword hconditions hcolon (IsBody.mk hfirst .nil hlast)
  exact ⟨_, .conditional (.mk hhead .nil .none)⟩

private theorem isValid_assignment (hleft : left.lexeme = .ident a)
    (hsign : sign.lexeme = .assign .plain) (hright : right.lexeme = .ident b)
    (hlast : last.lexeme = .mark .semicolon) :
    IsValid room [left, sign, right, last]
      ⟨[.assignment ⟨a, .plain, .ident b right.location, left.location⟩]⟩ := by
  have hassignment := IsAssignment.mk hleft hsign (@isExpr_ident room _ _ hright _) hlast
  have hprogram := IsSequence.cons (IsStatement.assignment hassignment) .nil
  exact isValid_iff.mpr ⟨hprogram, by simp [Program.DistinctNames, Statement.DistinctNames]⟩

private theorem isValid_nil : IsValid room [] ⟨[]⟩ :=
  isValid_iff.mpr ⟨.nil, by simp [Program.DistinctNames]⟩

private theorem isBlock_empty {head : List Token} (hhead : EdgeFree head)
    (hfirst : first.lexeme = .keyword .beginWord) (hlast : last.lexeme = .keyword .endWord) :
    IsBlock (head ++ [first, last]) := by
  have hinner : EdgeFree [] := by simp [EdgeFree]
  exact .mk hhead hfirst hinner.isBalanced hlast

/-- A block in a body costs the statement around the body, and an `else` block without an `if` costs
no statement. -/
theorem parse_misplaced_begin_and_else :
    ((parse "if a > b : begin begin end end c = d;" 1).diagnostics =
        [⟨.unexpected "an assignment or 'end'" "'begin'", ⟨1, 18⟩, ⟨17, 22⟩⟩] ∧
      (parse "if a > b : begin begin end end c = d;" 1).program.statements =
        [.assignment ⟨"c", .plain, .ident "d" ⟨1, 36⟩, ⟨1, 32⟩⟩]) ∧
    ((parse "else : begin end c = d;" 1).diagnostics =
        [⟨.unexpected "a statement" "'else'", ⟨1, 1⟩, ⟨0, 4⟩⟩] ∧
      (parse "else : begin end c = d;" 1).program.statements =
        [.assignment ⟨"c", .plain, .ident "d" ⟨1, 22⟩, ⟨1, 18⟩⟩]) := by
  constructor
  · have hbody : ∃ s, IsStatement 1 ([Token.onFirstLine (.keyword .ifWord) 1,
        Token.onFirstLine (.ident "a") 4, Token.onFirstLine (.relation .gt) 6,
        Token.onFirstLine (.ident "b") 8, Token.onFirstLine (.mark .colon) 10,
        Token.onFirstLine (.keyword .beginWord) 12] ++
          [Token.onFirstLine (.keyword .endWord) 28]) s :=
      isStatement_emptyBlock rfl rfl rfl rfl rfl rfl rfl
    obtain ⟨s, hstatement⟩ := hbody
    have hback : IsValid 1 [Token.onFirstLine (.ident "c") 32,
        Token.onFirstLine (.assign .plain) 34, Token.onFirstLine (.ident "d") 36,
        Token.onFirstLine (.mark .semicolon) 37] _ :=
      isValid_assignment rfl rfl rfl rfl
    have hblock : IsBlock ([] ++ [Token.onFirstLine (.keyword .beginWord) 18,
        Token.onFirstLine (.keyword .endWord) 24]) := isBlock_empty (by simp [EdgeFree]) rfl rfl
    have hchain : IsChain (Token.onFirstLine (.keyword .beginWord) 18)
        [Token.onFirstLine (.keyword .beginWord) 18, Token.onFirstLine (.keyword .endWord) 24] :=
      ⟨by simp [Token.onFirstLine], rfl, _, [], rfl, hblock, rfl, by simp⟩
    have hmisplaced := @Misplaced.inBody 1 (Token.onFirstLine (.keyword .beginWord) 18)
      [Token.onFirstLine (.keyword .beginWord) 18, Token.onFirstLine (.keyword .endWord) 24]
      _ _ _ _ _ _ _ isValid_nil hstatement ⟨_, rfl, Or.inl rfl⟩ (by simp) hback
    have hreport : Reader.misplaced (Token.onFirstLine (.keyword .beginWord) 18) .assignmentOrEnd =
        ⟨.unexpected "an assignment or 'end'" "'begin'", ⟨1, 18⟩, ⟨17, 22⟩⟩ := by decide +kernel
    rw [← hreport]
    refine parse_misplaced hchain ?_
    convert hmisplaced using 1
    · decide +kernel
    · rfl
  · have hback : IsValid 1 [Token.onFirstLine (.ident "c") 18,
        Token.onFirstLine (.assign .plain) 20, Token.onFirstLine (.ident "d") 22,
        Token.onFirstLine (.mark .semicolon) 23] _ :=
      isValid_assignment rfl rfl rfl rfl
    have hblock : IsBlock (
        [Token.onFirstLine (.keyword .elseWord) 1, Token.onFirstLine (.mark .colon) 6] ++
        [Token.onFirstLine (.keyword .beginWord) 8, Token.onFirstLine (.keyword .endWord) 14]) :=
      isBlock_empty (by simp [EdgeFree, Token.onFirstLine]) rfl rfl
    have hchain : IsChain (Token.onFirstLine (.keyword .elseWord) 1)
        [Token.onFirstLine (.keyword .elseWord) 1, Token.onFirstLine (.mark .colon) 6,
          Token.onFirstLine (.keyword .beginWord) 8, Token.onFirstLine (.keyword .endWord) 14] :=
      ⟨by simp [Token.onFirstLine], rfl, _, [], rfl, hblock, rfl, by simp⟩
    have hmisplaced := @Misplaced.atTop 1 (Token.onFirstLine (.keyword .elseWord) 1)
      [Token.onFirstLine (.keyword .elseWord) 1, Token.onFirstLine (.mark .colon) 6,
        Token.onFirstLine (.keyword .beginWord) 8, Token.onFirstLine (.keyword .endWord) 14] _ _ _ _
      isValid_nil rfl (by simp) hback
    have hreport : Reader.misplaced (Token.onFirstLine (.keyword .elseWord) 1) .statement =
        ⟨.unexpected "a statement" "'else'", ⟨1, 1⟩, ⟨0, 4⟩⟩ := by decide +kernel
    rw [← hreport]
    refine parse_misplaced hchain ?_
    convert hmisplaced using 1
    · decide +kernel
    · rfl

end Example

end LoopLang
