import LoopLang.Proofs.Reading.Chains
import LoopLang.Reader.Program

/-!
# Reading statements and programs

A statement is read from a reader outside of all constructs.  The token in front of such a reader
is reported only where it starts a statement, so each statement that fails has a refusal of its
own.  A program is the list of its statements, and it is always read to the end of the text
(`program_apply`): either all of the tokens are a sentence, or the first refused token is one that
cannot follow the tokens before it (`yields_program`).
-/

namespace LoopLang

open Grammar

namespace Reader

private theorem Advances.kept {reader later : Reader} {passed : List Token}
    (hadvances : Advances passed reader later) (s : Statement) :
    Advances passed reader (later.record (.kept s)) where
  steps := hadvances.steps.tail (.kept s)
  ahead_eq := hadvances.ahead_eq
  enclosing_eq := hadvances.enclosing_eq
  reported_eq := hadvances.reported_eq
  diagnostics_eq := by simp [Event.diagnostic?, hadvances.diagnostics_eq]

end Reader

namespace Rule

variable {α β : Type} {room : Nat} {single : Prop} {reader later : Reader}

/-! ## Single statements -/

/-- Statements whose declarations list distinct names. -/
def IsDistinctStatement (room : Nat) (tokens : List Token) (s : Statement) : Prop :=
  IsStatement room tokens s ∧ s.DistinctNames

/-- Statements that are no blocks: declarations that list distinct names, and assignments. -/
inductive IsSimpleStatement (room : Nat) : List Token → Statement → Prop where
  | declaration {tokens : List Token} {d : Declaration}
      (htokens : IsDistinctDeclaration room tokens d) :
      IsSimpleStatement room tokens (.declaration d)
  | assignment {tokens : List Token} {a : Assignment} (htokens : IsAssignment room tokens a) :
      IsSimpleStatement room tokens (.assignment a)

private theorem viable_isDistinctStatement (room : Nat) : Viable (IsDistinctStatement room) [] := by
  obtain ⟨tokens, a, hlexical, h⟩ := viable_isAssignment room
  exact ⟨tokens, .assignment a, hlexical, .assignment h, trivial⟩

theorem simpleStatement_apply (reader : Reader) :
    simpleStatement reader =
      match reader.current.lexeme with
      | .keyword .intWord => ((declaration reader).1.map .declaration, (declaration reader).2)
      | .ident target =>
          ((assignment target reader).1.map .assignment, (assignment target reader).2)
      | _ => fail .statement reader := by
  simp only [simpleStatement, bind_apply, lexeme]
  cases reader.current.lexeme with
  | ident target => exact map_apply _ _ _
  | keyword word =>
      cases word with
      | intWord => exact map_apply _ _ _
      | _ => rfl
  | _ => rfl

/-- Where nothing is reported yet, what is no simple statement is refused at one token. -/
theorem yields_simpleStatement (hready : reader.Ready room) (hreported : reader.reported = false)
    (hahead : reader.ahead ≠ []) :
    Yields single (IsSimpleStatement room) reader (simpleStatement reader) := by
  have hviable : Viable (IsSimpleStatement room) [] := by
    obtain ⟨tokens, a, hlexical, h⟩ := viable_isAssignment room
    exact ⟨tokens, .assignment a, hlexical, .assignment h⟩
  rw [simpleStatement_apply]
  split
  · rename_i hword
    exact yields_map (yields_declaration hready hword).1 fun _ _ h => .declaration h
  · rename_i target hname
    exact yields_map (yields_assignment hready hname).1 fun _ _ h => .assignment h
  · exact .complain hreported (fun h => absurd h hahead) _ hviable

theorem statement_apply (reader : Reader) :
    statement reader =
      match reader.current.lexeme with
      | .keyword .ifWord => ((conditional reader).1.map .conditional, (conditional reader).2)
      | .keyword .loopWord => ((loop reader).1.map .loop, (loop reader).2)
      | lexeme =>
        if lexeme.opensBlock then (none, (reader.complain .statement).skipChain)
        else simpleStatement.recoveringBy (Reader.recover .statement) reader := by
  simp only [statement, bind_apply, lexeme]
  cases reader.current.lexeme with
  | keyword word =>
      cases word with
      | ifWord => exact map_apply _ _ _
      | loopWord => exact map_apply _ _ _
      | _ => rfl
  | _ => rfl

/-- A statement that begins no block is a simple one. -/
theorem statement_of_not_opensBlock (hopens : reader.current.lexeme.opensBlock = false) :
    statement reader = simpleStatement.recoveringBy (Reader.recover .statement) reader := by
  rw [statement_apply]
  split
  · rename_i hword
    simp [hword, Lexeme.opensBlock] at hopens
  · rename_i hword
    simp [hword, Lexeme.opensBlock] at hopens
  · rw [if_neg (by simp [hopens])]

/-- At a word that begins a block and no statement, the block is skipped with the chain behind
it. -/
theorem statement_of_misplaced (hopens : reader.current.lexeme.opensBlock)
    (hstarts : reader.current.lexeme.startsStatement = false) :
    statement reader = (none, (reader.complain .statement).skipChain) := by
  rw [statement_apply]
  split
  · rename_i hword
    simp [hword, Lexeme.startsStatement] at hstarts
  · rename_i hword
    simp [hword, Lexeme.startsStatement] at hstarts
  · rw [if_pos hopens]

/-- A reader between the statements of a program.  It can only stand at a reported token where a
statement starts. -/
structure AtStatement (room : Nat) (reader : Reader) : Prop where
  ready : reader.Ready room
  enclosing_eq : reader.enclosing = []
  reported : reader.reported = true → reader.ahead = [] ∨ reader.current.lexeme.startsStatement

/-- A token that starts no statement is refused there. -/
private theorem AtStatement.refuses (hat : AtStatement room reader) (hahead : reader.ahead ≠ [])
    (hstarts : ¬ reader.current.lexeme.startsStatement) :
    reader.Refuses True (IsDistinctStatement room) (reader.complain .statement) := by
  have hreported : reader.reported = false := by
    rw [Bool.eq_false_iff]
    intro hreported
    rcases hat.reported hreported with h | h
    · exact hahead h
    · exact hstarts h
  exact .complain hreported (fun h => absurd h hahead) _ (viable_isDistinctStatement room)

/-- What a rule for statements does at any token but the end of input. -/
structure IsStatementRead (room : Nat) (reader : Reader) (result : Option Statement × Reader) :
    Prop where
  yields : Yields False (IsDistinctStatement room) reader result
  reported : result.2.reported = true →
    result.2.ahead = [] ∨ result.2.current.lexeme.startsStatement
  length_lt : result.2.ahead.length < reader.ahead.length

private theorem IsRead.statement {P : List Token → α → Prop} {f : α → Statement}
    {result : Option α × Reader} (hread : IsRead P reader result)
    (himp : ∀ tokens a, P tokens a → IsDistinctStatement room tokens (f a)) :
    IsStatementRead room reader (result.1.map f, result.2) :=
  ⟨yields_map hread.yields himp, fun hreported => Or.inl (hread.clean hreported), hread.length_lt⟩

/-- A statement that passes a token, and recovery where it fails. -/
private theorem isStatementRead_recoveringBy {rule : Rule Statement}
    (hyields : Yields single (IsDistinctStatement room) reader (rule reader))
    (hlt : (rule reader).2.ahead.length < reader.ahead.length) :
    IsStatementRead room reader (rule.recoveringBy (Reader.recover .statement) reader) := by
  obtain ⟨hrecovering, hreported, hless⟩ := yields_recover hyields hlt
  exact ⟨hrecovering, hreported, hless⟩

/-- A simple statement, or no statement at all. -/
private theorem isStatementRead_simple (hat : AtStatement room reader)
    (hmore : reader.current.lexeme ≠ .endOfInput)
    (hword : reader.current.lexeme ≠ .keyword .ifWord)
    (hloop : reader.current.lexeme ≠ .keyword .loopWord) :
    IsStatementRead room reader
      (simpleStatement.recoveringBy (Reader.recover .statement) reader) := by
  obtain ⟨behind, hahead⟩ := hat.ready.proper.ahead_eq_cons hmore
  have hne : reader.ahead ≠ [] := by simp [hahead]
  have hsimple := simpleStatement_apply reader
  split at hsimple
  · rename_i hint
    obtain ⟨hyields, hlt⟩ := @yields_declaration room True _ hat.ready hint
    refine @isStatementRead_recoveringBy room True _ _ ?_ (by rwa [hsimple])
    rw [hsimple]
    exact yields_map hyields fun tokens d h => ⟨.declaration h.1, h.2⟩
  · rename_i target hname
    obtain ⟨hyields, hlt⟩ := @yields_assignment room True _ _ hat.ready hname
    refine @isStatementRead_recoveringBy room True _ _ ?_ (by rwa [hsimple])
    rw [hsimple]
    exact yields_map hyields fun tokens a h => ⟨.assignment h, trivial⟩
  · rename_i hint _
    -- None of the words that start a statement is left, so nothing is reported here.
    have hstarts : ¬ reader.current.lexeme.startsStatement := by
      rw [Lexeme.startsStatement_iff]
      exact not_or.mpr ⟨hint, not_or.mpr ⟨hword, hloop⟩⟩
    have hresult : simpleStatement.recoveringBy (Reader.recover .statement) reader =
        (none, (reader.complain .statement).recover .statement) := by
      unfold recoveringBy
      rw [hsimple]
      rfl
    have hstops : ¬ Boundary.statement.StopsAt reader.current.lexeme := hstarts
    obtain ⟨hrefuses, hreported, hlt⟩ := refuses_recover (hat.refuses hne hstarts) hne hstops
    rw [hresult]
    exact ⟨hrefuses, hreported, hlt⟩

theorem isStatementRead_statement (hat : AtStatement room reader)
    (hmore : reader.current.lexeme ≠ .endOfInput) :
    IsStatementRead room reader (statement reader) := by
  obtain ⟨behind, hahead⟩ := hat.ready.proper.ahead_eq_cons hmore
  have hne : reader.ahead ≠ [] := by simp [hahead]
  have hstatement := statement_apply reader
  split at hstatement
  · rename_i hword
    rw [hstatement]
    exact (isRead_conditional hat.ready hword).statement fun _ _ h => ⟨.conditional h, trivial⟩
  · rename_i hword
    have hopens : Construct.loopBlock.OpenedBy reader.current.lexeme := hword
    rw [hstatement]
    exact (isRead_guarded hat.ready hopens hword).statement fun _ _ h => ⟨.loop h, trivial⟩
  · rename_i hword hloop
    split at hstatement
    · rename_i hopens
      have hint : reader.current.lexeme ≠ .keyword .intWord := fun h => by
        simp [h, Lexeme.opensBlock] at hopens
      have hstarts : ¬ reader.current.lexeme.startsStatement := by
        rw [Lexeme.startsStatement_iff]
        exact not_or.mpr ⟨hint, not_or.mpr ⟨hword, hloop⟩⟩
      obtain ⟨hrefuses, hclean, hlt⟩ := refuses_skipChain (hat.refuses hne hstarts) hne
      rw [hstatement]
      exact ⟨hrefuses, fun hreported => Or.inl (hclean hreported), hlt⟩
    · rw [hstatement]
      exact isStatementRead_simple hat hmore hword hloop

theorem keptStatement_apply (reader : Reader) :
    keptStatement reader =
      match statement reader with
      | (some s, later) => (some s, later.record (.kept s))
      | (none, later) => (none, later) := by
  rw [keptStatement, bind_apply]
  rcases statement reader with ⟨_ | s, later⟩ <;> rfl

theorem fst_keptStatement (reader : Reader) : (keptStatement reader).1 = (statement reader).1 := by
  rw [keptStatement_apply]
  rcases statement reader with ⟨_ | s, later⟩ <;> rfl

theorem ahead_keptStatement (reader : Reader) :
    (keptStatement reader).2.ahead = (statement reader).2.ahead := by
  rw [keptStatement_apply]
  rcases statement reader with ⟨_ | s, later⟩ <;> rfl

theorem reported_keptStatement (reader : Reader) :
    (keptStatement reader).2.reported = (statement reader).2.reported := by
  rw [keptStatement_apply]
  rcases statement reader with ⟨_ | s, later⟩ <;> rfl

theorem diagnostics_keptStatement (reader : Reader) :
    (keptStatement reader).2.diagnostics = (statement reader).2.diagnostics := by
  rw [keptStatement_apply]
  rcases statement reader with ⟨_ | s, later⟩ <;> simp [Event.diagnostic?]

private theorem isStatementRead_keptStatement (hat : AtStatement room reader)
    (hmore : reader.current.lexeme ≠ .endOfInput) :
    IsStatementRead room reader (keptStatement reader) := by
  obtain ⟨hyields, hreported, hlt⟩ := isStatementRead_statement hat hmore
  rw [keptStatement_apply]
  rcases hresult : statement reader with ⟨_ | s, later⟩
  · rw [hresult] at hyields hreported hlt
    exact ⟨hyields, hreported, hlt⟩
  · rw [hresult] at hyields hreported hlt
    obtain ⟨passed, hadvances, h⟩ := hyields
    exact ⟨⟨passed, hadvances.kept s, h⟩, hreported, hlt⟩

/-! ## Programs -/

/-- Whether a program goes on at a lexeme. -/
def programGoesOn (lexeme : Lexeme) : Bool := lexeme ≠ .endOfInput

theorem repeats_keptStatement :
    Repeats (AtStatement room) (IsDistinctStatement room) programGoesOn keptStatement where
  stops := by
    intro reader hat hahead
    simp [programGoesOn, hat.ready.proper.current_lexeme_eq_endOfInput_iff.mpr hahead]
  passes := by
    intro reader hat hmore
    have hread := isStatementRead_keptStatement hat (by simpa [programGoesOn] using hmore)
    obtain ⟨hsteps, henclosing⟩ := Yields.steps hread.yields
    exact ⟨⟨hat.ready.steps hsteps henclosing, henclosing.trans hat.enclosing_eq, hread.reported⟩,
      hread.length_lt⟩
  yields := fun hat hmore =>
    (isStatementRead_keptStatement hat (by simpa [programGoesOn] using hmore)).yields

theorem isSequence_isDistinctStatement_iff {tokens : List Token} {p : Program} :
    IsSequence (IsDistinctStatement room) tokens p.statements ↔
      IsProgram room tokens p ∧ p.DistinctNames := by
  obtain ⟨statements⟩ := p
  simp only [IsProgram, Program.DistinctNames]
  constructor
  · intro h
    induction h with
    | nil => exact ⟨.nil, by simp⟩
    | cons hfirst _ ih => exact ⟨.cons hfirst.1 ih.1, by simpa using ⟨hfirst.2, ih.2⟩⟩
  · rintro ⟨h, hdistinct⟩
    induction h with
    | nil => exact .nil
    | cons hfirst _ ih =>
        simp only [List.mem_cons, forall_eq_or_imp] at hdistinct
        exact .cons ⟨hfirst, hdistinct.1⟩ (ih hdistinct.2)

end Rule

namespace Reader

variable {room : Nat} {reader : Reader}

/-- A program is the statements that were kept, up to the end of the text. -/
theorem program_apply (hat : Rule.AtStatement room reader) :
    ∃ outcomes later, Rule.Attempts Rule.programGoesOn Rule.keptStatement reader outcomes later ∧
      reader.program = (⟨outcomes.filterMap id⟩, later) ∧ later.ahead = [] := by
  obtain ⟨outcomes, later, hattempts, hresult⟩ :=
    Rule.exists_attempts Rule.repeats_keptStatement.toAdvancing hat
  obtain ⟨-, -, hlater, hmore⟩ := hattempts.steps Rule.repeats_keptStatement hat
  refine ⟨outcomes, later, hattempts, ?_, ?_⟩
  · have hloop : Rule.attemptWhile (fun lexeme => decide (lexeme ≠ .endOfInput)) Rule.keptStatement
        reader = (some outcomes, later) := hresult
    rw [Reader.program, Rule.program, Rule.bind_apply, hloop]
    rfl
  · rw [← hlater.ready.proper.current_lexeme_eq_endOfInput_iff]
    simpa [Rule.programGoesOn] using hmore

/-- All tokens are a sentence and nothing is reported, or the first token that is reported stands
behind tokens that can begin a sentence. -/
theorem program_cases (hat : Rule.AtStatement room reader) (hreported : reader.reported = false) :
    (reader.program.2.diagnostics = reader.diagnostics ∧
        IsProgram room reader.ahead reader.program.1 ∧ reader.program.1.DistinctNames) ∨
      reader.Refuses False (fun tokens p => IsProgram room tokens p ∧ p.DistinctNames)
        reader.program.2 := by
  obtain ⟨outcomes, later, hattempts, hresult, hahead⟩ := program_apply hat
  have hyields := hattempts.yields Rule.repeats_keptStatement hat hreported
  rw [hresult]
  cases houtcomes : outcomes.mapM id with
  | none =>
      -- A statement failed, and the first that did has refused a token.
      right
      rw [houtcomes] at hyields
      refine hyields.mono fun passed hviable => ?_
      obtain ⟨rest, statements, hlexical, h⟩ := hviable
      exact ⟨rest, ⟨statements⟩, hlexical, Rule.isSequence_isDistinctStatement_iff.mp h⟩
  | some statements =>
      -- Every statement was read, and no token is left.
      left
      rw [houtcomes] at hyields
      obtain ⟨passed, hadvances, h⟩ := hyields
      have hpassed : reader.ahead = passed := by rw [hadvances.ahead_eq, hahead, List.append_nil]
      rw [Rule.mapM_id_eq_some_iff] at houtcomes
      have hstatements : outcomes.filterMap id = statements := by simp [houtcomes]
      rw [hstatements, hpassed]
      exact ⟨hadvances.diagnostics_eq,
        (@Rule.isSequence_isDistinctStatement_iff room passed ⟨statements⟩).mp h⟩

end Reader

end LoopLang
