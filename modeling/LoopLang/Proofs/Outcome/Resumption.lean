import LoopLang.Proofs.Outcome.Run
import LoopLang.Proofs.Reading.Passages

/-!
# Where reading resumes

Reading resumes at two places: in front of each statement of a program, and in front of each item of
a body.  A reader that stands there shows no trace of what went wrong before (`parse_resumes`).  It
is inside the same constructs and as deep as if nothing had happened, since every rule leaves a
reader as far inside as it found it, whether it fails or not (`IsGrammarRule.leads_restored`).  And
if a diagnostic points at the current token already, then the token is one that is passed without a
complaint: one that starts a statement, or the end of the body.  So what fails next complains by
itself.

A parse stands in front of a statement when it has attempted those before it
(`Reader.AtStatementOf`).  The places inside bodies are found along the rules that lead there: the
blocks that are begun (`Reader.AtBlockOf`), the bodies whose header was read (`Reader.AtBodyOf`) and
the items that were attempted in them (`Reader.AtItemOf`).
-/

namespace LoopLang

open Rule

variable {source : String} {limit : Nat} {reader later : Reader}

/-! ## What every rule restores -/

namespace Reader

/-- A reader is inside the same constructs as another, and as many levels of parentheses deep. -/
def Restored (reader later : Reader) : Prop :=
  later.enclosing = reader.enclosing ∧ later.depth = reader.depth

private theorem passage_restored : Passage Restored where
  refl _ := ⟨rfl, rfl⟩
  trans hfirst hsecond := ⟨hsecond.1.trans hfirst.1, hsecond.2.trans hfirst.2⟩
  advance reader := ⟨reader.enclosing_advance, reader.depth_advance⟩
  complain reader wanted := ⟨reader.enclosing_complain wanted, reader.depth_complain wanted⟩
  refuseName _ _ := ⟨rfl, rfl⟩
  refuseParen reader := ⟨reader.enclosing_advance, reader.depth_advance⟩
  recovered _ _ _ := ⟨rfl, rfl⟩
  kept _ _ := ⟨rfl, rfl⟩
  inside opening hinside := by
    obtain ⟨henclosing, hdepth⟩ := hinside
    constructor
    · rw [enclosing_leaveFrom, henclosing, enclosing_enter, List.tail_cons, enclosing_descendInto]
    · rw [depth_leaveFrom, hdepth, depth_enter, depth_descendInto, Nat.add_sub_cancel]

end Reader

/-- The rules of the grammar, for whole programs and for each of their parts. -/
inductive IsGrammarRule : {α : Type} → Rule α → Prop where
  | exprAt (room : Nat) (level : Option Precedence) : IsGrammarRule (exprAt room level)
  | expression : IsGrammarRule expression
  | relation : IsGrammarRule relation
  | comparison : IsGrammarRule comparison
  | conditions : IsGrammarRule conditions
  | declaredName (names : List String) : IsGrammarRule (declaredName names)
  | declaredNames : IsGrammarRule declaredNames
  | initialValue : IsGrammarRule initialValue
  | declaration : IsGrammarRule declaration
  | assignOp : IsGrammarRule assignOp
  | assignment (target : String) : IsGrammarRule (assignment target)
  | bodyItem : IsGrammarRule bodyItem
  | body : IsGrammarRule body
  | blockStart : IsGrammarRule blockStart
  | guard : IsGrammarRule guard
  | guarded (construct : Construct) : IsGrammarRule (guarded construct)
  | otherwise : IsGrammarRule otherwise
  | conditional : IsGrammarRule conditional
  | loop : IsGrammarRule loop
  | simpleStatement : IsGrammarRule simpleStatement
  | statement : IsGrammarRule statement
  | keptStatement : IsGrammarRule keptStatement
  | program : IsGrammarRule program

theorem IsGrammarRule.leads_restored {α : Type} {rule : Rule α} (hrule : IsGrammarRule rule) :
    Leads Reader.Restored rule :=
  have hpassage := Reader.passage_restored
  match hrule with
  | exprAt room level => hpassage.exprAt room level
  | expression => hpassage.expression
  | relation => hpassage.relation
  | comparison => hpassage.comparison
  | conditions => hpassage.conditions
  | declaredName names => hpassage.declaredName names
  | declaredNames => hpassage.declaredNames
  | initialValue => hpassage.initialValue
  | declaration => hpassage.declaration
  | assignOp => hpassage.assignOp
  | assignment target => hpassage.assignment target
  | bodyItem => hpassage.bodyItem
  | body => hpassage.body
  | blockStart => hpassage.blockStart
  | guard => hpassage.guard
  | guarded construct => hpassage.guarded construct
  | otherwise => hpassage.otherwise
  | conditional => hpassage.conditional
  | loop => hpassage.loop
  | simpleStatement => hpassage.simpleStatement
  | statement => hpassage.statement
  | keptStatement => hpassage.keptStatement
  | program => hpassage.program

namespace Reader

/-! ## The places where reading resumes -/

/-- In a parse of the source the reader stands in front of a statement: it has attempted those
before it, and the end of input is not reached. -/
def AtStatementOf (source : String) (limit : Nat) (reader : Reader) : Prop :=
  programGoesOn reader.current.lexeme = true ∧
    ∃ outcomes, Attempted programGoesOn keptStatement (start source limit) outcomes reader

/-- In a parse of the source the reader stands in front of a block: one that begins a statement, or
one that follows an `if` block in its chain. -/
inductive AtBlockOf (source : String) (limit : Nat) : Construct → Reader → Prop where
  | conditional {reader : Reader} (hstatement : reader.AtStatementOf source limit)
      (hword : reader.current.lexeme = .keyword .ifWord) : AtBlockOf source limit .ifBlock reader
  | loop {reader : Reader} (hstatement : reader.AtStatementOf source limit)
      (hword : reader.current.lexeme = .keyword .loopWord) :
      AtBlockOf source limit .loopBlock reader
  | elif {head reader : Reader} {outcomes : List (Option Guarded)}
      (hhead : AtBlockOf source limit .ifBlock head)
      (helifs : Attempted elifFollows (guarded .elifBlock) (guarded .ifBlock head).2 outcomes
        reader)
      (hword : reader.current.lexeme = .keyword .elifWord) :
      AtBlockOf source limit .elifBlock reader
  | otherwise {head reader : Reader} {outcomes : List (Option Guarded)}
      (hhead : AtBlockOf source limit .ifBlock head)
      (helifs : Attempts elifFollows (guarded .elifBlock) (guarded .ifBlock head).2 outcomes reader)
      (hword : reader.current.lexeme = .keyword .elseWord) :
      AtBlockOf source limit .elseBlock reader

/-- In a parse of the source the reader stands behind the first word of a body, the header of whose
block was read. -/
inductive AtBodyOf (source : String) (limit : Nat) : Reader → Prop where
  | guarded {first reader : Reader} {construct : Construct} {conditions : Conditions}
      (hblock : AtBlockOf source limit construct first) (hconstruct : construct ≠ .elseBlock)
      (hheader : guard (first.advanceInto construct) = (some conditions, reader)) :
      AtBodyOf source limit reader
  | otherwise {first reader : Reader} (hblock : AtBlockOf source limit .elseBlock first)
      (hheader : blockStart (first.advanceInto .elseBlock) = (some (), reader)) :
      AtBodyOf source limit reader

/-- In a parse of the source the reader stands in a body and has attempted the items before it. -/
def AtItemOf (source : String) (limit : Nat) (reader : Reader) : Prop :=
  ∃ first, AtBodyOf source limit first ∧
    ∃ outcomes, Attempted bodyGoesOn bodyItem first outcomes reader

private theorem AtStatementOf.atStatement (hat : reader.AtStatementOf source limit) :
    AtStatement limit reader := by
  obtain ⟨-, outcomes, hattempted⟩ := hat
  exact hattempted.keeps repeats_keptStatement.toAdvancing (atStatement_start source limit)

/-- In front of a block no parenthesis is open, and the block begins with the word of its kind. -/
private theorem AtBlockOf.ready {construct : Construct}
    (hat : AtBlockOf source limit construct reader) :
    reader.Ready limit ∧ construct.OpenedBy reader.current.lexeme ∧
      construct ≠ .parenthesized := by
  have hchain : ∀ {head : Reader}, head.Ready limit →
      Construct.ifBlock.OpenedBy head.current.lexeme → InChain limit (guarded .ifBlock head).2 :=
    fun hready hopens => .of_isRead hready (isRead_guarded hready hopens hopens)
  induction hat with
  | conditional hstatement hword => exact ⟨hstatement.atStatement.ready, hword, by simp⟩
  | loop hstatement hword => exact ⟨hstatement.atStatement.ready, hword, by simp⟩
  | elif _ helifs hword ih =>
      have hlater := helifs.keeps repeats_elif.toAdvancing (hchain ih.1 ih.2.1)
      exact ⟨hlater.ready, hword, by simp⟩
  | otherwise _ helifs hword ih =>
      obtain ⟨-, -, hlater, -⟩ := helifs.steps repeats_elif (hchain ih.1 ih.2.1)
      exact ⟨hlater.ready, hword, by simp⟩

/-- Behind a header that was read nothing is reported, and the block is still open. -/
private theorem AtBlockOf.within_header {α : Type} {construct : Construct} {first : Reader}
    {P : List Token → α → Prop} {header : Rule α} {a : α}
    (hblock : AtBlockOf source limit construct first) (hreads : Reads False 0 limit P header)
    (hheader : header (first.advanceInto construct) = (some a, reader)) :
    reader.Within 0 limit := by
  obtain ⟨hready, hopens, hconstruct⟩ := hblock.ready
  have hinside := hready.advanceInto hopens hconstruct
  have hyields := hreads _ hinside
  rw [hheader] at hyields
  obtain ⟨passed, hadvances, -⟩ := hyields
  exact hinside.advances hadvances

private theorem AtBodyOf.within (hat : AtBodyOf source limit reader) : reader.Within 0 limit := by
  cases hat with
  | guarded hblock _ hheader => exact hblock.within_header reads_guard hheader
  | otherwise hblock hheader => exact hblock.within_header reads_blockStart hheader

private theorem AtItemOf.inBody (hat : reader.AtItemOf source limit) : InBody limit reader := by
  obtain ⟨first, hfirst, outcomes, hattempted⟩ := hat
  have hwithin := hfirst.within
  exact hattempted.keeps repeats_bodyItem.toAdvancing
    ⟨hwithin.ready, hwithin.enclosing_ne, by simp [hwithin.reported_eq]⟩

/-! ## What a failure reports -/

/-- From one reader to another something is reported, and first of all at a token that stood in
front of the first one. -/
def ReportsIn (reader later : Reader) : Prop :=
  ∃ d more, later.diagnostics = reader.diagnostics ++ d :: more ∧
    ∃ token ∈ reader.sight, d.location = token.location ∧ d.span = token.span

private theorem Refuses.reportsIn {α : Type} {single : Prop} {P : List Token → α → Prop}
    (hrefuses : Refuses single P reader later) : reader.ReportsIn later := by
  obtain ⟨-, -, passed, behind, cause, more, hahead, -, hdiagnostics, -⟩ := hrefuses
  have hmem : behind.headD reader.endToken ∈ reader.sight := by
    rw [sight, hahead]
    cases behind <;> simp
  exact ⟨_, more, hdiagnostics, _, hmem, rfl, rfl⟩

/-- A rule that reads or refuses reports where it fails. -/
private theorem reportsIn_of_yields {α : Type} {single : Prop} {P : List Token → α → Prop}
    {result : Option α × Reader} (hyields : Yields single P reader result)
    (hnone : result.1 = none) : reader.ReportsIn result.2 := by
  obtain ⟨value, later⟩ := result
  obtain rfl : value = none := hnone
  exact hyields.reportsIn

end Reader

/-! ## Resuming -/

/-- Every rule leaves a reader inside the constructs, and as deep, as it found it.  In front of a
statement the reader is inside of nothing, and if the current token is reported, it starts a
statement; in front of an item of a body, or of its end, only an `end` or the end of input is
reported.  A statement that fails, and an item that fails, adds a diagnostic of its own. -/
theorem parse_resumes (source : String) (limit : Nat) :
    (∀ {α : Type} (rule : Rule α), IsGrammarRule rule → ∀ reader : Reader,
      (rule reader).2.enclosing = reader.enclosing ∧ (rule reader).2.depth = reader.depth) ∧
    (∀ reader : Reader, reader.AtStatementOf source limit →
      reader.enclosing = [] ∧ reader.depth = 0 ∧
      (reader.reported = true → reader.current.lexeme ∈
        [Lexeme.keyword .intWord, .keyword .ifWord, .keyword .loopWord]) ∧
      ((statement reader).1 = none → reader.ReportsIn (statement reader).2)) ∧
    (∀ reader : Reader, reader.AtItemOf source limit →
      (reader.reported = true → reader.current.lexeme ∈ [.keyword .endWord, .endOfInput]) ∧
      (bodyGoesOn reader.current.lexeme = true → (bodyItem reader).1 = none →
        reader.ReportsIn (bodyItem reader).2)) := by
  refine ⟨fun rule hrule => hrule.leads_restored, fun reader hat => ?_, fun reader hat => ?_⟩
  · have hgoesOn : reader.current.lexeme ≠ .endOfInput := by simpa [programGoesOn] using hat.1
    obtain ⟨hready, henclosing, hreported⟩ := hat.atStatement
    refine ⟨henclosing, hready.depth_eq, fun htrue => ?_, fun hnone => ?_⟩
    · have hstarts : reader.current.lexeme.startsStatement = true :=
        (hreported htrue).resolve_left fun hahead =>
          hgoesOn (hready.proper.current_lexeme_eq_endOfInput_iff.mpr hahead)
      unfold Lexeme.startsStatement at hstarts
      split at hstarts <;> simp_all
    · exact Reader.reportsIn_of_yields (isStatementRead_statement hat.atStatement hgoesOn).yields
        hnone
  · obtain ⟨hready, henclosing, hreported⟩ := hat.inBody
    refine ⟨fun htrue => ?_, fun hmore hnone => ?_⟩
    · rcases hreported htrue with hahead | hend
      · simp [hready.proper.current_lexeme_eq_endOfInput_iff.mpr hahead]
      · simp [hend]
    · exact Reader.reportsIn_of_yields (yields_bodyItem hat.inBody hmore).1 hnone

/-- A second `int` that is reported and starts the next statement, and an `end` that is reported and
ends the body. -/
theorem parse_resumes_reported :
    (∃ reader : Reader, reader.AtStatementOf "int int x ;" 0 ∧ reader.reported = true ∧
      reader.enclosing = []) ∧
    ∃ reader : Reader, reader.AtItemOf "if x > 1 : begin y end" 0 ∧ reader.reported = true ∧
      reader.current.lexeme ∈ [.keyword .endWord, .endOfInput] := by
  have hsecond : (keptStatement (Reader.start "int int x ;" 0)).2.AtStatementOf "int int x ;" 0 :=
    ⟨by decide +kernel, _, .turn (by decide +kernel) .refl⟩
  have hblock : Reader.AtBlockOf "if x > 1 : begin y end" 0 .ifBlock
      (Reader.start "if x > 1 : begin y end" 0) :=
    .conditional ⟨by decide +kernel, _, .refl⟩ (by decide +kernel)
  obtain ⟨conditions, hconditions⟩ : ∃ conditions, (guard
      ((Reader.start "if x > 1 : begin y end" 0).advanceInto .ifBlock)).1 = some conditions :=
    Option.isSome_iff_exists.mp (by decide +kernel)
  have hitem : (bodyItem (guard ((Reader.start "if x > 1 : begin y end" 0).advanceInto
      .ifBlock)).2).2.AtItemOf "if x > 1 : begin y end" 0 :=
    ⟨_, .guarded hblock (by simp) (Prod.ext hconditions rfl), _, .turn (by decide +kernel) .refl⟩
  have hreported : (bodyItem (guard ((Reader.start "if x > 1 : begin y end" 0).advanceInto
      .ifBlock)).2).2.reported = true := by
    decide +kernel
  exact ⟨⟨_, hsecond, by decide +kernel, ((parse_resumes _ 0).2.1 _ hsecond).1⟩,
    ⟨_, hitem, hreported, ((parse_resumes _ 0).2.2 _ hitem).1 hreported⟩⟩

end LoopLang
