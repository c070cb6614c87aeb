import LoopLang.Proofs.Reading.Passages

/-!
# What no rule changes

Wherever a rule starts and whatever becomes of it, a frame lies between the readers before and
behind it (`Rule.Framed`): it moves on in the tokens, and its events speak of the tokens that were
in front of it.  Nothing is asked of the reader here, so this holds also where two runs have parted
and nothing else is known of them.
-/

namespace LoopLang

namespace Reader

private theorem passage_frame : Passage Frame where
  refl _ := .refl
  trans := .trans
  advance _ := frame_advance
  complain _ := frame_complain
  refuseName _ := frame_refuseName
  refuseParen _ := frame_refuseParen
  recovered _ _ _ := frame_record trivial
  kept _ _ := frame_record trivial
  inside opening hinside :=
    (((frame_descendInto opening.construct).trans (frame_enter opening)).trans hinside).trans
      (frame_leaveFrom opening.construct)

variable {reader : Reader}

theorem frame_recover (boundary : Boundary) : Frame reader (reader.recover boundary) :=
  passage_frame.recover reader boundary

end Reader

namespace Rule

open Reader (passage_frame)

variable {α β ω : Type}

/-- A rule only adds to the log, about the tokens in front of the reader, and moves on in them. -/
def Framed (rule : Rule α) : Prop := ∀ reader : Reader, Reader.Frame reader (rule reader).2

/-! ## Combinations of rules -/

@[simp] theorem framed_pure (a : α) : Framed (pure a : Rule α) := passage_frame.pure a

@[simp] theorem Framed.bind {rule : Rule α} {next : α → Rule β} (hrule : Framed rule)
    (hnext : ∀ a, Framed (next a)) : Framed (rule >>= next) :=
  passage_frame.bind hrule hnext

@[simp] theorem Framed.map {rule : Rule α} (hrule : Framed rule) (f : α → β) :
    Framed (f <$> rule) := by
  rw [map_eq_pure_bind]
  exact hrule.bind fun _ => framed_pure _

@[simp] theorem framed_advance : Framed advance := passage_frame.advance_rule

/-- A rule that passes the current token before it does anything else. -/
def PassesFirst (rule : Rule α) : Prop := ∃ next : Token → Rule α, rule = advance >>= next ∧
  ∀ token, Framed (next token)

private theorem PassesFirst.framed {rule : Rule α} (hrule : PassesFirst rule) : Framed rule := by
  obtain ⟨next, rfl, hnext⟩ := hrule
  exact framed_advance.bind hnext

private theorem PassesFirst.length_lt {rule : Rule α} (hrule : PassesFirst rule) {reader : Reader}
    (hahead : reader.ahead ≠ []) : (rule reader).2.ahead.length < reader.ahead.length := by
  obtain ⟨next, rfl, hnext⟩ := hrule
  have hlength := List.length_pos_iff.mpr hahead
  calc ((advance >>= next) reader).2.ahead.length
      ≤ reader.advance.ahead.length := (hnext _ reader.advance).ahead_suffix.length_le
    _ = reader.ahead.length - 1 := by rw [Reader.ahead_advance, List.length_tail]
    _ < reader.ahead.length := by omega

@[simp] theorem framed_note (s : Statement) : Framed (note (.kept s)) :=
  fun reader => passage_frame.kept reader s

@[simp] theorem framed_ofOption (value : Option α) : Framed (ofOption value) :=
  passage_frame.ofOption value

@[simp] theorem framed_expect (lexeme : Lexeme) (wanted : Wanted) : Framed (expect lexeme wanted) :=
  passage_frame.expect lexeme wanted

@[simp] theorem Framed.inside {rule : Rule α} (hrule : Framed rule) (opening : Opening) :
    Framed (inside opening rule) :=
  passage_frame.inside_rule hrule opening

@[simp] theorem Framed.attempt {rule : Rule α} (hrule : Framed rule) :
    Framed (attempt rule) := hrule

@[simp] theorem framed_repeatWhile {select : Lexeme → Option ω} {step : ω → α → Rule α}
    (hstep : ∀ choice a, Framed (step choice a)) (a : α) : Framed (repeatWhile select step a) :=
  passage_frame.repeatWhile hstep a

/-- A loop is not entered at the end of input, and each of its turns passes a token, also one that
fails. -/
structure Consumes (select : Lexeme → Option ω) (step : ω → α → Rule α) : Prop where
  stops : select .endOfInput = none
  framed : ∀ choice a, Framed (step choice a)
  length_lt : ∀ {reader : Reader}, reader.ahead ≠ [] → ∀ choice a,
    select reader.current.lexeme = some choice →
    (step choice a reader).2.ahead.length < reader.ahead.length

section

variable {select : Lexeme → Option ω} {step : ω → α → Rule α} {reader : Reader}

private theorem consumes_of_passesFirst (hstop : select .endOfInput = none)
    (hstep : ∀ choice a, PassesFirst (step choice a)) : Consumes select step where
  stops := hstop
  framed := fun choice a => (hstep choice a).framed
  length_lt := fun hahead choice a _ => (hstep choice a).length_lt hahead

private theorem Consumes.select_eq_none (hconsumes : Consumes select step) (hproper : reader.Proper)
    (hahead : reader.ahead = []) : select reader.current.lexeme = none := by
  rw [hproper.current_lexeme_eq_endOfInput_iff.mpr hahead, hconsumes.stops]

theorem Consumes.ahead_ne_nil (hconsumes : Consumes select step) (hproper : reader.Proper)
    {choice : ω} (hselect : select reader.current.lexeme = some choice) : reader.ahead ≠ [] := by
  intro hahead
  simp [hconsumes.select_eq_none hproper hahead] at hselect

/-- A loop whose turns pass tokens is never out of turns. -/
theorem Consumes.progresses (hconsumes : Consumes select step) :
    Progresses Reader.Proper select step where
  stops := hconsumes.select_eq_none
  passes := by
    intro reader later choice a b hproper hselect hresult
    have hframe := hconsumes.framed choice a reader
    have hlt := hconsumes.length_lt (hconsumes.ahead_ne_nil hproper hselect) choice a hselect
    rw [hresult] at hframe hlt
    exact ⟨hproper.of_frame hframe, hlt⟩

end

private theorem framed_attemptTurn {rule : Rule α} (hrule : Framed rule) (choice : Unit)
    (outcomes : List (Option α)) : Framed (attemptTurn rule choice outcomes) :=
  hrule.attempt.bind fun _ => framed_pure _

/-! ## Expressions and conditions -/

@[simp] theorem passesFirst_layerTurn {operand : Rule Expr} (hoperand : Framed operand)
    (op : ArithOp) (left : Expr) : PassesFirst (layerTurn operand op left) :=
  ⟨_, rfl, fun _ => hoperand.bind fun _ => framed_pure _⟩

theorem consumes_layer (level : Precedence) {operand : Rule Expr} (hoperand : Framed operand) :
    Consumes (Lexeme.arithAt? level) (layerTurn operand) :=
  consumes_of_passesFirst rfl (passesFirst_layerTurn hoperand)

@[simp] theorem framed_exprAt (room : Nat) (level : Option Precedence) :
    Framed (exprAt room level) :=
  passage_frame.exprAt room level

@[simp] theorem framed_insideParens (room : Nat) : Framed (insideParens room) :=
  Framed.bind (passage_frame.expressionWithin room) fun _ =>
    (framed_expect _ _).bind fun _ => framed_pure _

@[simp] theorem framed_expression : Framed expression := passage_frame.expression

@[simp] theorem framed_relation : Framed relation := passage_frame.relation

@[simp] theorem framed_comparison : Framed comparison := passage_frame.comparison

theorem consumes_conditions : Consumes Lexeme.connective? conditionsTurn :=
  consumes_of_passesFirst rfl fun _ _ =>
    ⟨_, rfl, fun _ => framed_comparison.bind fun _ => framed_pure _⟩

/-! ## Declarations and assignments -/

@[simp] theorem framed_declaredName (names : List String) : Framed (declaredName names) :=
  passage_frame.declaredName names

theorem consumes_names : Consumes comma? namesTurn :=
  consumes_of_passesFirst rfl fun _ names => ⟨_, rfl, fun _ => framed_declaredName names⟩

@[simp] theorem framed_declaredNames : Framed declaredNames := passage_frame.declaredNames

@[simp] theorem framed_initialValue : Framed initialValue := passage_frame.initialValue

private theorem passesFirst_declaration : PassesFirst declaration :=
  ⟨_, rfl, fun _ => (framed_declaredNames.bind fun _ => framed_initialValue.bind fun _ =>
    (framed_expect _ _).bind fun _ => framed_pure _).inside _⟩

@[simp] theorem framed_assignOp : Framed assignOp := passage_frame.assignOp

private theorem passesFirst_assignment (target : String) : PassesFirst (assignment target) :=
  ⟨_, rfl, fun _ => (framed_assignOp.bind fun _ => framed_expression.bind fun _ =>
    (framed_expect _ _).bind fun _ => framed_pure _).inside _⟩

/-! ## Blocks -/

@[simp] theorem framed_bodyItem : Framed bodyItem := passage_frame.bodyItem

@[simp] theorem framed_body : Framed body := passage_frame.body

@[simp] theorem framed_blockStart : Framed blockStart := passage_frame.blockStart

@[simp] theorem framed_guard : Framed guard := passage_frame.guard

@[simp] theorem framed_blockRest {header : Rule β} (hheader : Framed header)
    (make : β → List Assignment → α) : Framed (blockRest header make) :=
  passage_frame.blockRest hheader make

private theorem passesFirst_block {header : Rule β} (construct : Construct)
    (hheader : Framed header) (make : Token → β → List Assignment → α) :
    PassesFirst (block construct header make) :=
  ⟨_, rfl, fun word => (framed_blockRest hheader (make word)).inside _⟩

private theorem passesFirst_guarded (construct : Construct) : PassesFirst (guarded construct) :=
  passesFirst_block construct framed_guard _

@[simp] theorem framed_guarded (construct : Construct) : Framed (guarded construct) :=
  passage_frame.guarded construct

@[simp] theorem framed_otherwiseAll : Framed otherwiseAll := passage_frame.otherwiseAll

@[simp] theorem framed_attemptAll {rule : Rule α} (hrule : Framed rule) (more : Lexeme → Bool) :
    Framed (attemptAll more rule) :=
  passage_frame.attemptAll hrule more

/-! ## Statements -/

@[simp] theorem framed_statement : Framed statement := passage_frame.statement

@[simp] theorem framed_keptStatement : Framed keptStatement := passage_frame.keptStatement

/-! ## Rules that pass a token -/

variable {reader : Reader}

private theorem length_recoveringBy_lt {rule : Rule α} {recovery : Reader → Reader}
    (hrule : (rule reader).2.ahead.length < reader.ahead.length)
    (hrecovery : ∀ reader, Reader.Frame reader (recovery reader)) :
    (rule.recoveringBy recovery reader).2.ahead.length < reader.ahead.length := by
  unfold Rule.recoveringBy
  rcases hresult : rule reader with ⟨_ | a, later⟩
  · rw [hresult] at hrule
    exact (hrecovery later).ahead_suffix.length_le.trans_lt hrule
  · rwa [hresult] at hrule

/-- An item of a body passes a token wherever the body goes on. -/
private theorem length_bodyItem_lt (hahead : reader.ahead ≠ [])
    (hend : reader.current.lexeme ≠ .keyword .endWord) :
    (bodyItem reader).2.ahead.length < reader.ahead.length := by
  have hrest : ∀ wanted, (reader.complain wanted).ahead ≠ [] := fun _ => by simpa using hahead
  rw [bodyItem_apply]
  split
  · exact length_recoveringBy_lt ((passesFirst_assignment _).length_lt hahead)
      fun _ => Reader.frame_recover _
  · split
    · simpa using Reader.length_skipChain_lt (hrest _)
    · simpa using (@Reader.recover_of_not_stopsAt _ .insideBlock (hrest _)
        (by rwa [Reader.current_complain])).2

/-- A statement passes a token wherever there is one. -/
theorem length_statement_lt (hahead : reader.ahead ≠ []) :
    (statement reader).2.ahead.length < reader.ahead.length := by
  have hrest : ∀ wanted, (reader.complain wanted).ahead ≠ [] := fun _ => by simpa using hahead
  rw [statement_apply]
  split
  · rw [snd_conditional]
    have hfollowers := (framed_attemptAll (framed_guarded .elifBlock) elifFollows
      (guarded .ifBlock reader).2).trans (framed_otherwiseAll _)
    exact hfollowers.ahead_suffix.length_le.trans_lt ((passesFirst_guarded _).length_lt hahead)
  · exact (passesFirst_guarded _).length_lt hahead
  · rename_i hword hloop
    split
    · simpa using Reader.length_skipChain_lt (hrest _)
    · have hsimple := simpleStatement_apply reader
      split at hsimple
      · refine length_recoveringBy_lt ?_ fun _ => Reader.frame_recover _
        rw [hsimple]
        exact passesFirst_declaration.length_lt hahead
      · refine length_recoveringBy_lt ?_ fun _ => Reader.frame_recover _
        rw [hsimple]
        exact (passesFirst_assignment _).length_lt hahead
      -- No word that starts a statement is left, so recovery does not stop at this token.
      · rename_i hint _
        have hstops : ¬ Boundary.statement.StopsAt (reader.complain .statement).current.lexeme := by
          rw [Reader.current_complain, Boundary.StopsAt, Lexeme.startsStatement_iff]
          exact not_or.mpr ⟨hint, not_or.mpr ⟨hword, hloop⟩⟩
        have hlt := (Reader.recover_of_not_stopsAt (hrest _) hstops).2
        unfold Rule.recoveringBy
        rw [hsimple]
        simpa [fail] using hlt

private theorem length_keptStatement_lt (hahead : reader.ahead ≠ []) :
    (keptStatement reader).2.ahead.length < reader.ahead.length := by
  have hlt := length_statement_lt hahead
  rw [keptStatement_apply]
  rcases hresult : statement reader with ⟨_ | s, later⟩ <;> rwa [hresult] at hlt

/-! ## Loops of attempts -/

/-- A loop of attempts is not entered at the end of input, and each of its attempts passes a
token. -/
structure Passing (more : Lexeme → Bool) (rule : Rule α) : Prop where
  stops : more .endOfInput = false
  framed : Framed rule
  length_lt : ∀ {reader : Reader}, reader.ahead ≠ [] → more reader.current.lexeme = true →
    (rule reader).2.ahead.length < reader.ahead.length

variable {more : Lexeme → Bool} {rule : Rule α}

theorem Passing.consumes (hpassing : Passing more rule) :
    Consumes (another? more) (attemptTurn rule) where
  stops := another?_eq_none_iff.mpr hpassing.stops
  framed := framed_attemptTurn hpassing.framed
  length_lt := fun hahead _ _ hselect =>
    hpassing.length_lt hahead (another?_eq_some_iff.mp hselect)

theorem Passing.ahead_ne_nil (hpassing : Passing more rule) (hproper : reader.Proper)
    (hmore : more reader.current.lexeme = true) : reader.ahead ≠ [] := by
  have hselect : another? more reader.current.lexeme = some () := another?_eq_some_iff.mpr hmore
  exact hpassing.consumes.ahead_ne_nil hproper hselect

theorem Passing.advancing (hpassing : Passing more rule) : Advancing Reader.Proper more rule where
  stops := fun hproper hahead =>
    another?_eq_none_iff.mp (hpassing.consumes.select_eq_none hproper hahead)
  passes := fun {reader} hproper hmore => ⟨hproper.of_frame (hpassing.framed reader),
    hpassing.length_lt (hpassing.ahead_ne_nil hproper hmore) hmore⟩

theorem passing_bodyItem : Passing bodyGoesOn bodyItem where
  stops := rfl
  framed := framed_bodyItem
  length_lt := by
    intro reader hahead hmore
    simp only [bodyGoesOn, decide_eq_true_eq] at hmore
    exact length_bodyItem_lt hahead hmore.1

theorem passing_elif : Passing elifFollows (guarded .elifBlock) where
  stops := rfl
  framed := framed_guarded _
  length_lt := fun hahead _ => (passesFirst_guarded _).length_lt hahead

theorem passing_keptStatement : Passing programGoesOn keptStatement where
  stops := rfl
  framed := framed_keptStatement
  length_lt := fun hahead _ => length_keptStatement_lt hahead

end Rule

end LoopLang
