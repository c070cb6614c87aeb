import LoopLang.Proofs.Blocks.Endings
import LoopLang.Proofs.Reading.Statements

/-!
# Accepting blocks, statements and programs

Blocks end in `end`, so nothing behind a block matters to it.  A conditional is the one statement
that the next token can continue; no statement starts with such a token, so a sequence of statements
is read as it is derived (`Reader.program_of_isProgram`).
-/

namespace LoopLang

open Grammar

private theorem Reader.Passes.kept {reader later : Reader} {passed : List Token}
    {reports : List Diagnostic} (hpasses : Passes passed reports reader later) (s : Statement) :
    Passes passed reports reader (later.record (.kept s)) where
  steps := hpasses.steps.tail (.kept s)
  ahead_eq := hpasses.ahead_eq
  enclosing_eq := hpasses.enclosing_eq
  reported_eq := hpasses.reported_eq
  diagnostics_eq := by simp [Event.diagnostic?, hpasses.diagnostics_eq]

namespace Rule

variable {α β : Type} {room : Nat} {reader later : Reader} {tokens front back rest : List Token}

/-! ## Loops of attempts -/

/-- Turns of a loop accept a sequence.  Each sentence of it is accepted in front of a token that may
follow it, and each starts with a token that may follow them all, for which the loop goes on. -/
theorem attempted_of_isSequence {Inv : Reader → Prop} {P Q : List Token → α → Prop}
    {more : Lexeme → Bool} {rule : Rule α} {as : List α} (follow : α → Lexeme → Prop)
    (hrepeats : Repeats Inv Q more rule)
    (hitem : ∀ {reader : Reader} {tokens rest : List Token} {a : α}, Inv reader →
      P tokens a → reader.ahead = tokens ++ rest →
      follow a (rest.headD reader.endToken).lexeme → Accepts reader tokens a (rule reader))
    (hfirst : ∀ {tokens : List Token} {a : α}, P tokens a → ∃ token behind,
      tokens = token :: behind ∧ more token.lexeme = true ∧ ∀ b, follow b token.lexeme)
    (hsequence : IsSequence P tokens as) :
    ∀ {reader : Reader} {rest : List Token}, Inv reader → reader.reported = false →
      reader.ahead = tokens ++ rest →
      (∀ a, as.getLast? = some a → follow a (rest.headD reader.endToken).lexeme) →
      ∃ later, Attempted more rule reader (as.map some) later ∧ reader.Advances tokens later ∧
        Inv later := by
  induction hsequence with
  | nil =>
      intro reader rest hinv hreported _ _
      exact ⟨reader, .refl, .refl hreported, hinv⟩
  | @cons first tokens a as hP hsequence ih =>
      intro reader rest hinv hreported hahead hfollow
      obtain ⟨token, behind, rfl, hmore, -⟩ := hfirst hP
      have hcurrent : reader.current = token := reader.current_of_ahead_eq_cons hahead
      rw [← hcurrent] at hmore
      have hsplit : reader.ahead = (token :: behind) ++ (tokens ++ rest) := by simpa using hahead
      -- What follows this sentence is the next one, or what follows the last.
      have hnext : follow a ((tokens ++ rest).headD reader.endToken).lexeme := by
        cases hsequence with
        | nil => exact hfollow a rfl
        | cons hP _ =>
            obtain ⟨other, others, rfl, -, h⟩ := hfirst hP
            exact h a
      obtain ⟨middle, hresult, hadvances⟩ := hitem hinv hP hsplit hnext
      have hmiddle := (hrepeats.passes hinv hmore).1
      rw [hresult] at hmiddle
      have hend : middle.endToken = reader.endToken := hadvances.steps.frame.endToken_eq
      have hlast : ∀ b, as.getLast? = some b → follow b (rest.headD middle.endToken).lexeme := by
        intro b hb
        rw [hend]
        exact hfollow b (by rw [List.getLast?_cons, hb]; rfl)
      obtain ⟨later, hattempted, hrest, hlater⟩ := ih hmiddle hadvances.reported_eq
        (hadvances.ahead_later hsplit) hlast
      refine ⟨later, ?_, hadvances.trans hrest, hlater⟩
      have hturn : Attempted more rule reader ((rule reader).1 :: as.map some) later :=
        .turn hmore (by rw [hresult]; exact hattempted)
      rwa [hresult] at hturn

/-! ## Blocks -/

private theorem accepts_bodyItem {a : Assignment} (hassignment : IsAssignment room tokens a)
    (hready : reader.Ready room) (hahead : reader.ahead = tokens ++ rest) :
    Accepts reader tokens a (bodyItem reader) := by
  have haccepts := accepts_assignment hassignment hready hahead
  obtain @⟨token, sign, semicolon, value, target, op, e, htoken, -, -, -⟩ := hassignment
  have hcurrent : reader.current = token := reader.current_of_ahead_eq_cons hahead
  rw [bodyItem_apply, hcurrent, htoken]
  exact haccepts.recoveringBy _

/-- The turns of a body that read a sequence of assignments. -/
theorem attempted_assignments {body : List Assignment}
    (hsequence : IsSequence (IsAssignment room) tokens body) (hbody : InBody room reader)
    (hreported : reader.reported = false) (hahead : reader.ahead = tokens ++ rest) :
    ∃ later, Attempted bodyGoesOn bodyItem reader (body.map some) later ∧
      reader.Advances tokens later ∧ InBody room later :=
  attempted_of_isSequence (fun _ _ => True) repeats_bodyItem
    (fun hbody h hahead _ => accepts_bodyItem h hbody.ready hahead)
    (fun h => by
      obtain @⟨token, _, _, _, _, _, _, htoken, -, -, -⟩ := h
      exact ⟨token, _, rfl, by simp [bodyGoesOn, htoken], fun _ => trivial⟩)
    hsequence hbody hreported hahead fun _ _ => trivial

private theorem accepts_body {front : List Token} {body : List Assignment} {last : Token}
    (hsequence : IsSequence (IsAssignment room) front body)
    (hlast : last.lexeme = .keyword .endWord) (hwithin : reader.Within 0 room)
    (hahead : reader.ahead = front ++ last :: rest) :
    Accepts reader (front ++ [last]) body (Rule.body reader) := by
  have hbody : InBody room reader :=
    ⟨hwithin.ready, hwithin.enclosing_ne, by simp [hwithin.reported_eq]⟩
  obtain ⟨later, hattempted, hadvances, -⟩ :=
    attempted_assignments hsequence hbody hwithin.reported_eq hahead
  have hends := ends_body hwithin hattempted hadvances.passes hahead hlast
  rw [mapM_id_eq_some_iff.mpr rfl] at hends
  exact hends.accepts

theorem accepts_blockStart {colon first : Token} (hcolon : colon.lexeme = .mark .colon)
    (hbegin : first.lexeme = .keyword .beginWord) (hwithin : reader.Within 0 room)
    (hahead : reader.ahead = colon :: first :: rest) :
    Accepts reader [colon, first] () (blockStart reader) := by
  refine (accepts_expect .colon hwithin.proper hahead hcolon (by simp)).bind fun later hfirst => ?_
  have hexpect := accepts_expect .beginWord (hwithin.advances hfirst).proper
    (hfirst.ahead_later hahead) hbegin (by simp)
  exact hexpect.bind_pure fun _ => ()

/-- A block with any kind of header. -/
private theorem accepts_block {header : Rule β} {b : β} {word last : Token}
    {start front : List Token} {body : List Assignment} (construct : Construct)
    (make : Token → β → List Assignment → α) (hready : reader.Ready room)
    (hahead : reader.ahead = word :: (start ++ (front ++ last :: rest)))
    (hopens : construct.OpenedBy word.lexeme) (hconstruct : construct ≠ .parenthesized)
    (hheader : ∀ {reader : Reader} {rest : List Token}, reader.Within 0 room →
      reader.ahead = start ++ rest → Accepts reader start b (header reader))
    (hsequence : IsSequence (IsAssignment room) front body)
    (hlast : last.lexeme = .keyword .endWord) :
    Accepts reader (word :: (start ++ (front ++ [last]))) (make word b body)
      (block construct header make reader) := by
  have hends := ends_block construct make hready hahead hopens hconstruct hheader
    fun _ hwithin hrest => (accepts_body hsequence hlast hwithin hrest).ends
  exact hends.accepts

theorem accepts_guard {conditions : Conditions} {front : List Token} {colon first : Token}
    (hconditions : IsConditions room front conditions) (hcolon : colon.lexeme = .mark .colon)
    (hbegin : first.lexeme = .keyword .beginWord) (hwithin : reader.Within 0 room)
    (hahead : reader.ahead = front ++ [colon, first] ++ rest) :
    Accepts reader (front ++ [colon, first]) conditions (guard reader) := by
  have hsplit : reader.ahead = front ++ colon :: first :: rest := by simpa using hahead
  refine (accepts_conditions hconditions hwithin hsplit (by simp [hcolon]) (by simp [hcolon])).bind
    fun later hfirst => ?_
  have hstart := accepts_blockStart hcolon hbegin (hwithin.advances hfirst)
    (hfirst.ahead_later hsplit)
  exact hstart.bind_pure fun _ => conditions

theorem accepts_guarded {construct : Construct} {keyword : Keyword} {block : Guarded}
    (hblock : IsGuarded room keyword tokens block)
    (hopens : construct.OpenedBy (.keyword keyword)) (hready : reader.Ready room)
    (hahead : reader.ahead = tokens ++ rest) :
    Accepts reader tokens block (guarded construct reader) := by
  obtain @⟨word, colon, front, back, conditions, body, hword, hconditions, hcolon, hbody⟩ := hblock
  obtain @⟨first, last, inner, _, hfirst, hinner, hlast⟩ := hbody
  have hcons : reader.ahead = word :: ((front ++ [colon, first]) ++ (inner ++ last :: rest)) := by
    simpa using hahead
  have hconstruct : construct ≠ .parenthesized := by
    rintro rfl
    simp [Construct.OpenedBy] at hopens
  have htokens : front ++ colon :: (first :: (inner ++ [last])) =
      (front ++ [colon, first]) ++ (inner ++ [last]) := by simp
  rw [htokens, guarded_eq]
  exact accepts_block construct _ hready hcons (hword ▸ hopens) hconstruct
    (accepts_guard hconditions hcolon hfirst) hinner hlast

private theorem accepts_otherwise {block : Otherwise} (hblock : IsOtherwise room tokens block)
    (hready : reader.Ready room) (hahead : reader.ahead = tokens ++ rest) :
    Accepts reader tokens block (otherwise reader) := by
  obtain @⟨word, colon, tokens, body, hword, hcolon, hbody⟩ := hblock
  obtain @⟨first, last, inner, _, hfirst, hinner, hlast⟩ := hbody
  have hcons : reader.ahead = word :: ([colon, first] ++ (inner ++ last :: rest)) := by
    simpa using hahead
  have hopens : Construct.elseBlock.OpenedBy word.lexeme := hword
  rw [otherwise_eq]
  exact accepts_block .elseBlock _ hready hcons hopens (by simp) (accepts_blockStart hcolon hfirst)
    hinner hlast

/-! ## Chains of blocks -/

/-- The turns of a chain that read a sequence of `elif` blocks. -/
theorem attempted_elifs {elifs : List Guarded}
    (hsequence : IsSequence (IsGuarded room .elifWord) tokens elifs) (hchain : InChain room reader)
    (hreported : reader.reported = false) (hahead : reader.ahead = tokens ++ rest) :
    ∃ later, Attempted elifFollows (guarded .elifBlock) reader (elifs.map some) later ∧
      reader.Advances tokens later ∧ InChain room later :=
  attempted_of_isSequence (fun _ _ => True) repeats_elif
    (fun hchain h hahead _ => accepts_guarded h rfl hchain.ready hahead)
    (fun h => by
      obtain @⟨word, _, _, _, _, _, hword, -, -, -⟩ := h
      exact ⟨word, _, rfl, by simp [elifFollows, hword], fun _ => trivial⟩)
    hsequence hchain hreported hahead fun _ _ => trivial

theorem accepts_elifs {elifs : List Guarded}
    (hsequence : IsSequence (IsGuarded room .elifWord) tokens elifs)
    (hchain : InChain room reader) (hreported : reader.reported = false)
    (hahead : reader.ahead = tokens ++ rest)
    (hnext : (rest.headD reader.endToken).lexeme ≠ .keyword .elifWord) :
    Accepts reader tokens elifs (attemptAll elifFollows (guarded .elifBlock) reader) := by
  obtain ⟨later, hattempted, hadvances, -⟩ :=
    attempted_elifs hsequence hchain hreported hahead
  have hends := ends_elifs hchain hattempted hadvances.passes hahead hnext
  rw [mapM_id_eq_some_iff.mpr rfl] at hends
  exact hends.accepts

theorem accepts_otherwiseAll {otherwise : Option Otherwise}
    (hotherwise : IsOptional (IsOtherwise room) tokens otherwise) (hready : reader.Ready room)
    (hreported : reader.reported = false) (hahead : reader.ahead = tokens ++ rest)
    (hnext : otherwise = none → (rest.headD reader.endToken).lexeme ≠ .keyword .elseWord) :
    Accepts reader tokens otherwise (otherwiseAll reader) := by
  rw [otherwiseAll_apply]
  cases hotherwise with
  | none =>
      have hcurrent : reader.current = rest.headD reader.endToken := by
        rw [Reader.current, hahead, List.nil_append]
      rw [hcurrent, if_neg (hnext rfl)]
      exact ⟨reader, rfl, .refl hreported⟩
  | some hblock =>
      have haccepts := accepts_otherwise hblock hready hahead
      obtain @⟨word, colon, tokens, body, hword, -, -⟩ := hblock
      have hcurrent : reader.current = word := reader.current_of_ahead_eq_cons hahead
      rw [hcurrent, if_pos hword]
      exact haccepts.map some

section

variable {front : List Token} {reports : List Diagnostic}

/-- The `elif` blocks of a conditional are read behind whatever was passed for its first block. -/
theorem ends_elifs_behind {elifs : List Guarded}
    (helifs : IsSequence (IsGuarded room .elifWord) tokens elifs) (hready : reader.Ready room)
    (hahead : reader.ahead = front ++ (tokens ++ rest))
    (hnext : (rest.headD reader.endToken).lexeme ≠ .keyword .elifWord)
    (hpasses : reader.Passes front reports later) :
    Ends later tokens (some elifs) [] (attemptAll elifFollows (guarded .elifBlock) later) := by
  rw [← hpasses.steps.frame.endToken_eq] at hnext
  have haccepts := accepts_elifs helifs (.of_passes hready hpasses) hpasses.reported_eq
    (hpasses.ahead_later hahead) hnext
  exact haccepts.ends

/-- So is its `else` block, behind the blocks that were passed. -/
theorem ends_otherwiseAll_behind {otherwise : Option Otherwise}
    (hotherwise : IsOptional (IsOtherwise room) tokens otherwise) (hready : reader.Ready room)
    (hahead : reader.ahead = front ++ (tokens ++ rest))
    (hnext : otherwise = none → (rest.headD reader.endToken).lexeme ≠ .keyword .elseWord)
    (hpasses : reader.Passes front reports later) :
    Ends later tokens (some otherwise) [] (otherwiseAll later) := by
  rw [← hpasses.steps.frame.endToken_eq] at hnext
  have haccepts := accepts_otherwiseAll hotherwise (InChain.of_passes hready hpasses).ready
    hpasses.reported_eq (hpasses.ahead_later hahead) hnext
  exact haccepts.ends

end

/-- Whether a lexeme behind a statement can never belong to it. -/
def StartsAnew (lexeme : Lexeme) : Prop :=
  lexeme ≠ .keyword .elifWord ∧ lexeme ≠ .keyword .elseWord

/-- Whether a statement is over in front of a lexeme: only a conditional without an `else` block can
go on. -/
def EndsBefore (s : Statement) (lexeme : Lexeme) : Prop :=
  ∀ c, s = .conditional c → c.otherwise = none → StartsAnew lexeme

/-- Behind the `elif` blocks of a conditional no further one stands. -/
theorem ne_elif_of_isOptional {otherwise : Option Otherwise} {token : Token}
    (hotherwise : IsOptional (IsOtherwise room) tokens otherwise)
    (hnext : otherwise = none → StartsAnew (rest.headD token).lexeme) :
    ((tokens ++ rest).headD token).lexeme ≠ .keyword .elifWord := by
  cases hotherwise with
  | none => exact (hnext rfl).1
  | some hblock =>
      obtain @⟨word, _, _, _, hword, -, -⟩ := hblock
      simp [hword]

private theorem accepts_conditional {c : Conditional} (hconditional : IsConditional room tokens c)
    (hready : reader.Ready room) (hahead : reader.ahead = tokens ++ rest)
    (hnext : c.otherwise = none → StartsAnew (rest.headD reader.endToken).lexeme) :
    Accepts reader tokens c (conditional reader) := by
  obtain @⟨front, middle, back, head, elifs, otherwise, hhead, helifs, hotherwise⟩ := hconditional
  have hsplit : reader.ahead = front ++ (middle ++ (back ++ rest)) := by simpa using hahead
  have hopens : Construct.ifBlock.OpenedBy (.keyword .ifWord) := rfl
  have hbehind : reader.ahead = (front ++ middle) ++ (back ++ rest) := by simpa using hahead
  have hends := ends_conditional (accepts_guarded hhead hopens hready hsplit).ends
    (fun _ => ends_elifs_behind helifs hready hsplit (ne_elif_of_isOptional hotherwise hnext))
    (fun _ => ends_otherwiseAll_behind hotherwise hready hbehind fun hnone => (hnext hnone).2)
  exact hends.accepts

/-! ## Statements -/

theorem accepts_simpleStatement {s : Statement} (hsimple : IsSimpleStatement room tokens s)
    (hready : reader.Ready room) (hahead : reader.ahead = tokens ++ rest) :
    Accepts reader tokens s (simpleStatement reader) := by
  rw [simpleStatement_apply]
  cases hsimple with
  | declaration h =>
      have haccepts := accepts_declaration h.1 h.2 hready hahead
      obtain @⟨word, _, _, _, _, _, hword, -, -, -⟩ := h.1
      have hcurrent : reader.current = word := reader.current_of_ahead_eq_cons hahead
      rw [hcurrent, hword]
      exact haccepts.map Statement.declaration
  | assignment h =>
      have haccepts := accepts_assignment h hready hahead
      obtain @⟨token, _, _, _, target, _, _, htoken, -, -, -⟩ := h
      have hcurrent : reader.current = token := reader.current_of_ahead_eq_cons hahead
      rw [hcurrent, htoken]
      exact haccepts.map Statement.assignment

private theorem accepts_statement {s : Statement} (hstatement : IsDistinctStatement room tokens s)
    (hready : reader.Ready room) (hahead : reader.ahead = tokens ++ rest)
    (hnext : EndsBefore s (rest.headD reader.endToken).lexeme) :
    Accepts reader tokens s (statement reader) := by
  obtain ⟨hstatement, hdistinct⟩ := hstatement
  rw [statement_apply]
  cases hstatement with
  | declaration h =>
      have haccepts := accepts_simpleStatement (.declaration ⟨h, hdistinct⟩) hready hahead
      obtain @⟨word, _, _, _, _, _, hword, -, -, -⟩ := h
      have hcurrent : reader.current = word := reader.current_of_ahead_eq_cons hahead
      rw [hcurrent, hword]
      exact haccepts.recoveringBy _
  | assignment h =>
      have haccepts := accepts_simpleStatement (.assignment h) hready hahead
      obtain @⟨token, _, _, _, target, _, _, htoken, -, -, -⟩ := h
      have hcurrent : reader.current = token := reader.current_of_ahead_eq_cons hahead
      rw [hcurrent, htoken]
      exact haccepts.recoveringBy _
  | conditional h =>
      have haccepts := accepts_conditional h hready hahead (hnext _ rfl)
      obtain @⟨_, _, _, _, _, _, hhead, -, -⟩ := h
      obtain @⟨word, _, _, _, _, _, hword, -, -, -⟩ := hhead
      have hcurrent : reader.current = word := reader.current_of_ahead_eq_cons hahead
      rw [hcurrent, hword]
      exact haccepts.map Statement.conditional
  | loop h =>
      have hopens : Construct.loopBlock.OpenedBy (.keyword .loopWord) := rfl
      have haccepts := accepts_guarded h hopens hready hahead
      obtain @⟨word, _, _, _, _, _, hword, -, -, -⟩ := h
      have hcurrent : reader.current = word := reader.current_of_ahead_eq_cons hahead
      rw [hcurrent, hword]
      exact haccepts.map Statement.loop

/-- Keeping a statement changes nothing of where it ends. -/
theorem Ends.keptStatement {outcome : Option Statement} {reports : List Diagnostic}
    (hends : Ends reader tokens outcome reports (statement reader)) :
    Ends reader tokens outcome reports (keptStatement reader) := by
  obtain ⟨houtcome, hpasses⟩ := hends
  rw [keptStatement_apply]
  rcases hresult : statement reader with ⟨_ | s, later⟩
  · rw [hresult] at houtcome hpasses
    exact ⟨houtcome, hpasses⟩
  · rw [hresult] at houtcome hpasses
    exact ⟨houtcome, hpasses.kept s⟩

theorem accepts_keptStatement {s : Statement} (hstatement : IsDistinctStatement room tokens s)
    (hready : reader.Ready room) (hahead : reader.ahead = tokens ++ rest)
    (hnext : EndsBefore s (rest.headD reader.endToken).lexeme) :
    Accepts reader tokens s (keptStatement reader) :=
  (accepts_statement hstatement hready hahead hnext).ends.keptStatement.accepts

/-- A statement starts with a token that belongs to no statement before it. -/
theorem exists_startsAnew {s : Statement} (hstatement : IsStatement room tokens s) :
    ∃ token behind, tokens = token :: behind ∧ programGoesOn token.lexeme = true ∧
      StartsAnew token.lexeme := by
  cases hstatement with
  | declaration h =>
      obtain @⟨word, _, _, _, _, _, hword, -, -, -⟩ := h
      exact ⟨word, _, rfl, by simp [programGoesOn, hword], by simp [StartsAnew, hword]⟩
  | assignment h =>
      obtain @⟨token, _, _, _, _, _, _, htoken, -, -, -⟩ := h
      exact ⟨token, _, rfl, by simp [programGoesOn, htoken], by simp [StartsAnew, htoken]⟩
  | conditional h =>
      obtain @⟨_, _, _, _, _, _, hhead, -, -⟩ := h
      obtain @⟨word, _, _, _, _, _, hword, -, -, -⟩ := hhead
      exact ⟨word, _, rfl, by simp [programGoesOn, hword], by simp [StartsAnew, hword]⟩
  | loop h =>
      obtain @⟨word, _, _, _, _, _, hword, -, -, -⟩ := h
      exact ⟨word, _, rfl, by simp [programGoesOn, hword], by simp [StartsAnew, hword]⟩

/-- What a correct program begins with, or the end of input, continues no statement. -/
theorem startsAnew_of_isSequence {statements : List Statement} {token : Token}
    (hsequence : IsSequence (IsDistinctStatement room) tokens statements)
    (htoken : token.lexeme = .endOfInput) : StartsAnew (tokens.headD token).lexeme := by
  cases hsequence with
  | nil => simp [htoken, StartsAnew]
  | cons hfirst _ =>
      obtain ⟨other, behind, rfl, -, hstarts⟩ := exists_startsAnew hfirst.1
      exact hstarts

/-- Turns of a program that read a sequence of statements. -/
theorem attempted_statements {statements : List Statement}
    (hsequence : IsSequence (IsDistinctStatement room) tokens statements)
    (hat : AtStatement room reader) (hreported : reader.reported = false)
    (hahead : reader.ahead = tokens ++ rest)
    (hnext : ∀ s, statements.getLast? = some s →
      EndsBefore s (rest.headD reader.endToken).lexeme) :
    ∃ later, Attempted programGoesOn keptStatement reader (statements.map some) later ∧
      reader.Advances tokens later ∧ AtStatement room later :=
  attempted_of_isSequence EndsBefore repeats_keptStatement
    (fun hat h hahead hnext => accepts_keptStatement h hat.ready hahead hnext)
    (fun h => by
      obtain ⟨token, behind, htokens, hmore, hstarts⟩ := exists_startsAnew h.1
      exact ⟨token, behind, htokens, hmore, fun _ _ _ _ => hstarts⟩)
    hsequence hat hreported hahead hnext

end Rule

/-- Turns behind which nothing is left are the whole program. -/
theorem Reader.program_of_attempted {room : Nat} {reader later : Reader}
    {outcomes : List (Option Statement)} (hat : Rule.AtStatement room reader)
    (hattempted : Rule.Attempted Rule.programGoesOn Rule.keptStatement reader outcomes later)
    (hlater : Rule.AtStatement room later) (hahead : later.ahead = []) :
    reader.program = (⟨outcomes.filterMap id⟩, later) := by
  have hend := hlater.ready.proper.current_lexeme_eq_endOfInput_iff.mpr hahead
  obtain ⟨others, last, hattempts, hresult, -⟩ := program_apply hat
  obtain ⟨rfl, rfl⟩ :=
    (hattempted.attempts (by simp [Rule.programGoesOn, hend])).unique hattempts
  exact hresult

/-- What the grammar derives, a reader accepts, and the program is the one that is derived. -/
theorem Reader.program_of_isProgram {room : Nat} {reader : Reader} {p : Program}
    (hat : Rule.AtStatement room reader) (hreported : reader.reported = false)
    (hprogram : IsProgram room reader.ahead p) (hdistinct : p.DistinctNames) :
    reader.program.1 = p ∧ reader.Advances reader.ahead reader.program.2 := by
  have hsequence := Rule.isSequence_isDistinctStatement_iff.mpr ⟨hprogram, hdistinct⟩
  have hend := hat.ready.proper.endToken_lexeme
  have hahead : reader.ahead = reader.ahead ++ [] := by simp
  obtain ⟨later, hattempted, hadvances, hlater⟩ :=
    Rule.attempted_statements hsequence hat hreported hahead
      (by simp [hend, Rule.EndsBefore, Rule.StartsAnew])
  rw [program_of_attempted hat hattempted hlater (hadvances.ahead_later hahead)]
  exact ⟨by simp, hadvances⟩

end LoopLang
