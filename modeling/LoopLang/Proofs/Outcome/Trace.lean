import LoopLang.Proofs.Outcome.Run
import LoopLang.Proofs.Reading.Invariants

/-!
# The trace of a parse

A parse passes every token once, in order, and stops at the end of input.  Its trace shows this: it
names each token behind the first one when that token becomes current, and all diagnostics as they
are reported (`trace_once`).  What carries this through a run is `Reader.course`: the tokens that
have become current so far, followed by those that are still to become current.  A step moves a
token from the second part to the first when it passes the token in front of it, and changes nothing
else of the list.

The trace does not show which statements were kept, but the log does, and they are the program
(`parse_statements_eq`): no rule for a statement keeps one by itself (`Invariant.keeping`), so each
turn of the program adds the one it has read.
-/

namespace LoopLang

/-! ## What a trace tells of -/

/-- The token that became current, if an event is about one. -/
def Event.token? : Event → Option Token
  | reached token => some token
  | _ => none

/-- The statement that was kept, if an event is about one. -/
def Event.kept? : Event → Option Statement
  | kept statement => some statement
  | _ => none

/-- Whether an event neither passes a token nor keeps a statement. -/
def Event.IsAside : Event → Prop
  | reached _ | kept _ => False
  | _ => True

private theorem Event.token?_of_isAside (event : Event) (haside : event.IsAside) :
    event.token? = none := by
  cases event with
  | reached token => exact haside.elim
  | _ => rfl

private theorem Event.kept?_of_isAside (event : Event) (haside : event.IsAside) :
    event.kept? = none := by
  cases event with
  | kept statement => exact haside.elim
  | _ => rfl

namespace TraceEntry

/-- The token that an entry says has become current, if it does. -/
def token? : TraceEntry → Option Token
  | token t => some t
  | _ => none

/-- The diagnostic that an entry tells of, if it does. -/
def diagnostic? : TraceEntry → Option Diagnostic
  | diagnostic d => some d
  | _ => none

private theorem token?_ofEvent? (event : Event) : (ofEvent? event).bind token? = event.token? := by
  cases event <;> rfl

private theorem diagnostic?_ofEvent? (event : Event) :
    (ofEvent? event).bind diagnostic? = event.diagnostic? := by
  cases event <;> rfl

end TraceEntry

/-! ## What the log tells of -/

namespace Reader

section Told

variable {α : Type} {f : Event → Option α} (reader : Reader)

/-- What `f` finds in the events of a reader, in order. -/
def told (f : Event → Option α) (reader : Reader) : List α := reader.events.filterMap f

private theorem told_record (event : Event) :
    (reader.record event).told f = reader.told f ++ (f event).toList := by
  cases hevent : f event <;> simp [told, hevent]

private theorem told_record_of_eq_none {event : Event} (hevent : f event = none) :
    (reader.record event).told f = reader.told f := by
  rw [told_record, hevent]
  exact List.append_nil _

variable (hf : ∀ event : Event, event.IsAside → f event = none)

include hf

private theorem told_reportStray : reader.reportStray.told f = reader.told f := by
  rcases reader.reportStray_eq with hsame | ⟨found, -, -, hreport⟩
  · rw [hsame]
  · rw [hreport]
    exact told_record_of_eq_none reader (hf _ trivial)

/-- Passing a token tells of the next one, if of anything. -/
private theorem told_advance {token : Token} {behind : List Token}
    (hahead : reader.ahead = token :: behind) :
    reader.advance.told f =
      reader.told f ++ (f (.reached (behind.headD reader.endToken))).toList := by
  have hadvance : reader.advance.events =
      (reader.reportStray.record (.reached (behind.headD reader.endToken))).events := by
    rw [reader.events_advance hahead, events_record]
  rw [← reader.told_reportStray hf, ← told_record, told, hadvance, told]

private theorem told_complain (wanted : Wanted) :
    (reader.complain wanted).told f = reader.told f := by
  unfold complain
  split
  · rfl
  · exact told_record_of_eq_none reader (hf _ trivial)

private theorem told_enter (opening : Opening) : (reader.enter opening).told f = reader.told f :=
  told_record_of_eq_none reader (hf _ trivial)

private theorem told_descendInto (construct : Construct) :
    (reader.descendInto construct).told f = reader.told f := by
  cases construct with
  | parenthesized => exact told_record_of_eq_none reader (hf _ trivial)
  | _ => rfl

private theorem told_leaveFrom (construct : Construct) :
    (reader.leaveFrom construct).told f = reader.told f := by
  have hleave : reader.leave.told f = reader.told f := by
    unfold leave
    split
    · rfl
    · exact told_record_of_eq_none reader (hf _ trivial)
  cases construct with
  | parenthesized =>
      exact (told_record_of_eq_none reader.leave (hf .ascended trivial)).trans hleave
  | _ => exact hleave

end Told

/-! ## What a step does to the course -/

variable {reader later : Reader}

/-- The tokens that have become current, in order. -/
def reached (reader : Reader) : List Token := reader.told Event.token?

/-- The tokens that have become current, and those that are still to become current. -/
def course (reader : Reader) : List Token := reader.reached ++ reader.sight.tail

/-- A step that passes nothing, and tells of no token, leaves the course as it is. -/
private theorem course_congr (hahead : later.ahead = reader.ahead)
    (hend : later.endToken = reader.endToken) (hreached : later.reached = reader.reached) :
    later.course = reader.course := by
  rw [course, course, sight, sight, hahead, hend, hreached]

private theorem course_advance : reader.advance.course = reader.course := by
  cases hahead : reader.ahead with
  | nil => rw [reader.advance_of_ahead_eq_nil hahead]
  | cons token behind =>
      have hreached : reader.advance.reached =
          reader.reached ++ [behind.headD reader.endToken] :=
        reader.told_advance Event.token?_of_isAside hahead
      -- The token that becomes current is the first one behind, or else the end of input.
      rw [course, course, hreached, sight, sight, ahead_advance, endToken_advance, hahead]
      cases behind <;> simp

/-- One step keeps the course. -/
private theorem course_step (hstep : Step reader later) : later.course = reader.course := by
  have haside := Event.token?_of_isAside
  cases hstep with
  | advance => exact course_advance
  | complain wanted =>
      exact course_congr (ahead_complain _ _) (endToken_complain _ _)
        (told_complain _ haside wanted)
  | refuseName => exact course_congr rfl rfl (told_record_of_eq_none _ rfl)
  | refuseParen =>
      rw [← @course_advance reader]
      exact course_congr rfl rfl (told_record_of_eq_none reader.advance rfl)
  | @advanceInto construct =>
      rw [← @course_advance reader]
      exact course_congr (by simp [advanceInto]) (by simp [advanceInto])
        ((told_enter _ haside _).trans (told_descendInto _ haside construct))
  | leave =>
      exact course_congr (ahead_leaveFrom _ _) (endToken_leaveFrom _ _)
        (told_leaveFrom _ haside _)
  | recovered => exact course_congr rfl rfl (told_record_of_eq_none _ rfl)
  | kept => exact course_congr rfl rfl (told_record_of_eq_none _ rfl)

/-- A whole run keeps it. -/
private theorem course_steps (hsteps : Steps reader later) : later.course = reader.course := by
  induction hsteps with
  | refl => rfl
  | tail _ hstep ih => rw [course_step hstep, ih]

/-! ## The end of a run -/

/-- The tokens that become current are those of the text behind the first one. -/
theorem reached_final (source : String) (limit : Nat) :
    (final source limit).reached = (Cursor.start source).tokenize.tail := by
  have hcourse := course_steps (steps_start source limit)
  have hstart : (start source limit).course = (Cursor.start source).tokenize.tail := rfl
  have hend : (final source limit).course = (final source limit).reached := by
    rw [course, sight, ahead_final]
    exact List.append_nil _
  rw [← hend, hcourse, hstart]

/-- At the end of input there is no program left, and nothing is done to find one. -/
theorem program_of_ahead_eq_nil (hahead : reader.ahead = []) : reader.program = (⟨[]⟩, reader) := by
  have hloop : Rule.attemptWhile (fun lexeme => decide (lexeme ≠ .endOfInput)) Rule.keptStatement
      reader = (some [], reader) := by
    rw [Rule.attemptWhile, Rule.bind_apply, Rule.repeatWhile, hahead]
    rfl
  rw [Reader.program, Rule.program, Rule.bind_apply, hloop]
  rfl

end Reader

/-! ## The statements of a program -/

private theorem Reader.told_kept_advance (reader : Reader) :
    reader.advance.told Event.kept? = reader.told Event.kept? := by
  cases hahead : reader.ahead with
  | nil => rw [reader.advance_of_ahead_eq_nil hahead]
  | cons token behind =>
      rw [reader.told_advance Event.kept?_of_isAside hahead]
      exact List.append_nil _

/-- Nothing is kept while a rule for statements goes on. -/
def Invariant.keeping (tokens : List Token) (limit : Nat) (statements : List Statement) :
    Invariant tokens limit where
  Holds := fun reader => reader.told Event.kept? = statements
  advance h := (Reader.told_kept_advance _).trans h
  complain h wanted := (Reader.told_complain _ Event.kept?_of_isAside wanted).trans h
  refuseName h _ := (Reader.told_record_of_eq_none _ rfl).trans h
  refuseParen {reader} h _ _ _ _ :=
    ((reader.advance.told_record_of_eq_none rfl).trans reader.told_kept_advance).trans h
  enter h opening := ((Reader.told_enter _ Event.kept?_of_isAside opening).trans
    (Reader.told_descendInto _ Event.kept?_of_isAside _)).trans h
  leave h construct := (Reader.told_leaveFrom _ Event.kept?_of_isAside construct).trans h
  recovered h _ _ := (Reader.told_record_of_eq_none _ rfl).trans h

/-- Each turn of the program keeps the statement it has read, and nothing else. -/
private theorem Reader.told_kept_of_attempts {tokens : List Token} {limit : Nat}
    {reader later : Reader} {outcomes : List (Option Statement)} {statements : List Statement}
    (hattempts : Rule.Attempts Rule.programGoesOn Rule.keptStatement reader outcomes later)
    (hgauged : (Invariant.keeping tokens limit statements).Gauged 0 reader) :
    later.told Event.kept? = statements ++ outcomes.filterMap id := by
  induction hattempts generalizing statements with
  | stop =>
      rw [List.filterMap_nil, List.append_nil]
      exact hgauged.holds
  | @turn reader later outcomes _ _ ih =>
      have hthere := (Invariant.keeps_statement reader hgauged trivial).1
      -- A turn keeps nothing until its statement has been read, and nothing at all if that fails.
      rcases hresult : Rule.statement reader with ⟨_ | s, there⟩
      · rw [hresult] at hthere
        have hturn : Rule.keptStatement reader = (none, there) := by
          rw [Rule.keptStatement_apply, hresult]
        rw [hturn] at ih ⊢
        exact ih hthere
      · rw [hresult] at hthere
        have hturn : Rule.keptStatement reader = (some s, there.record (.kept s)) := by
          rw [Rule.keptStatement_apply, hresult]
        rw [hturn] at ih ⊢
        have hkept : (there.record (.kept s)).told Event.kept? = statements ++ [s] := by
          rw [told_record, show there.told Event.kept? = statements from hthere.holds]
          rfl
        rw [ih (hthere.step (frame_record trivial) rfl hkept)]
        simp

/-- The program is the statements that were kept, in order. -/
theorem parse_statements_eq (source : String) (limit : Nat) :
    (parse source limit).program.statements =
      (Reader.final source limit).told Event.kept? := by
  have hat := Reader.atStatement_start source limit
  obtain ⟨outcomes, later, hattempts, hresult, -⟩ := Reader.program_apply hat
  have hstart : (Invariant.keeping (Cursor.start source).tokens limit []).Gauged 0
      (Reader.start source limit) := ⟨hat.ready.proper, List.suffix_rfl, rfl, rfl, rfl⟩
  rw [parse_program_eq, Reader.final, hresult, Reader.told_kept_of_attempts hattempts hstart]
  rfl

/-! ## The trace of a whole parse -/

theorem trace_eq (source : String) (limit : Nat) :
    trace source limit =
      .started source.utf8ByteSize ::
          (Reader.final source limit).events.filterMap TraceEntry.ofEvent? ++
        [.finished (parse source limit).program.statements.length
          (parse source limit).diagnostics.length] := rfl

/-- Between its first and its last entry a trace tells of the events of the run. -/
private theorem filterMap_trace {α : Type} {f : TraceEntry → Option α}
    (hstarted : ∀ bytes, f (.started bytes) = none)
    (hfinished : ∀ statements diagnostics, f (.finished statements diagnostics) = none)
    (source : String) (limit : Nat) :
    (trace source limit).filterMap f =
      (Reader.final source limit).events.filterMap fun event =>
        (TraceEntry.ofEvent? event).bind f := by
  rw [trace_eq, List.cons_append, List.filterMap_cons_none (hstarted _), List.filterMap_append,
    List.filterMap_cons_none (hfinished _ _), List.filterMap_nil, List.append_nil,
    List.filterMap_filterMap]

/-- The tokens of a trace are all tokens of the text behind the first one, each once and in order,
with the end of input as the last of them; its diagnostics are those of the parse; and its last
entry says how much of both there is.  Behind the parse the end of input is current, and to read
on from there changes nothing and finds nothing. -/
theorem trace_once (source : String) (limit : Nat) :
    (trace source limit).filterMap TraceEntry.token? = (Cursor.start source).tokenize.tail ∧
    (trace source limit).filterMap TraceEntry.diagnostic? = (parse source limit).diagnostics ∧
    (trace source limit).getLast? =
      some (.finished (parse source limit).program.statements.length
        (parse source limit).diagnostics.length) ∧
    (Reader.final source limit).current = (Cursor.start source).endToken ∧
    (Reader.final source limit).program = (⟨[]⟩, Reader.final source limit) := by
  have hahead := Reader.ahead_final source limit
  refine ⟨?_, ?_, ?_, ?_, Reader.program_of_ahead_eq_nil hahead⟩
  · rw [filterMap_trace (fun _ => rfl) (fun _ _ => rfl), ← Reader.reached_final source limit]
    exact List.filterMap_congr fun event _ => TraceEntry.token?_ofEvent? event
  · rw [filterMap_trace (fun _ => rfl) (fun _ _ => rfl), parse_diagnostics_eq]
    exact List.filterMap_congr fun event _ => TraceEntry.diagnostic?_ofEvent? event
  · rw [trace_eq, List.getLast?_concat]
  · rw [Reader.current_of_ahead_eq_nil _ hahead,
      (Reader.steps_start source limit).frame.endToken_eq]
    rfl

end LoopLang
