import LoopLang.Proofs.Outcome.Run
import LoopLang.Proofs.Reading.Nearsight
import LoopLang.Proofs.Simulation.Statements

/-!
# More room for parentheses

The limit of a reader shows only where a parenthesis is refused.  Take two readers that differ in
nothing but their limits, the second of which is no smaller (`Reader.Roomier`).  Every step keeps
them so until the first one refuses a parenthesis, and from then on they have parted
(`Reader.OutOfRoom`).  So a larger limit changes nothing about the parse of a text that stays within
the smaller one, and otherwise the two parses agree on what is reported before the first parenthesis
that is too deep (`parse_more_room`).
-/

namespace LoopLang

/-- Whether a diagnostic is about parentheses that nest too deep. -/
def Diagnostic.IsTooDeep (d : Diagnostic) : Prop := ∃ limit, d.cause = .tooDeep limit

namespace Reader

variable {reader x y x' y' : Reader} {limit : Nat}

/-- The reader with another limit. -/
def withLimit (limit : Nat) (reader : Reader) : Reader := { reader with limit := limit }

/-! ## Steps that do not ask for the limit -/

private theorem Nearsighted.withLimit {f : Reader → Reader} (hf : Nearsighted f) (reader : Reader)
    (limit : Nat) : f (reader.withLimit limit) = (f reader).withLimit limit := by
  calc f (reader.withLimit limit)
      = (f reader).seeing reader.ahead reader.endToken limit := hf reader _ _ limit rfl
    _ = (f reader).withLimit limit := by rw [seeing, ← hf.ahead_eq, ← hf.endToken_eq]; rfl

private theorem advance_withLimit :
    (reader.withLimit limit).advance = reader.advance.withLimit limit := by
  unfold advance
  rw [nearsighted_reportStray.withLimit]
  cases hahead : reader.ahead <;> simp [withLimit, hahead]

/-! ## Readers that have room -/

/-- What holds of all reports so far, and of new ones. -/
theorem forall_mem_diagnostics_append {P : Diagnostic → Prop} (hold : ∀ d ∈ x.diagnostics, P d)
    {new : List Diagnostic} (hdiagnostics : x'.diagnostics = x.diagnostics ++ new)
    (hnew : ∀ d ∈ new, P d) : ∀ d ∈ x'.diagnostics, P d := by
  rw [hdiagnostics, List.forall_mem_append]
  exact ⟨hold, hnew⟩

/-- No parenthesis was refused so far. -/
def HasRoom (reader : Reader) : Prop := ∀ d ∈ reader.diagnostics, ¬ d.IsTooDeep

private theorem HasRoom.append (hroom : x.HasRoom) {new : List Diagnostic}
    (hdiagnostics : x'.diagnostics = x.diagnostics ++ new) (hnew : ∀ d ∈ new, ¬ d.IsTooDeep) :
    x'.HasRoom :=
  forall_mem_diagnostics_append hroom hdiagnostics hnew

private theorem HasRoom.of_eq (hroom : x.HasRoom) (hdiagnostics : x'.diagnostics = x.diagnostics) :
    x'.HasRoom := by
  rwa [HasRoom, hdiagnostics]

private theorem HasRoom.advance (hroom : x.HasRoom) : x.advance.HasRoom := by
  rcases x.diagnostics_advance with h | ⟨found, -, -, -, h⟩
  · exact hroom.of_eq h
  · exact hroom.append h (by simp [Diagnostic.IsTooDeep])

/-- Whatever is wanted, a complaint is not about parentheses that nest too deep. -/
theorem complaint_ne_tooDeep (reader : Reader) (wanted : Wanted) (limit : Nat) :
    reader.complaint wanted ≠ .tooDeep limit := by
  unfold complaint
  cases reader.current.lexeme with
  | endOfInput => cases reader.enclosing <;> exact nofun
  | _ => exact nofun

private theorem HasRoom.complain (hroom : x.HasRoom) (wanted : Wanted) :
    (x.complain wanted).HasRoom := by
  have hdiagnostics := x.diagnostics_complain wanted
  by_cases hreported : x.reported = true
  · rw [if_pos hreported] at hdiagnostics
    exact hroom.of_eq hdiagnostics
  · rw [if_neg hreported] at hdiagnostics
    exact hroom.append hdiagnostics
      (by simpa [Diagnostic.IsTooDeep] using x.complaint_ne_tooDeep wanted)

/-! ## Readers with more room -/

/-- The second reader is the first one with more room, which the first one has not missed so far. -/
structure Roomier (x y : Reader) : Prop where
  proper : x.Proper
  hasRoom : x.HasRoom
  limit_le : x.limit ≤ y.limit
  eq_withLimit : y = x.withLimit y.limit

/-- The first of two readers refused a parenthesis, and what it reported before that, the second one
reported too. -/
def OutOfRoom (x y : Reader) : Prop :=
  ∃ before d after, x.diagnostics = before ++ d :: after ∧ d.cause = .tooDeep x.limit ∧
    (∀ earlier ∈ before, ¬ earlier.IsTooDeep) ∧ before <+: y.diagnostics

namespace Roomier

private theorem current_eq (hroomier : Roomier x y) : y.current = x.current := by
  rw [hroomier.eq_withLimit]
  rfl

private theorem diagnostics_eq (hroomier : Roomier x y) : y.diagnostics = x.diagnostics := by
  rw [hroomier.eq_withLimit]
  rfl

private theorem room_le (hroomier : Roomier x y) : x.limit - x.depth ≤ y.limit - y.depth := by
  have hdepth : y.depth = x.depth := by
    rw [hroomier.eq_withLimit]
    rfl
  rw [hdepth]
  exact Nat.sub_le_sub_right hroomier.limit_le x.depth

private theorem proper_second (hroomier : Roomier x y) : y.Proper := by
  rw [hroomier.eq_withLimit]
  exact ⟨hroomier.proper.endToken_lexeme, hroomier.proper.ne_endOfInput⟩

/-- A step that commutes with changing the limit keeps the readers in step. -/
private theorem step_of_commutes (hroomier : Roomier x y) {f : Reader → Reader}
    (hcommutes : ∀ limit, f (x.withLimit limit) = (f x).withLimit limit)
    (hframe : Frame x (f x)) (hroom : (f x).HasRoom) : Roomier (f x) (f y) := by
  -- The step changes neither limit, so the one of `y` is still what tells `f y` from `f x`.
  have heq : f y = (f x).withLimit y.limit := by
    rw [← hcommutes, ← hroomier.eq_withLimit]
  have hlimit : (f y).limit = y.limit := by
    rw [heq]
    rfl
  refine ⟨hroomier.proper.of_frame hframe, hroom, ?_, ?_⟩
  · rw [hframe.limit_eq, hlimit]
    exact hroomier.limit_le
  · rw [hlimit]
    exact heq

theorem step (hroomier : Roomier x y) {f : Reader → Reader} (hf : Nearsighted f)
    (hframe : Frame x (f x)) (hroom : (f x).HasRoom) : Roomier (f x) (f y) :=
  hroomier.step_of_commutes (hf.withLimit x) hframe hroom

private theorem advance (hroomier : Roomier x y) : Roomier x.advance y.advance :=
  hroomier.step_of_commutes (fun _ => advance_withLimit) frame_advance hroomier.hasRoom.advance

/-- Other events than reports keep the readers in step. -/
private theorem record (hroomier : Roomier x y) {event : Event} (hconcerns : event.Concerns x.sight)
    (hevent : event.diagnostic? = none) : Roomier (x.record event) (y.record event) := by
  refine hroomier.step (nearsighted_record event) (frame_record hconcerns)
    (hroomier.hasRoom.of_eq ?_)
  rw [diagnostics_record, hevent]
  simp

/-- Where the first reader refuses a parenthesis, the two part, whatever the second one does. -/
private theorem refuseParen (hroomier : Roomier x y)
    (hlater : y.advance.diagnostics <+: y'.diagnostics) :
    OutOfRoom x.refuseParen y' := by
  have hpassed := hroomier.advance
  refine ⟨x.advance.diagnostics, _, [], diagnostics_report _ _ _, ?_, hpassed.hasRoom, ?_⟩
  · rw [Reader.refuseParen, report, limit_record, limit_advance]
  · rwa [← hpassed.diagnostics_eq]

end Roomier

private theorem OutOfRoom.frames (hparted : OutOfRoom x y) (hfirst : Frame x x')
    (hsecond : Frame y y') :
    OutOfRoom x' y' := by
  obtain ⟨before, d, after, hdiagnostics, hcause, hbefore, hprefix⟩ := hparted
  obtain ⟨new, hnew⟩ := hfirst.diagnostics_prefix
  refine ⟨before, d, after ++ new, ?_, ?_, hbefore, hprefix.trans hsecond.diagnostics_prefix⟩
  · rw [← hnew, hdiagnostics, List.append_assoc, List.cons_append]
  · rw [hfirst.limit_eq, hcause]

end Reader

/-! ## Runs with more room -/

open Reader

/-- Two runs on the same tokens, the second of which has at least as much room for parentheses. -/
def Simulation.roomier : Simulation where
  first := id
  second := id
  InStep := Roomier
  Parted := OutOfRoom
  Rooms := fun m n => m ≤ n
  proper := fun hroomier => ⟨hroomier.proper, hroomier.proper_second⟩
  lexeme_eq := fun hroomier => congrArg Token.lexeme hroomier.current_eq.symm
  location_eq := fun hroomier => congrArg Token.location hroomier.current_eq.symm
  rooms_left := Roomier.room_le
  rooms_pred := Nat.le_of_succ_le_succ
  near_advance := fun hroomier _ => Or.inl hroomier.advance
  inStep_complain := fun hroomier wanted =>
    hroomier.step (nearsighted_complain wanted) (frame_complain wanted)
      (hroomier.hasRoom.complain wanted)
  inStep_refuseName := fun hroomier name _ =>
    hroomier.step (nearsighted_refuseName name) (frame_refuseName name)
      (hroomier.hasRoom.append (diagnostics_refuseName _ name) (by simp [Diagnostic.IsTooDeep]))
  near_refuseParen := fun hroomier _ _ =>
    Or.inr (hroomier.refuseParen (by simp [Reader.refuseParen]))
  parted_refuseParen_first := fun hroomier _ _ _ =>
    hroomier.refuseParen (by simp [advanceInto])
  parted_refuseParen_second := fun _ _ _ hrooms => absurd hrooms (by simp)
  inStep_enter := by
    rintro x y hroomier construct l _ rfl
    exact hroomier.step (nearsighted_enter construct l)
      ((frame_descendInto _).trans (frame_enter _)) (hroomier.hasRoom.of_eq (by simp))
  inStep_leave := fun hroomier construct =>
    hroomier.step (nearsighted_leaveFrom construct) (frame_leaveFrom _)
      (hroomier.hasRoom.of_eq (diagnostics_leaveFrom _ _))
  inStep_recovered := fun hroomier _ _ => hroomier.record trivial rfl
  inStep_kept := by
    intro x y hroomier s s' hsame
    rw [Statement.relocate_id] at hsame
    obtain rfl : s = s' := hsame
    exact hroomier.record trivial rfl
  parted_frames := OutOfRoom.frames

/-- With a larger limit a text that stays within the smaller one is parsed in the same way, and of
any other text the same is reported before the first parenthesis that is too deep for the smaller
one. -/
theorem parse_more_room (source : String) {limit more : Nat} (hle : limit ≤ more) :
    ((∀ d ∈ (parse source limit).diagnostics, ¬ d.IsTooDeep) ∧
        parse source more = parse source limit) ∨
      ∃ before d after, (parse source limit).diagnostics = before ++ d :: after ∧
        d.cause = .tooDeep limit ∧ (∀ earlier ∈ before, ¬ earlier.IsTooDeep) ∧
        before <+: (parse source more).diagnostics := by
  have hstart : Roomier (start source limit) (start source more) :=
    ⟨(atStatement_start source limit).ready.proper, by simp [HasRoom], hle, rfl⟩
  have hstep : Simulation.roomier.InStep (start source limit) (start source more) := hstart
  have hlimit : (final source limit).limit = limit := (steps_start source limit).frame.limit_eq
  rcases Simulation.program_meets hstep with ⟨hsame, hlast⟩ | hparted
  · -- The runs never part, so they end with the same program and the same diagnostics.
    have hprogram : (start source limit).program.1.relocate id =
        (start source more).program.1.relocate id := hsame
    rw [Program.relocate_id, Program.relocate_id, ← parse_program_eq, ← parse_program_eq]
      at hprogram
    have hroomier : Roomier (final source limit) (final source more) := hlast
    have hdiagnostics := hroomier.diagnostics_eq
    rw [← parse_diagnostics_eq, ← parse_diagnostics_eq] at hdiagnostics
    refine Or.inl ⟨hroomier.hasRoom, ?_⟩
    calc
      parse source more = ⟨(parse source more).program, (parse source more).diagnostics⟩ := rfl
      _ = ⟨(parse source limit).program, (parse source limit).diagnostics⟩ := by
        rw [hprogram, hdiagnostics]
  · obtain ⟨before, d, after, hdiagnostics, hcause, hrest⟩ :
        OutOfRoom (final source limit) (final source more) := hparted
    rw [hlimit] at hcause
    right
    rw [parse_diagnostics_eq, parse_diagnostics_eq]
    exact ⟨before, d, after, hdiagnostics, hcause, hrest⟩

end LoopLang
