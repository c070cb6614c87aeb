import LoopLang.Proofs.Lexing.Lines
import LoopLang.Proofs.Outcome.StrayCharacters
import LoopLang.Proofs.Simulation.Statements

/-!
# Readers further down

A reader does not care where its tokens stand, nor what was reported before it.  Let one reader see
the tokens of another one some bytes and lines further down, in front of diagnostics of its own
(`Reader.Below`).  Every step keeps the two in step, and they never part: their limit is the same.
So they read the same program and report the same diagnostics, further down
(`Reader.Below.program`).
-/

namespace LoopLang

/-! ## Moving down -/

/-- The opening so many lines further down. -/
def Opening.down (lines : Nat) (opening : Opening) : Opening :=
  ⟨opening.construct, opening.location.down lines⟩

/-- The span so many bytes further down. -/
def Span.down (bytes : Nat) (span : Span) : Span := ⟨span.start + bytes, span.stop + bytes⟩

/-- The cause, if it names a place, for a place so many lines further down. -/
def Cause.down (lines : Nat) : Cause → Cause
  | unterminated construct openedAt expected =>
    unterminated construct (openedAt.down lines) expected
  | cause => cause

/-- The diagnostic so many bytes and lines further down. -/
def Diagnostic.down (bytes lines : Nat) (d : Diagnostic) : Diagnostic :=
  ⟨d.cause.down lines, d.location.down lines, d.span.down bytes⟩

private theorem Token.span_down (bytes lines : Nat) (token : Token) :
    (token.down bytes lines).span = token.span.down bytes := by
  simp only [span, down, Span.down, Nat.add_right_comm]

private theorem Token.strayReport?_down (bytes lines : Nat) (token : Token) :
    (token.down bytes lines).strayReport? =
      token.strayReport?.map (Diagnostic.down bytes lines) := by
  unfold strayReport?
  rw [span_down]
  cases hlexeme : token.lexeme <;> simp [down, Diagnostic.down, Cause.down, hlexeme]

/-- Nothing is moved by no bytes and no lines. -/
@[simp] theorem Location.down_zero : Location.down 0 = id := rfl

@[simp] theorem Token.down_zero : Token.down 0 0 = id := rfl

@[simp] theorem Opening.down_zero : Opening.down 0 = id := rfl

@[simp] theorem Diagnostic.down_zero : Diagnostic.down 0 0 = id := by
  funext d
  rcases d with ⟨cause, location, span⟩
  cases cause <;> rfl

/-! ## Readers in step -/

namespace Reader

variable {bytes lines : Nat} {before : List Diagnostic} {x y x' y' : Reader}

/-- The second reader stands where the first one does in the same text so many bytes and lines
further down, and has reported other things before. -/
structure Below (bytes lines : Nat) (before : List Diagnostic) (x y : Reader) : Prop where
  proper : x.Proper
  ahead_eq : y.ahead = x.ahead.map (Token.down bytes lines)
  endToken_eq : y.endToken = x.endToken.down bytes lines
  reported_eq : y.reported = x.reported
  enclosing_eq : y.enclosing = x.enclosing.map (Opening.down lines)
  depth_eq : y.depth = x.depth
  limit_eq : y.limit = x.limit
  diagnostics_eq : y.diagnostics = before ++ x.diagnostics.map (Diagnostic.down bytes lines)

namespace Below

private theorem current_eq (hbelow : Below bytes lines before x y) :
    y.current = x.current.down bytes lines := by
  rw [current, current, hbelow.ahead_eq, hbelow.endToken_eq]
  cases x.ahead <;> rfl

private theorem proper_second (hbelow : Below bytes lines before x y) : y.Proper := by
  refine ⟨?_, ?_⟩
  · rw [hbelow.endToken_eq]
    exact hbelow.proper.endToken_lexeme
  · rw [hbelow.ahead_eq]
    intro token hmem
    obtain ⟨other, hother, rfl⟩ := List.mem_map.mp hmem
    exact hbelow.proper.ne_endOfInput other hother

/-- A step that leaves the tokens alone keeps the readers in step. -/
private theorem of_eq (hbelow : Below bytes lines before x y)
    (hfirst : x'.ahead = x.ahead ∧ x'.endToken = x.endToken ∧ x'.limit = x.limit)
    (hsecond : y'.ahead = y.ahead ∧ y'.endToken = y.endToken ∧ y'.limit = y.limit)
    (hreported : y'.reported = x'.reported)
    (henclosing : y'.enclosing = x'.enclosing.map (Opening.down lines))
    (hdepth : y'.depth = x'.depth)
    (hdiagnostics : y'.diagnostics = before ++ x'.diagnostics.map (Diagnostic.down bytes lines)) :
    Below bytes lines before x' y' := by
  obtain ⟨hahead, hend, hlimit⟩ := hfirst
  obtain ⟨hahead', hend', hlimit'⟩ := hsecond
  refine ⟨hbelow.proper.of_eq hahead hend, ?_, ?_, hreported, henclosing, hdepth, ?_,
    hdiagnostics⟩
  · rw [hahead', hbelow.ahead_eq, hahead]
  · rw [hend', hbelow.endToken_eq, hend]
  · rw [hlimit', hbelow.limit_eq, hlimit]

private theorem advance (hbelow : Below bytes lines before x y) :
    Below bytes lines before x.advance y.advance := by
  cases hahead : x.ahead with
  | nil =>
      have hother : y.ahead = [] := by rw [hbelow.ahead_eq, hahead, List.map_nil]
      rwa [x.advance_of_ahead_eq_nil hahead, y.advance_of_ahead_eq_nil hother]
  | cons token behind =>
      have hother : y.ahead = token.down bytes lines :: behind.map (Token.down bytes lines) := by
        rw [hbelow.ahead_eq, hahead, List.map_cons]
      refine ⟨hbelow.proper.steps steps_advance, ?_, ?_, ?_, ?_, ?_, ?_, ?_⟩
      · rw [ahead_advance, ahead_advance, hahead, hother, List.tail_cons, List.tail_cons]
      · rw [endToken_advance, endToken_advance, hbelow.endToken_eq]
      · rw [x.reported_advance (by simp [hahead]), y.reported_advance (by simp [hother])]
      · rw [enclosing_advance, enclosing_advance, hbelow.enclosing_eq]
      · rw [depth_advance, depth_advance, hbelow.depth_eq]
      · rw [limit_advance, limit_advance, hbelow.limit_eq]
      · rw [diagnostics_advance_eq hahead, diagnostics_advance_eq hother, hbelow.diagnostics_eq,
          hbelow.reported_eq, Token.strayReport?_down]
        cases x.reported <;> cases token.strayReport? <;> simp

/-- A complaint at a place further down is the same complaint. -/
private theorem complaint_eq (hbelow : Below bytes lines before x y) (wanted : Wanted) :
    y.complaint wanted = (x.complaint wanted).down lines := by
  rw [complaint, complaint, hbelow.current_eq, hbelow.enclosing_eq]
  obtain ⟨lexeme, offset, location⟩ := x.current
  cases lexeme <;> cases x.enclosing <;> rfl

private theorem complain (hbelow : Below bytes lines before x y) (wanted : Wanted) :
    Below bytes lines before (x.complain wanted) (y.complain wanted) := by
  refine hbelow.of_eq (by simp) (by simp) (by simp) (by simp [hbelow.enclosing_eq])
    (by simp [hbelow.depth_eq]) ?_
  rw [diagnostics_complain, diagnostics_complain, hbelow.reported_eq, hbelow.complaint_eq,
    hbelow.diagnostics_eq, hbelow.current_eq, Token.span_down]
  split
  · rfl
  · rw [List.map_append, ← List.append_assoc]
    rfl

private theorem refuseName (hbelow : Below bytes lines before x y) (name : String) :
    Below bytes lines before (x.refuseName name) (y.refuseName name) := by
  refine hbelow.of_eq ⟨rfl, rfl, rfl⟩ ⟨rfl, rfl, rfl⟩ rfl hbelow.enclosing_eq hbelow.depth_eq ?_
  rw [diagnostics_refuseName, diagnostics_refuseName, hbelow.diagnostics_eq, hbelow.current_eq,
    Token.span_down, List.map_append, ← List.append_assoc]
  rfl

private theorem refuseParen (hbelow : Below bytes lines before x y) :
    Below bytes lines before x.refuseParen y.refuseParen := by
  have hpassed := hbelow.advance
  refine hpassed.of_eq ⟨rfl, rfl, rfl⟩ ⟨rfl, rfl, rfl⟩ hpassed.reported_eq hpassed.enclosing_eq
    hpassed.depth_eq ?_
  rw [Reader.refuseParen, diagnostics_report, Reader.refuseParen, diagnostics_report,
    hpassed.diagnostics_eq, hbelow.current_eq, hbelow.limit_eq, Token.span_down, List.map_append,
    ← List.append_assoc]
  rfl

private theorem enter (hbelow : Below bytes lines before x y) (construct : Construct)
    {l l' : Location} (hlocation : l.down lines = l') :
    Below bytes lines before ((x.descendInto construct).enter ⟨construct, l⟩)
      ((y.descendInto construct).enter ⟨construct, l'⟩) := by
  refine hbelow.of_eq (by simp) (by simp) (by simp [hbelow.reported_eq]) ?_
    (by simp [depth_descendInto, hbelow.depth_eq]) (by simp [hbelow.diagnostics_eq])
  rw [enclosing_enter, enclosing_enter, enclosing_descendInto, enclosing_descendInto,
    hbelow.enclosing_eq, ← hlocation]
  rfl

private theorem leave (hbelow : Below bytes lines before x y) (construct : Construct) :
    Below bytes lines before (x.leaveFrom construct) (y.leaveFrom construct) := by
  refine hbelow.of_eq (by simp) (by simp) (by simp [hbelow.reported_eq]) ?_
    (by simp [hbelow.depth_eq]) (by simp [hbelow.diagnostics_eq])
  rw [enclosing_leaveFrom, enclosing_leaveFrom, hbelow.enclosing_eq, List.map_tail]

/-- Other events than reports keep the readers in step. -/
private theorem record (hbelow : Below bytes lines before x y) {event other : Event}
    (hevent : event.diagnostic? = none) (hother : other.diagnostic? = none) :
    Below bytes lines before (x.record event) (y.record other) := by
  refine hbelow.of_eq ⟨rfl, rfl, rfl⟩ ⟨rfl, rfl, rfl⟩ hbelow.reported_eq hbelow.enclosing_eq
    hbelow.depth_eq ?_
  simp [hevent, hother, hbelow.diagnostics_eq]

end Below

end Reader

open Reader

/-- Two runs on the same text, of which the second is so many bytes and lines further down. -/
def Simulation.below (bytes lines : Nat) (before : List Diagnostic) : Simulation where
  first := Location.down lines
  second := id
  InStep := Below bytes lines before
  Parted := fun _ _ => False
  Rooms := Eq
  proper := fun hbelow => ⟨hbelow.proper, hbelow.proper_second⟩
  lexeme_eq := fun hbelow => (congrArg Token.lexeme hbelow.current_eq).symm
  location_eq := fun hbelow => (congrArg Token.location hbelow.current_eq).symm
  rooms_left := fun hbelow => by rw [hbelow.limit_eq, hbelow.depth_eq]
  rooms_pred := Nat.succ.inj
  near_advance := fun hbelow _ => Or.inl hbelow.advance
  inStep_complain := Below.complain
  inStep_refuseName := fun hbelow name _ => hbelow.refuseName name
  near_refuseParen := fun hbelow _ _ => Or.inl hbelow.refuseParen
  parted_refuseParen_first := fun _ _ _ hrooms => absurd hrooms (by simp)
  parted_refuseParen_second := fun _ _ _ hrooms => absurd hrooms (by simp)
  inStep_enter := fun hbelow construct _ _ hlocation => hbelow.enter construct hlocation
  inStep_leave := Below.leave
  inStep_recovered := fun hbelow _ _ => hbelow.record rfl rfl
  inStep_kept := fun hbelow _ _ _ => hbelow.record rfl rfl
  parted_frames := fun hparted _ _ => hparted

/-- The program further down is the same program, and so is what is reported about it. -/
theorem Reader.Below.program {bytes lines : Nat} {before : List Diagnostic} {x y : Reader}
    (hbelow : Below bytes lines before x y) :
    y.program.1.statements =
        x.program.1.statements.map (Statement.relocate (Location.down lines)) ∧
      Below bytes lines before x.program.2 y.program.2 := by
  have hstep : (Simulation.below bytes lines before).InStep x y := hbelow
  rcases Simulation.program_meets hstep with ⟨hsame, hlast⟩ | hparted
  · have hprogram : x.program.1.relocate (Location.down lines) = y.program.1.relocate id := hsame
    rw [Program.relocate_id] at hprogram
    exact ⟨(congrArg Program.statements hprogram).symm, hlast⟩
  · exact hparted.elim

end LoopLang
