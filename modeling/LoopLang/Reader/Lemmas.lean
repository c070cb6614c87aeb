import LoopLang.Reader.Basic

/-!
# What the steps of a reader change

Each step is described by what it does to the tokens ahead, to the constructs around the reader
and to the log.  The end of input and the limit never change.
-/

namespace LoopLang

namespace Reader

variable (reader : Reader)

/-! ## The current token -/

@[simp] theorem current_of_ahead_eq_nil (hahead : reader.ahead = []) :
    reader.current = reader.endToken := by
  simp [current, hahead]

@[simp] theorem current_of_ahead_eq_cons {token : Token} {behind : List Token}
    (hahead : reader.ahead = token :: behind) : reader.current = token := by
  simp [current, hahead]

/-! ## Recording an event -/

@[simp] theorem ahead_record (event : Event) : (reader.record event).ahead = reader.ahead := rfl

@[simp] theorem endToken_record (event : Event) :
    (reader.record event).endToken = reader.endToken := rfl

@[simp] theorem reported_record (event : Event) :
    (reader.record event).reported = reader.reported := rfl

@[simp] theorem enclosing_record (event : Event) :
    (reader.record event).enclosing = reader.enclosing := rfl

@[simp] theorem depth_record (event : Event) : (reader.record event).depth = reader.depth := rfl

@[simp] theorem limit_record (event : Event) : (reader.record event).limit = reader.limit := rfl

@[simp] theorem log_record (event : Event) : (reader.record event).log = event :: reader.log := rfl

@[simp] theorem events_record (event : Event) :
    (reader.record event).events = reader.events ++ [event] := by
  simp [events]

/-! ## Passing tokens -/

/-- A report for a stray character adds to the log, and does nothing else. -/
theorem reportStray_eq :
    reader.reportStray = reader ∨
      ∃ found, reader.current.lexeme = .unknown found ∧ reader.reported = false ∧
        reader.reportStray = reader.report reader.current (.strayCharacter found) := by
  unfold reportStray
  split
  · rename_i found hlexeme hreported
    exact Or.inr ⟨found, hlexeme, hreported, rfl⟩
  · exact Or.inl rfl

@[simp] theorem ahead_advance : reader.advance.ahead = reader.ahead.tail := by
  unfold advance
  split <;> simp [*]

@[simp] theorem endToken_advance : reader.advance.endToken = reader.endToken := by
  unfold advance
  split
  · rfl
  · rcases reader.reportStray_eq with hstray | ⟨_, _, _, hstray⟩ <;>
      simp [hstray, report]

@[simp] theorem enclosing_advance : reader.advance.enclosing = reader.enclosing := by
  unfold advance
  split
  · rfl
  · rcases reader.reportStray_eq with hstray | ⟨_, _, _, hstray⟩ <;>
      simp [hstray, report]

@[simp] theorem depth_advance : reader.advance.depth = reader.depth := by
  unfold advance
  split
  · rfl
  · rcases reader.reportStray_eq with hstray | ⟨_, _, _, hstray⟩ <;>
      simp [hstray, report]

@[simp] theorem limit_advance : reader.advance.limit = reader.limit := by
  unfold advance
  split
  · rfl
  · rcases reader.reportStray_eq with hstray | ⟨_, _, _, hstray⟩ <;>
      simp [hstray, report]

/-- Passing a token adds one event to the log, behind the report of the token if it has one. -/
theorem events_advance {token : Token} {behind : List Token}
    (hahead : reader.ahead = token :: behind) :
    reader.advance.events =
      reader.reportStray.events ++ [.reached (behind.headD reader.endToken)] := by
  have hend : reader.reportStray.endToken = reader.endToken := by
    rcases reader.reportStray_eq with hstray | ⟨_, _, _, hstray⟩ <;>
      simp [hstray, report]
  rw [← hend, advance, hahead]
  simp [events]

theorem reported_advance (hahead : reader.ahead ≠ []) : reader.advance.reported = false := by
  unfold advance
  split
  · contradiction
  · rfl

@[simp] theorem advance_of_ahead_eq_nil (hahead : reader.ahead = []) :
    reader.advance = reader := by
  unfold advance
  rw [hahead]

@[simp] theorem ahead_advanceBy (count : Nat) :
    (reader.advanceBy count).ahead = reader.ahead.drop count := by
  induction count generalizing reader with
  | zero => rfl
  | succ count ih => rw [advanceBy, ih, ahead_advance, List.drop_tail]

@[simp] theorem endToken_advanceBy (count : Nat) :
    (reader.advanceBy count).endToken = reader.endToken := by
  induction count generalizing reader with
  | zero => rfl
  | succ count ih => rw [advanceBy, ih, endToken_advance]

@[simp] theorem enclosing_advanceBy (count : Nat) :
    (reader.advanceBy count).enclosing = reader.enclosing := by
  induction count generalizing reader with
  | zero => rfl
  | succ count ih => rw [advanceBy, ih, enclosing_advance]

/-! ## Complaints -/

@[simp] theorem ahead_complain (wanted : Wanted) :
    (reader.complain wanted).ahead = reader.ahead := by
  unfold complain
  split <;> rfl

@[simp] theorem endToken_complain (wanted : Wanted) :
    (reader.complain wanted).endToken = reader.endToken := by
  unfold complain
  split <;> rfl

@[simp] theorem enclosing_complain (wanted : Wanted) :
    (reader.complain wanted).enclosing = reader.enclosing := by
  unfold complain
  split <;> rfl

@[simp] theorem depth_complain (wanted : Wanted) :
    (reader.complain wanted).depth = reader.depth := by
  unfold complain
  split <;> rfl

@[simp] theorem limit_complain (wanted : Wanted) :
    (reader.complain wanted).limit = reader.limit := by
  unfold complain
  split <;> rfl

@[simp] theorem reported_complain (wanted : Wanted) :
    (reader.complain wanted).reported = true := by
  unfold complain
  split
  · assumption
  · rfl

/-! ## Constructs -/

@[simp] theorem enclosing_enter (opening : Opening) :
    (reader.enter opening).enclosing = opening :: reader.enclosing := rfl

@[simp] theorem ahead_enter (opening : Opening) :
    (reader.enter opening).ahead = reader.ahead := rfl

@[simp] theorem endToken_enter (opening : Opening) :
    (reader.enter opening).endToken = reader.endToken := rfl

@[simp] theorem reported_enter (opening : Opening) :
    (reader.enter opening).reported = reader.reported := rfl

@[simp] theorem depth_enter (opening : Opening) :
    (reader.enter opening).depth = reader.depth := rfl

@[simp] theorem limit_enter (opening : Opening) :
    (reader.enter opening).limit = reader.limit := rfl

@[simp] theorem enclosing_leave : reader.leave.enclosing = reader.enclosing.tail := by
  unfold leave
  split <;> simp [*]

@[simp] theorem ahead_leave : reader.leave.ahead = reader.ahead := by
  unfold leave
  split <;> rfl

@[simp] theorem endToken_leave : reader.leave.endToken = reader.endToken := by
  unfold leave
  split <;> rfl

@[simp] theorem depth_leave : reader.leave.depth = reader.depth := by
  unfold leave
  split <;> rfl

@[simp] theorem limit_leave : reader.leave.limit = reader.limit := by
  unfold leave
  split <;> rfl

@[simp] theorem reported_leave : reader.leave.reported = reader.reported := by
  unfold leave
  split <;> rfl

/-! ## Levels of parentheses -/

variable (construct : Construct)

@[simp] theorem ahead_descendInto : (reader.descendInto construct).ahead = reader.ahead := by
  cases construct <;> rfl

@[simp] theorem endToken_descendInto :
    (reader.descendInto construct).endToken = reader.endToken := by
  cases construct <;> rfl

@[simp] theorem reported_descendInto :
    (reader.descendInto construct).reported = reader.reported := by
  cases construct <;> rfl

@[simp] theorem enclosing_descendInto :
    (reader.descendInto construct).enclosing = reader.enclosing := by
  cases construct <;> rfl

theorem depth_descendInto : (reader.descendInto construct).depth =
    reader.depth + if construct = .parenthesized then 1 else 0 := by
  cases construct <;> rfl

@[simp] theorem limit_descendInto : (reader.descendInto construct).limit = reader.limit := by
  cases construct <;> rfl

@[simp] theorem ahead_ascendFrom : (reader.ascendFrom construct).ahead = reader.ahead := by
  cases construct <;> rfl

@[simp] theorem endToken_ascendFrom :
    (reader.ascendFrom construct).endToken = reader.endToken := by
  cases construct <;> rfl

@[simp] theorem reported_ascendFrom :
    (reader.ascendFrom construct).reported = reader.reported := by
  cases construct <;> rfl

@[simp] theorem enclosing_ascendFrom :
    (reader.ascendFrom construct).enclosing = reader.enclosing := by
  cases construct <;> rfl

theorem depth_ascendFrom : (reader.ascendFrom construct).depth =
    reader.depth - if construct = .parenthesized then 1 else 0 := by
  cases construct <;> rfl

@[simp] theorem limit_ascendFrom : (reader.ascendFrom construct).limit = reader.limit := by
  cases construct <;> rfl

end Reader

end LoopLang
