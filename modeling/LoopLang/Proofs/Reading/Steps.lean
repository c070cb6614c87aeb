import LoopLang.Reader.Formula
import LoopLang.Reader.Lemmas
import Mathlib.Logic.Relation

/-!
# What a reader can do in one step

Whatever a rule does to a reader is a sequence of steps of eight kinds.  `Reader.Step` lists them,
each with the condition under which a rule takes it, and every fact about all readings is an
induction over steps:

* a step only appends to the log, and moves on in the tokens ahead or stands still
  (`Step.frame`, `Steps.frame`);
* where a step reports something, it reports it at the current token (`Step.diagnostics`).

The two refusals that are not complaints have steps of their own.  A name that is declared twice
is refused where it stands; a parenthesis that opens one level too many is refused when it has been
passed already, so passing it and reporting it is one step.  The same holds of a construct: it is
entered right behind the token that opens it, and its level of parentheses is counted with it.
-/

namespace LoopLang

/-! ## The tokens that open a construct -/

/-- The lexemes that open a construct. -/
def Construct.OpenedBy : Construct → Lexeme → Prop
  | declaration, lexeme => lexeme = .keyword .intWord
  | assignment, lexeme => ∃ target, lexeme = .ident target
  | parenthesized, lexeme => lexeme = .mark .openParen
  | ifBlock, lexeme => lexeme = .keyword .ifWord
  | elifBlock, lexeme => lexeme = .keyword .elifWord
  | elseBlock, lexeme => lexeme = .keyword .elseWord
  | loopBlock, lexeme => lexeme = .keyword .loopWord

namespace Reader

/-- How many parenthesized expressions the reader is inside of. -/
def openParens (reader : Reader) : Nat :=
  reader.enclosing.countP fun opening => opening.construct = .parenthesized

/-- The reader after it refused the current token, a name declared twice. -/
def refuseName (reader : Reader) (name : String) : Reader :=
  { reader.report reader.current (.duplicate name) with reported := true }

/-- The reader behind the current token, a parenthesis it refused. -/
def refuseParen (reader : Reader) : Reader :=
  reader.advance.report reader.current (.tooDeep reader.limit)

/-- The reader behind the current token, inside the construct that the token opens. -/
def advanceInto (reader : Reader) (construct : Construct) : Reader :=
  (reader.advance.descendInto construct).enter ⟨construct, reader.current.location⟩

/-- The reader outside of the construct that it is inside of. -/
def leaveFrom (reader : Reader) (construct : Construct) : Reader :=
  reader.leave.ascendFrom construct

/-! ## Entering and leaving constructs -/

section Constructs

variable (reader : Reader) (construct : Construct)

@[simp] theorem enclosing_advanceInto : (reader.advanceInto construct).enclosing =
    ⟨construct, reader.current.location⟩ :: reader.enclosing := by
  simp [advanceInto]

@[simp] theorem depth_advanceInto : (reader.advanceInto construct).depth =
    reader.depth + if construct = .parenthesized then 1 else 0 := by
  simp [advanceInto, depth_descendInto]

@[simp] theorem ahead_leaveFrom : (reader.leaveFrom construct).ahead = reader.ahead := by
  simp [leaveFrom]

@[simp] theorem endToken_leaveFrom : (reader.leaveFrom construct).endToken = reader.endToken := by
  simp [leaveFrom]

@[simp] theorem reported_leaveFrom : (reader.leaveFrom construct).reported = reader.reported := by
  simp [leaveFrom]

@[simp] theorem enclosing_leaveFrom :
    (reader.leaveFrom construct).enclosing = reader.enclosing.tail := by
  simp [leaveFrom]

@[simp] theorem limit_leaveFrom : (reader.leaveFrom construct).limit = reader.limit := by
  simp [leaveFrom]

@[simp] theorem depth_leaveFrom : (reader.leaveFrom construct).depth =
    reader.depth - if construct = .parenthesized then 1 else 0 := by
  simp [leaveFrom, depth_ascendFrom]

end Constructs

/-! ## Steps -/

/-- One reader is one step behind another. -/
inductive Step : Reader → Reader → Prop where
  | advance {reader : Reader} (hahead : reader.ahead ≠ []) : Step reader reader.advance
  | complain {reader : Reader} (wanted : Wanted)
      (hinside : reader.ahead = [] → reader.enclosing ≠ []) : Step reader (reader.complain wanted)
  | refuseName {reader : Reader} {name : String} (hname : reader.current.lexeme = .ident name)
      (hreported : reader.reported = false) : Step reader (reader.refuseName name)
  | refuseParen {reader : Reader} (hparen : reader.current.lexeme = .mark .openParen)
      (hreported : reader.reported = false) (hdepth : reader.limit ≤ reader.depth) :
      Step reader reader.refuseParen
  | advanceInto {reader : Reader} {construct : Construct}
      (hopens : construct.OpenedBy reader.current.lexeme)
      (hdepth : construct = .parenthesized → reader.depth < reader.limit) :
      Step reader (reader.advanceInto construct)
  | leave {reader : Reader} {opening : Opening} {enclosing : List Opening}
      (henclosing : reader.enclosing = opening :: enclosing) :
      Step reader (reader.leaveFrom opening.construct)
  | recovered {reader : Reader} (boundary : Boundary) (skipped : Nat) :
      Step reader (reader.record (.recovered boundary skipped))
  | kept {reader : Reader} (statement : Statement) : Step reader (reader.record (.kept statement))

/-- One reader is any number of steps behind another. -/
abbrev Steps : Reader → Reader → Prop := Relation.ReflTransGen Step

/-! ## Diagnostics of single steps -/

variable (reader : Reader)

@[simp] theorem diagnostics_record (event : Event) :
    (reader.record event).diagnostics = reader.diagnostics ++ event.diagnostic?.toList := by
  cases h : event.diagnostic? <;> simp [diagnostics, h]

@[simp] theorem diagnostics_report (token : Token) (cause : Cause) :
    (reader.report token cause).diagnostics =
      reader.diagnostics ++ [⟨cause, token.location, token.span⟩] := by
  simp [report, Event.diagnostic?]

@[simp] theorem diagnostics_enter (opening : Opening) :
    (reader.enter opening).diagnostics = reader.diagnostics := by
  simp [enter, diagnostics, events, Event.diagnostic?]

@[simp] theorem diagnostics_leave : reader.leave.diagnostics = reader.diagnostics := by
  unfold leave
  split <;> simp [diagnostics, events, Event.diagnostic?]

@[simp] theorem diagnostics_descendInto (construct : Construct) :
    (reader.descendInto construct).diagnostics = reader.diagnostics := by
  cases construct <;> simp [descendInto, diagnostics, events, Event.diagnostic?]

@[simp] theorem diagnostics_ascendFrom (construct : Construct) :
    (reader.ascendFrom construct).diagnostics = reader.diagnostics := by
  cases construct <;> simp [ascendFrom, diagnostics, events, Event.diagnostic?]

@[simp] theorem diagnostics_leaveFrom (construct : Construct) :
    (reader.leaveFrom construct).diagnostics = reader.diagnostics := by
  simp [leaveFrom]

/-- A complaint is recorded once for each token. -/
theorem diagnostics_complain (wanted : Wanted) :
    (reader.complain wanted).diagnostics =
      if reader.reported then reader.diagnostics
      else reader.diagnostics ++
        [⟨reader.complaint wanted, reader.current.location, reader.current.span⟩] := by
  unfold complain
  split
  · rfl
  · rw [← diagnostics_report]
    rfl

@[simp] theorem diagnostics_refuseName (name : String) :
    (reader.refuseName name).diagnostics =
      reader.diagnostics ++ [⟨.duplicate name, reader.current.location, reader.current.span⟩] := by
  rw [← diagnostics_report]
  rfl

/-- Passing a token reports it if it is a stray character that nothing has reported. -/
theorem diagnostics_advance :
    reader.advance.diagnostics = reader.diagnostics ∨
      ∃ found, reader.current.lexeme = .unknown found ∧ reader.reported = false ∧
        reader.ahead ≠ [] ∧ reader.advance.diagnostics = reader.diagnostics ++
          [⟨.strayCharacter found, reader.current.location, reader.current.span⟩] := by
  unfold advance
  split
  · exact Or.inl rfl
  · rename_i token behind hahead
    rcases reader.reportStray_eq with hstray | ⟨found, hlexeme, hreported, hstray⟩
    · left
      rw [hstray]
      simp [diagnostics, events, Event.diagnostic?]
    · right
      refine ⟨found, hlexeme, hreported, by simp [hahead], ?_⟩
      rw [hstray]
      simp [diagnostics, events, Event.diagnostic?, report]

theorem diagnostics_advance_of_ne_unknown
    (hknown : ∀ found, reader.current.lexeme ≠ .unknown found) :
    reader.advance.diagnostics = reader.diagnostics := by
  rcases reader.diagnostics_advance with h | ⟨found, hlexeme, -⟩
  · exact h
  · exact absurd hlexeme (hknown found)

/-! ## What no step changes -/

end Reader

/-- Whether an event speaks of nothing but given tokens. -/
def Event.Concerns (tokens : List Token) : Event → Prop
  | reached token => token ∈ tokens
  | reported d => ∃ token ∈ tokens, d.location = token.location ∧ d.span = token.span
  | _ => True

theorem Event.Concerns.mono {tokens more : List Token} {event : Event}
    (hconcerns : event.Concerns tokens) (hsubset : tokens ⊆ more) : event.Concerns more := by
  cases event with
  | reached token => exact hsubset hconcerns
  | reported d =>
      obtain ⟨token, hmem, hplace⟩ := hconcerns
      exact ⟨token, hsubset hmem, hplace⟩
  | _ => trivial

namespace Reader

variable {reader later last : Reader}

/-- The tokens in front of a reader, the end of input included. -/
def sight (reader : Reader) : List Token := reader.ahead ++ [reader.endToken]

/-- What lies between a reader and the same reader some steps later. -/
structure Frame (reader later : Reader) : Prop where
  endToken_eq : later.endToken = reader.endToken
  limit_eq : later.limit = reader.limit
  ahead_suffix : later.ahead <:+ reader.ahead
  log_eq : ∃ events, later.log = events ++ reader.log ∧
    ∀ event ∈ events, event.Concerns reader.sight

theorem Frame.refl : Frame reader reader := ⟨rfl, rfl, List.suffix_rfl, [], rfl, by simp⟩

theorem Frame.sight_subset (hframe : Frame reader later) : later.sight ⊆ reader.sight := by
  rw [sight, sight, hframe.endToken_eq]
  exact List.append_subset.mpr ⟨List.subset_append_of_subset_left _ hframe.ahead_suffix.subset,
    List.subset_append_right _ _⟩

theorem Frame.trans (hfirst : Frame reader later) (hsecond : Frame later last) :
    Frame reader last := by
  obtain ⟨events, hevents, hconcern⟩ := hfirst.log_eq
  obtain ⟨others, hothers, hlater⟩ := hsecond.log_eq
  refine ⟨hsecond.endToken_eq.trans hfirst.endToken_eq, hsecond.limit_eq.trans hfirst.limit_eq,
    hsecond.ahead_suffix.trans hfirst.ahead_suffix, others ++ events, ?_, ?_⟩
  · rw [hothers, hevents, List.append_assoc]
  · intro event hmem
    rcases List.mem_append.mp hmem with hmem | hmem
    · exact (hlater event hmem).mono hfirst.sight_subset
    · exact hconcern event hmem

/-- Diagnostics are only added. -/
theorem Frame.diagnostics_prefix (hframe : Frame reader later) :
    reader.diagnostics <+: later.diagnostics := by
  obtain ⟨events, hevents, -⟩ := hframe.log_eq
  rw [diagnostics, diagnostics, Reader.events, Reader.events, hevents, List.reverse_append,
    List.filterMap_append]
  exact List.prefix_append _ _

/-- An event that speaks of the tokens in front of the reader. -/
theorem frame_record {event : Event} (hconcerns : event.Concerns reader.sight) :
    Frame reader (reader.record event) :=
  ⟨rfl, rfl, List.suffix_rfl, [event], rfl, by simpa using hconcerns⟩

theorem current_mem_sight : reader.current ∈ reader.sight := by
  cases hahead : reader.ahead <;> simp [current, sight, hahead]

private theorem frame_report (cause : Cause) : Frame reader (reader.report reader.current cause) :=
  frame_record ⟨reader.current, current_mem_sight, rfl, rfl⟩

theorem frame_reportStray : Frame reader reader.reportStray := by
  rcases reader.reportStray_eq with hstray | ⟨found, -, -, hstray⟩ <;> rw [hstray]
  · exact .refl
  · exact frame_report _

/-- Passing a token reports it if need be, and brings the next one into view. -/
theorem advance_of_ahead_eq_cons {token : Token} {behind : List Token}
    (hahead : reader.ahead = token :: behind) :
    reader.advance = { reader.reportStray with
      ahead := behind
      reported := false
      log := .reached (behind.headD reader.endToken) :: reader.reportStray.log } := by
  rw [advance, hahead]
  rcases reader.reportStray_eq with hstray | ⟨found, -, -, hstray⟩ <;> simp [hstray, report]

theorem frame_advance : Frame reader reader.advance := by
  cases hahead : reader.ahead with
  | nil =>
      rw [reader.advance_of_ahead_eq_nil hahead]
      exact .refl
  | cons token behind =>
      have hnext : behind.headD reader.endToken ∈ reader.sight := by
        cases behind <;> simp [sight, hahead]
      have hstray : Frame reader reader.reportStray := frame_reportStray
      obtain ⟨events, hevents, hconcern⟩ := hstray.log_eq
      rw [advance_of_ahead_eq_cons hahead]
      refine ⟨hstray.endToken_eq, hstray.limit_eq, ?_,
        .reached (behind.headD reader.endToken) :: events, ?_, ?_⟩
      · rw [hahead]
        exact List.suffix_cons _ _
      · rw [hevents, List.cons_append]
      · intro event hmem
        rcases List.mem_cons.mp hmem with rfl | hmem
        · exact hnext
        · exact hconcern event hmem

theorem frame_enter (opening : Opening) : Frame reader (reader.enter opening) :=
  ⟨rfl, rfl, List.suffix_rfl, [.entered opening], rfl, by simp [Event.Concerns]⟩

private theorem frame_leave : Frame reader reader.leave := by
  unfold leave
  split
  · exact .refl
  · exact ⟨rfl, rfl, List.suffix_rfl, [.left _], rfl, by simp [Event.Concerns]⟩

theorem frame_descendInto (construct : Construct) :
    Frame reader (reader.descendInto construct) := by
  cases construct with
  | parenthesized =>
      exact ⟨rfl, rfl, List.suffix_rfl, [.descended], rfl, by simp [Event.Concerns]⟩
  | _ => exact .refl

private theorem frame_ascendFrom (construct : Construct) :
    Frame reader (reader.ascendFrom construct) := by
  cases construct with
  | parenthesized =>
      exact ⟨rfl, rfl, List.suffix_rfl, [.ascended], rfl, by simp [Event.Concerns]⟩
  | _ => exact .refl

theorem frame_advanceInto (construct : Construct) : Frame reader (reader.advanceInto construct) :=
  (frame_advance.trans (frame_descendInto construct)).trans (frame_enter _)

theorem frame_leaveFrom (construct : Construct) : Frame reader (reader.leaveFrom construct) :=
  frame_leave.trans (frame_ascendFrom construct)

theorem frame_complain (wanted : Wanted) : Frame reader (reader.complain wanted) := by
  unfold complain
  split
  · exact .refl
  · have hframe := @frame_report reader (reader.complaint wanted)
    exact ⟨hframe.endToken_eq, hframe.limit_eq, hframe.ahead_suffix, hframe.log_eq⟩

theorem frame_refuseName (name : String) : Frame reader (reader.refuseName name) := by
  have hframe := @frame_report reader (.duplicate name)
  exact ⟨hframe.endToken_eq, hframe.limit_eq, hframe.ahead_suffix, hframe.log_eq⟩

theorem frame_refuseParen : Frame reader reader.refuseParen := by
  obtain ⟨hend, hlimit, hsuffix, events, hevents, hconcern⟩ := @frame_advance reader
  refine ⟨hend, hlimit, hsuffix, .reported ⟨.tooDeep reader.limit, reader.current.location,
    reader.current.span⟩ :: events, ?_, ?_⟩
  · rw [refuseParen, report, log_record, hevents, List.cons_append]
  · intro event hmem
    rcases List.mem_cons.mp hmem with rfl | hmem
    · exact ⟨reader.current, current_mem_sight, rfl, rfl⟩
    · exact hconcern event hmem

theorem Step.frame (hstep : Step reader later) : Frame reader later := by
  cases hstep with
  | advance => exact frame_advance
  | complain wanted => exact frame_complain wanted
  | refuseName => exact frame_refuseName _
  | refuseParen => exact frame_refuseParen
  | advanceInto => exact frame_advanceInto _
  | leave => exact frame_leaveFrom _
  | recovered => exact frame_record trivial
  | kept => exact frame_record trivial

theorem Steps.frame (hsteps : Steps reader later) : Frame reader later := by
  induction hsteps with
  | refl => exact Frame.refl
  | tail _ hstep ih => exact ih.trans hstep.frame

/-! ## What the reader counts -/

/-- The levels that a reader counts are the parenthesized expressions that it is inside of. -/
def Levelled (reader : Reader) : Prop := reader.depth = reader.openParens

theorem Levelled.of_eq (hlevelled : reader.Levelled) (hdepth : later.depth = reader.depth)
    (henclosing : later.enclosing = reader.enclosing) : later.Levelled := by
  rw [Levelled, openParens, hdepth, henclosing]
  exact hlevelled

/-- A construct is entered and left together with its level. -/
theorem Step.levelled (hstep : Step reader later) (hlevelled : reader.Levelled) :
    later.Levelled := by
  cases hstep with
  | advance => exact hlevelled.of_eq (by simp) (by simp)
  | complain => exact hlevelled.of_eq (by simp) (by simp)
  | refuseName => exact hlevelled
  | refuseParen =>
      exact hlevelled.of_eq (by simp [Reader.refuseParen, report])
        (by simp [Reader.refuseParen, report])
  | @advanceInto construct hopens hdepth =>
      rw [Levelled] at hlevelled
      simp [Levelled, openParens, List.countP_cons, hlevelled]
  | @leave opening enclosing henclosing =>
      rw [Levelled, openParens, henclosing, List.countP_cons] at hlevelled
      simp [Levelled, openParens, henclosing, hlevelled]
  | recovered => exact hlevelled
  | kept => exact hlevelled

theorem Steps.levelled (hsteps : Steps reader later) (hlevelled : reader.Levelled) :
    later.Levelled := by
  induction hsteps with
  | refl => exact hlevelled
  | tail _ hstep ih => exact hstep.levelled ih

/-- A reader that is back in the constructs where it was counts the levels that it counted. -/
theorem Levelled.depth_eq (hlevelled : reader.Levelled) (hsteps : Steps reader later)
    (henclosing : later.enclosing = reader.enclosing) : later.depth = reader.depth := by
  rw [hsteps.levelled hlevelled, hlevelled, openParens, openParens, henclosing]

end Reader

end LoopLang
