import LoopLang.Proofs.Blocks.Items
import LoopLang.Proofs.Outcome.EndOfInput
import LoopLang.Proofs.Outcome.Limits
import LoopLang.Proofs.Reading.Invariants

/-!
# The limit of nesting

The limit shows in the outcome only where a parenthesis is refused (`parse_nesting_limit`): a text
that stays within it is parsed in the same way under any larger limit; of other texts the same is
reported up to the first parenthesis that is refused, and that one has exactly as many unclosed ones
in front of it in its expression as the limit says.

Where parentheses are refused is an `Invariant` of the reader (`Invariant.refusals`).  What is
refused depends on the levels that a reader counts, and the log tells how it counted them
(`levels`).  Whenever a token is passed or something is reported, the count is that of the open
parenthesized expressions, and within the limit; only between entering such an expression and
counting it do the two differ.  A step takes a reader to the next moment at which they agree
(`Reader.Logs.step`).
-/

namespace LoopLang

open Reader

/-! ## Parentheses that are refused -/

/-- A diagnostic refuses a parenthesis with exactly `limit` unclosed ones in front of it in the same
expression. -/
def Diagnostic.RefusesParen (tokens : List Token) (limit : Nat) (d : Diagnostic) : Prop :=
  d.cause = .tooDeep limit ∧ ∃ before token after, tokens = before ++ token :: after ∧
    token.lexeme = .mark .openParen ∧ d.PointsAt token ∧ unclosed (expressionEnd before) = limit

namespace Reader

variable {reader later : Reader} {tokens : List Token} {limit : Nat}

/-- The reader has refused no parentheses but those in front of which as many are open as the limit
says. -/
def RefusesAtLimit (tokens : List Token) (limit : Nat) (reader : Reader) : Prop :=
  ∀ d ∈ reader.diagnostics, d.IsTooDeep → d.RefusesParen tokens limit

private theorem RefusesAtLimit.append (hrefuses : reader.RefusesAtLimit tokens limit)
    {new : List Diagnostic} (hdiagnostics : later.diagnostics = reader.diagnostics ++ new)
    (hnew : ∀ d ∈ new, d.IsTooDeep → d.RefusesParen tokens limit) :
    later.RefusesAtLimit tokens limit :=
  forall_mem_diagnostics_append hrefuses hdiagnostics hnew

private theorem RefusesAtLimit.of_eq (hrefuses : reader.RefusesAtLimit tokens limit)
    (hdiagnostics : later.diagnostics = reader.diagnostics) :
    later.RefusesAtLimit tokens limit := by
  rwa [RefusesAtLimit, hdiagnostics]

private theorem RefusesAtLimit.advance (hrefuses : reader.RefusesAtLimit tokens limit) :
    reader.advance.RefusesAtLimit tokens limit := by
  rcases reader.diagnostics_advance with hquiet | ⟨found, -, -, -, hstray⟩
  · exact hrefuses.of_eq hquiet
  · exact hrefuses.append hstray (by simp [Diagnostic.IsTooDeep])

end Reader

/-- Parentheses are refused where the limit is reached in their expression, and nowhere else. -/
def Invariant.refusals (tokens : List Token) (limit : Nat) : Invariant tokens limit where
  Holds := Reader.RefusesAtLimit tokens limit
  advance h := h.advance
  complain {reader} h wanted := by
    have hdiagnostics := reader.diagnostics_complain wanted
    split at hdiagnostics
    · exact h.of_eq hdiagnostics
    · refine h.append hdiagnostics fun d hmem ⟨limit', hcause⟩ => ?_
      obtain rfl := List.mem_singleton.mp hmem
      exact absurd hcause (reader.complaint_ne_tooDeep wanted limit')
  refuseName {reader} h name :=
    h.append (reader.diagnostics_refuseName name) (by simp [Diagnostic.IsTooDeep])
  refuseParen {reader} h hlimit hparen hahead hlevel := by
    obtain ⟨passed, hpassed, hunclosed⟩ := hlevel
    obtain ⟨token, behind, hcons⟩ := List.exists_cons_of_ne_nil hahead
    have hcurrent := reader.current_of_ahead_eq_cons hcons
    refine (Reader.RefusesAtLimit.advance h).append (diagnostics_report _ _ _) fun d hmem _ => ?_
    obtain rfl := List.mem_singleton.mp hmem
    refine ⟨congrArg Cause.tooDeep hlimit, passed, reader.current, behind, ?_, hparen,
      ⟨rfl, rfl, hparen⟩, hunclosed⟩
    rw [hpassed, hcons, hcurrent]
  enter h opening := h.of_eq (by simp)
  leave h construct := h.of_eq (by simp)
  recovered h boundary skipped := h.of_eq (by simp [Event.diagnostic?])

private theorem Reader.refuses_final (source : String) (limit : Nat) :
    (final source limit).RefusesAtLimit (Cursor.start source).tokens limit := by
  let I := Invariant.refusals (Cursor.start source).tokens limit
  have hstart : I.Gauged 0 (start source limit) :=
    ⟨(atStatement_start source limit).ready.proper, List.suffix_rfl, rfl, rfl,
      by simp [I, Invariant.refusals, RefusesAtLimit]⟩
  have hkept : ∀ {reader : Reader} (s : Statement), I.Holds reader →
      I.Holds (reader.record (.kept s)) :=
    fun s h => RefusesAtLimit.of_eq h (by simp [Event.diagnostic?])
  exact (I.keeps_program hkept (start source limit) hstart trivial).1.holds

/-! ## Levels told by the log -/

/-- The levels of parentheses that are counted behind an event. -/
def Event.count (level : Nat) : Event → Nat
  | descended => level + 1
  | ascended => level - 1
  | _ => level

/-- The levels of parentheses that are counted behind some events. -/
def levels (events : List Event) : Nat := events.foldl Event.count 0

@[simp] theorem levels_append_singleton (events : List Event) (event : Event) :
    levels (events ++ [event]) = event.count (levels events) := by
  simp [levels]

/-- Whether a token is passed or something is reported in an event. -/
def Event.PassesOrReports : Event → Prop
  | reached _ | reported _ => True
  | _ => False

/-- How many of some constructs are parenthesized expressions. -/
def parensAmong (enclosing : List Opening) : Nat :=
  enclosing.countP fun opening => opening.construct = .parenthesized

/-- Whenever a token is passed or something is reported, as many levels are counted as parenthesized
expressions are open, and no more than the limit. -/
def CountsLevels (limit : Nat) (events : List Event) : Prop :=
  ∀ before event, before ++ [event] <+: events → event.PassesOrReports →
    levels before = parensAmong (openings before) ∧ levels before ≤ limit

private theorem CountsLevels.append_singleton {limit : Nat} {events : List Event} {event : Event}
    (hevents : CountsLevels limit events)
    (hevent : event.PassesOrReports →
      levels events = parensAmong (openings events) ∧ levels events ≤ limit) :
    CountsLevels limit (events ++ [event]) := by
  intro before last hprefix hlast
  rcases List.prefix_concat_iff.mp hprefix with heq | hprefix
  · obtain ⟨rfl, hsame⟩ := List.append_inj' heq rfl
    obtain rfl := List.singleton_inj.mp hsame
    exact hevent hlast
  · exact hevents before last hprefix hlast

namespace Reader

variable {reader later : Reader}

/-- The log of a reader tells what the reader counts and which constructs it remembers. -/
structure Logs (reader : Reader) : Prop where
  levels_eq : levels reader.events = reader.depth
  openings_eq : openings reader.events = reader.enclosing
  counts : CountsLevels reader.limit reader.events

/-- One more event; if it passes a token or reports something, it comes where the count is right. -/
private theorem Logs.record (hlogs : reader.Logs) {event : Event}
    (hevents : later.events = reader.events ++ [event])
    (henclosing : later.enclosing = event.track reader.enclosing)
    (hdepth : later.depth = event.count reader.depth) (hlimit : later.limit = reader.limit)
    (hright : event.PassesOrReports → reader.Levelled ∧ reader.depth ≤ reader.limit) :
    later.Logs := by
  obtain ⟨hlevels, hopenings, hcounts⟩ := hlogs
  refine ⟨?_, ?_, ?_⟩
  · rw [hevents, levels_append_singleton, hlevels, hdepth]
  · rw [hevents, openings_append_singleton, hopenings, henclosing]
  · rw [hevents, hlimit]
    refine hcounts.append_singleton fun hevent => ?_
    obtain ⟨hlevelled, hle⟩ := hright hevent
    rw [hlevels, hopenings]
    exact ⟨hlevelled, hle⟩

/-- A report where the count is right. -/
private theorem Logs.report (hlogs : reader.Logs) (hlevelled : reader.Levelled)
    (hle : reader.depth ≤ reader.limit) (token : Token) (cause : Cause) :
    (reader.report token cause).Logs :=
  hlogs.record (reader.events_record _) rfl rfl rfl fun _ => ⟨hlevelled, hle⟩

private theorem Logs.advance (hlogs : reader.Logs) (hlevelled : reader.Levelled)
    (hle : reader.depth ≤ reader.limit) : reader.advance.Logs := by
  cases hahead : reader.ahead with
  | nil => rwa [reader.advance_of_ahead_eq_nil hahead]
  | cons token behind =>
      have hevents := reader.events_advance hahead
      -- A stray character that nothing was reported about yet is reported before it is passed.
      rcases reader.reportStray_eq with hstray | ⟨found, -, -, hstray⟩
      · rw [hstray] at hevents
        exact hlogs.record hevents (by simp [Event.track]) (by simp [Event.count]) (by simp)
          fun _ => ⟨hlevelled, hle⟩
      · rw [hstray] at hevents
        exact (hlogs.report hlevelled hle _ _).record hevents (by simp [Event.track, Reader.report])
          (by simp [Event.count, Reader.report]) (by simp [Reader.report]) fun _ => ⟨hlevelled, hle⟩

private theorem Logs.complain (hlogs : reader.Logs) (hlevelled : reader.Levelled)
    (hle : reader.depth ≤ reader.limit) (wanted : Wanted) : (reader.complain wanted).Logs := by
  unfold Reader.complain
  split
  · exact hlogs
  · exact hlogs.record (reader.events_record _) rfl rfl rfl fun _ => ⟨hlevelled, hle⟩

/-- The level of a construct is counted right before the construct is entered. -/
private theorem Logs.enterFrom (hlogs : reader.Logs) (construct : Construct) (location : Location) :
    ((reader.descendInto construct).enter ⟨construct, location⟩).Logs := by
  have hcounted : (reader.descendInto construct).Logs := by
    cases construct with
    | parenthesized => exact hlogs.record (reader.events_record _) rfl rfl rfl False.elim
    | _ => exact hlogs
  exact hcounted.record (events_record _ _) rfl rfl rfl False.elim

/-- It is taken back right behind the end of the construct. -/
private theorem Logs.leaveFrom (hlogs : reader.Logs) (construct : Construct) :
    (reader.leaveFrom construct).Logs := by
  have hleft : reader.leave.Logs := by
    unfold Reader.leave
    split
    · exact hlogs
    · rename_i opening enclosing henclosing
      exact hlogs.record (reader.events_record _) (by simp [Event.track, henclosing]) rfl rfl
        False.elim
  cases construct with
  | parenthesized => exact hleft.record (events_record _ _) rfl rfl rfl False.elim
  | _ => exact hleft

/-- No step counts more levels than the limit allows. -/
theorem Step.depth_le (hstep : Step reader later) (hle : reader.depth ≤ reader.limit) :
    later.depth ≤ later.limit := by
  rw [hstep.frame.limit_eq]
  cases hstep with
  | advance => simpa using hle
  | complain => simpa using hle
  | refuseName => exact hle
  | refuseParen => simpa [Reader.refuseParen, report] using hle
  | @advanceInto construct hopens hdepth =>
      rw [depth_advanceInto]
      split
      · rename_i hparens
        exact hdepth hparens
      · exact hle
  | leave =>
      rw [depth_leaveFrom]
      exact (Nat.sub_le _ _).trans hle
  | recovered => exact hle
  | kept => exact hle

/-- One step keeps the log in line with what the reader counts. -/
theorem Logs.step (hlogs : reader.Logs) (hlevelled : reader.Levelled)
    (hle : reader.depth ≤ reader.limit) (hstep : Step reader later) : later.Logs := by
  cases hstep with
  | advance => exact hlogs.advance hlevelled hle
  | complain => exact hlogs.complain hlevelled hle _
  | refuseName => exact hlogs.record (reader.events_record _) rfl rfl rfl fun _ => ⟨hlevelled, hle⟩
  | refuseParen =>
      exact (hlogs.advance hlevelled hle).report (hlevelled.of_eq (by simp) (by simp))
        (by simpa using hle) _ _
  | advanceInto => exact (hlogs.advance hlevelled hle).enterFrom _ _
  | leave => exact hlogs.leaveFrom _
  | recovered => exact hlogs.record (reader.events_record _) rfl rfl rfl False.elim
  | kept => exact hlogs.record (reader.events_record _) rfl rfl rfl False.elim

/-- A whole run keeps it in line. -/
private theorem Logs.steps (hlogs : reader.Logs) (hlevelled : reader.Levelled)
    (hle : reader.depth ≤ reader.limit) (hsteps : Steps reader later) :
    later.Logs ∧ later.depth ≤ later.limit := by
  induction hsteps with
  | refl => exact ⟨hlogs, hle⟩
  | tail hsteps hstep ih =>
      obtain ⟨hthere, hthereLe⟩ := ih
      exact ⟨hthere.step (Steps.levelled hsteps hlevelled) hthereLe hstep, hstep.depth_le hthereLe⟩

private theorem logs_of_steps_start {source : String} {limit : Nat}
    (hsteps : Steps (start source limit) reader) : reader.Logs := by
  have hnone : ∀ before event, ¬ before ++ [event] <+: (start source limit).events := by
    intro before event hprefix
    have hlength := hprefix.length_le
    simp [start, events] at hlength
  have hstart : (start source limit).Logs :=
    ⟨rfl, rfl, fun before event hprefix => absurd hprefix (hnone before event)⟩
  exact (hstart.steps rfl (Nat.zero_le limit) hsteps).1

end Reader

/-! ## What the limit changes -/

/-- The limit acts only where a parenthesis is refused.  If none is, every larger limit gives the
same outcome.  Otherwise what is reported before the first one that is refused is reported first
under every larger limit too, and as many parentheses are unclosed in front of it, in the same
expression, as the limit says.  Whenever a token is passed or something is reported, as many levels
are counted as parenthesized expressions are open, and no more than the limit. -/
theorem parse_nesting_limit (source : String) {limit more : Nat} (hle : limit ≤ more) :
    ((∀ d ∈ (parse source limit).diagnostics, ¬ d.IsTooDeep) →
      parse source more = parse source limit) ∧
    (∀ before d after, (parse source limit).diagnostics = before ++ d :: after → d.IsTooDeep →
      (∀ earlier ∈ before, ¬ earlier.IsTooDeep) →
      before <+: (parse source more).diagnostics ∧
        d.RefusesParen (Cursor.start source).tokenize limit) ∧
    (∀ reader : Reader, Reader.Steps (Reader.start source limit) reader →
      reader.depth = levels reader.events ∧ reader.enclosing = openings reader.events) ∧
    ∀ before event, before ++ [event] <+: (Reader.final source limit).events →
      event.PassesOrReports →
      levels before = parensAmong (openings before) ∧ levels before ≤ limit := by
  have hlimit : (Reader.final source limit).limit = limit :=
    (Reader.steps_start source limit).frame.limit_eq
  have hroom := parse_more_room source hle
  refine ⟨fun hwithin => ?_, fun before d after hsplit hdeep hfirst => ?_,
    fun reader hsteps => ?_, ?_⟩
  · rcases hroom with ⟨-, hsame⟩ | ⟨before, d, after, hsplit, hcause, -⟩
    · exact hsame
    · exact absurd ⟨limit, hcause⟩ (hwithin d (by simp [hsplit]))
  · refine ⟨?_, ?_⟩
    · rcases hroom with ⟨hwithin, -⟩ | ⟨front, e, back, hother, hcause, hnone, hprefix⟩
      · exact absurd hdeep (hwithin d (by simp [hsplit]))
      · -- There is only one first diagnostic about parentheses.
        obtain ⟨rfl, -, -⟩ := append_cons_inj_of_first (hsplit.symm.trans hother) hfirst hdeep hnone
          ⟨limit, hcause⟩
        exact hprefix
    · have hmem : d ∈ (Reader.final source limit).diagnostics := by
        rw [← parse_diagnostics_eq, hsplit]
        simp
      obtain ⟨hcause, front, token, back, htokens, hrest⟩ :=
        Reader.refuses_final source limit d hmem hdeep
      refine ⟨hcause, front, token, back ++ [(Cursor.start source).endToken], ?_, hrest⟩
      rw [Cursor.tokenize, htokens]
      simp
  · have hlogs := Reader.logs_of_steps_start hsteps
    exact ⟨hlogs.levels_eq.symm, hlogs.openings_eq.symm⟩
  · have hcounts := (Reader.logs_of_steps_start (Reader.steps_start source limit)).counts
    rwa [hlimit] at hcounts

/-- The second statement nests one level deeper than the smaller limit allows; the first one is
broken under both limits. -/
theorem parse_nesting_limit_one_and_two :
    1 ≤ 2 ∧
      (parse "int; a = (b * (c + d));" 1).diagnostics =
        [⟨.unexpected "a variable name" "';'", ⟨1, 4⟩, ⟨3, 4⟩⟩] ++
          ⟨.tooDeep 1, ⟨1, 15⟩, ⟨14, 15⟩⟩ :: [] ∧
      [⟨.unexpected "a variable name" "';'", ⟨1, 4⟩, ⟨3, 4⟩⟩] <+:
        (parse "int; a = (b * (c + d));" 2).diagnostics ∧
      (⟨.tooDeep 1, ⟨1, 15⟩, ⟨14, 15⟩⟩ : Diagnostic).RefusesParen
        (Cursor.start "int; a = (b * (c + d));").tokenize 1 := by
  have hsplit : (parse "int; a = (b * (c + d));" 1).diagnostics =
      [⟨.unexpected "a variable name" "';'", ⟨1, 4⟩, ⟨3, 4⟩⟩] ++
        ⟨.tooDeep 1, ⟨1, 15⟩, ⟨14, 15⟩⟩ :: [] := by decide +kernel
  obtain ⟨-, hfirst, -, -⟩ := parse_nesting_limit "int; a = (b * (c + d));" (by decide : 1 ≤ 2)
  exact ⟨by decide, hsplit, hfirst _ _ _ hsplit ⟨1, rfl⟩ (by simp [Diagnostic.IsTooDeep])⟩

end LoopLang
