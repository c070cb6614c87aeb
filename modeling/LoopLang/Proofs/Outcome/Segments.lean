import LoopLang.Proofs.Outcome.Run

/-!
# Segments of a text

A program is read by calls of the statement rule, one after the other, and each call takes a piece
of the text.  What a call read is kept or dropped by what stands in its own piece: a piece that is
kept is a statement by itself and has no diagnostic, and a piece that is dropped has one of its own
(`parse_segments`).
-/

namespace LoopLang

open Grammar

/-- What one call of the statement rule did: the tokens it passed, the statement it read unless it
failed, and the diagnostics it reported. -/
structure Segment where
  tokens : List Token
  outcome : Option Statement
  reports : List Diagnostic

/-- A segment is dropped for a reason of its own, and otherwise it is a statement by itself. -/
structure Segment.Sound (limit : Nat) (segment : Segment) : Prop where
  tokens_ne : segment.tokens ≠ []
  kept : ∀ s, segment.outcome = some s →
    IsStatement limit segment.tokens s ∧ s.DistinctNames ∧ segment.reports = []
  dropped : segment.outcome = none → segment.reports ≠ []

/-- The calls of the statement rule that take one reader, up to the end of input, to another. -/
inductive Calls : Reader → List Segment → Reader → Prop where
  | stop {reader : Reader} (hend : reader.current.lexeme = .endOfInput) : Calls reader [] reader
  | call {reader later : Reader} {segment : Segment} {segments : List Segment}
      (hmore : reader.current.lexeme ≠ .endOfInput)
      (htokens : reader.ahead = segment.tokens ++ (Rule.statement reader).2.ahead)
      (houtcome : (Rule.statement reader).1 = segment.outcome)
      (hreports : (Rule.statement reader).2.diagnostics = reader.diagnostics ++ segment.reports)
      (hrest : Calls (Rule.keptStatement reader).2 segments later) :
      Calls reader (segment :: segments) later

namespace Rule

variable {room : Nat} {reader : Reader}

/-- A call of the statement rule takes a sound segment. -/
private theorem exists_segment (hat : AtStatement room reader)
    (hmore : reader.current.lexeme ≠ .endOfInput) :
    ∃ segment : Segment, segment.Sound room ∧
      reader.ahead = segment.tokens ++ (statement reader).2.ahead ∧
      (statement reader).1 = segment.outcome ∧
      (statement reader).2.diagnostics = reader.diagnostics ++ segment.reports := by
  obtain ⟨hyields, -, hlt⟩ := isStatementRead_statement hat hmore
  rcases hresult : statement reader with ⟨_ | s, later⟩
  · rw [hresult] at hyields hlt
    obtain ⟨tokens, htokens⟩ := hyields.steps.frame.ahead_suffix
    obtain ⟨-, -, passed, behind, cause, more, -, -, hreports, -⟩ := hyields
    refine ⟨⟨tokens, none, reader.pointingAt behind cause :: more⟩, ⟨?_, nofun, nofun⟩,
      htokens.symm, rfl, hreports⟩
    -- The rule passes a token even where it fails.
    rintro rfl
    rw [← htokens] at hlt
    exact absurd hlt (lt_irrefl _)
  · rw [hresult] at hyields hlt
    obtain ⟨passed, hadvances, hstatement, hdistinct⟩ := hyields
    refine ⟨⟨passed, some s, []⟩, ⟨?_, ?_, nofun⟩, hadvances.ahead_eq, rfl, ?_⟩
    · rintro rfl
      rw [hadvances.ahead_eq] at hlt
      exact absurd hlt (lt_irrefl _)
    · intro s' hs
      obtain rfl : s = s' := Option.some.inj hs
      exact ⟨hstatement, hdistinct, rfl⟩
    · rw [hadvances.diagnostics_eq, List.append_nil]

/-- The turns of a program are the calls of the statement rule. -/
theorem Attempts.exists_segments {outcomes : List (Option Statement)} {later : Reader}
    (hattempts : Attempts programGoesOn keptStatement reader outcomes later)
    (hat : AtStatement room reader) :
    ∃ segments, Calls reader segments later ∧ outcomes = segments.map Segment.outcome ∧
      ∀ segment ∈ segments, segment.Sound room := by
  induction hattempts with
  | stop hmore => exact ⟨[], .stop (by simpa [programGoesOn] using hmore), rfl, by simp⟩
  | @turn reader later outcomes hmore _ ih =>
      have hend : reader.current.lexeme ≠ .endOfInput := by simpa [programGoesOn] using hmore
      obtain ⟨segments, hcalls, houtcomes, hsound⟩ := ih (repeats_keptStatement.passes hat hmore).1
      obtain ⟨segment, hfirst, htokens, houtcome, hreports⟩ := exists_segment hat hend
      refine ⟨segment :: segments, .call hend htokens houtcome hreports hcalls, ?_,
        by simpa using ⟨hfirst, hsound⟩⟩
      rw [houtcomes, fst_keptStatement, houtcome, List.map_cons]

end Rule

namespace Calls

variable {reader later : Reader} {segments : List Segment}

/-- Calls cut the tokens they pass into their segments. -/
theorem ahead_eq (hcalls : Calls reader segments later) :
    reader.ahead = segments.flatMap Segment.tokens ++ later.ahead := by
  induction hcalls with
  | stop => rfl
  | call _ htokens _ _ _ ih =>
      rw [htokens, ← Rule.ahead_keptStatement, ih, List.flatMap_cons, List.append_assoc]

/-- Nothing is reported but what the calls report. -/
private theorem diagnostics_eq (hcalls : Calls reader segments later) :
    later.diagnostics = reader.diagnostics ++ segments.flatMap Segment.reports := by
  induction hcalls with
  | stop => simp
  | call _ _ _ hreports _ ih =>
      rw [ih, Rule.diagnostics_keptStatement, hreports, List.flatMap_cons, List.append_assoc]

end Calls

/-- Where all segments are sound, nothing is reported exactly if none of them is dropped. -/
private theorem flatMap_reports_eq_nil_iff {limit : Nat} {segments : List Segment}
    (hsound : ∀ segment ∈ segments, segment.Sound limit) :
    segments.flatMap Segment.reports = [] ↔ ∀ segment ∈ segments, segment.outcome ≠ none := by
  rw [List.flatMap_eq_nil_iff]
  constructor
  · exact fun h segment hmem hnone => (hsound segment hmem).dropped hnone (h segment hmem)
  · intro h segment hmem
    obtain ⟨s, hs⟩ := Option.ne_none_iff_exists'.mp (h segment hmem)
    exact ((hsound segment hmem).kept s hs).2.2

/-- The calls of the statement rule cut the tokens of a text into sound segments, whose statements
are the program and whose reports are the diagnostics. -/
theorem parse_segments (source : String) (limit : Nat) :
    ∃ segments, Calls (Reader.start source limit) segments (Reader.final source limit) ∧
      (Cursor.start source).tokens = segments.flatMap Segment.tokens ∧
      (∀ segment ∈ segments, segment.Sound limit) ∧
      (parse source limit).program.statements = segments.filterMap Segment.outcome ∧
      (parse source limit).diagnostics = segments.flatMap Segment.reports ∧
      ((parse source limit).diagnostics = [] ↔
        ∀ segment ∈ segments, segment.outcome ≠ none) := by
  have hat := Reader.atStatement_start source limit
  obtain ⟨outcomes, later, hattempts, hresult, hlast⟩ := Reader.program_apply hat
  obtain ⟨segments, hcalls, houtcomes, hsound⟩ := hattempts.exists_segments hat
  have hfinal : Reader.final source limit = later := by rw [Reader.final, hresult]
  have hdiagnostics : (parse source limit).diagnostics = segments.flatMap Segment.reports := by
    rw [parse_diagnostics_eq, hfinal, hcalls.diagnostics_eq, Reader.diagnostics_start,
      List.nil_append]
  refine ⟨segments, hfinal ▸ hcalls, ?_, hsound, ?_, hdiagnostics, ?_⟩
  · have hahead := hcalls.ahead_eq
    rw [hlast, List.append_nil] at hahead
    exact hahead
  · rw [parse_program_eq, hresult, houtcomes]
    simp [List.filterMap_map]
  · rw [hdiagnostics, flatMap_reports_eq_nil_iff hsound]

end LoopLang
