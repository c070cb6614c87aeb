import LoopLang.Proofs.Outcome.Run

/-!
# The order of diagnostics

A reader reports only what is in front of it, and each token once, so that the diagnostics stand in
the order of the text.  `Reader.Ordered` is what a step keeps: every diagnostic points at a token
that its cause fits, and none of them lies behind the current token, or at it unless that is
reported.
-/

namespace LoopLang

/-! ## The token of a diagnostic -/

/-- Whether a cause is one that a lexeme can have. -/
def Cause.Fits : Cause → Lexeme → Prop
  | strayCharacter found, lexeme => lexeme = .unknown found
  | unexpected _ found, lexeme =>
    (∀ c, lexeme ≠ .unknown c) ∧ lexeme ≠ .endOfInput ∧ lexeme.describe = found
  | unterminated _ _ _, lexeme => lexeme = .endOfInput
  | duplicate name, lexeme => lexeme = .ident name
  | tooDeep _, lexeme => lexeme = .mark .openParen

/-- A diagnostic stands where a token does, and its cause fits the token. -/
structure Diagnostic.PointsAt (diagnostic : Diagnostic) (token : Token) : Prop where
  location_eq : diagnostic.location = token.location
  span_eq : diagnostic.span = token.span
  fits : diagnostic.cause.Fits token.lexeme

namespace Reader

variable {reader later : Reader} {all : List Token}

/-- A complaint fits the current token. -/
private theorem fits_complaint (hproper : reader.Proper) (wanted : Wanted)
    (hinside : reader.ahead = [] → reader.enclosing ≠ []) :
    (reader.complaint wanted).Fits reader.current.lexeme := by
  unfold complaint
  cases hlexeme : reader.current.lexeme with
  | unknown found => exact rfl
  | endOfInput =>
      cases henclosing : reader.enclosing with
      | nil =>
          have hahead : reader.ahead = [] := hproper.current_lexeme_eq_endOfInput_iff.mp hlexeme
          exact absurd henclosing (hinside hahead)
      | cons opening enclosing => exact rfl
  | _ => exact ⟨nofun, nofun, rfl⟩

/-! ## What a step keeps -/

/-- Of a text with the tokens `all`, the diagnostics so far are in order. -/
structure Ordered (all : List Token) (reader : Reader) : Prop where
  proper : reader.Proper
  suffix : reader.ahead ++ [reader.endToken] <:+ all
  points : ∀ d ∈ reader.diagnostics, ∃ token ∈ all, d.PointsAt token
  sorted : reader.diagnostics.Pairwise fun d e => d.span.start < e.span.start
  behind : ∀ d ∈ reader.diagnostics, d.span.start < reader.current.offset ∨
    reader.reported = true ∧ d.span.start = reader.current.offset

private theorem Ordered.current_mem (hordered : Ordered all reader) : reader.current ∈ all := by
  refine hordered.suffix.mem ?_
  cases hahead : reader.ahead <;> simp [current, hahead]

/-- What only changes the constructs or adds events of other kinds changes no order. -/
private theorem Ordered.of_eq (hordered : Ordered all reader) (hahead : later.ahead = reader.ahead)
    (hend : later.endToken = reader.endToken) (hreported : later.reported = reader.reported)
    (hdiagnostics : later.diagnostics = reader.diagnostics) : Ordered all later := by
  obtain ⟨hproper, hsuffix, hpoints, hsorted, hbehind⟩ := hordered
  have hcurrent : later.current = reader.current := by rw [current, hahead, hend, current]
  refine ⟨hproper.of_eq hahead hend, ?_, ?_, ?_, ?_⟩
  · rwa [hahead, hend]
  · rwa [hdiagnostics]
  · rwa [hdiagnostics]
  · rwa [hdiagnostics, hcurrent, hreported]

/-- Reporting the current token, when it has no report yet. -/
private theorem Ordered.report (hordered : Ordered all reader) (hreported : reader.reported = false)
    {cause : Cause} (hfits : cause.Fits reader.current.lexeme) :
    Ordered all { reader.report reader.current cause with reported := true } := by
  obtain ⟨hproper, hsuffix, hpoints, hsorted, hbehind⟩ := hordered
  have hdiagnostics : ({ reader.report reader.current cause with reported := true } :
      Reader).diagnostics = reader.diagnostics ++ [⟨cause, reader.current.location,
        reader.current.span⟩] := by
    rw [← diagnostics_report]
    rfl
  have hbefore : ∀ d ∈ reader.diagnostics, d.span.start < reader.current.offset := by
    intro d hmem
    simpa [hreported] using hbehind d hmem
  refine ⟨⟨hproper.endToken_lexeme, hproper.ne_endOfInput⟩, hsuffix, ?_, ?_, ?_⟩
  · rw [hdiagnostics]
    intro d hmem
    rcases List.mem_append.mp hmem with hmem | hmem
    · exact hpoints d hmem
    · have hcurrent := Ordered.current_mem ⟨hproper, hsuffix, hpoints, hsorted, hbehind⟩
      rw [List.mem_singleton] at hmem
      exact ⟨reader.current, hcurrent, by rw [hmem], by rw [hmem], by rwa [hmem]⟩
  · rw [hdiagnostics, List.pairwise_append]
    refine ⟨hsorted, List.pairwise_singleton _ _, fun d hmem e he => ?_⟩
    rw [List.mem_singleton.mp he]
    exact hbefore d hmem
  · rw [hdiagnostics]
    intro d hmem
    rcases List.mem_append.mp hmem with hmem | hmem
    · exact Or.inl (hbefore d hmem)
    · rw [List.mem_singleton] at hmem
      exact Or.inr ⟨rfl, by rw [hmem]; rfl⟩

/-- Passing the current token, once all its reports are made. -/
private theorem Ordered.pass (hall : all.Pairwise fun before token => before.offset < token.offset)
    (hordered : Ordered all reader) (hne : reader.ahead ≠ [])
    (hahead : later.ahead = reader.ahead.tail) (hend : later.endToken = reader.endToken)
    (hdiagnostics : later.diagnostics = reader.diagnostics) : Ordered all later := by
  obtain ⟨hproper, hsuffix, hpoints, hsorted, hbehind⟩ := hordered
  obtain ⟨token, behind, hcons⟩ := List.exists_cons_of_ne_nil hne
  have htail : later.ahead = behind := by rw [hahead, hcons, List.tail_cons]
  have hcurrent : reader.current = token := reader.current_of_ahead_eq_cons hcons
  rw [hcons, List.cons_append] at hsuffix
  -- The next token stands behind the current one, wherever the text ends.
  have hlt : reader.current.offset < later.current.offset := by
    have hsublist := (List.pairwise_cons.mp (hall.sublist hsuffix.sublist)).1
    rw [hcurrent]
    apply hsublist
    rw [current, htail, hend]
    cases behind <;> simp
  refine ⟨⟨?_, ?_⟩, ?_, ?_, ?_, ?_⟩
  · rw [hend]
    exact hproper.endToken_lexeme
  · rw [htail]
    intro other hmem
    exact hproper.ne_endOfInput other (by rw [hcons]; exact List.mem_cons_of_mem _ hmem)
  · rw [htail, hend]
    exact (List.suffix_cons _ _).trans hsuffix
  · rwa [hdiagnostics]
  · rwa [hdiagnostics]
  · rw [hdiagnostics]
    intro d hmem
    rcases hbehind d hmem with h | ⟨-, h⟩ <;> exact Or.inl (by omega)

private theorem Ordered.advance
    (hall : all.Pairwise fun before token => before.offset < token.offset)
    (hordered : Ordered all reader) (hne : reader.ahead ≠ []) : Ordered all reader.advance := by
  rcases reader.diagnostics_advance with hquiet | ⟨found, hlexeme, hreported, -, hstray⟩
  · exact hordered.pass hall hne reader.ahead_advance reader.endToken_advance hquiet
  · have hfits : (Cause.strayCharacter found).Fits reader.current.lexeme := hlexeme
    have hmarked := hordered.report hreported hfits
    refine hmarked.pass hall hne reader.ahead_advance reader.endToken_advance ?_
    rw [hstray, ← diagnostics_report]
    rfl

/-- One step keeps the order. -/
theorem Ordered.step (hall : all.Pairwise fun before token => before.offset < token.offset)
    (hordered : Ordered all reader) (hstep : Step reader later) : Ordered all later := by
  cases hstep with
  | advance hne => exact hordered.advance hall hne
  | complain wanted hinside =>
      cases hreported : reader.reported with
      | true =>
          have hsame : reader.complain wanted = reader := by rw [complain, if_pos hreported]
          rwa [hsame]
      | false =>
          have hfits := fits_complaint hordered.proper wanted hinside
          have hnew := hordered.report hreported hfits
          rwa [complain, if_neg (by simp [hreported])]
  | refuseName hname hreported => exact hordered.report hreported hname
  | refuseParen hparen hreported hdepth =>
      obtain ⟨behind, hahead⟩ := hordered.proper.ahead_eq_cons (by simp [hparen])
      have hfits : (Cause.tooDeep reader.limit).Fits reader.current.lexeme := hparen
      -- To report the parenthesis behind it comes to the same as to report it and pass it.
      have hmarked := hordered.report hreported hfits
      refine hmarked.pass hall (by simp [hahead, Reader.report]) ?_ ?_ ?_
      · simp [refuseParen, Reader.report]
      · simp [refuseParen, Reader.report]
      · rw [refuseParen, diagnostics_report,
          reader.diagnostics_advance_of_ne_unknown (by simp [hparen]), ← diagnostics_report]
        rfl
  | advanceInto hopens hdepth =>
      obtain ⟨behind, hahead⟩ := hordered.proper.ahead_eq_cons hopens.ne_endOfInput
      have hadvance := hordered.advance hall (by simp [hahead])
      exact hadvance.of_eq (by simp [advanceInto]) (by simp [advanceInto]) (by simp [advanceInto])
        (by simp [advanceInto])
  | leave => exact hordered.of_eq (by simp) (by simp) (by simp) (by simp)
  | recovered boundary skipped =>
      exact hordered.of_eq rfl rfl rfl (by simp [Event.diagnostic?])
  | kept s => exact hordered.of_eq rfl rfl rfl (by simp [Event.diagnostic?])

/-- The order is kept along every run. -/
theorem Ordered.steps (hall : all.Pairwise fun before token => before.offset < token.offset)
    (hordered : Ordered all reader) (hsteps : Steps reader later) : Ordered all later := by
  induction hsteps with
  | refl => exact hordered
  | tail _ hstep ih => exact ih.step hall hstep

/-- Where nothing is reported at the current token, all diagnostics point at tokens passed. -/
theorem Ordered.points_passed {passed : List Token} (hordered : Ordered all reader)
    (hall : all.Pairwise fun before token => before.offset < token.offset)
    (hsplit : all = passed ++ (reader.ahead ++ [reader.endToken]))
    (hreported : reader.reported = false) :
    ∀ d ∈ reader.diagnostics, ∃ token ∈ passed, d.PointsAt token := by
  intro d hmem
  obtain ⟨token, htoken, hpoints⟩ := hordered.points d hmem
  refine ⟨token, ?_, hpoints⟩
  rw [hsplit] at htoken hall
  refine (List.mem_append.mp htoken).resolve_right fun hahead => ?_
  have hbefore : token.offset < reader.current.offset := by
    have hbehind := hordered.behind d hmem
    rw [hpoints.span_eq] at hbehind
    simpa [hreported, Token.span] using hbehind
  -- The current token is the first of those that are not passed.
  have hle : reader.current.offset ≤ token.offset := by
    have hpairwise := (List.pairwise_append.mp hall).2.1
    cases hcurrent : reader.ahead with
    | nil =>
        rw [hcurrent, List.nil_append, List.mem_singleton] at hahead
        simp [current, hcurrent, hahead]
    | cons first behind =>
        rw [hcurrent, List.cons_append] at hahead hpairwise
        rw [reader.current_of_ahead_eq_cons hcurrent]
        rcases List.mem_cons.mp hahead with rfl | hmem
        · exact le_rfl
        · exact ((List.pairwise_cons.mp hpairwise).1 token hmem).le
  omega

theorem ordered_start (source : String) (limit : Nat) :
    Ordered (Cursor.start source).tokenize (start source limit) :=
  ⟨(atStatement_start source limit).ready.proper, List.suffix_rfl, by simp, by simp, by simp⟩

theorem ordered_final (source : String) (limit : Nat) :
    Ordered (Cursor.start source).tokenize (final source limit) :=
  (ordered_start source limit).steps (Cursor.pairwise_offset_lt _) (steps_start source limit)

end Reader

/-! ## Diagnostics of a parse -/

/-- Things at different places that all stand where tokens do are no more than the tokens. -/
private theorem length_le_of_pairwise_start {diagnostics : List Diagnostic} {tokens : List Token}
    (hsorted : diagnostics.Pairwise fun d e => d.span.start < e.span.start)
    (hpoints : ∀ d ∈ diagnostics, ∃ token ∈ tokens, d.PointsAt token) :
    diagnostics.length ≤ tokens.length := by
  have hnodup : (diagnostics.map fun d => d.span.start).Nodup := by
    rw [List.nodup_iff_pairwise_ne, List.pairwise_map]
    exact hsorted.imp fun hlt => Nat.ne_of_lt hlt
  have hsubset :
      (diagnostics.map fun d => d.span.start) ⊆ tokens.map fun token => token.offset := by
    intro start hmem
    obtain ⟨d, hd, rfl⟩ := List.mem_map.mp hmem
    obtain ⟨token, htoken, hpointsAt⟩ := hpoints d hd
    rw [hpointsAt.span_eq]
    exact List.mem_map_of_mem htoken
  have hlength := (List.subperm_of_subset hnodup hsubset).length_le
  simpa using hlength

/-- The diagnostics of a parse are in the order of the text, no two of them at one token, and each
stands at a token that its cause fits. -/
theorem parse_diagnostics_ordered (source : String) (limit : Nat) :
    (parse source limit).diagnostics.Pairwise (fun d e => d.span.start < e.span.start) ∧
      (∀ d ∈ (parse source limit).diagnostics,
        ∃ token ∈ (Cursor.start source).tokenize, d.PointsAt token) ∧
      (parse source limit).diagnostics.length ≤ (Cursor.start source).tokenize.length := by
  have hordered := Reader.ordered_final source limit
  rw [parse_diagnostics_eq]
  exact ⟨hordered.sorted, hordered.points,
    length_le_of_pairwise_start hordered.sorted hordered.points⟩

end LoopLang
