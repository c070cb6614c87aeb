import LoopLang.Proofs.Outcome.Run

/-!
# Stray characters

Each character outside the language is reported once, wherever it stands
(`parse_strayCharacters`).  What carries this through a run is `Reader.strays`: the stray characters
reported so far, followed by those that are still to be reported.  A step moves a character from the
second part to the first, at the latest when it passes the character, and changes nothing else of
the list.
-/

namespace LoopLang

/-! ## Reports of stray characters -/

/-- Whether a diagnostic is about a character outside the language. -/
def Diagnostic.isStray (d : Diagnostic) : Bool :=
  match d.cause with
  | .strayCharacter _ => true
  | _ => false

/-- The diagnostic for a token that is a character outside the language. -/
def Token.strayReport? (token : Token) : Option Diagnostic :=
  match token.lexeme with
  | .unknown found => some ⟨.strayCharacter found, token.location, token.span⟩
  | _ => none

namespace Reader

variable {reader later : Reader}

/-- The reports that are still to be made about tokens in front of the reader. -/
def pendingStrays (reader : Reader) : List Diagnostic :=
  (if reader.reported then reader.ahead.tail else reader.ahead).filterMap Token.strayReport?

/-- The reports about stray characters that were made, and those that are still to be made. -/
def strays (reader : Reader) : List Diagnostic :=
  reader.diagnostics.filter Diagnostic.isStray ++ reader.pendingStrays

/-- Strays depend on nothing but the diagnostics and the tokens ahead. -/
private theorem strays_congr (hahead : later.ahead = reader.ahead)
    (hreported : later.reported = reader.reported)
    (hdiagnostics : later.diagnostics = reader.diagnostics) : later.strays = reader.strays := by
  rw [strays, strays, pendingStrays, pendingStrays, hahead, hreported, hdiagnostics]

/-! ## What a step does to strays -/

/-- A report of the current token takes the token out of those still to be reported.  It is the
report of a stray character exactly if the token is one. -/
private theorem strays_report {cause : Cause} (hreported : reader.reported = false)
    (hstray : [(⟨cause, reader.current.location, reader.current.span⟩ : Diagnostic)].filter
      Diagnostic.isStray = (reader.ahead.head?.bind Token.strayReport?).toList) :
    ({ reader.report reader.current cause with reported := true } : Reader).strays =
      reader.strays := by
  have hdiagnostics : ({ reader.report reader.current cause with reported := true } :
      Reader).diagnostics = reader.diagnostics ++
        [⟨cause, reader.current.location, reader.current.span⟩] := by
    rw [← diagnostics_report]
    rfl
  have hpending : ({ reader.report reader.current cause with reported := true } :
      Reader).pendingStrays = reader.ahead.tail.filterMap Token.strayReport? := rfl
  rw [strays, hdiagnostics, hpending, List.filter_append, hstray, strays, pendingStrays, hreported]
  cases reader.ahead with
  | nil => simp
  | cons token behind => cases hreport : token.strayReport? <;> simp [hreport]

private theorem strays_complain (hproper : reader.Proper) (wanted : Wanted) :
    (reader.complain wanted).strays = reader.strays := by
  cases hreported : reader.reported with
  | true => rw [complain, if_pos hreported]
  | false =>
      rw [complain, if_neg (by simp [hreported])]
      refine strays_report hreported ?_
      -- At the end of input nothing is stray; elsewhere the complaint goes by the current token.
      cases hahead : reader.ahead with
      | nil =>
          have hlexeme := hproper.current_lexeme_eq_endOfInput_iff.mpr hahead
          cases henclosing : reader.enclosing <;>
            simp [complaint, hlexeme, henclosing, Diagnostic.isStray]
      | cons token behind =>
          rw [reader.current_of_ahead_eq_cons hahead, complaint,
            reader.current_of_ahead_eq_cons hahead]
          have hend := hproper.ne_endOfInput token (by simp [hahead])
          cases hlexeme : token.lexeme <;>
            simp_all [Diagnostic.isStray, Token.strayReport?]

theorem diagnostics_advance_eq {token : Token} {behind : List Token}
    (hahead : reader.ahead = token :: behind) :
    reader.advance.diagnostics = reader.diagnostics ++
      if reader.reported then [] else token.strayReport?.toList := by
  have hcurrent := reader.current_of_ahead_eq_cons hahead
  rw [advance, hahead]
  unfold reportStray
  rw [hcurrent]
  cases hlexeme : token.lexeme <;> cases hreported : reader.reported <;>
    simp [diagnostics, events, Event.diagnostic?, report, Token.strayReport?, hlexeme]

private theorem strays_advance (hahead : reader.ahead ≠ []) :
    reader.advance.strays = reader.strays := by
  obtain ⟨token, behind, hcons⟩ := List.exists_cons_of_ne_nil hahead
  have hfilter : (token.strayReport?.toList).filter Diagnostic.isStray =
      token.strayReport?.toList := by
    unfold Token.strayReport?
    split <;> rfl
  rw [strays, pendingStrays, reader.reported_advance hahead, ahead_advance,
    diagnostics_advance_eq hcons, strays, pendingStrays, hcons]
  cases hreported : reader.reported with
  | true => simp
  | false =>
      cases hreport : token.strayReport? with
      | none => simp [hreport]
      | some d =>
          rw [hreport] at hfilter
          simp_all

private theorem strays_refuseParen (hproper : reader.Proper)
    (hparen : reader.current.lexeme = .mark .openParen) :
    reader.refuseParen.strays = reader.strays := by
  obtain ⟨behind, hahead⟩ := hproper.ahead_eq_cons (by simp [hparen])
  have hdiagnostics : reader.refuseParen.diagnostics.filter Diagnostic.isStray =
      reader.advance.diagnostics.filter Diagnostic.isStray := by
    rw [refuseParen, diagnostics_report, List.filter_append]
    simp [Diagnostic.isStray]
  have hpending : reader.refuseParen.pendingStrays = reader.advance.pendingStrays := rfl
  rw [strays, hdiagnostics, hpending, ← strays, strays_advance (by simp [hahead])]

/-- One step keeps the stray characters, reported or not. -/
private theorem strays_step (hproper : reader.Proper) (hstep : Step reader later) :
    later.strays = reader.strays := by
  cases hstep with
  | advance hahead => exact strays_advance hahead
  | complain wanted => exact strays_complain hproper wanted
  | refuseName hname hreported =>
      obtain ⟨behind, hahead⟩ := hproper.ahead_eq_cons (by simp [hname])
      exact strays_report hreported (by
        simp [hahead, hname, Diagnostic.isStray, Token.strayReport?])
  | refuseParen hparen => exact strays_refuseParen hproper hparen
  | advanceInto hopens hdepth =>
      obtain ⟨behind, hahead⟩ := hproper.ahead_eq_cons hopens.ne_endOfInput
      rw [← @strays_advance reader (by simp [hahead])]
      exact strays_congr (by simp [advanceInto]) (by simp [advanceInto]) (by simp [advanceInto])
  | leave => exact strays_congr (by simp) (by simp) (by simp)
  | recovered boundary skipped =>
      exact strays_congr rfl rfl (by simp [Event.diagnostic?])
  | kept s => exact strays_congr rfl rfl (by simp [Event.diagnostic?])

/-- A whole run keeps them. -/
theorem strays_steps (hproper : reader.Proper) (hsteps : Steps reader later) :
    later.strays = reader.strays := by
  induction hsteps with
  | refl => rfl
  | tail hsteps hstep ih => rw [strays_step (hproper.steps hsteps) hstep, ih]

end Reader

/-! ## Stray characters of a text -/

/-- The reports of stray characters are those of the stray characters of the text, one for each and
in their order. -/
theorem parse_strayCharacters (source : String) (limit : Nat) :
    (parse source limit).diagnostics.filter Diagnostic.isStray =
      (Cursor.start source).tokenize.filterMap Token.strayReport? := by
  have hat := Reader.atStatement_start source limit
  have hlast : (Reader.final source limit).ahead = [] := by
    obtain ⟨outcomes, later, -, hresult, hahead⟩ := Reader.program_apply hat
    rw [Reader.final, hresult, hahead]
  have hstrays := Reader.strays_steps hat.ready.proper (Reader.steps_start source limit)
  have hend : (Cursor.start source).endToken.strayReport? = none := rfl
  have hstart : (Reader.start source limit).pendingStrays =
      (Cursor.start source).tokens.filterMap Token.strayReport? := rfl
  have hpending : (Reader.final source limit).pendingStrays = [] := by
    rw [Reader.pendingStrays, hlast]
    simp
  rw [Reader.strays, Reader.strays, hstart, hpending, Reader.diagnostics_start] at hstrays
  rw [parse_diagnostics_eq, Cursor.tokenize, List.filterMap_append]
  simpa [hend] using hstrays

end LoopLang
