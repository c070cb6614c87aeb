import LoopLang.Proofs.Outcome.FirstDiagnostic
import LoopLang.Proofs.Outcome.StrayCharacters

/-!
# Layout does not matter

Two texts may have the same lexemes at different places: blanks and lines between them make no
difference to what is read, nor to what is reported about it (`parse_layout`).

Tokens at the same place of the two lists match (`Token.Matches`).  Two readers are alike when the
tokens in front of them match one by one, and so do those that their reports point at
(`Reader.Alike`).  Every step keeps them alike, since a reader looks at lexemes only; where it names
a place in a report, that place is the only difference.
-/

namespace LoopLang

/-! ## Tokens and reports that match -/

/-- The cause without the place it names, if it names one. -/
def Cause.bare : Cause → Cause
  | unterminated construct _ expected => unterminated construct .first expected
  | cause => cause

section

variable (tokens others : List Token)

/-- Two tokens stand at the same place of two lists, and have the same lexeme. -/
def Token.Matches (token other : Token) : Prop :=
  token.lexeme = other.lexeme ∧ ∃ i : Nat, tokens[i]? = some token ∧ others[i]? = some other

/-- Two diagnostics tell the same about tokens at the same place of two lists. -/
def Diagnostic.Matches (d e : Diagnostic) : Prop :=
  d.cause.bare = e.cause.bare ∧
    ∃ (i : Nat) (token other : Token), tokens[i]? = some token ∧ others[i]? = some other ∧
      d.PointsAt token ∧ e.PointsAt other

/-- Two diagnostics tell the same, and stand where two tokens do that match. -/
def Diagnostic.StandsLike (d e : Diagnostic) : Prop :=
  d.cause.bare = e.cause.bare ∧ ∃ token other, Token.Matches tokens others token other ∧
    (d.location = token.location ∧ d.span = token.span) ∧
    (e.location = other.location ∧ e.span = other.span)

end

variable {tokens others : List Token}

/-- Lists with the same lexemes match token by token. -/
private theorem forall₂_matches (hlexemes : tokens.map Token.lexeme = others.map Token.lexeme) :
    List.Forall₂ (Token.Matches tokens others) tokens others := by
  have hlength : tokens.length = others.length := by
    simpa using congrArg List.length hlexemes
  rw [List.forall₂_iff_get]
  refine ⟨hlength, fun i hi hi' => ⟨?_, i, ?_, ?_⟩⟩
  · simpa [hi, hi'] using congrArg (·[i]?) hlexemes
  · simp [hi]
  · simp [hi']

private theorem Token.Matches.strayReport? {token other : Token}
    (hmatches : Token.Matches tokens others token other) :
    Option.Rel (Diagnostic.StandsLike tokens others) token.strayReport? other.strayReport? := by
  unfold Token.strayReport?
  rw [hmatches.1]
  split
  · exact .some ⟨rfl, token, other, hmatches, ⟨rfl, rfl⟩, rfl, rfl⟩
  · exact .none

/-! ## Readers in step -/

namespace Reader

variable {x y x' y' : Reader}

/-- Two readers with tokens in front of them that match, in the same constructs, that have reported
the same about tokens that match. -/
structure Alike (tokens others : List Token) (x y : Reader) : Prop where
  proper : x.Proper ∧ y.Proper
  sight : List.Forall₂ (Token.Matches tokens others) x.sight y.sight
  reported_eq : x.reported = y.reported
  constructs_eq : x.enclosing.map Opening.construct = y.enclosing.map Opening.construct
  depth_eq : x.depth = y.depth
  limit_eq : x.limit = y.limit
  diagnostics : List.Forall₂ (Diagnostic.StandsLike tokens others) x.diagnostics y.diagnostics

namespace Alike

theorem current (halike : Alike tokens others x y) :
    Token.Matches tokens others x.current y.current := by
  have hsight := halike.sight
  obtain ⟨rest, hx⟩ := x.exists_sight
  obtain ⟨rest', hy⟩ := y.exists_sight
  rw [hx, hy] at hsight
  exact (List.forall₂_cons.mp hsight).1

private theorem ahead_ne_nil (halike : Alike tokens others x y) (hahead : x.ahead ≠ []) :
    y.ahead ≠ [] := by
  rw [Ne, ← halike.proper.2.current_lexeme_eq_endOfInput_iff, ← halike.current.1,
    halike.proper.1.current_lexeme_eq_endOfInput_iff]
  exact hahead

/-- A step that leaves the tokens alone keeps the readers alike. -/
private theorem of_eq (halike : Alike tokens others x y)
    (hfirst : x'.ahead = x.ahead ∧ x'.endToken = x.endToken ∧ x'.limit = x.limit)
    (hsecond : y'.ahead = y.ahead ∧ y'.endToken = y.endToken ∧ y'.limit = y.limit)
    (hreported : x'.reported = y'.reported)
    (hconstructs : x'.enclosing.map Opening.construct = y'.enclosing.map Opening.construct)
    (hdepth : x'.depth = y'.depth)
    (hdiagnostics : List.Forall₂ (Diagnostic.StandsLike tokens others) x'.diagnostics
      y'.diagnostics) : Alike tokens others x' y' := by
  obtain ⟨hahead, hend, hlimit⟩ := hfirst
  obtain ⟨hahead', hend', hlimit'⟩ := hsecond
  refine ⟨⟨halike.proper.1.of_eq hahead hend, halike.proper.2.of_eq hahead' hend'⟩, ?_,
    hreported, hconstructs, hdepth, ?_, hdiagnostics⟩
  · rw [Reader.sight, Reader.sight, hahead, hend, hahead', hend']
    exact halike.sight
  · rw [hlimit, hlimit', halike.limit_eq]

/-- One more report, about the current tokens. -/
private theorem diagnostics_append (halike : Alike tokens others x y) {cause cause' : Cause}
    (hcause : cause.bare = cause'.bare) :
    List.Forall₂ (Diagnostic.StandsLike tokens others)
      (x.diagnostics ++ [⟨cause, x.current.location, x.current.span⟩])
      (y.diagnostics ++ [⟨cause', y.current.location, y.current.span⟩]) :=
  List.rel_append halike.diagnostics
    (.cons ⟨hcause, x.current, y.current, halike.current, ⟨rfl, rfl⟩, rfl, rfl⟩ .nil)

private theorem advance (halike : Alike tokens others x y) (hahead : x.ahead ≠ []) :
    Alike tokens others x.advance y.advance := by
  have hother := halike.ahead_ne_nil hahead
  have hsight := halike.sight
  rw [sight_eq_cons_of_ahead hahead, sight_eq_cons_of_ahead hother, List.forall₂_cons] at hsight
  refine ⟨⟨halike.proper.1.steps steps_advance, halike.proper.2.steps steps_advance⟩, hsight.2,
    ?_, ?_, ?_, ?_, ?_⟩
  · rw [x.reported_advance hahead, y.reported_advance hother]
  · rw [enclosing_advance, enclosing_advance, halike.constructs_eq]
  · rw [depth_advance, depth_advance, halike.depth_eq]
  · rw [limit_advance, limit_advance, halike.limit_eq]
  · obtain ⟨token, behind, hx⟩ := List.exists_cons_of_ne_nil hahead
    obtain ⟨other, behind', hy⟩ := List.exists_cons_of_ne_nil hother
    have hreports := hsight.1.strayReport?
    rw [diagnostics_advance_eq hx, diagnostics_advance_eq hy, halike.reported_eq,
      ← x.current_of_ahead_eq_cons hx, ← y.current_of_ahead_eq_cons hy]
    -- Both tokens are stray characters, or neither is.
    refine List.rel_append halike.diagnostics ?_
    generalize x.current.strayReport? = report at hreports
    generalize y.current.strayReport? = report' at hreports
    cases hreports with
    | none => split <;> exact .nil
    | some hreport =>
        split
        · exact .nil
        · exact .cons hreport .nil

/-- The same is wrong with current tokens that match; only the place where the innermost construct
was opened may be another. -/
private theorem bare_complaint (halike : Alike tokens others x y) (wanted : Wanted) :
    (x.complaint wanted).bare = (y.complaint wanted).bare := by
  have hlexeme := halike.current.1
  have hconstructs := halike.constructs_eq
  unfold complaint
  rw [← hlexeme]
  cases x.current.lexeme with
  | endOfInput =>
      cases hx : x.enclosing with
      | nil =>
          rw [hx] at hconstructs
          rw [List.map_eq_nil_iff.mp hconstructs.symm]
      | cons opening enclosing =>
          rw [hx, List.map_cons] at hconstructs
          obtain ⟨other, enclosing', hy, hconstruct, -⟩ := List.map_eq_cons_iff.mp hconstructs.symm
          rw [hy]
          simp only [Cause.bare, hconstruct]
  | _ => rfl

private theorem complain (halike : Alike tokens others x y) (wanted : Wanted) :
    Alike tokens others (x.complain wanted) (y.complain wanted) := by
  refine halike.of_eq (by simp) (by simp) (by simp) (by simp [halike.constructs_eq])
    (by simp [halike.depth_eq]) ?_
  rw [diagnostics_complain, diagnostics_complain, halike.reported_eq]
  split
  · exact halike.diagnostics
  · exact halike.diagnostics_append (halike.bare_complaint wanted)

private theorem refuseName (halike : Alike tokens others x y) (name : String) :
    Alike tokens others (x.refuseName name) (y.refuseName name) := by
  refine halike.of_eq ⟨rfl, rfl, rfl⟩ ⟨rfl, rfl, rfl⟩ rfl halike.constructs_eq halike.depth_eq ?_
  rw [diagnostics_refuseName, diagnostics_refuseName]
  exact halike.diagnostics_append rfl

private theorem refuseParen (halike : Alike tokens others x y)
    (hparen : x.current.lexeme = .mark .openParen) :
    Alike tokens others x.refuseParen y.refuseParen := by
  have hahead : x.ahead ≠ [] := fun hnil => by
    simp [halike.proper.1.current_lexeme_eq_endOfInput_iff.mpr hnil] at hparen
  have hpassed := halike.advance hahead
  refine hpassed.of_eq ⟨rfl, rfl, rfl⟩ ⟨rfl, rfl, rfl⟩ hpassed.reported_eq hpassed.constructs_eq
    hpassed.depth_eq ?_
  -- The report is about the parenthesis, which has been passed without one.
  have hother : y.current.lexeme = .mark .openParen := halike.current.1 ▸ hparen
  rw [Reader.refuseParen, diagnostics_report, Reader.refuseParen, diagnostics_report,
    x.diagnostics_advance_of_ne_unknown (by simp [hparen]),
    y.diagnostics_advance_of_ne_unknown (by simp [hother])]
  exact halike.diagnostics_append (by rw [halike.limit_eq])

private theorem enter (halike : Alike tokens others x y) (construct : Construct) (l l' : Location) :
    Alike tokens others ((x.descendInto construct).enter ⟨construct, l⟩)
      ((y.descendInto construct).enter ⟨construct, l'⟩) :=
  halike.of_eq (by simp) (by simp) (by simp [halike.reported_eq]) (by simp [halike.constructs_eq])
    (by simp [depth_descendInto, halike.depth_eq]) (by simpa using halike.diagnostics)

private theorem leave (halike : Alike tokens others x y) (construct : Construct) :
    Alike tokens others (x.leaveFrom construct) (y.leaveFrom construct) :=
  halike.of_eq (by simp) (by simp) (by simp [halike.reported_eq])
    (by simp [List.map_tail, halike.constructs_eq]) (by simp [halike.depth_eq])
    (by simpa using halike.diagnostics)

/-- Other events than reports keep the readers alike. -/
private theorem record (halike : Alike tokens others x y) {event other : Event}
    (hevent : event.diagnostic? = none) (hother : other.diagnostic? = none) :
    Alike tokens others (x.record event) (y.record other) :=
  halike.of_eq ⟨rfl, rfl, rfl⟩ ⟨rfl, rfl, rfl⟩ halike.reported_eq halike.constructs_eq
    halike.depth_eq (by simpa [hevent, hother] using halike.diagnostics)

end Alike

private theorem alike_start {source other : String} (limit : Nat)
    (hlexemes : (Cursor.start source).tokenize.map Token.lexeme =
      (Cursor.start other).tokenize.map Token.lexeme) :
    Alike (Cursor.start source).tokenize (Cursor.start other).tokenize (start source limit)
      (start other limit) where
  proper := ⟨(atStatement_start source limit).ready.proper,
    (atStatement_start other limit).ready.proper⟩
  sight := forall₂_matches hlexemes
  reported_eq := rfl
  constructs_eq := rfl
  depth_eq := rfl
  limit_eq := rfl
  diagnostics := .nil

end Reader

/-! ## Runs on texts with the same lexemes -/

open Reader

/-- Two runs on texts with the same lexemes. -/
def Simulation.layout (tokens others : List Token) : Simulation where
  first := fun _ => .first
  second := fun _ => .first
  InStep := Alike tokens others
  Parted := fun _ _ => False
  Rooms := Eq
  proper := Alike.proper
  lexeme_eq := fun halike => halike.current.1
  location_eq := fun _ => rfl
  rooms_left := fun halike => by rw [halike.limit_eq, halike.depth_eq]
  rooms_pred := Nat.succ.inj
  near_advance := fun halike hahead => Or.inl (halike.advance hahead)
  inStep_complain := Alike.complain
  inStep_refuseName := fun halike name _ => halike.refuseName name
  near_refuseParen := fun halike hparen _ => Or.inl (halike.refuseParen hparen)
  parted_refuseParen_first := fun _ _ _ hrooms => absurd hrooms (by simp)
  parted_refuseParen_second := fun _ _ _ hrooms => absurd hrooms (by simp)
  inStep_enter := fun halike construct _ _ _ => halike.enter construct _ _
  inStep_leave := Alike.leave
  inStep_recovered := fun halike _ _ => halike.record rfl rfl
  inStep_kept := fun halike _ _ _ => halike.record rfl rfl
  parted_frames := fun hparted _ _ => hparted

/-- A report with the span of a token points at that token. -/
private theorem pointsAt_of_span_eq {source : String} {limit : Nat} {d : Diagnostic}
    (hmem : d ∈ (parse source limit).diagnostics) {token : Token}
    (htoken : token ∈ (Cursor.start source).tokenize) (hspan : d.span = token.span) :
    d.PointsAt token := by
  obtain ⟨other, hother, hpoints⟩ := (parse_diagnostics_ordered source limit).2.1 d hmem
  obtain rfl := eq_of_span_eq htoken hother (hspan.symm.trans hpoints.span_eq)
  exact hpoints

/-- Two texts with the same lexemes are read as the same program, up to locations, with the same
s-expression and the same canonical text; and the same is reported about them, report by report,
each pair at the same place of the two lists of tokens. -/
theorem parse_layout {source other : String}
    (hlexemes : (Cursor.start source).tokenize.map Token.lexeme =
      (Cursor.start other).tokenize.map Token.lexeme) (limit : Nat) :
    (parse source limit).program.bare = (parse other limit).program.bare ∧
      (parse source limit).program.sexpr.text = (parse other limit).program.sexpr.text ∧
      (parse source limit).program.text = (parse other limit).program.text ∧
      List.Forall₂
        (Diagnostic.Matches (Cursor.start source).tokenize (Cursor.start other).tokenize)
        (parse source limit).diagnostics (parse other limit).diagnostics := by
  have hstep : (Simulation.layout (Cursor.start source).tokenize
      (Cursor.start other).tokenize).InStep (start source limit) (start other limit) :=
    alike_start limit hlexemes
  rcases Simulation.program_meets hstep with ⟨hsame, hlast⟩ | hparted
  · -- The readers never part, so at the end the programs and the reports match.
    have hbare : (parse source limit).program.bare = (parse other limit).program.bare := hsame
    have halike : Alike (Cursor.start source).tokenize (Cursor.start other).tokenize
        (final source limit) (final other limit) := hlast
    refine ⟨hbare, congrArg Sexpr.text (Program.sexpr_eq_of_bare_eq hbare),
      Program.text_eq_of_bare_eq hbare, ?_⟩
    obtain ⟨hlength, hpairs⟩ := List.forall₂_iff_zip.mp halike.diagnostics
    refine List.forall₂_iff_zip.mpr ⟨hlength, fun {d e} hmem => ?_⟩
    obtain ⟨hd, he⟩ := List.of_mem_zip hmem
    obtain ⟨hcause, token, token', ⟨-, i, htoken, htoken'⟩, hplace, hplace'⟩ := hpairs hmem
    exact ⟨hcause, i, token, token', htoken, htoken',
      pointsAt_of_span_eq hd (List.mem_of_getElem? htoken) hplace.2,
      pointsAt_of_span_eq he (List.mem_of_getElem? htoken') hplace'.2⟩
  · exact hparted.elim

/-- Two broken texts with the same lexemes, the second one with other blanks and on other lines: the
places differ, and the rest is the same. -/
theorem parse_layout_two_lines :
    (Cursor.start "a=1 2;if b>0:begin c=a;").tokenize.map Token.lexeme =
        (Cursor.start "a = 1 2 ;\nif b > 0 : begin\n  c = a;\n").tokenize.map Token.lexeme ∧
      (parse "a=1 2;if b>0:begin c=a;" 1).diagnostics.map (·.cause) =
        [.unexpected "';' after assignment" "number 2",
          .unterminated "'if' block" ⟨1, 7⟩ "'end'"] ∧
      (parse "a = 1 2 ;\nif b > 0 : begin\n  c = a;\n" 1).diagnostics.map (·.cause) =
        [.unexpected "';' after assignment" "number 2",
          .unterminated "'if' block" ⟨2, 1⟩ "'end'"] ∧
      List.Forall₂
        (Diagnostic.Matches (Cursor.start "a=1 2;if b>0:begin c=a;").tokenize
          (Cursor.start "a = 1 2 ;\nif b > 0 : begin\n  c = a;\n").tokenize)
        (parse "a=1 2;if b>0:begin c=a;" 1).diagnostics
        (parse "a = 1 2 ;\nif b > 0 : begin\n  c = a;\n" 1).diagnostics := by
  have hlexemes : (Cursor.start "a=1 2;if b>0:begin c=a;").tokenize.map Token.lexeme =
      (Cursor.start "a = 1 2 ;\nif b > 0 : begin\n  c = a;\n").tokenize.map Token.lexeme := by
    decide +kernel
  obtain ⟨-, -, -, hmatch⟩ := parse_layout hlexemes 1
  exact ⟨hlexemes, by decide +kernel, by decide +kernel, hmatch⟩

end LoopLang
