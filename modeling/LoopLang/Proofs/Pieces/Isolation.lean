import LoopLang.Proofs.Outcome.Below
import LoopLang.Proofs.Pieces.Faults

/-!
# Pieces of a text

A text may be cut into pieces, each with a semicolon at its end and no other.  Where a rule for
lines recovers behind the next semicolon, it stays within its piece whatever is wrong with it, so
that each piece is kept or dropped by itself, and what is reported about it is due to it alone
(`Piece.Isolated`).

For one piece, this is shown in three steps:

* the rule reads the whole piece, or it fails in front of the semicolon, and then recovery passes
  what is left of the piece (`Rule.ReadsLines.passes_line`);
* what is read is a sentence and has no report, and what is dropped is none, for its fault is
  reported (`Rule.isolated_of_some`, `Rule.isolated_of_none`);
* both are seen by a reader that has reported nothing (`Rule.ReadsLines.exists_piece_of_quiet`),
  and what a reader did before makes no difference to a rule (`Rule.Ends.of_fresh`).

A loop of such a rule reads one piece with each turn, by induction over the pieces
(`Rule.attempted_pieces`).
-/

namespace LoopLang

variable {α : Type}

/-! ## What becomes of a piece -/

/-- Some tokens of a text, the sentence that was read of them unless they were dropped, and the
diagnostics reported about them. -/
structure Piece (α : Type) where
  tokens : List Token
  outcome : Option α
  reports : List Diagnostic

/-- What becomes of a piece is due to nothing but its own tokens.  It is kept if it is a sentence,
and then it has no report.  Each stray character of it is reported; and if it is dropped, its fault
is reported as well, with one more report unless the fault is a stray character itself. -/
structure Piece.Isolated (P : List Token → α → Prop) (piece : Piece α) : Prop where
  kept_iff : ∀ a, piece.outcome = some a ↔ P piece.tokens a
  quiet : piece.outcome ≠ none → piece.reports = []
  strays : piece.reports.filter Diagnostic.isStray = piece.tokens.filterMap Token.strayReport?
  fault : piece.outcome = none → ∃ before bad after, piece.tokens = before ++ bad :: after ∧
    IsFault P before bad ∧ (∃ d ∈ piece.reports, d.PointsAt bad) ∧
    (piece.reports.filter fun d => !d.isStray).length = if bad.strayReport?.isSome then 0 else 1
  points : ∀ d ∈ piece.reports, ∃ token ∈ piece.tokens, d.PointsAt token

/-- A diagnostic is about a stray character if and only if it points at one. -/
private theorem Diagnostic.PointsAt.isStray_eq {d : Diagnostic} {token : Token}
    (hpoints : d.PointsAt token) :
    d.isStray = token.strayReport?.isSome := by
  have hfits := hpoints.fits
  unfold Diagnostic.isStray Token.strayReport?
  cases hcause : d.cause with
  | unexpected expected found =>
      rw [hcause] at hfits
      obtain ⟨hknown, -, -⟩ := hfits
      cases hlexeme : token.lexeme with
      | unknown c => exact absurd hlexeme (hknown c)
      | _ => rfl
  | _ =>
      rw [hcause] at hfits
      simp only [Cause.Fits] at hfits
      rw [hfits]
      rfl

/-! ## Recovery behind a token -/

private theorem Boundary.skip_eq_of_verdict {boundary : Boundary} {front rest : List Token}
    {stop : Token} (hfurther : ∀ token ∈ front, boundary.verdict 0 token.lexeme = .further 0)
    (hstop : boundary.verdict 0 stop.lexeme = .behind) :
    boundary.skip (front ++ stop :: rest) = (front ++ [stop]).length := by
  rw [skip_eq_skipFrom]
  induction front with
  | nil => simp [skipFrom, hstop]
  | cons token front ih =>
      have hrest := ih fun other hmem => hfurther other (List.mem_cons_of_mem _ hmem)
      simp only [List.cons_append, skipFrom, hfurther token List.mem_cons_self, hrest,
        List.length_cons]

namespace Reader

variable {reader later : Reader} {boundary : Boundary} {tokens front rest : List Token}
  {stop : Token}
  {reports : List Diagnostic}

/-- Passing tokens reports nothing but stray characters. -/
private theorem exists_strays_advanceBy (reader : Reader) (count : Nat) :
    ∃ strays, (reader.advanceBy count).diagnostics = reader.diagnostics ++ strays ∧
      ∀ d ∈ strays, d.isStray = true := by
  induction count generalizing reader with
  | zero => exact ⟨[], by simp [advanceBy], by simp⟩
  | succ count ih =>
      obtain ⟨strays, hstrays, hall⟩ := ih reader.advance
      rcases reader.diagnostics_advance with hquiet | ⟨found, -, -, -, hfound⟩
      · exact ⟨strays, by rw [advanceBy, hstrays, hquiet], hall⟩
      · refine ⟨⟨.strayCharacter found, reader.current.location, reader.current.span⟩ :: strays, ?_,
          by simpa [Diagnostic.isStray] using hall⟩
        rw [advanceBy, hstrays, hfound, List.append_assoc, List.singleton_append]

/-- Recovery behind a token passes that token and those before it. -/
private theorem passes_recover
    (hfurther : ∀ token ∈ front, boundary.verdict 0 token.lexeme = .further 0)
    (hstop : boundary.verdict 0 stop.lexeme = .behind)
    (hahead : reader.ahead = front ++ stop :: rest) :
    ∃ strays, Passes (front ++ [stop]) strays reader (reader.recover boundary) ∧
      ∀ d ∈ strays, d.isStray = true := by
  have hskip : boundary.skip reader.ahead = (front ++ [stop]).length := by
    rw [hahead, Boundary.skip_eq_of_verdict hfurther hstop]
  obtain ⟨strays, hstrays, hall⟩ := reader.exists_strays_advanceBy (boundary.skip reader.ahead)
  refine ⟨strays, ⟨steps_recover, ?_, enclosing_recover, ?_, ?_⟩, hall⟩
  · rw [ahead_recover, hskip, hahead, List.append_cons, List.drop_left]
  · exact reported_advanceBy (by simp [hahead]) (by simp [hskip])
  · rw [← hstrays]
    simp [recover, Event.diagnostic?]

/-- The reports about stray characters on the way over some tokens are those of the stray characters
among them. -/
private theorem Passes.strays_eq (hproper : reader.Proper) (hreported : reader.reported = false)
    (hpasses : Passes tokens reports reader later) :
    reports.filter Diagnostic.isStray = tokens.filterMap Token.strayReport? := by
  have hstrays := strays_steps hproper hpasses.steps
  rw [strays, strays, pendingStrays, pendingStrays, hreported, hpasses.reported_eq,
    hpasses.diagnostics_eq, hpasses.ahead_eq] at hstrays
  simpa [List.filter_append, List.filterMap_append, ← List.append_assoc] using hstrays

/-- All reports on the way over some tokens point at them. -/
private theorem Passes.points (hproper : reader.Proper) (hquiet : reader.diagnostics = [])
    (hsorted : reader.Sorted) (hpasses : Passes tokens reports reader later) :
    ∀ d ∈ reports, ∃ token ∈ tokens, d.PointsAt token := by
  have hordered := (ordered_of_diagnostics_eq_nil hproper hquiet).steps hsorted hpasses.steps
  have hsplit : reader.sight = tokens ++ (later.ahead ++ [later.endToken]) := by
    rw [sight, hpasses.ahead_eq, hpasses.steps.frame.endToken_eq, List.append_assoc]
  have hpoints := hordered.points_passed hsorted hsplit hpasses.reported_eq
  rwa [hpasses.diagnostics_eq, hquiet, List.nil_append] at hpoints

end Reader

/-! ## Pieces and rules for lines -/

namespace Rule

open Reader

variable {room : Nat} {P : List Token → α → Prop} {move : (Location → Location) → α → α}
  {rule : Rule α} {reader : Reader} {boundary : Boundary} {line tokens rest : List Token}
  {semicolon : Token} {outcome : Option α} {reports : List Diagnostic}

/-- A rule does the same whatever was done before. -/
theorem Ends.of_fresh (hkeeps : ∀ S : Simulation, S.Keeps (S.Same move) rule rule)
    (hmove : move id = id) (hproper : reader.Proper) (hsteps : Steps reader (rule reader).2)
    (henclosing : (rule reader).2.enclosing = reader.enclosing)
    (hends : Ends reader.fresh tokens outcome reports (rule reader.fresh)) :
    Ends reader tokens outcome reports (rule reader) := by
  have hbelow : Below 0 0 reader.diagnostics reader.fresh reader :=
    ⟨⟨hproper.endToken_lexeme, hproper.ne_endOfInput⟩, by simp, rfl, rfl, by simp [Reader.fresh],
      rfl, rfl, by simp⟩
  obtain ⟨houtcome, hpasses⟩ := hends
  rcases hkeeps (Simulation.below 0 0 reader.diagnostics) hbelow with ⟨hrel, hlast⟩ | hparted
  · have hsame := Simulation.map_eq_of_rel hrel
    have hfirst : (Simulation.below 0 0 reader.diagnostics).first = id := Location.down_zero
    have hsecond : (Simulation.below 0 0 reader.diagnostics).second = id := rfl
    rw [hfirst, hsecond, hmove, Option.map_id, id, id] at hsame
    have hahead : (rule reader).2.ahead = (rule reader.fresh).2.ahead := by
      simpa using hlast.ahead_eq
    refine ⟨hsame.symm.trans houtcome, hsteps, ?_, henclosing, ?_, ?_⟩
    · rw [hahead]
      exact hpasses.ahead_eq
    · rw [hlast.reported_eq, hpasses.reported_eq]
    · rw [hlast.diagnostics_eq, hpasses.diagnostics_eq]
      simp
  · exact hparted.elim

/-- A line that is a sentence is a piece that is kept. -/
theorem isolated_of_some {a : α} (hlines : ReadsLines room P move rule) (hready : reader.Ready room)
    (hreported : reader.reported = false) (hP : P tokens a)
    (hahead : reader.ahead = tokens ++ rest) :
    (⟨tokens, some a, []⟩ : Piece α).Isolated P := by
  obtain ⟨later, hresult, hadvances⟩ := hlines.accepts hP hready hahead
  refine ⟨fun b => ⟨?_, fun hb => ?_⟩, fun _ => rfl, ?_, nofun, by simp⟩
  · rintro ⟨⟩
    exact hP
  · obtain ⟨other, hother, -⟩ := hlines.accepts hb hready hahead
    exact (congrArg Prod.fst (hresult.symm.trans hother) :)
  · exact hadvances.passes.strays_eq hready.proper hreported

/-- A line at which a rule fails is a piece that is dropped. -/
theorem isolated_of_none (hlines : ReadsLines room P move rule) (hready : reader.Ready room)
    (hreported : reader.reported = false) (hquiet : reader.diagnostics = [])
    (hsorted : reader.Sorted) (hline : Terminates line semicolon)
    (hahead : reader.ahead = line ++ semicolon :: rest) (hnone : (rule reader).1 = none)
    {strays : List Diagnostic} (hstrays : ∀ d ∈ strays, d.isStray = true) {later : Reader}
    (hpasses : reader.Passes (line ++ [semicolon]) ((rule reader).2.diagnostics ++ strays) later) :
    (⟨line ++ [semicolon], none, (rule reader).2.diagnostics ++ strays⟩ : Piece α).Isolated P := by
  obtain ⟨before, bad, after, d, hsplit, hfault, hreport, hpoints⟩ :=
    hlines.exists_fault hready hreported hquiet hsorted hline hahead hnone
  have hall := hpasses.points hready.proper hquiet hsorted
  have hstrayReports := hpasses.strays_eq hready.proper hreported
  rw [hreport] at hall hstrayReports ⊢
  refine ⟨fun a => ⟨nofun, fun hP => ?_⟩, nofun, hstrayReports, fun _ => ?_, hall⟩
  · obtain ⟨other, hother, -⟩ := hlines.accepts hP hready (by simpa using hahead)
    simp [hother] at hnone
  · refine ⟨before, bad, after, hsplit, hfault, ⟨d, by simp, hpoints⟩, ?_⟩
    have hothers : strays.filter (fun d => !d.isStray) = [] := by simpa using hstrays
    rw [List.filter_append, hothers, List.append_nil, ← hpoints.isStray_eq]
    cases hstray : d.isStray <;> simp [hstray]

/-- Recovery at a boundary stops behind a semicolon, and not at anything that a rule leaves of a
line before. -/
structure Recovers (room : Nat) (boundary : Boundary) (rule : Rule α) (line : List Token) :
    Prop where
  behind : boundary.verdict 0 (.mark .semicolon) = .behind
  further : ∀ {reader : Reader} {passed more rest : List Token}, reader.Ready room →
    reader.ahead = line ++ rest → line = passed ++ more → (rule reader).2.ahead = more ++ rest →
    ∀ token ∈ more, boundary.verdict 0 token.lexeme = .further 0

/-- Where a rule fails inside a line, recovery passes what is left of the line. -/
theorem ReadsLines.passes_line (hlines : ReadsLines room P move rule)
    (hrecovers : Recovers room boundary rule line) (hready : reader.Ready room)
    (hreported : reader.reported = false) (hquiet : reader.diagnostics = [])
    (hline : Terminates line semicolon) (hahead : reader.ahead = line ++ semicolon :: rest)
    (hnone : (rule reader).1 = none) :
    ∃ strays, (∀ d ∈ strays, d.isStray = true) ∧
      reader.Passes (line ++ [semicolon]) ((rule reader).2.diagnostics ++ strays)
        ((rule reader).2.recover boundary) := by
  obtain ⟨hsteps, henclosing⟩ := Yields.steps (hlines.yields hready hreported (by simp [hahead]))
  obtain ⟨passed, hpassed, hinside⟩ := hlines.stays hready hnone
  obtain ⟨more, rfl, hmore⟩ :=
    exists_append_of_first (hahead.symm.trans hpassed) hline.lexeme_eq hinside
  have hfurther := hrecovers.further hready hahead rfl hmore
  obtain ⟨strays, hpasses, hstrays⟩ :=
    Reader.passes_recover hfurther (hline.lexeme_eq ▸ hrecovers.behind) hmore
  refine ⟨strays, hstrays, hsteps.trans hpasses.steps, ?_, hpasses.enclosing_eq.trans henclosing,
    hpasses.reported_eq, ?_⟩
  · rw [hpassed, hpasses.ahead_eq]
    simp
  · rw [hpasses.diagnostics_eq, hquiet, List.nil_append]

/-- A rule that recovers behind the next semicolon reads one piece, if nothing was reported
before. -/
theorem ReadsLines.exists_piece_of_quiet (hlines : ReadsLines room P move rule)
    (hrecovers : Recovers room boundary rule line) (hready : reader.Ready room)
    (hreported : reader.reported = false) (hquiet : reader.diagnostics = [])
    (hsorted : reader.Sorted) (hline : Terminates line semicolon)
    (hahead : reader.ahead = line ++ semicolon :: rest) :
    ∃ piece : Piece α, piece.tokens = line ++ [semicolon] ∧ piece.Isolated P ∧
      Ends reader (line ++ [semicolon]) piece.outcome piece.reports
        (rule.recoveringBy (Reader.recover boundary) reader) := by
  have hread := hlines.yields hready hreported (by simp [hahead])
  unfold recoveringBy
  rcases hresult : rule reader with ⟨_ | a, later⟩
  · have hnone : (rule reader).1 = none := by rw [hresult]
    obtain ⟨strays, hstrays, hpasses⟩ :=
      hlines.passes_line hrecovers hready hreported hquiet hline hahead hnone
    have hisolated :=
      isolated_of_none hlines hready hreported hquiet hsorted hline hahead hnone hstrays hpasses
    rw [hresult] at hpasses hisolated
    exact ⟨_, rfl, hisolated, rfl, hpasses⟩
  · rw [hresult] at hread
    obtain ⟨tokens, hadvances, hP⟩ := hread
    obtain ⟨front, stop, rfl, hfront⟩ := hlines.line hP
    have hcut : front ++ stop :: later.ahead = line ++ semicolon :: rest := by
      rw [← hahead, hadvances.ahead_eq, List.append_cons]
    obtain ⟨rfl, rfl, -⟩ := hfront.unique hline hcut
    exact ⟨_, rfl, isolated_of_some hlines hready hreported hP hadvances.ahead_eq, rfl,
      hadvances.passes⟩

/-- A rule that recovers behind the next semicolon reads one piece. -/
theorem ReadsLines.exists_piece (hlines : ReadsLines room P move rule) (hmove : move id = id)
    (hrecovers : Recovers room boundary rule line) (hready : reader.Ready room)
    (hreported : reader.reported = false) (hsorted : reader.Sorted)
    (hline : Terminates line semicolon) (hahead : reader.ahead = line ++ semicolon :: rest) :
    ∃ piece : Piece α, piece.tokens = line ++ [semicolon] ∧ piece.Isolated P ∧
      Ends reader (line ++ [semicolon]) piece.outcome piece.reports
        (rule.recoveringBy (Reader.recover boundary) reader) := by
  have hkeeps : ∀ S : Simulation, S.Keeps (S.Same move)
      (rule.recoveringBy (Reader.recover boundary))
      (rule.recoveringBy (Reader.recover boundary)) := fun S =>
    (hlines.keeps S).recoveringBy (Simulation.near_recover boundary) fun _ => frame_recover _
  obtain ⟨hsteps, henclosing⟩ := Yields.steps
    (yields_recoveringBy (hlines.yields hready hreported (by simp [hahead]))
      (fun other => @steps_recover other boundary) fun _ => enclosing_recover)
  -- What the piece is can be seen from a reader that has nothing behind it.
  obtain ⟨piece, htokens, hisolated, hends⟩ := hlines.exists_piece_of_quiet hrecovers hready.fresh
    hreported reader.diagnostics_fresh hsorted hline hahead
  exact ⟨piece, htokens, hisolated, hends.of_fresh hkeeps hmove hready.proper hsteps henclosing⟩

/-! ## Loops over pieces -/

/-- A loop whose rule reads one piece with each turn reads any number of them. -/
theorem attempted_pieces {Inv : Reader → Prop} {Q : List Token → α → Prop} {more : Lexeme → Bool}
    (hrepeats : Repeats Inv Q more rule) (pieces : List (List Token))
    (hpiece : ∀ {reader : Reader} {piece rest : List Token}, piece ∈ pieces → Inv reader →
      reader.reported = false → reader.Sorted → reader.ahead = piece ++ rest →
      more reader.current.lexeme = true ∧ ∃ read : Piece α, read.tokens = piece ∧ read.Isolated P ∧
        Ends reader piece read.outcome read.reports (rule reader))
    (hinv : Inv reader) (hreported : reader.reported = false) (hsorted : reader.Sorted)
    (hahead : reader.ahead = pieces.flatten ++ rest) :
    ∃ (read : List (Piece α)) (later : Reader), read.map Piece.tokens = pieces ∧
      (∀ piece ∈ read, piece.Isolated P) ∧
      Attempted more rule reader (read.map Piece.outcome) later ∧
      reader.Passes pieces.flatten (read.flatMap Piece.reports) later ∧ Inv later := by
  induction pieces generalizing reader with
  | nil => exact ⟨[], reader, rfl, by simp, .refl, (Advances.refl hreported).passes, hinv⟩
  | cons piece pieces ih =>
      rw [List.flatten_cons, List.append_assoc] at hahead
      obtain ⟨hmore, read, rfl, hisolated, houtcome, hpasses⟩ :=
        hpiece List.mem_cons_self hinv hreported hsorted hahead
      have hnext := (hrepeats.passes hinv hmore).1
      obtain ⟨others, later, hothers, hall, hattempted, hrest, hlater⟩ :=
        ih (fun hmem => hpiece (List.mem_cons_of_mem _ hmem)) hnext hpasses.reported_eq
          (hsorted.frame hpasses.steps.frame) (hpasses.ahead_later hahead)
      refine ⟨read :: others, later, by rw [List.map_cons, hothers],
        by simpa using ⟨hisolated, hall⟩, ?_, hpasses.trans hrest, hlater⟩
      rw [List.map_cons, ← houtcome]
      exact .turn hmore hattempted

end Rule

end LoopLang
