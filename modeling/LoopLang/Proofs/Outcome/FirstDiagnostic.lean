import LoopLang.Proofs.Accepting.Statements
import LoopLang.Proofs.Grammar.Nesting
import LoopLang.Proofs.Outcome.Order
import LoopLang.Proofs.Simulation.Statements
import Mathlib.Data.List.Nodup

/-!
# The first diagnostic

The first diagnostic of a parse points at the first token that no valid text can have there: what is
before it can be continued to a valid text, and what ends with it cannot
(`parse_first_diagnostic`).

The tokens before it are viable because every rule refuses what it cannot continue with.  For the
other half, suppose that a valid text has the same lexemes up to the token.  Its parse is in step
with the given one as long as both see these lexemes (`Simulation.upTo`), so it reports something
there as well; but nothing is reported on a valid text.
-/

namespace LoopLang

open Grammar

/-! ## Passing a stray character -/

namespace Reader

variable {reader later x y : Reader} {offset : Nat}

private theorem diagnostics_advance_of_unknown (hahead : reader.ahead ≠ []) {found : Char}
    (hlexeme : reader.current.lexeme = .unknown found) (hreported : reader.reported = false) :
    reader.advance.diagnostics ≠ [] := by
  obtain ⟨token, behind, hcons⟩ := List.exists_cons_of_ne_nil hahead
  rw [advance, hcons]
  simp [reportStray, hlexeme, hreported, diagnostics, events, Event.diagnostic?, report]

/-- New diagnostics are about tokens in front of the reader. -/
private theorem Frame.mem_diagnostics (hframe : Frame reader later) {d : Diagnostic}
    (hmem : d ∈ later.diagnostics) :
    d ∈ reader.diagnostics ∨
      ∃ token ∈ reader.sight, d.location = token.location ∧ d.span = token.span := by
  obtain ⟨events, hevents, hconcern⟩ := hframe.log_eq
  rw [diagnostics, Reader.events, hevents, List.reverse_append, List.filterMap_append,
    List.mem_append] at hmem
  rcases hmem with hmem | hmem
  · exact Or.inl hmem
  · right
    obtain ⟨event, hevent, hd⟩ := List.mem_filterMap.mp hmem
    have hconcerns := hconcern event (List.mem_reverse.mp hevent)
    cases event with
    | reported e =>
        obtain rfl : e = d := Option.some.inj hd
        exact hconcerns
    | _ => cases hd

/-! ## Readers that share what is in front of them -/

theorem exists_sight (reader : Reader) : ∃ rest, reader.sight = reader.current :: rest := by
  cases hahead : reader.ahead <;> simp [sight, current, hahead]

theorem sight_eq_cons_of_ahead (hahead : reader.ahead ≠ []) :
    reader.sight = reader.current :: reader.advance.sight := by
  obtain ⟨token, behind, hcons⟩ := List.exists_cons_of_ne_nil hahead
  simp [sight, hcons, reader.current_of_ahead_eq_cons hcons]

/-- Two readers that see the same lexemes up to a token at `offset`, and have not reported anything
unless both have. -/
structure Shares (offset : Nat) (x y : Reader) : Prop where
  proper_first : x.Proper
  proper_second : y.Proper
  shared : ∃ lexeme lexemes, lexeme :: lexemes <+: x.sight.map (·.lexeme) ∧
    lexeme :: lexemes <+: y.sight.map (·.lexeme) ∧
    ∀ token ∈ x.sight.drop (lexemes.length + 1), offset < token.offset
  reported_eq : x.reported = y.reported
  depth_eq : x.depth = y.depth
  limit_eq : x.limit = y.limit
  quiet_iff : x.diagnostics = [] ↔ y.diagnostics = []

/-- The second reader has reported something, or the first has nothing in front of it and has
reported nothing but what lies behind the token at `offset`. -/
def PassedBy (offset : Nat) (x y : Reader) : Prop :=
  y.diagnostics ≠ [] ∨
    (∀ token ∈ x.sight, offset < token.offset) ∧ ∀ d ∈ x.diagnostics, offset < d.span.start

private theorem Shares.lexeme_eq (hshares : Shares offset x y) :
    x.current.lexeme = y.current.lexeme := by
  obtain ⟨lexeme, lexemes, ⟨others, hfirst⟩, ⟨more, hsecond⟩, -⟩ := hshares.shared
  obtain ⟨rest, hx⟩ := x.exists_sight
  obtain ⟨rest', hy⟩ := y.exists_sight
  rw [hx, List.map_cons, List.cons_append] at hfirst
  rw [hy, List.map_cons, List.cons_append] at hsecond
  rw [← (List.cons.inj hfirst).1, ← (List.cons.inj hsecond).1]

/-- Two readers share whatever the lexemes in front of both begin with. -/
theorem shares_of_prefix {lexemes : List Lexeme} (hne : lexemes ≠ []) (hx : x.Proper)
    (hy : y.Proper) (hfirst : lexemes <+: x.sight.map (·.lexeme))
    (hsecond : lexemes <+: y.sight.map (·.lexeme))
    (hbeyond : ∀ token ∈ x.sight.drop lexemes.length, offset < token.offset)
    (hreported : x.reported = y.reported) (hdepth : x.depth = y.depth) (hlimit : x.limit = y.limit)
    (hquiet : x.diagnostics = [] ↔ y.diagnostics = []) : Shares offset x y := by
  obtain ⟨lexeme, lexemes, rfl⟩ := List.exists_cons_of_ne_nil hne
  exact ⟨hx, hy, ⟨lexeme, lexemes, hfirst, hsecond, hbeyond⟩, hreported, hdepth, hlimit, hquiet⟩

/-- Readers whose places are the same as before share as much. -/
private theorem Shares.of_eq {x' y' : Reader} (hshares : Shares offset x y)
    (hfirst : x'.ahead = x.ahead ∧ x'.endToken = x.endToken ∧ x'.limit = x.limit)
    (hsecond : y'.ahead = y.ahead ∧ y'.endToken = y.endToken ∧ y'.limit = y.limit)
    (hreported : x'.reported = y'.reported) (hdepth : x'.depth = y'.depth)
    (hquiet : x'.diagnostics = [] ↔ y'.diagnostics = []) : Shares offset x' y' := by
  obtain ⟨hx, hy, hshared, -, -, hlimit, -⟩ := hshares
  refine ⟨hx.of_eq hfirst.1 hfirst.2.1, hy.of_eq hsecond.1 hsecond.2.1, ?_, hreported, hdepth, ?_,
    hquiet⟩
  · rwa [sight, sight, hfirst.1, hfirst.2.1, hsecond.1, hsecond.2.1]
  · rw [hfirst.2.2, hsecond.2.2, hlimit]

private theorem Shares.quiet_advance (hshares : Shares offset x y) (hfirst : x.ahead ≠ [])
    (hsecond : y.ahead ≠ []) : x.advance.diagnostics = [] ↔ y.advance.diagnostics = [] := by
  have hlexeme := hshares.lexeme_eq
  by_cases hstray : (∃ found, x.current.lexeme = .unknown found) ∧ x.reported = false
  · obtain ⟨⟨found, hunknown⟩, hreported⟩ := hstray
    have hx := diagnostics_advance_of_unknown hfirst hunknown hreported
    have hy := diagnostics_advance_of_unknown hsecond (hlexeme ▸ hunknown)
      (hshares.reported_eq ▸ hreported)
    exact iff_of_false hx hy
  · have hx : x.advance.diagnostics = x.diagnostics := by
      rcases x.diagnostics_advance with h | ⟨found, hunknown, hreported, -⟩
      · exact h
      · exact absurd ⟨⟨found, hunknown⟩, hreported⟩ hstray
    have hy : y.advance.diagnostics = y.diagnostics := by
      rcases y.diagnostics_advance with h | ⟨found, hunknown, hreported, -⟩
      · exact h
      · rw [← hlexeme] at hunknown
        rw [← hshares.reported_eq] at hreported
        exact absurd ⟨⟨found, hunknown⟩, hreported⟩ hstray
    rw [hx, hy]
    exact hshares.quiet_iff

/-- Two readers pass a token that they share: either they share the next one too, or the first one
is behind everything that was shared. -/
private theorem Shares.advance (hshares : Shares offset x y) (hfirst : x.ahead ≠ []) :
    Shares offset x.advance y.advance ∨ PassedBy offset x.advance y.advance := by
  have hsecond : y.ahead ≠ [] := by
    rw [Ne, ← hshares.proper_second.current_lexeme_eq_endOfInput_iff, ← hshares.lexeme_eq,
      hshares.proper_first.current_lexeme_eq_endOfInput_iff]
    exact hfirst
  have hquiet := hshares.quiet_advance hfirst hsecond
  obtain ⟨hx, hy, ⟨lexeme, lexemes, hprefix, hprefix', hbeyond⟩, -, hdepth, hlimit, -⟩ := hshares
  rw [sight_eq_cons_of_ahead hfirst] at hprefix hbeyond
  rw [sight_eq_cons_of_ahead hsecond] at hprefix'
  rw [List.drop_succ_cons] at hbeyond
  have hrest : lexemes <+: x.advance.sight.map (·.lexeme) := (List.cons_prefix_cons.mp hprefix).2
  have hrest' : lexemes <+: y.advance.sight.map (·.lexeme) := (List.cons_prefix_cons.mp hprefix').2
  cases lexemes with
  | nil =>
      -- That was the last token that is known to be shared.
      right
      by_cases hdiagnostics : y.advance.diagnostics = []
      · right
        rw [hquiet.mpr hdiagnostics]
        exact ⟨hbeyond, by simp⟩
      · exact Or.inl hdiagnostics
  | cons next lexemes =>
      left
      refine ⟨hx.steps steps_advance, hy.steps steps_advance,
        ⟨next, lexemes, hrest, hrest', hbeyond⟩, ?_, ?_, ?_, hquiet⟩
      · rw [x.reported_advance hfirst, y.reported_advance hsecond]
      · rw [x.depth_advance, y.depth_advance, hdepth]
      · rw [x.limit_advance, y.limit_advance, hlimit]

private theorem PassedBy.frames {x' y' : Reader} (hpassed : PassedBy offset x y)
    (hfirst : Frame x x') (hsecond : Frame y y') : PassedBy offset x' y' := by
  rcases hpassed with hreport | ⟨hsight, hdiagnostics⟩
  · exact Or.inl fun hnil => hreport (List.prefix_nil.mp (hnil ▸ hsecond.diagnostics_prefix))
  · right
    refine ⟨fun token hmem => hsight token (hfirst.sight_subset hmem), fun d hmem => ?_⟩
    rcases hfirst.mem_diagnostics hmem with hmem | ⟨token, hmem, -, hspan⟩
    · exact hdiagnostics d hmem
    · rw [hspan]
      exact hsight token hmem

end Reader

/-! ## Runs that share what is in front of them -/

open Reader

/-- Two runs that see the same lexemes up to a token at `offset`. -/
def Simulation.upTo (offset : Nat) : Simulation where
  first := fun _ => .first
  second := fun _ => .first
  InStep := Shares offset
  Parted := PassedBy offset
  Rooms := Eq
  proper := fun hshares => ⟨hshares.proper_first, hshares.proper_second⟩
  lexeme_eq := Shares.lexeme_eq
  location_eq := fun _ => rfl
  rooms_left := fun hshares => by rw [hshares.limit_eq, hshares.depth_eq]
  rooms_pred := Nat.succ.inj
  near_advance := Shares.advance
  inStep_complain := by
    intro x y hshares wanted
    refine hshares.of_eq ⟨by simp, by simp, by simp⟩ ⟨by simp, by simp, by simp⟩ (by simp)
      (by simp [hshares.depth_eq]) ?_
    rw [diagnostics_complain, diagnostics_complain, hshares.reported_eq]
    split
    · exact hshares.quiet_iff
    · simp
  inStep_refuseName := by
    intro x y hshares name _
    exact hshares.of_eq ⟨rfl, rfl, rfl⟩ ⟨rfl, rfl, rfl⟩ rfl hshares.depth_eq (by simp)
  near_refuseParen := by
    intro x y _ _ _
    exact Or.inr (Or.inl (by simp [refuseParen]))
  parted_refuseParen_first := fun _ _ _ hrooms => absurd hrooms (by simp)
  parted_refuseParen_second := fun _ _ _ hrooms => absurd hrooms (by simp)
  inStep_enter := by
    intro x y hshares construct l l' _
    refine hshares.of_eq ⟨by simp, by simp, by simp⟩ ⟨by simp, by simp, by simp⟩
      (by simpa using hshares.reported_eq) (by simp [depth_descendInto, hshares.depth_eq]) ?_
    simpa using hshares.quiet_iff
  inStep_leave := by
    intro x y hshares construct
    refine hshares.of_eq ⟨by simp, by simp, by simp⟩ ⟨by simp, by simp, by simp⟩
      (by simpa using hshares.reported_eq) (by simp [hshares.depth_eq]) ?_
    simpa using hshares.quiet_iff
  inStep_recovered := by
    intro x y hshares boundary skipped
    refine hshares.of_eq ⟨rfl, rfl, rfl⟩ ⟨rfl, rfl, rfl⟩ hshares.reported_eq
      hshares.depth_eq ?_
    simpa [Event.diagnostic?] using hshares.quiet_iff
  inStep_kept := by
    intro x y hshares s s' _
    refine hshares.of_eq ⟨rfl, rfl, rfl⟩ ⟨rfl, rfl, rfl⟩ hshares.reported_eq
      hshares.depth_eq ?_
    simpa [Event.diagnostic?] using hshares.quiet_iff
  parted_frames := PassedBy.frames

/-- Lexemes that are those of a valid list of tokens. -/
def IsValidText (limit : Nat) (lexemes : List Lexeme) : Prop :=
  ∃ tokens p, tokens.map (·.lexeme) = lexemes ∧ IsValid limit tokens p

/-- The first token of `behind`, or the end of input, is the first that cannot stand where it does:
`before` begins a valid text, and no valid text goes on with that token. -/
structure IsFirstError (limit : Nat) (before behind : List Token) : Prop where
  viable : ∃ rest, (∀ lexeme ∈ rest, lexeme.Lexical) ∧
    IsValidText limit (before.map (·.lexeme) ++ rest)
  refused : ∀ token others, behind = token :: others →
    ∀ rest, ¬ IsValidText limit (before.map (·.lexeme) ++ token.lexeme :: rest)
  not_valid : behind = [] → ¬ IsValidText limit (before.map (·.lexeme))

/-- A reader that is to read other tokens than those of a text. -/
def Reader.facing (source : String) (limit : Nat) (tokens : List Token) : Reader :=
  { start source limit with ahead := tokens }

/-- There is nothing to report about valid tokens. -/
private theorem quiet_of_isValid {limit : Nat} {valid : List Token} {p : Program}
    (hvalid : IsValid limit valid p) (source : String) :
    (facing source limit valid).Proper ∧
      (facing source limit valid).program.2.diagnostics = [] := by
  obtain ⟨hprogram, hdistinct⟩ := isValid_iff.mp hvalid
  have hknown := ((roomIsNesting_isSequence roomIsNesting_isStatement).bracketed hprogram).known
  have hproper : (facing source limit valid).Proper :=
    ⟨rfl, fun token hmem => (hknown token hmem).1⟩
  have hat : Rule.AtStatement limit (facing source limit valid) :=
    ⟨⟨hproper, rfl, rfl, rfl⟩, rfl, by simp [facing, start]⟩
  obtain ⟨-, hadvances⟩ := program_of_isProgram hat rfl hprogram hdistinct
  exact ⟨hproper, hadvances.diagnostics_eq⟩

/-- Whoever shares all lexemes up to the first diagnostic of a parse has something to report. -/
private theorem not_quiet_of_shares {source : String} {limit : Nat} {d : Diagnostic}
    {more : List Diagnostic} (hdiagnostics : (parse source limit).diagnostics = d :: more)
    {other : Reader} (hshares : Shares d.span.start (start source limit) other) :
    other.program.2.diagnostics ≠ [] := by
  have hfinal : (start source limit).program.2.diagnostics = d :: more := hdiagnostics
  have hstep : (Simulation.upTo d.span.start).InStep (start source limit) other := hshares
  intro hquiet
  rcases Simulation.program_meets hstep with ⟨-, hlast⟩ | hreport | ⟨-, hbehind⟩
  · rw [hlast.quiet_iff.mpr hquiet] at hfinal
    contradiction
  · exact hreport hquiet
  · rw [hfinal] at hbehind
    exact lt_irrefl _ (hbehind d List.mem_cons_self)

/-- A valid list of tokens does not begin with the lexemes of a text up to its first diagnostic. -/
theorem not_prefix_of_isValid {source : String} {limit : Nat} {before others : List Token}
    {token : Token} {d : Diagnostic} {more : List Diagnostic}
    (hdiagnostics : (parse source limit).diagnostics = d :: more)
    (htokens : (Cursor.start source).tokenize = before ++ token :: others)
    (hspan : d.span = token.span) {valid : List Token} {p : Program}
    (hvalid : IsValid limit valid p) :
    ¬ (before ++ [token]).map (·.lexeme) <+:
      valid.map (·.lexeme) ++ [(Cursor.start source).endToken.lexeme] := by
  intro hprefix
  obtain ⟨hproper, hquiet⟩ := quiet_of_isValid hvalid source
  have hbeyond : ∀ other ∈ others, d.span.start < other.offset := by
    have hsorted := Cursor.pairwise_offset_lt (Cursor.start source)
    rw [htokens] at hsorted
    rw [hspan]
    exact (List.pairwise_cons.mp (List.pairwise_append.mp hsorted).2.1).1
  have hsight : (start source limit).sight = (before ++ [token]) ++ others := by
    rw [List.append_assoc]
    exact htokens
  have hother : (facing source limit valid).sight.map (·.lexeme) =
      valid.map (·.lexeme) ++ [(Cursor.start source).endToken.lexeme] := List.map_append
  -- A run on the valid tokens would share everything up to the diagnostic, and has none.
  have hshares : Shares d.span.start (start source limit) (facing source limit valid) := by
    refine shares_of_prefix (by simp) (atStatement_start source limit).ready.proper hproper ?_
      (hother ▸ hprefix) ?_ rfl rfl rfl Iff.rfl
    · rw [hsight]
      exact (List.prefix_append _ _).map _
    · rw [hsight, List.length_map, List.drop_left]
      exact hbeyond
  exact not_quiet_of_shares hdiagnostics hshares hquiet

/-- Of tokens one behind the other only one stands at each place. -/
theorem eq_of_span_eq_of_pairwise {all : List Token} {token other : Token}
    (hall : all.Pairwise fun before token => before.offset < token.offset) (htoken : token ∈ all)
    (hother : other ∈ all) (hspan : token.span = other.span) : token = other := by
  have hnodup : (all.map (·.offset)).Nodup := by
    rw [List.nodup_iff_pairwise_ne, List.pairwise_map]
    exact hall.imp fun hlt => Nat.ne_of_lt hlt
  have hoffset : token.offset = other.offset := congrArg Span.start hspan
  exact List.inj_on_of_nodup_map hnodup htoken hother hoffset

/-- Only one token of a text stands at each place. -/
theorem eq_of_span_eq {source : String} {token other : Token}
    (htoken : token ∈ (Cursor.start source).tokenize)
    (hother : other ∈ (Cursor.start source).tokenize) (hspan : token.span = other.span) :
    token = other :=
  eq_of_span_eq_of_pairwise (Cursor.pairwise_offset_lt _) htoken hother hspan

/-- The first diagnostic points at a token behind others that begin a valid text. -/
theorem exists_viable {source : String} {limit : Nat} {d : Diagnostic} {more : List Diagnostic}
    (hdiagnostics : (parse source limit).diagnostics = d :: more) :
    ∃ before behind, (Cursor.start source).tokens = before ++ behind ∧
      d.PointsAt (behind.headD (Cursor.start source).endToken) ∧ Viable (IsValid limit) before := by
  have hfinal : (start source limit).program.2.diagnostics = d :: more := hdiagnostics
  rcases program_cases (atStatement_start source limit) rfl with ⟨hquiet, -⟩ | hrefuses
  · rw [hquiet, diagnostics_start] at hfinal
    contradiction
  obtain ⟨-, -, before, behind, cause, others, htokens, hviable, hreport, -⟩ := hrefuses
  rw [hfinal, diagnostics_start, List.nil_append] at hreport
  have hsource : (Cursor.start source).tokens = before ++ behind := htokens
  have hspan : d.span = (behind.headD (Cursor.start source).endToken).span := by
    rw [(List.cons.inj hreport).1]
    rfl
  have hmem : behind.headD (Cursor.start source).endToken ∈ (Cursor.start source).tokenize := by
    rw [Cursor.tokenize, hsource]
    cases behind <;> simp
  obtain ⟨token, htoken, hpoints⟩ := (ordered_final source limit).points d (by
    rw [final, hfinal]
    exact List.mem_cons_self)
  rw [eq_of_span_eq htoken hmem (hpoints.span_eq.symm.trans hspan)] at hpoints
  exact ⟨before, behind, hsource, hpoints, hviable.mono fun _ _ => isValid_iff.mpr⟩

/-- The first diagnostic points at the first token that cannot stand where it does. -/
theorem parse_first_diagnostic {source : String} {limit : Nat} {d : Diagnostic}
    {more : List Diagnostic} (hdiagnostics : (parse source limit).diagnostics = d :: more) :
    ∃ before behind, (Cursor.start source).tokens = before ++ behind ∧
      d.PointsAt (behind.headD (Cursor.start source).endToken) ∧
      IsFirstError limit before behind := by
  obtain ⟨before, behind, htokens, hpoints, hviable⟩ := exists_viable hdiagnostics
  refine ⟨before, behind, htokens, hpoints, ?_, ?_, ?_⟩
  · obtain ⟨rest, p, hlexical, hvalid⟩ := hviable
    exact ⟨rest.map (·.lexeme), by simpa using hlexical, before ++ rest, p, by simp, hvalid⟩
  · rintro token others rfl rest ⟨valid, p, hlexemes, hvalid⟩
    have htokenize : (Cursor.start source).tokenize =
        before ++ token :: (others ++ [(Cursor.start source).endToken]) := by
      rw [Cursor.tokenize, htokens]
      simp
    refine not_prefix_of_isValid hdiagnostics htokenize hpoints.span_eq hvalid ?_
    rw [hlexemes]
    simp
  · rintro rfl ⟨valid, p, hlexemes, hvalid⟩
    have htokenize : (Cursor.start source).tokenize =
        before ++ [(Cursor.start source).endToken] := by
      rw [Cursor.tokenize, htokens, List.append_nil]
    refine not_prefix_of_isValid hdiagnostics htokenize hpoints.span_eq hvalid ?_
    rw [hlexemes, List.map_append]
    exact List.prefix_rfl

/-- A name declared twice is refused where it stands for the second time. -/
theorem parse_first_diagnostic_duplicate :
    (parse "int a, a;" 1).diagnostics = [⟨.duplicate "a", ⟨1, 8⟩, ⟨7, 8⟩⟩] ∧
      ∃ before behind, (Cursor.start "int a, a;").tokens = before ++ behind ∧
        (⟨.duplicate "a", ⟨1, 8⟩, ⟨7, 8⟩⟩ : Diagnostic).PointsAt
          (behind.headD (Cursor.start "int a, a;").endToken) ∧
        IsFirstError 1 before behind := by
  have hdiagnostics : (parse "int a, a;" 1).diagnostics =
      [⟨.duplicate "a", ⟨1, 8⟩, ⟨7, 8⟩⟩] := by decide +kernel
  exact ⟨hdiagnostics, parse_first_diagnostic hdiagnostics⟩

end LoopLang
