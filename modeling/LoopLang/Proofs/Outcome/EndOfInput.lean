import LoopLang.Proofs.Outcome.FirstDiagnostic

/-!
# Errors at the end of the text

Only a construct that is still open can be missing something at the end of the text, and only the
first thing that is missing there is reported: such a report blames the innermost open construct,
and is the last one (`parse_end_of_input`).

Which constructs are open is told by the log: `openings` replays the events that enter and leave
one.  A step of a reader keeps this in line with the constructs that the reader itself remembers
(`Reader.Replayed`), so that the construct a report blames is the one the replay has innermost.
-/

namespace LoopLang

/-! ## Replaying a log -/

/-- The open constructs behind an event, innermost first. -/
def Event.track (enclosing : List Opening) : Event → List Opening
  | entered opening => opening :: enclosing
  | left opening => enclosing.erase opening
  | _ => enclosing

/-- The constructs that some events enter and do not leave, innermost first. -/
def openings (events : List Event) : List Opening := events.foldl Event.track []

@[simp] theorem openings_nil : openings [] = [] := rfl

@[simp] theorem openings_append_singleton (events : List Event) (event : Event) :
    openings (events ++ [event]) = event.track (openings events) := by
  simp [openings]

/-- A construct was opened by one of some tokens, and is located there. -/
def Opening.OpenedIn (tokens : List Token) (opening : Opening) : Prop :=
  ∃ token ∈ tokens, opening.construct.OpenedBy token.lexeme ∧ token.location = opening.location

/-- Whether a diagnostic is about a text that ends too early. -/
def Diagnostic.IsUnterminated (d : Diagnostic) : Prop :=
  ∃ construct openedAt expected, d.cause = .unterminated construct openedAt expected

/-- A diagnostic about a text that ends too early blames the innermost of the open constructs, which
one of the tokens opened. -/
def Diagnostic.Blames (tokens : List Token) (enclosing : List Opening) (d : Diagnostic) : Prop :=
  d.IsUnterminated → ∃ opening expected, enclosing.head? = some opening ∧
    d.cause = .unterminated opening.construct.text opening.location expected ∧
    opening.OpenedIn tokens

/-- Each report of a log blames what is open at its moment. -/
def BlamesInnermost (tokens : List Token) (events : List Event) : Prop :=
  ∀ before d after, events = before ++ .reported d :: after → d.Blames tokens (openings before)

private theorem BlamesInnermost.append_singleton {tokens : List Token} {events : List Event}
    {event : Event} (hevents : BlamesInnermost tokens events)
    (hevent : ∀ d, event = .reported d → d.Blames tokens (openings events)) :
    BlamesInnermost tokens (events ++ [event]) := by
  intro before d after heq
  rcases List.eq_nil_or_concat after with rfl | ⟨behind, last, rfl⟩
  · obtain ⟨rfl, hlast⟩ := List.append_inj' heq rfl
    exact hevent d (List.cons.inj hlast).1
  · rw [List.concat_eq_append, ← List.cons_append, ← List.append_assoc] at heq
    exact hevents before d behind (List.append_inj' heq rfl).1

private theorem Diagnostic.blames_of_cause {tokens : List Token} {enclosing : List Opening}
    {d : Diagnostic}
    (hcause : ∀ construct openedAt expected, d.cause ≠ .unterminated construct openedAt expected) :
    d.Blames tokens enclosing := by
  rintro ⟨construct, openedAt, expected, h⟩
  exact absurd h (hcause construct openedAt expected)

/-! ## What a step keeps -/

namespace Reader

variable {reader later : Reader} {tokens : List Token}

/-- The log of a reader and the constructs it remembers tell the same, and each of them was opened
by a token of the text. -/
structure Replayed (tokens : List Token) (reader : Reader) : Prop where
  subset : reader.ahead ⊆ tokens
  openings_eq : openings reader.events = reader.enclosing
  opened : ∀ opening ∈ reader.enclosing, opening.OpenedIn tokens
  blames : BlamesInnermost tokens reader.events

/-- One more event, which leaves the tokens alone. -/
private theorem Replayed.record (hreplayed : Replayed tokens reader) {event : Event}
    (hahead : later.ahead ⊆ reader.ahead) (hevents : later.events = reader.events ++ [event])
    (henclosing : later.enclosing = event.track reader.enclosing)
    (hopened : ∀ opening, event = .entered opening → opening.OpenedIn tokens)
    (hblames : ∀ d, event = .reported d → d.Blames tokens reader.enclosing) :
    Replayed tokens later := by
  obtain ⟨hsubset, hopenings, hall, hbefore⟩ := hreplayed
  refine ⟨List.Subset.trans hahead hsubset, ?_, ?_, ?_⟩
  · rw [hevents, openings_append_singleton, hopenings, henclosing]
  · rw [henclosing]
    intro opening hmem
    cases event with
    | entered other =>
        rcases List.mem_cons.mp hmem with rfl | hmem
        · exact hopened _ rfl
        · exact hall opening hmem
    | left other => exact hall opening (List.mem_of_mem_erase hmem)
    | _ => exact hall opening hmem
  · rw [hevents]
    exact hbefore.append_singleton fun d hd => hopenings ▸ hblames d hd

/-- One more report, about what is open. -/
private theorem Replayed.report (hreplayed : Replayed tokens reader) {token : Token} {cause : Cause}
    (hahead : later.ahead = reader.ahead)
    (hevents : later.events = (reader.report token cause).events)
    (henclosing : later.enclosing = reader.enclosing)
    (hblames : (⟨cause, token.location, token.span⟩ : Diagnostic).Blames tokens reader.enclosing) :
    Replayed tokens later := by
  refine hreplayed.record (hahead ▸ List.Subset.refl _) (hevents.trans (reader.events_record _))
    henclosing (by simp) ?_
  rintro d hd
  obtain rfl := Event.reported.inj hd
  exact hblames

/-- Only the end of the text makes a reader complain about a construct. -/
private theorem Replayed.blames_complaint (hproper : reader.Proper)
    (hreplayed : Replayed tokens reader) (wanted : Wanted)
    (hinside : reader.ahead = [] → reader.enclosing ≠ []) :
    (⟨reader.complaint wanted, reader.current.location, reader.current.span⟩ : Diagnostic).Blames
      tokens reader.enclosing := by
  have hopened := hreplayed.opened
  unfold complaint
  cases hlexeme : reader.current.lexeme with
  | endOfInput =>
      have hahead : reader.ahead = [] := hproper.current_lexeme_eq_endOfInput_iff.mp hlexeme
      obtain ⟨opening, enclosing, hcons⟩ := List.exists_cons_of_ne_nil (hinside hahead)
      rw [hcons] at hopened ⊢
      exact fun _ => ⟨opening, wanted.text, rfl, rfl, hopened opening List.mem_cons_self⟩
  | _ => exact Diagnostic.blames_of_cause (by simp)

private theorem Replayed.advance (hreplayed : Replayed tokens reader) :
    Replayed tokens reader.advance := by
  cases hahead : reader.ahead with
  | nil => rwa [reader.advance_of_ahead_eq_nil hahead]
  | cons token behind =>
      have hstray : Replayed tokens reader.reportStray := by
        rcases reader.reportStray_eq with hsame | ⟨found, -, -, hreport⟩
        · rwa [hsame]
        · rw [hreport]
          exact hreplayed.report rfl rfl rfl (Diagnostic.blames_of_cause (by simp))
      refine hstray.record ?_ (reader.events_advance hahead) ?_ (by simp) (by simp)
      · rw [ahead_advance]
        rcases reader.reportStray_eq with hsame | ⟨_, _, _, hsame⟩ <;> rw [hsame] <;>
          exact (List.tail_sublist _).subset
      · rw [enclosing_advance]
        rcases reader.reportStray_eq with hsame | ⟨_, _, _, hsame⟩ <;> rw [hsame] <;> rfl

/-- Levels of parentheses are counted behind the constructs that add them. -/
private theorem Replayed.descendInto (hreplayed : Replayed tokens reader) (construct : Construct) :
    Replayed tokens (reader.descendInto construct) := by
  cases construct with
  | parenthesized =>
      exact hreplayed.record (List.Subset.refl _) (reader.events_record _) rfl (by simp) (by simp)
  | _ => exact hreplayed

private theorem Replayed.ascendFrom (hreplayed : Replayed tokens reader) (construct : Construct) :
    Replayed tokens (reader.ascendFrom construct) := by
  cases construct with
  | parenthesized =>
      exact hreplayed.record (List.Subset.refl _) (reader.events_record _) rfl (by simp) (by simp)
  | _ => exact hreplayed

private theorem Replayed.leave (hreplayed : Replayed tokens reader) :
    Replayed tokens reader.leave := by
  unfold Reader.leave
  split
  · exact hreplayed
  · rename_i opening enclosing henclosing
    refine hreplayed.record (List.Subset.refl _) (reader.events_record _) ?_ (by simp) (by simp)
    simp [Event.track, henclosing]

/-- One step keeps the log in line with the constructs. -/
theorem Replayed.step (hproper : reader.Proper) (hreplayed : Replayed tokens reader)
    (hstep : Step reader later) : Replayed tokens later := by
  cases hstep with
  | advance => exact hreplayed.advance
  | complain wanted hinside =>
      unfold complain
      split
      · exact hreplayed
      · exact hreplayed.report rfl rfl rfl (hreplayed.blames_complaint hproper wanted hinside)
  | refuseName => exact hreplayed.report rfl rfl rfl (Diagnostic.blames_of_cause (by simp))
  | refuseParen =>
      exact hreplayed.advance.report rfl rfl rfl (Diagnostic.blames_of_cause (by simp))
  | advanceInto hopens =>
      obtain ⟨behind, hahead⟩ := hproper.ahead_eq_cons hopens.ne_endOfInput
      -- The construct is entered at the token that was passed last.
      refine (hreplayed.advance.descendInto _).record (List.Subset.refl _) (events_record _ _) rfl
        ?_ (by simp)
      rintro opening hopening
      obtain rfl := Event.entered.inj hopening
      exact ⟨reader.current, hreplayed.subset (by simp [hahead]), hopens, rfl⟩
  | leave => exact hreplayed.leave.ascendFrom _
  | recovered =>
      exact hreplayed.record (List.Subset.refl _) (reader.events_record _) rfl (by simp) (by simp)
  | kept =>
      exact hreplayed.record (List.Subset.refl _) (reader.events_record _) rfl (by simp) (by simp)

/-- A whole run keeps the log in line with the constructs. -/
private theorem Replayed.steps (hproper : reader.Proper) (hreplayed : Replayed tokens reader)
    (hsteps : Steps reader later) : Replayed tokens later := by
  induction hsteps with
  | refl => exact hreplayed
  | tail hsteps hstep ih => exact ih.step (hproper.steps hsteps) hstep

private theorem replayed_final (source : String) (limit : Nat) :
    Replayed (Cursor.start source).tokens (final source limit) := by
  have hahead : (start source limit).ahead = (Cursor.start source).tokens := rfl
  have hlog : (start source limit).events = [] := rfl
  have hnone : (start source limit).enclosing = [] := rfl
  refine Replayed.steps (atStatement_start source limit).ready.proper ⟨?_, ?_, ?_, ?_⟩
    (steps_start source limit)
  · rw [hahead]
    exact List.Subset.refl _
  · rw [hlog, hnone, openings_nil]
  · simp [hnone]
  · rw [hlog]
    intro before d after heq
    simp at heq

end Reader

/-! ## The last diagnostic -/

/-- Only the end of input is described as such: all other descriptions begin in another way. -/
private theorem Lexeme.describe_ne_endOfInput {lexeme : Lexeme} (hend : lexeme ≠ .endOfInput) :
    lexeme.describe ≠ endOfInput.describe := by
  have hother : ∀ first rest, first.toList.head? ∉ [none, some 'e'] →
      first ++ rest ≠ endOfInput.describe := by
    intro first rest hfirst heq
    have hhead : (first ++ rest).toList.head? = some 'e' := by
      rw [heq]
      decide
    rw [String.toList_append, List.head?_append] at hhead
    cases hlist : first.toList.head? <;> simp_all
  have hquoted : ∀ first name last, first.toList.head? ∉ [none, some 'e'] →
      first ++ name ++ last ≠ endOfInput.describe := by
    intro first name last hfirst
    rw [String.append_assoc]
    exact hother first _ hfirst
  cases lexeme with
  | endOfInput => exact absurd rfl hend
  | ident name => exact hquoted "identifier '" name "'" (by decide)
  | number digits => exact hother "number " digits (by decide)
  | unknown found => exact hquoted "unrecognized character '" found.toString "'" (by decide)
  | _ => exact hquoted "'" _ "'" (by decide)

section

variable {source : String} {limit : Nat} {d e : Diagnostic}

/-- A diagnostic about a text that ends too early stands at the end of input, and no other one
does. -/
theorem isUnterminated_iff (hmem : d ∈ (parse source limit).diagnostics) :
    (d.location = (Cursor.start source).endToken.location ∧
      d.span = (Cursor.start source).endToken.span) ↔ d.IsUnterminated := by
  obtain ⟨token, htoken, hpoints⟩ := (Reader.ordered_final source limit).points d hmem
  have hend : (Cursor.start source).endToken ∈ (Cursor.start source).tokenize := by
    simp [Cursor.tokenize]
  have hfits := hpoints.fits
  constructor
  · rintro ⟨-, hspan⟩
    obtain rfl := eq_of_span_eq htoken hend (hpoints.span_eq.symm.trans hspan)
    have hlexeme : (Cursor.start source).endToken.lexeme = .endOfInput := rfl
    rw [hlexeme] at hfits
    cases hcause : d.cause with
    | unterminated construct openedAt expected => exact ⟨construct, openedAt, expected, hcause⟩
    | unexpected expected found => simp [hcause, Cause.Fits] at hfits
    | _ => simp [hcause, Cause.Fits] at hfits
  · rintro ⟨construct, openedAt, expected, hcause⟩
    rw [hcause] at hfits
    rcases List.mem_append.mp htoken with htoken | htoken
    · exact absurd hfits (Cursor.lexical_of_mem_tokens _ token htoken).ne_endOfInput
    · obtain rfl := List.mem_singleton.mp htoken
      exact ⟨hpoints.location_eq, hpoints.span_eq⟩

/-- What a text that ends too early is reported for is open at that moment, and nothing inside of it
is. -/
theorem exists_blamed (hmem : d ∈ (parse source limit).diagnostics) (hend : d.IsUnterminated) :
    ∃ before after opening expected,
      (Reader.final source limit).events = before ++ .reported d :: after ∧
      (openings before).head? = some opening ∧
      d.cause = .unterminated opening.construct.text opening.location expected ∧
      opening.OpenedIn (Cursor.start source).tokens := by
  have hevent : Event.reported d ∈ (Reader.final source limit).events := by
    obtain ⟨event, hevent, hd⟩ := List.mem_filterMap.mp hmem
    cases event with
    | reported e =>
        obtain rfl : e = d := Option.some.inj hd
        exact hevent
    | _ => cases hd
  obtain ⟨before, after, hsplit⟩ := List.append_of_mem hevent
  obtain ⟨opening, expected, hopening⟩ :=
    (Reader.replayed_final source limit).blames before d after hsplit hend
  exact ⟨before, after, opening, expected, hsplit, hopening⟩

/-- No diagnostic stands behind the end of input. -/
private theorem start_le_of_mem (hmem : d ∈ (parse source limit).diagnostics) :
    d.span.start ≤ (Cursor.start source).endToken.offset := by
  obtain ⟨token, htoken, hpoints⟩ := (Reader.ordered_final source limit).points d hmem
  have hordered := Cursor.pairwise_offset_lt (Cursor.start source)
  rw [hpoints.span_eq]
  rcases List.mem_append.mp htoken with htoken | htoken
  · exact ((List.pairwise_append.mp hordered).2.2 token htoken _ (List.mem_singleton.mpr rfl)).le
  · rw [List.mem_singleton.mp htoken]
    rfl

private theorem start_eq_of_isUnterminated (hmem : d ∈ (parse source limit).diagnostics)
    (hend : d.IsUnterminated) : d.span.start = (Cursor.start source).endToken.offset :=
  congrArg Span.start ((isUnterminated_iff hmem).mpr hend).2

/-- A text ends too early once, and that is the last thing to be said about it. -/
private theorem last_of_isUnterminated {before after : List Diagnostic}
    (hsplit : (parse source limit).diagnostics = before ++ d :: after) (hend : d.IsUnterminated) :
    after = [] ∧ ∀ e ∈ before, ¬ e.IsUnterminated := by
  have hstart : d.span.start = (Cursor.start source).endToken.offset :=
    start_eq_of_isUnterminated (hsplit ▸ List.mem_append_right _ List.mem_cons_self) hend
  have hsorted := (parse_diagnostics_ordered source limit).1
  rw [hsplit, List.pairwise_append] at hsorted
  obtain ⟨-, hafter, hbefore⟩ := hsorted
  constructor
  · refine List.eq_nil_iff_forall_not_mem.mpr fun e he => ?_
    have hlt := (List.pairwise_cons.mp hafter).1 e he
    have hle : e.span.start ≤ _ := start_le_of_mem
      (hsplit ▸ List.mem_append_right _ (List.mem_cons_of_mem _ he))
    omega
  · intro e he hearlier
    have hlt := hbefore e he d List.mem_cons_self
    have hsame := start_eq_of_isUnterminated (hsplit ▸ List.mem_append_left _ he) hearlier
    omega

/-- Nothing is found in place of something else at the end of input. -/
private theorem found_ne_endOfInput (hmem : d ∈ (parse source limit).diagnostics)
    (expected : String) :
    d.cause ≠ .unexpected expected Lexeme.endOfInput.describe := by
  intro hcause
  obtain ⟨token, -, hpoints⟩ := (Reader.ordered_final source limit).points d hmem
  have hfits := hpoints.fits
  rw [hcause] at hfits
  obtain ⟨-, hend, hdescribe⟩ := hfits
  exact Lexeme.describe_ne_endOfInput hend hdescribe

end

/-- A diagnostic stands at the end of input if and only if it is about a construct that the text
ends inside of.  There is at most one of these, it is the last diagnostic, and it blames the
innermost construct that is entered and not left at the moment of the report, by the location of
the token that opened it. -/
theorem parse_end_of_input (source : String) (limit : Nat) :
    (∀ d ∈ (parse source limit).diagnostics,
      (d.location = (Cursor.start source).endToken.location ∧
        d.span = (Cursor.start source).endToken.span) ↔ d.IsUnterminated) ∧
    (∀ before d after, (parse source limit).diagnostics = before ++ d :: after →
      d.IsUnterminated → after = [] ∧ ∀ e ∈ before, ¬ e.IsUnterminated) ∧
    (∀ d ∈ (parse source limit).diagnostics, ∀ expected,
      d.cause ≠ .unexpected expected Lexeme.endOfInput.describe) ∧
    (∀ d ∈ (parse source limit).diagnostics, d.IsUnterminated →
      ∃ before after opening expected,
        (Reader.final source limit).events = before ++ .reported d :: after ∧
        (openings before).head? = some opening ∧
        d.cause = .unterminated opening.construct.text opening.location expected ∧
        opening.OpenedIn (Cursor.start source).tokens) :=
  ⟨fun _ hmem => isUnterminated_iff hmem,
    fun _ _ _ hsplit hend => last_of_isUnterminated hsplit hend,
    fun _ hmem expected => found_ne_endOfInput hmem expected,
    fun _ hmem hend => exists_blamed hmem hend⟩

end LoopLang
