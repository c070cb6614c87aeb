import LoopLang.Proofs.Outcome.FirstDiagnostic
import LoopLang.Proofs.Outcome.Trace
import LoopLang.Proofs.Reading.Nearsight

/-!
# One token of lookahead

A reader sees its current token and nothing behind it.  So two texts that begin with the same tokens
are parsed in the same way until the first token that they do not share becomes current: no later
part of a text changes what has been done before it was reached (`parse_causal`).

Most steps would do the same if other tokens stood behind the current one (`Reader.Nearsighted`).
Only passing a token brings the next one into view.  As long as that is a shared one, the two
readers mirror each other (`Reader.Mirror`); when it is the first that is not shared, they part.
From then on they report nothing about shared tokens any more, with one exception: a parenthesis
that nests too deep is reported right after it was passed, in both runs (`Reader.Parts`).
-/

namespace LoopLang

namespace Reader

variable {shared rest rest' : List Token} {reader x y x' y' : Reader} {f : Reader → Reader}

/-! ## Readers that mirror each other -/

private theorem current_of_sight_eq_cons {token : Token} {others : List Token}
    (hsight : reader.sight = token :: others) : reader.current = token := by
  obtain ⟨behind, hcons⟩ := reader.exists_sight
  exact (List.cons.inj (hcons.symm.trans hsight)).1

private theorem log_advance (hahead : reader.ahead ≠ []) :
    reader.advance.log = .reached reader.advance.current :: reader.reportStray.log := by
  obtain ⟨token, behind, hcons⟩ := List.exists_cons_of_ne_nil hahead
  rw [advance_of_ahead_eq_cons hcons]
  show _ = Event.reached (behind.headD reader.reportStray.endToken) :: reader.reportStray.log
  rw [nearsighted_reportStray.endToken_eq]

/-- Two readers that have done the same so far, about shared tokens, and see the same tokens up to
the rest of each text. -/
structure Mirror (shared rest rest' : List Token) (x y : Reader) : Prop where
  proper : x.Proper ∧ y.Proper
  sights : ∃ token tokens, token :: tokens <:+ shared ∧ x.sight = token :: tokens ++ rest ∧
    y.sight = token :: tokens ++ rest'
  eq_seeing : y = x.seeing y.ahead y.endToken x.limit
  concerns : ∀ event ∈ x.log, event.Concerns shared

/-- A reader that has done `common`, passed the last shared token, done `late` and then `new`. -/
structure Beyond (common late new : List Event) (rest : List Token) (reader : Reader) :
    Prop where
  events_eq : ∃ first ∈ rest.head?, reader.events = common ++ .reached first :: (late ++ new)
  sight_subset : reader.sight ⊆ rest
  concerns : ∀ event ∈ new, event.Concerns rest

/-- Two readers that have done the same about shared tokens, and whatever else they did is about
the rest of each text. -/
def Parts (shared rest rest' : List Token) (x y : Reader) : Prop :=
  ∃ common late new new', (∀ event ∈ common ++ late, event.Concerns shared) ∧
    Beyond common late new rest x ∧ Beyond common late new' rest' y

/-- Behind the last shared token, where nothing else has been done yet. -/
private theorem beyond_of_sight_eq {common : List Event} (hsight : reader.sight = rest)
    (hevents : reader.events = common ++ [.reached reader.current]) :
    Beyond common [] [] rest reader where
  events_eq := by
    obtain ⟨behind, hcons⟩ := reader.exists_sight
    exact ⟨reader.current, by rw [← hsight, hcons]; rfl, hevents⟩
  sight_subset := hsight ▸ List.Subset.refl _
  concerns := by simp

/-- A report right behind the last shared token. -/
private theorem Beyond.report {common : List Event} (hbeyond : Beyond common [] [] rest reader)
    (token : Token) (cause : Cause) :
    Beyond common [.reported ⟨cause, token.location, token.span⟩] [] rest
      (reader.report token cause) := by
  obtain ⟨first, hfirst, hevents⟩ := hbeyond.events_eq
  refine ⟨⟨first, hfirst, ?_⟩, hbeyond.sight_subset, by simp⟩
  rw [Reader.report, events_record, hevents]
  simp

namespace Mirror

private theorem current_eq (hmirror : Mirror shared rest rest' x y) : y.current = x.current := by
  obtain ⟨token, tokens, -, hx, hy⟩ := hmirror.sights
  rw [current_of_sight_eq_cons hx, current_of_sight_eq_cons hy]

private theorem current_mem (hmirror : Mirror shared rest rest' x y) : x.current ∈ shared := by
  obtain ⟨token, tokens, hsuffix, hx, -⟩ := hmirror.sights
  rw [current_of_sight_eq_cons hx]
  exact hsuffix.subset List.mem_cons_self

private theorem log_eq (hmirror : Mirror shared rest rest' x y) : y.log = x.log := by
  rw [hmirror.eq_seeing]
  rfl

private theorem limit_eq (hmirror : Mirror shared rest rest' x y) : y.limit = x.limit := by
  rw [hmirror.eq_seeing]
  rfl

private theorem room_eq (hmirror : Mirror shared rest rest' x y) :
    x.limit - x.depth = y.limit - y.depth := by
  rw [hmirror.eq_seeing]
  rfl

/-- The same step of both readers, about shared tokens. -/
private theorem step_of_concerns (hmirror : Mirror shared rest rest' x y) (hf : Nearsighted f)
    (hconcerns : ∀ event ∈ (f x).log, event.Concerns shared) :
    Mirror shared rest rest' (f x) (f y) := by
  have hahead := hf.ahead_eq
  have hend := hf.endToken_eq
  refine ⟨⟨hmirror.proper.1.of_eq (hahead x) (hend x), hmirror.proper.2.of_eq (hahead y) (hend y)⟩,
    ?_, ?_, hconcerns⟩
  · rw [sight, sight, hahead, hend, hahead, hend]
    exact hmirror.sights
  · have hcurrent : y.ahead.headD y.endToken = x.current := hmirror.current_eq
    rw [hahead, hend, hf.limit_eq, ← hf x y.ahead y.endToken x.limit hcurrent, ← hmirror.eq_seeing]

theorem step (hmirror : Mirror shared rest rest' x y) (hf : Nearsighted f)
    (hframe : ∀ reader, Frame reader (f reader)) : Mirror shared rest rest' (f x) (f y) :=
  hmirror.step_of_concerns hf (hf.concerns hframe hmirror.current_mem hmirror.concerns)

/-- Passing a shared token brings the next shared one into view, or the first one of the rest. -/
private theorem advance (hmirror : Mirror shared rest rest' x y) (hahead : x.ahead ≠ []) :
    Mirror shared rest rest' x.advance y.advance ∨
      ∃ common, (∀ event ∈ common, event.Concerns shared) ∧
        Beyond common [] [] rest x.advance ∧ Beyond common [] [] rest' y.advance := by
  have hother : y.ahead ≠ [] := by
    rw [Ne, ← hmirror.proper.2.current_lexeme_eq_endOfInput_iff, hmirror.current_eq,
      hmirror.proper.1.current_lexeme_eq_endOfInput_iff]
    exact hahead
  have hstray : Mirror shared rest rest' x.reportStray y.reportStray :=
    hmirror.step nearsighted_reportStray fun _ => frame_reportStray
  obtain ⟨token, tokens, hsuffix, hx, hy⟩ := hmirror.sights
  rw [sight_eq_cons_of_ahead hahead, List.cons_append] at hx
  rw [sight_eq_cons_of_ahead hother, List.cons_append] at hy
  obtain ⟨-, hx⟩ := List.cons.inj hx
  obtain ⟨-, hy⟩ := List.cons.inj hy
  have hlog := x.log_advance hahead
  have hlog' := y.log_advance hother
  cases tokens with
  | nil =>
      -- The last shared token is passed: what was done until then is the common part.
      right
      refine ⟨x.reportStray.events, fun event hmem => ?_, beyond_of_sight_eq hx ?_,
        beyond_of_sight_eq hy ?_⟩
      · exact hstray.concerns event (List.mem_reverse.mp hmem)
      · rw [events, hlog, List.reverse_cons, events]
      · rw [events, hlog', List.reverse_cons, hstray.log_eq, events]
  | cons next tokens =>
      left
      have hnext : x.advance.current = next := current_of_sight_eq_cons hx
      have hnext' : y.advance.current = next := current_of_sight_eq_cons hy
      refine ⟨⟨hmirror.proper.1.steps steps_advance, hmirror.proper.2.steps steps_advance⟩,
        ⟨next, tokens, (List.suffix_cons _ _).trans hsuffix, hx, hy⟩, ?_, ?_⟩
      · have hlimit : y.advance.limit = x.advance.limit := by
          rw [limit_advance, limit_advance, hmirror.limit_eq]
        rw [← hlimit]
        refine eq_seeing_of_eq ?_ ?_ ?_ ?_
        · rw [x.reported_advance hahead, y.reported_advance hother]
        · rw [enclosing_advance, enclosing_advance, hmirror.eq_seeing]
          rfl
        · rw [depth_advance, depth_advance, hmirror.eq_seeing]
          rfl
        · rw [hlog, hlog', hstray.log_eq, hnext, hnext']
      · rw [hlog, hnext]
        intro event hmem
        rcases List.mem_cons.mp hmem with rfl | hmem
        · exact hsuffix.subset (by simp)
        · exact hstray.concerns event hmem

/-- A parenthesis that is shared is reported in both runs, even if they part behind it. -/
private theorem refuseParen (hmirror : Mirror shared rest rest' x y)
    (hparen : x.current.lexeme = .mark .openParen) :
    Mirror shared rest rest' x.refuseParen y.refuseParen ∨
      Parts shared rest rest' x.refuseParen y.refuseParen := by
  have hahead : x.ahead ≠ [] := fun hnil => by
    simp [hmirror.proper.1.current_lexeme_eq_endOfInput_iff.mpr hnil] at hparen
  have hconcerns : (Event.reported
      ⟨.tooDeep x.limit, x.current.location, x.current.span⟩).Concerns shared :=
    ⟨x.current, hmirror.current_mem, rfl, rfl⟩
  rw [Reader.refuseParen, Reader.refuseParen, hmirror.current_eq, hmirror.limit_eq]
  rcases hmirror.advance hahead with hnext | ⟨common, hcommon, hfirst, hsecond⟩
  · left
    refine hnext.step_of_concerns (nearsighted_report x.current (.tooDeep x.limit))
      fun event hmem => ?_
    rcases List.mem_cons.mp hmem with rfl | hmem
    · exact hconcerns
    · exact hnext.concerns event hmem
  · right
    refine ⟨common, [.reported ⟨.tooDeep x.limit, x.current.location, x.current.span⟩], [], [],
      ?_, hfirst.report _ _, hsecond.report _ _⟩
    intro event hmem
    rcases List.mem_append.mp hmem with hmem | hmem
    · exact hcommon event hmem
    · rwa [List.mem_singleton.mp hmem]

/-- At the end of both texts nothing is left that is not shared. -/
private theorem rest_eq_nil (hmirror : Mirror shared rest rest' x y) (hx : x.ahead = [])
    (hy : y.ahead = []) : rest = [] ∧ rest' = [] := by
  obtain ⟨token, tokens, -, hfirst, hsecond⟩ := hmirror.sights
  rw [sight, hx, List.nil_append, List.cons_append] at hfirst
  rw [sight, hy, List.nil_append, List.cons_append] at hsecond
  exact ⟨(List.append_eq_nil_iff.mp (List.cons.inj hfirst).2.symm).2,
    (List.append_eq_nil_iff.mp (List.cons.inj hsecond).2.symm).2⟩

end Mirror

/-! ## Readers that have parted -/

/-- Behind the shared tokens, whatever happens is about the rest. -/
theorem Beyond.frame {common late new : List Event} (hbeyond : Beyond common late new rest reader)
    {later : Reader} (hframe : Frame reader later) :
    ∃ more, Beyond common late more rest later := by
  obtain ⟨events, hlog, hconcerns⟩ := hframe.log_eq
  obtain ⟨first, hfirst, hevents⟩ := hbeyond.events_eq
  refine ⟨new ++ events.reverse, ⟨first, hfirst, ?_⟩,
    List.Subset.trans hframe.sight_subset hbeyond.sight_subset, fun event hmem => ?_⟩
  · rw [Reader.events, hlog, List.reverse_append, ← Reader.events, hevents]
    simp
  · rcases List.mem_append.mp hmem with hmem | hmem
    · exact hbeyond.concerns event hmem
    · exact (hconcerns event (List.mem_reverse.mp hmem)).mono hbeyond.sight_subset

private theorem Parts.frames (hparts : Parts shared rest rest' x y) (hfirst : Frame x x')
    (hsecond : Frame y y') : Parts shared rest rest' x' y' := by
  obtain ⟨common, late, new, new', hshared, hx, hy⟩ := hparts
  obtain ⟨more, hx'⟩ := hx.frame hfirst
  obtain ⟨more', hy'⟩ := hy.frame hsecond
  exact ⟨common, late, more, more', hshared, hx', hy'⟩

private theorem mirror_start {source other : String} (limit : Nat) (hshared : shared ≠ [])
    (hsource : (Cursor.start source).tokenize = shared ++ rest)
    (hother : (Cursor.start other).tokenize = shared ++ rest') :
    Mirror shared rest rest' (start source limit) (start other limit) := by
  obtain ⟨token, tokens, rfl⟩ := List.exists_cons_of_ne_nil hshared
  have hproper : ∀ source, (start source limit).Proper := fun source =>
    (atStatement_start source limit).ready.proper
  exact ⟨⟨hproper source, hproper other⟩, ⟨token, tokens, List.suffix_rfl, hsource, hother⟩, rfl,
    by simp [start]⟩

end Reader

/-! ## Runs on texts that begin with the same tokens -/

open Reader

/-- Two runs on texts that share their first tokens. -/
def Simulation.mirror (shared rest rest' : List Token) : Simulation where
  first := id
  second := id
  InStep := Mirror shared rest rest'
  Parted := Parts shared rest rest'
  Rooms := Eq
  proper := Mirror.proper
  lexeme_eq := fun hmirror => congrArg Token.lexeme hmirror.current_eq.symm
  location_eq := fun hmirror => congrArg Token.location hmirror.current_eq.symm
  rooms_left := Mirror.room_eq
  rooms_pred := Nat.succ.inj
  near_advance := by
    intro x y hmirror hahead
    refine (hmirror.advance hahead).imp_right fun ⟨common, hcommon, hfirst, hsecond⟩ => ?_
    exact ⟨common, [], [], [], by simpa using hcommon, hfirst, hsecond⟩
  inStep_complain := fun hmirror wanted =>
    hmirror.step (nearsighted_complain wanted) fun _ => frame_complain wanted
  inStep_refuseName := fun hmirror name _ =>
    hmirror.step (nearsighted_refuseName name) fun _ => frame_refuseName name
  near_refuseParen := fun hmirror hparen _ => hmirror.refuseParen hparen
  parted_refuseParen_first := fun _ _ _ hrooms => absurd hrooms (by simp)
  parted_refuseParen_second := fun _ _ _ hrooms => absurd hrooms (by simp)
  inStep_enter := by
    rintro x y hmirror construct l _ rfl
    exact hmirror.step (nearsighted_enter construct l) fun _ =>
      (frame_descendInto construct).trans (frame_enter _)
  inStep_leave := fun hmirror construct =>
    hmirror.step (nearsighted_leaveFrom construct) fun _ => frame_leaveFrom construct
  inStep_recovered := fun hmirror boundary skipped =>
    hmirror.step (nearsighted_record (.recovered boundary skipped)) fun _ => frame_record trivial
  inStep_kept := by
    intro x y hmirror s s' hsame
    rw [Statement.relocate_id] at hsame
    obtain rfl : s = s' := hsame
    exact hmirror.step (nearsighted_record (.kept s)) fun _ => frame_record trivial
  parted_frames := Parts.frames

/-- Whether a diagnostic stands where one of some tokens does. -/
def Diagnostic.standsAmong (tokens : List Token) (d : Diagnostic) : Bool :=
  tokens.any fun token => d.location = token.location ∧ d.span = token.span

private theorem Diagnostic.standsAmong_iff {tokens : List Token} {d : Diagnostic} :
    d.standsAmong tokens = true ↔
      ∃ token ∈ tokens, d.location = token.location ∧ d.span = token.span := by
  simp [standsAmong]

/-- The parse of a text, split where the first token of `rest` becomes current: all tokens before it
have become current, and the trace and the program tell first of what was done until then. -/
structure SplitRun (source : String) (limit : Nat) (shared rest : List Token)
    (before after : List Event) : Prop where
  events_eq : (final source limit).events = before ++ after
  reached_eq : before.filterMap Event.token? = shared.tail
  head?_eq : shared ≠ [] → after.head? = rest.head?.map Event.reached
  trace_eq : trace source limit =
    .started source.utf8ByteSize :: before.filterMap TraceEntry.ofEvent? ++
      (after.filterMap TraceEntry.ofEvent? ++
        [.finished (parse source limit).program.statements.length
          (parse source limit).diagnostics.length])
  statements_eq : (parse source limit).program.statements =
    before.filterMap Event.kept? ++ after.filterMap Event.kept?

section

variable {source : String} {limit : Nat} {shared rest : List Token} {before after : List Event}

private theorem nodup_tokenize (source : String) : (Cursor.start source).tokenize.Nodup :=
  (Cursor.pairwise_offset_lt (Cursor.start source)).imp fun {token other} hlt heq => by
    rw [heq] at hlt
    exact lt_irrefl _ hlt

/-- The events before the first token of the rest name all others, since no token occurs twice. -/
private theorem reached_eq_of_head? (hshared : shared ≠ [])
    (htokens : (Cursor.start source).tokenize = shared ++ rest)
    (hevents : (final source limit).events = before ++ after)
    (hhead : after.head? = rest.head?.map Event.reached) :
    before.filterMap Event.token? = shared.tail := by
  have hreached : before.filterMap Event.token? ++ after.filterMap Event.token? =
      shared.tail ++ rest := by
    rw [← List.filterMap_append, ← hevents, ← List.tail_append_of_ne_nil hshared, ← htokens]
    exact reached_final source limit
  cases rest with
  | nil =>
      rw [List.head?_eq_none_iff.mp hhead] at hreached
      simpa using hreached
  | cons first others =>
      obtain ⟨later, rfl⟩ := List.head?_eq_some_iff.mp hhead
      have hcons : before.filterMap Event.token? ++ first :: later.filterMap Event.token? =
          shared.tail ++ first :: others := hreached
      have hnodup : (shared.tail ++ first :: others).Nodup := by
        rw [← List.tail_append_of_ne_nil hshared, ← htokens]
        exact (nodup_tokenize source).tail
      have hnew : first ∉ shared.tail ++ others :=
        (List.nodup_cons.mp (List.nodup_middle.mp hnodup)).1
      rw [List.mem_append, not_or] at hnew
      exact ((List.append_cons_inj_of_notMem hnew.1 hnew.2).mp hcons.symm).1.symm

/-- The events before and after that moment split everything else too. -/
private theorem splitRun_of_events (hshared : shared ≠ [])
    (htokens : (Cursor.start source).tokenize = shared ++ rest)
    (hevents : (final source limit).events = before ++ after)
    (hhead : after.head? = rest.head?.map Event.reached) :
    SplitRun source limit shared rest before after where
  events_eq := hevents
  reached_eq := reached_eq_of_head? hshared htokens hevents hhead
  head?_eq := fun _ => hhead
  trace_eq := by
    rw [trace_eq, hevents, List.filterMap_append]
    simp
  statements_eq := by
    rw [parse_statements_eq, told, hevents, List.filterMap_append]

/-- Where a text begins with some tokens, what stands at one of them stands at none behind them. -/
private theorem not_standsAmong_of_rest (htokens : (Cursor.start source).tokenize = shared ++ rest)
    {d : Diagnostic} (hrest : d.standsAmong rest = true) : d.standsAmong shared = false := by
  obtain ⟨token, htoken, -, hspan⟩ := Diagnostic.standsAmong_iff.mp hrest
  rw [Bool.eq_false_iff]
  intro hstands
  obtain ⟨other, hother, -, hspan'⟩ := Diagnostic.standsAmong_iff.mp hstands
  have htoken' : token ∈ (Cursor.start source).tokenize :=
    htokens ▸ List.mem_append_right shared htoken
  have hother' : other ∈ (Cursor.start source).tokenize :=
    htokens ▸ List.mem_append_left rest hother
  have hsame : token = other := eq_of_span_eq htoken' hother' (hspan.symm.trans hspan')
  have hnodup := nodup_tokenize source
  rw [htokens] at hnodup
  exact List.disjoint_of_nodup_append hnodup hother (hsame ▸ htoken)

private theorem standsAmong_of_concerns {tokens : List Token} {events : List Event}
    (hconcerns : ∀ event ∈ events, event.Concerns tokens) {d : Diagnostic}
    (hmem : d ∈ events.filterMap Event.diagnostic?) : d.standsAmong tokens = true := by
  obtain ⟨event, hevent, hd⟩ := List.mem_filterMap.mp hmem
  have hplace := hconcerns event hevent
  cases event with
  | reported e =>
      obtain rfl : e = d := Option.some.inj hd
      exact Diagnostic.standsAmong_iff.mpr hplace
  | _ => cases hd

/-- The reports about shared tokens are those among the events about shared tokens. -/
private theorem filter_standsAmong (htokens : (Cursor.start source).tokenize = shared ++ rest)
    {told more : List Event} (htold : ∀ event ∈ told, event.Concerns shared)
    (hmore : ∀ event ∈ more, event.Concerns rest) :
    ((told ++ more).filterMap Event.diagnostic?).filter (·.standsAmong shared) =
      told.filterMap Event.diagnostic? := by
  have hall : (told.filterMap Event.diagnostic?).filter (·.standsAmong shared) =
      told.filterMap Event.diagnostic? :=
    List.filter_eq_self.mpr fun d hmem => standsAmong_of_concerns htold hmem
  have hnone : (more.filterMap Event.diagnostic?).filter (·.standsAmong shared) = [] :=
    List.filter_eq_nil_iff.mpr fun d hmem => by
      simp [not_standsAmong_of_rest htokens (standsAmong_of_concerns hmore hmem)]
  rw [List.filterMap_append, List.filter_append, hall, hnone, List.append_nil]

/-- A run that passed the last shared token. -/
private theorem Reader.Beyond.splitRun {common late new : List Event}
    (hbeyond : Beyond common late new rest (final source limit)) (hshared : shared ≠ [])
    (htokens : (Cursor.start source).tokenize = shared ++ rest) :
    ∃ first, SplitRun source limit shared rest common (.reached first :: (late ++ new)) ∧
      (parse source limit).diagnostics = (common ++ late ++ new).filterMap Event.diagnostic? := by
  obtain ⟨first, hfirst, hevents⟩ := hbeyond.events_eq
  refine ⟨first, splitRun_of_events hshared htokens hevents ?_, ?_⟩
  · rw [List.head?_cons, Option.mem_def.mp hfirst, Option.map_some]
  · rw [parse_diagnostics_eq, diagnostics, hevents, List.filterMap_append,
      List.filterMap_cons_none rfl, ← List.filterMap_append, List.append_assoc]

/-- Two runs that never part: all tokens are shared, and both runs are one. -/
private theorem Reader.Mirror.splitRuns {other : String} {rest' : List Token}
    (hmirror : Mirror shared rest rest' (final source limit) (final other limit))
    (hshared : shared ≠ []) (hsource : (Cursor.start source).tokenize = shared ++ rest)
    (hother : (Cursor.start other).tokenize = shared ++ rest') :
    SplitRun source limit shared rest (final source limit).events [] ∧
      SplitRun other limit shared rest' (final source limit).events [] ∧
      (parse other limit).diagnostics = (parse source limit).diagnostics ∧
      ∀ d ∈ (parse source limit).diagnostics, d.standsAmong shared = true := by
  obtain ⟨rfl, rfl⟩ := hmirror.rest_eq_nil (ahead_final source limit) (ahead_final other limit)
  have hevents : (final other limit).events = (final source limit).events :=
    congrArg List.reverse hmirror.log_eq
  refine ⟨splitRun_of_events hshared hsource (List.append_nil _).symm rfl,
    splitRun_of_events hshared hother (by rw [hevents, List.append_nil]) rfl, ?_, fun d hmem => ?_⟩
  · rw [parse_diagnostics_eq, parse_diagnostics_eq, diagnostics, hevents, diagnostics]
  · refine standsAmong_of_concerns (fun event hevent => ?_) hmem
    exact hmirror.concerns event (List.mem_reverse.mp hevent)

end

/-- Two texts that begin with the same tokens are parsed in the same way until the first token that
they do not share becomes current: up to there the runs do the same, show the same in their traces
and keep the same statements.  In the end the same is reported about shared tokens, before
everything else. -/
theorem parse_causal {source other : String} {shared rest rest' : List Token}
    (hsource : (Cursor.start source).tokenize = shared ++ rest)
    (hother : (Cursor.start other).tokenize = shared ++ rest') (limit : Nat) :
    (∃ before after after', SplitRun source limit shared rest before after ∧
        SplitRun other limit shared rest' before after') ∧
      (parse source limit).diagnostics.filter (·.standsAmong shared) =
        (parse other limit).diagnostics.filter (·.standsAmong shared) ∧
      (parse source limit).diagnostics.filter (·.standsAmong shared) <+:
        (parse source limit).diagnostics ∧
      (parse other limit).diagnostics.filter (·.standsAmong shared) <+:
        (parse other limit).diagnostics := by
  by_cases hshared : shared = []
  · -- Nothing is done before the first token is current.
    subst hshared
    refine ⟨⟨[], (final source limit).events, (final other limit).events,
      ⟨rfl, rfl, absurd rfl, trace_eq _ _, parse_statements_eq _ _⟩,
      ⟨rfl, rfl, absurd rfl, trace_eq _ _, parse_statements_eq _ _⟩⟩, ?_⟩
    simp [Diagnostic.standsAmong]
  have hstep : (Simulation.mirror shared rest rest').InStep (start source limit)
      (start other limit) := mirror_start limit hshared hsource hother
  -- Either the runs never part, or each one splits where they did.
  rcases Simulation.program_meets hstep with ⟨-, hlast⟩ | hparted
  · have hmirror : Mirror shared rest rest' (final source limit) (final other limit) := hlast
    obtain ⟨hsplit, hsplit', hdiagnostics, hstand⟩ := hmirror.splitRuns hshared hsource hother
    rw [hdiagnostics, List.filter_eq_self.mpr hstand]
    exact ⟨⟨_, [], [], hsplit, hsplit'⟩, rfl, List.prefix_rfl, List.prefix_rfl⟩
  · obtain ⟨common, late, new, new', hconcerns, hx, hy⟩ :
        Parts shared rest rest' (final source limit) (final other limit) := hparted
    obtain ⟨first, hsplit, hdiagnostics⟩ := hx.splitRun hshared hsource
    obtain ⟨first', hsplit', hdiagnostics'⟩ := hy.splitRun hshared hother
    rw [hdiagnostics, hdiagnostics', filter_standsAmong hsource hconcerns hx.concerns,
      filter_standsAmong hother hconcerns hy.concerns]
    exact ⟨⟨common, _, _, hsplit, hsplit'⟩, rfl, (List.prefix_append _ _).filterMap _,
      (List.prefix_append _ _).filterMap _⟩

/-- Two texts that go different ways behind a parenthesis that is not allowed.  It is reported in
both, though it has been passed by then. -/
theorem parse_causal_behind_paren :
    (Cursor.start "x = 1; a = (2 c;").tokenize =
        (Cursor.start "x = 1; a = (b); c 2;").tokenize.take 7 ++
          (Cursor.start "x = 1; a = (2 c;").tokenize.drop 7 ∧
      (parse "x = 1; a = (b); c 2;" 0).diagnostics.filter
          (·.standsAmong ((Cursor.start "x = 1; a = (b); c 2;").tokenize.take 7)) =
        [⟨.tooDeep 0, ⟨1, 12⟩, ⟨11, 12⟩⟩] ∧
      (parse "x = 1; a = (2 c;" 0).diagnostics.filter
          (·.standsAmong ((Cursor.start "x = 1; a = (b); c 2;").tokenize.take 7)) =
        [⟨.tooDeep 0, ⟨1, 12⟩, ⟨11, 12⟩⟩] := by
  have hother : (Cursor.start "x = 1; a = (2 c;").tokenize =
      (Cursor.start "x = 1; a = (b); c 2;").tokenize.take 7 ++
        (Cursor.start "x = 1; a = (2 c;").tokenize.drop 7 := by decide +kernel
  have htold : (parse "x = 1; a = (b); c 2;" 0).diagnostics.filter
      (·.standsAmong ((Cursor.start "x = 1; a = (b); c 2;").tokenize.take 7)) =
        [⟨.tooDeep 0, ⟨1, 12⟩, ⟨11, 12⟩⟩] := by decide +kernel
  obtain ⟨-, hsame, -, -⟩ := parse_causal (List.take_append_drop 7 _).symm hother 0
  exact ⟨hother, htold, hsame.symm.trans htold⟩

end LoopLang
