import LoopLang.Proofs.Reading.Contract

/-!
# Repetition

A repetition is given as many turns as there are tokens in front of the reader.  That is enough
where each turn passes a token: `Rule.Progresses` says so of a loop, and then the loop satisfies the
equation of an unbounded one (`repeatWhile_eq`).  Two views of loops follow from that equation.

* A loop whose turns do not recover reads what its turns read (`Reads.repeatWhile`).
* A loop whose turns may fail and go on is the list of its turns (`Attempts`).
-/

namespace LoopLang

namespace Rule

variable {α ω : Type} {select : Lexeme → Option ω} {step : ω → α → Rule α} {Inv : Reader → Prop}

/-! ## Loops that never run out of turns -/

/-- A loop that has no turn at the end of input, and whose turns keep an invariant and pass a token
or fail. -/
structure Progresses (Inv : Reader → Prop) (select : Lexeme → Option ω) (step : ω → α → Rule α) :
    Prop where
  stops : ∀ {reader : Reader}, Inv reader → reader.ahead = [] →
    select reader.current.lexeme = none
  passes : ∀ {reader later : Reader} {choice : ω} {a b : α}, Inv reader →
    select reader.current.lexeme = some choice → step choice a reader = (some b, later) →
    Inv later ∧ later.ahead.length < reader.ahead.length

theorem repeatWithin_cons (token : Token) (budget : List Token) (a : α) (reader : Reader) :
    repeatWithin select step (token :: budget) a reader =
      match select reader.current.lexeme with
      | some choice =>
        match step choice a reader with
        | (some b, later) => repeatWithin select step budget b later
        | (none, later) => (none, later)
      | none => (some a, reader) := by
  simp only [repeatWithin, bind_apply, lexeme]
  cases select reader.current.lexeme <;> rfl

/-- Any two budgets with a turn for every token give the same result. -/
theorem repeatWithin_eq_of_le (hprogress : Progresses Inv select step) (budget : List Token) :
    ∀ (other : List Token) (a : α) (reader : Reader), Inv reader →
      reader.ahead.length ≤ budget.length → reader.ahead.length ≤ other.length →
      repeatWithin select step budget a reader = repeatWithin select step other a reader := by
  induction budget with
  | nil =>
      intro other a reader hinv hbudget hother
      have hahead : reader.ahead = [] := List.eq_nil_of_length_eq_zero (Nat.le_zero.mp hbudget)
      cases other with
      | nil => rfl
      | cons token other =>
          rw [repeatWithin_cons, hprogress.stops hinv hahead]
          rfl
  | cons token budget ih =>
      intro other a reader hinv hbudget hother
      cases other with
      | nil =>
          have hahead : reader.ahead = [] := List.eq_nil_of_length_eq_zero (Nat.le_zero.mp hother)
          rw [repeatWithin_cons, hprogress.stops hinv hahead]
          rfl
      | cons another other =>
          rw [repeatWithin_cons, repeatWithin_cons]
          cases hselect : select reader.current.lexeme with
          | none => rfl
          | some choice =>
              dsimp only
              rcases hstep : step choice a reader with ⟨_ | b, later⟩
              · rfl
              -- A turn passes a token at least, so what is left of both budgets is enough.
              · obtain ⟨hlater, hlt⟩ := hprogress.passes hinv hselect hstep
                simp only [List.length_cons] at hbudget hother
                exact ih other b later hlater (by omega) (by omega)

/-- A loop takes one turn and goes on, or is over. -/
theorem repeatWhile_eq (hprogress : Progresses Inv select step) {reader : Reader}
    (hinv : Inv reader) (a : α) :
    repeatWhile select step a reader =
      match select reader.current.lexeme with
      | some choice =>
        match step choice a reader with
        | (some b, later) => repeatWhile select step b later
        | (none, later) => (none, later)
      | none => (some a, reader) := by
  have hraise : repeatWhile select step a reader =
      repeatWithin select step (reader.endToken :: reader.ahead) a reader :=
    repeatWithin_eq_of_le hprogress _ _ a reader hinv (by simp) (by simp)
  rw [hraise, repeatWithin_cons]
  cases hselect : select reader.current.lexeme with
  | none => rfl
  | some choice =>
      dsimp only
      rcases hstep : step choice a reader with ⟨_ | b, later⟩
      · rfl
      · obtain ⟨hlater, hlt⟩ := hprogress.passes hinv hselect hstep
        exact repeatWithin_eq_of_le hprogress _ _ b later hlater (by omega) le_rfl

theorem repeatWhile_of_select_eq_none (hprogress : Progresses Inv select step) {reader : Reader}
    (hinv : Inv reader) (a : α) (hselect : select reader.current.lexeme = none) :
    repeatWhile select step a reader = (some a, reader) := by
  rw [repeatWhile_eq hprogress hinv, hselect]

theorem repeatWhile_of_select_eq_some (hprogress : Progresses Inv select step) {reader : Reader}
    (hinv : Inv reader) (a : α) {choice : ω}
    (hselect : select reader.current.lexeme = some choice) :
    repeatWhile select step a reader = (step choice a >>= repeatWhile select step) reader := by
  rw [repeatWhile_eq hprogress hinv, hselect]
  rfl

theorem repeatWhile_of_step_eq (hprogress : Progresses Inv select step) {reader later : Reader}
    (hinv : Inv reader) {a b : α} {choice : ω}
    (hselect : select reader.current.lexeme = some choice)
    (hstep : step choice a reader = (some b, later)) :
    repeatWhile select step a reader = repeatWhile select step b later := by
  rw [repeatWhile_of_select_eq_some hprogress hinv a hselect, bind_apply, hstep]

/-! ## Loops whose turns do not recover -/

/-- What a loop on a value `a` reads, when `P front a` says how the value came about: whatever
continues each `front` to a sentence for the value at the end. -/
def Extends (P : List Token → α → Prop) (a : α) (tokens : List Token) (b : α) : Prop :=
  ∀ front, P front a → P (front ++ tokens) b

variable {single : Prop} {depth room : Nat} {P : List Token → α → Prop}

theorem Extends.nil (a : α) : Extends P a [] a := by
  intro front hfront
  rwa [List.append_nil]

theorem Extends.trans {a b c : α} {first second : List Token} (hfirst : Extends P a first b)
    (hsecond : Extends P b second c) : Extends P a (first ++ second) c := by
  intro front hfront
  rw [← List.append_assoc]
  exact hsecond _ (hfirst front hfront)

/-- A turn of a loop passes a token or more, and extends a sentence by what it passes. -/
def Turns (single : Prop) (depth room : Nat) (P : List Token → α → Prop)
    (select : Lexeme → Option ω) (step : ω → α → Rule α) : Prop :=
  ∀ (reader : Reader) (choice : ω) (a : α), reader.Within depth room →
    select reader.current.lexeme = some choice →
    Yields single (fun tokens b => tokens ≠ [] ∧ Extends P a tokens b) reader (step choice a reader)

theorem Turns.progresses (hstop : select .endOfInput = none)
    (hturns : Turns single depth room P select step) :
    Progresses (Reader.Within depth room) select step where
  stops := by
    intro reader hwithin hahead
    rwa [reader.current_of_ahead_eq_nil hahead, hwithin.proper.endToken_lexeme]
  passes := by
    intro reader later choice a b hwithin hselect hstep
    have hyields := hturns reader choice a hwithin hselect
    rw [hstep] at hyields
    obtain ⟨passed, hadvances, hne, -⟩ := hyields
    refine ⟨hwithin.advances hadvances, ?_⟩
    have hlength := List.length_pos_iff.mpr hne
    rw [hadvances.ahead_eq, List.length_append]
    omega

/-- A loop reads what its turns read one after the other. -/
theorem Reads.repeatWhile (hstop : select .endOfInput = none)
    (hturns : Turns single depth room P select step) (a : α) :
    Reads single depth room (Extends P a) (repeatWhile select step a) := by
  -- Each turn passes a token, so the induction is on how many there are.
  intro reader
  induction hlength : reader.ahead.length using Nat.strong_induction_on generalizing reader a with
  | _ length ih =>
  intro hwithin
  rw [repeatWhile_eq (hturns.progresses hstop) hwithin]
  cases hselect : select reader.current.lexeme with
  | none => exact ⟨[], .refl hwithin.reported_eq, .nil a⟩
  | some choice =>
      have hyields := hturns reader choice a hwithin hselect
      dsimp only
      rcases hstep : step choice a reader with ⟨_ | b, later⟩
      · rw [hstep] at hyields
        exact hyields.mono fun passed hviable => hviable.mono fun _ _ h => h.2
      · have hlt := (hturns.progresses hstop).passes hwithin hselect hstep
        rw [hstep] at hyields
        obtain ⟨passed, hadvances, -, hextends⟩ := hyields
        have hrest := ih _ (hlength ▸ hlt.2) b later rfl hlt.1
        dsimp only
        rcases hresult : Rule.repeatWhile select step b later with ⟨_ | c, last⟩
        · rw [hresult] at hrest
          refine hadvances.refuses hrest fun tokens hviable => ?_
          obtain ⟨rest, c, hlexical, h⟩ := hviable
          exact ⟨rest, c, hlexical, by rw [List.append_assoc]; exact hextends.trans h⟩
        · rw [hresult] at hrest
          obtain ⟨more, hmore, h⟩ := hrest
          exact ⟨passed ++ more, hadvances.trans hmore, hextends.trans h⟩

/-! ## Loops whose turns may fail -/

/-- The turns of a loop, one after the other, with what became of each. -/
inductive Attempts (more : Lexeme → Bool) (rule : Rule α) :
    Reader → List (Option α) → Reader → Prop where
  | stop {reader : Reader} (hmore : more reader.current.lexeme = false) :
      Attempts more rule reader [] reader
  | turn {reader later : Reader} {outcomes : List (Option α)}
      (hmore : more reader.current.lexeme = true)
      (hrest : Attempts more rule (rule reader).2 outcomes later) :
      Attempts more rule reader ((rule reader).1 :: outcomes) later

variable {more : Lexeme → Bool} {rule : Rule α}

theorem Attempts.unique {reader later last : Reader} {outcomes others : List (Option α)}
    (hfirst : Attempts more rule reader outcomes later)
    (hsecond : Attempts more rule reader others last) : outcomes = others ∧ later = last := by
  induction hfirst generalizing others with
  | stop hmore =>
      cases hsecond with
      | stop => exact ⟨rfl, rfl⟩
      | turn hturn => simp [hmore] at hturn
  | turn hmore _ ih =>
      cases hsecond with
      | stop hstop => simp [hmore] at hstop
      | turn _ hrest =>
          obtain ⟨houtcomes, hlater⟩ := ih hrest
          exact ⟨by rw [houtcomes], hlater⟩

/-- Some turns of a loop, one after the other, with what became of each.  The loop may go on behind
them. -/
inductive Attempted (more : Lexeme → Bool) (rule : Rule α) :
    Reader → List (Option α) → Reader → Prop where
  | refl {reader : Reader} : Attempted more rule reader [] reader
  | turn {reader later : Reader} {outcomes : List (Option α)}
      (hmore : more reader.current.lexeme = true)
      (hrest : Attempted more rule (rule reader).2 outcomes later) :
      Attempted more rule reader ((rule reader).1 :: outcomes) later

theorem Attempted.trans {reader later last : Reader} {outcomes others : List (Option α)}
    (hfirst : Attempted more rule reader outcomes later)
    (hsecond : Attempted more rule later others last) :
    Attempted more rule reader (outcomes ++ others) last := by
  induction hfirst with
  | refl => exact hsecond
  | turn hmore _ ih => exact .turn hmore (ih hsecond)

/-- Turns, and all turns behind them. -/
theorem Attempted.append {reader later last : Reader} {outcomes others : List (Option α)}
    (hattempted : Attempted more rule reader outcomes later)
    (hothers : Attempts more rule later others last) :
    Attempts more rule reader (outcomes ++ others) last := by
  induction hattempted with
  | refl => exact hothers
  | turn hmore _ ih => exact .turn hmore (ih hothers)

/-- Turns behind which the loop stops are all of its turns. -/
theorem Attempted.attempts {reader later : Reader} {outcomes : List (Option α)}
    (hattempted : Attempted more rule reader outcomes later)
    (hstop : more later.current.lexeme = false) : Attempts more rule reader outcomes later := by
  rw [← List.append_nil outcomes]
  exact hattempted.append (.stop hstop)

/-- The turns of a loop that makes progress come to an end. -/
structure Advancing (Inv : Reader → Prop) (more : Lexeme → Bool) (rule : Rule α) : Prop where
  stops : ∀ {reader : Reader}, Inv reader → reader.ahead = [] →
    more reader.current.lexeme = false
  passes : ∀ {reader : Reader}, Inv reader → more reader.current.lexeme = true →
    Inv (rule reader).2 ∧ (rule reader).2.ahead.length < reader.ahead.length

/-- Whether a loop of attempts takes another turn. -/
def another? (more : Lexeme → Bool) (lexeme : Lexeme) : Option Unit :=
  if more lexeme then some () else none

/-- One turn of a loop of attempts.  What became of it goes in front of the other outcomes. -/
def attemptTurn (rule : Rule α) (_ : Unit) (outcomes : List (Option α)) :
    Rule (List (Option α)) := do
  return (← attempt rule) :: outcomes

theorem attemptWhile_eq (more : Lexeme → Bool) (rule : Rule α) : attemptWhile more rule =
    repeatWhile (another? more) (attemptTurn rule) [] >>= fun outcomes =>
      pure outcomes.reverse := rfl

theorem another?_eq_some_iff {lexeme : Lexeme} {choice : Unit} :
    another? more lexeme = some choice ↔ more lexeme = true := by
  simp [another?]

theorem another?_eq_none_iff {lexeme : Lexeme} :
    another? more lexeme = none ↔ more lexeme = false := by
  simp [another?]

private theorem progresses_attemptTurn (hadvancing : Advancing Inv more rule) :
    Progresses Inv (another? more) (attemptTurn rule) where
  stops := fun hinv hahead => another?_eq_none_iff.mpr (hadvancing.stops hinv hahead)
  passes := by
    intro reader later _ outcomes others hinv hselect hstep
    have hlater : later = (rule reader).2 := (congrArg Prod.snd hstep).symm
    rw [hlater]
    exact hadvancing.passes hinv (another?_eq_some_iff.mp hselect)

/-- The loop collects the outcomes in front of those it has, latest first. -/
private theorem exists_attempts_before (hadvancing : Advancing Inv more rule) {reader : Reader}
    (hinv : Inv reader) (before : List (Option α)) :
    ∃ outcomes later, Attempts more rule reader outcomes later ∧
      repeatWhile (another? more) (attemptTurn rule) before reader =
        (some (outcomes.reverse ++ before), later) := by
  have hprogress := progresses_attemptTurn hadvancing
  induction hlength : reader.ahead.length using Nat.strong_induction_on
    generalizing reader before with
  | _ length ih =>
      cases hmore : more reader.current.lexeme with
      | false =>
          have hselect := another?_eq_none_iff.mpr hmore
          exact ⟨[], reader, .stop hmore, repeatWhile_of_select_eq_none hprogress hinv _ hselect⟩
      | true =>
          have hselect : another? more reader.current.lexeme = some () :=
            another?_eq_some_iff.mpr hmore
          obtain ⟨hlater, hlt⟩ := hadvancing.passes hinv hmore
          obtain ⟨outcomes, later, hattempts, hresult⟩ :=
            ih _ (hlength ▸ hlt) hlater ((rule reader).1 :: before) rfl
          refine ⟨(rule reader).1 :: outcomes, later, .turn hmore hattempts, ?_⟩
          rw [repeatWhile_of_step_eq hprogress hinv hselect rfl, hresult]
          simp

/-- What each turn keeps holds behind any number of them. -/
theorem Attempted.keeps (hadvancing : Advancing Inv more rule) {reader later : Reader}
    {outcomes : List (Option α)} (hattempted : Attempted more rule reader outcomes later)
    (hinv : Inv reader) : Inv later := by
  induction hattempted with
  | refl => exact hinv
  | turn hmore _ ih => exact ih (hadvancing.passes hinv hmore).1

/-- A loop of attempts yields what became of its turns. -/
theorem exists_attempts (hadvancing : Advancing Inv more rule) {reader : Reader}
    (hinv : Inv reader) :
    ∃ outcomes later, Attempts more rule reader outcomes later ∧
      attemptWhile more rule reader = (some outcomes, later) := by
  obtain ⟨outcomes, later, hattempts, hresult⟩ := exists_attempts_before hadvancing hinv []
  refine ⟨outcomes, later, hattempts, ?_⟩
  rw [attemptWhile_eq, bind_apply, hresult]
  simp

/-- Turns behind which a loop stops are what it yields. -/
theorem attemptWhile_of_attempts (hadvancing : Advancing Inv more rule) {reader later : Reader}
    {outcomes : List (Option α)} (hinv : Inv reader)
    (hattempts : Attempts more rule reader outcomes later) :
    attemptWhile more rule reader = (some outcomes, later) := by
  obtain ⟨others, last, hothers, hresult⟩ := exists_attempts hadvancing hinv
  obtain ⟨rfl, rfl⟩ := hattempts.unique hothers
  exact hresult

end Rule

end LoopLang
