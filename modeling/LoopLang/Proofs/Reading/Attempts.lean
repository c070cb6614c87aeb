import LoopLang.Proofs.Grammar.Derivation
import LoopLang.Proofs.Reading.Loops

/-!
# Rules that go on after a failure

A chain of blocks and the body of a block are read to the end before they fail.  Their rules keep
what became of each part and put the parts together at the end.  `yields_attempt_bind` says that
nothing is lost by this: the first part that fails is where the whole is refused, whatever the
parts behind it do.  `attemptAll` is a loop of attempts that fails if one of them did.
-/

namespace LoopLang

open Grammar

namespace Rule

variable {α β : Type} {depth room : Nat} {reader later : Reader} {P : List Token → α → Prop}

/-! ## One attempt -/

/-- From here on a reader does nothing but steps, fails, and leaves what it enters. -/
def FailsLater (reader : Reader) (result : Option β × Reader) : Prop :=
  result.1 = none ∧ Reader.Steps reader result.2 ∧ result.2.enclosing = reader.enclosing

private theorem yields_of_failsLater {single : Prop} {Q : List Token → β → Prop}
    {result : Option β × Reader} (hrefuses : reader.Refuses single P later)
    (hfails : FailsLater later result) (himp : ∀ tokens, Viable P tokens → Viable Q tokens) :
    Yields False Q reader result := by
  obtain ⟨value, last⟩ := result
  obtain ⟨rfl, hsteps, henclosing⟩ := hfails
  exact (hrefuses.steps_later hsteps henclosing).mono himp

theorem attempt_bind_apply (rule : Rule α) (next : Option α → Rule β) (reader : Reader) :
    (attempt rule >>= next) reader = next (rule reader).1 (rule reader).2 := rfl

/-- A part that is attempted, and the parts behind it, which fail if it did. -/
theorem yields_attempt_bind {rule : Rule α} {next : Option α → Rule β}
    {Q : α → List Token → β → Prop} (hrule : Yields False P reader (rule reader))
    (hnext : ∀ a passed later, rule reader = (some a, later) → reader.Advances passed later →
      P passed a → Yields False (Q a) later (next (some a) later))
    (hnone : ∀ later, rule reader = (none, later) → FailsLater later (next none later))
    (hcompletes : ∀ passed a, P passed a → Viable (Q a) []) :
    Yields False (Follows P Q) reader ((attempt rule >>= next) reader) := by
  rw [attempt_bind_apply]
  rcases hresult : rule reader with ⟨_ | a, later⟩
  · rw [hresult] at hrule
    exact yields_of_failsLater hrule (hnone later hresult)
      fun passed hviable => hviable.follows_left hcompletes
  · rw [hresult] at hrule
    obtain ⟨front, hadvances, hfront⟩ := hrule
    have hyields := hnext a front later hresult hadvances hfront
    dsimp only
    rcases hafter : next (some a) later with ⟨_ | b, last⟩
    · rw [hafter] at hyields
      exact hadvances.refuses hyields fun tokens hviable => hviable.follows_right hfront
    · rw [hafter] at hyields
      obtain ⟨back, hmore, hback⟩ := hyields
      exact ⟨front ++ back, hadvances.trans hmore, front, back, a, rfl, hfront, hback⟩

/-! ## All outcomes together -/

theorem mapM_id_none_cons (outcomes : List (Option α)) : (none :: outcomes).mapM id = none := by
  simp

theorem mapM_id_some_cons (a : α) (outcomes : List (Option α)) :
    (some a :: outcomes).mapM id = (outcomes.mapM id).map (a :: ·) := by
  cases h : outcomes.mapM id <;> simp [h]

theorem mapM_id_eq_some_iff {outcomes : List (Option α)} {as : List α} :
    outcomes.mapM id = some as ↔ outcomes = as.map some := by
  induction outcomes generalizing as with
  | nil => cases as <;> simp
  | cons outcome outcomes ih =>
      cases outcome with
      | none => cases as <;> simp
      | some a =>
          rw [mapM_id_some_cons]
          cases as with
          | nil => simp
          | cons b bs => simp [ih, and_comm]

/-- A loop of attempts never fails itself. -/
theorem exists_repeatWithin_attemptTurn (more : Lexeme → Bool) (rule : Rule α) (budget : List Token)
    (before : List (Option α)) (reader : Reader) :
    ∃ outcomes later, repeatWithin (another? more) (attemptTurn rule) budget before reader =
      (some outcomes, later) := by
  induction budget generalizing before reader with
  | nil => exact ⟨before, reader, rfl⟩
  | cons token budget ih =>
      rw [repeatWithin_cons]
      split
      · exact ih _ _
      · exact ⟨before, reader, rfl⟩

theorem exists_attemptWhile (more : Lexeme → Bool) (rule : Rule α) (reader : Reader) :
    ∃ outcomes later, attemptWhile more rule reader = (some outcomes, later) := by
  obtain ⟨outcomes, later, hresult⟩ :=
    exists_repeatWithin_attemptTurn more rule reader.ahead [] reader
  refine ⟨outcomes.reverse, later, ?_⟩
  rw [attemptWhile_eq, bind_apply, repeatWhile, hresult]
  rfl

/-- Reads a rule again and again while the current lexeme asks for it, and fails at the end if one
of the attempts did. -/
def attemptAll (more : Lexeme → Bool) (rule : Rule α) : Rule (List α) := do
  let outcomes ← attemptWhile more rule
  ofOption (outcomes.mapM id)

/-! ## Loops of attempts -/

/-- The turns of a loop read sentences of a kind, keep an invariant, and pass a token. -/
structure Repeats (Inv : Reader → Prop) (P : List Token → α → Prop) (more : Lexeme → Bool)
    (rule : Rule α) : Prop extends Advancing Inv more rule where
  yields : ∀ {reader : Reader}, Inv reader → more reader.current.lexeme = true →
    Yields False P reader (rule reader)

variable {Inv : Reader → Prop} {more : Lexeme → Bool} {rule : Rule α} {outcomes : List (Option α)}

/-- Whatever becomes of the turns, they are steps, and the loop ends where no turn is left. -/
theorem Attempts.steps (hrepeats : Repeats Inv P more rule)
    (hattempts : Attempts more rule reader outcomes later) (hinv : Inv reader) :
    Reader.Steps reader later ∧ later.enclosing = reader.enclosing ∧ Inv later ∧
      more later.current.lexeme = false := by
  induction hattempts with
  | stop hmore => exact ⟨.refl, rfl, hinv, hmore⟩
  | turn hmore _ ih =>
      obtain ⟨hsteps, henclosing⟩ := Yields.steps (hrepeats.yields hinv hmore)
      obtain ⟨hrest, hsame, hlater⟩ := ih (hrepeats.passes hinv hmore).1
      exact ⟨hsteps.trans hrest, hsame.trans henclosing, hlater⟩

/-- What a turn kept is denoted by tokens that stand in front of the reader. -/
theorem Attempts.exists_tokens (hrepeats : Repeats Inv P more rule)
    (hattempts : Attempts more rule reader outcomes later) (hinv : Inv reader) {a : α}
    (hmem : some a ∈ outcomes) : ∃ tokens, tokens <:+: reader.ahead ∧ P tokens a := by
  induction hattempts with
  | stop => simp at hmem
  | @turn reader later outcomes hmore _ ih =>
      have hyields := hrepeats.yields hinv hmore
      rcases List.mem_cons.mp hmem with heq | hmem
      · rcases hresult : rule reader with ⟨value, after⟩
        rw [hresult] at hyields heq
        obtain rfl : value = some a := heq.symm
        obtain ⟨passed, hadvances, h⟩ := hyields
        exact ⟨passed, ⟨[], after.ahead, hadvances.ahead_eq.symm⟩, h⟩
      · obtain ⟨tokens, hwithin, h⟩ := ih (hrepeats.passes hinv hmore).1 hmem
        exact ⟨tokens, hwithin.trans (Yields.steps hyields).1.frame.ahead_suffix.isInfix, h⟩

private theorem Viable.sequence {tokens : List Token} (hviable : Viable P tokens) :
    Viable (IsSequence P) tokens := by
  obtain ⟨rest, a, hlexical, h⟩ := hviable
  exact ⟨rest, [a], hlexical, by simpa using IsSequence.cons h .nil⟩

/-- Turns that all succeeded have read a sequence; otherwise the first that failed has refused. -/
theorem Attempts.yields (hrepeats : Repeats Inv P more rule)
    (hattempts : Attempts more rule reader outcomes later) (hinv : Inv reader)
    (hreported : reader.reported = false) :
    Yields False (IsSequence P) reader (outcomes.mapM id, later) := by
  induction hattempts with
  | stop => exact ⟨[], .refl hreported, .nil⟩
  | @turn reader later outcomes hmore hrest ih =>
      have hyields := hrepeats.yields hinv hmore
      have hnext := (hrepeats.passes hinv hmore).1
      rcases hresult : rule reader with ⟨_ | a, after⟩
      · rw [hresult] at hyields hrest hnext
        rw [mapM_id_none_cons]
        obtain ⟨hsteps, henclosing, -⟩ := hrest.steps hrepeats hnext
        exact (hyields.steps_later hsteps henclosing).mono fun _ => Viable.sequence
      · rw [hresult] at hyields hrest hnext ih
        obtain ⟨passed, hadvances, h⟩ := hyields
        have hmore := ih hnext hadvances.reported_eq
        rw [mapM_id_some_cons]
        cases houtcomes : outcomes.mapM id with
        | none =>
            -- A later turn has refused a token, behind what this one has read.
            rw [houtcomes] at hmore
            refine hadvances.refuses hmore fun tokens hviable => ?_
            obtain ⟨rest, as, hlexical, has⟩ := hviable
            exact ⟨rest, a :: as, hlexical, by
              rw [List.append_assoc]
              exact .cons h has⟩
        | some as =>
            rw [houtcomes] at hmore
            obtain ⟨back, hback, has⟩ := hmore
            exact ⟨passed ++ back, hadvances.trans hback, .cons h has⟩

/-- A loop of attempts, and the reader it leaves. -/
theorem attemptAll_apply (hadvancing : Advancing Inv more rule) (hinv : Inv reader) :
    ∃ outcomes later, Attempts more rule reader outcomes later ∧
      attemptWhile more rule reader = (some outcomes, later) ∧
      attemptAll more rule reader = (outcomes.mapM id, later) := by
  obtain ⟨outcomes, later, hattempts, hresult⟩ := exists_attempts hadvancing hinv
  exact ⟨outcomes, later, hattempts, hresult, by rw [attemptAll, bind_apply, hresult]; rfl⟩

end Rule

end LoopLang
