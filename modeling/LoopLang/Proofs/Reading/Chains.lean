import LoopLang.Proofs.Reading.Blocks

/-!
# Reading chains of blocks

A conditional reads all of its blocks before it fails.  `conditional_eq` puts its rule into the form
of attempts that follow one another, whose values are put together at the end; then what fails first
is where the conditional is refused.
-/

namespace LoopLang

open Grammar

namespace Rule

variable {room : Nat} {reader : Reader}

/-! ## The blocks of a chain -/

/-- A reader between the blocks of a chain. -/
structure InChain (room : Nat) (reader : Reader) : Prop where
  ready : reader.Ready room
  clean : reader.Clean

theorem InChain.of_isRead {α : Type} {P : List Token → α → Prop} {result : Option α × Reader}
    (hready : reader.Ready room) (hread : IsRead P reader result) : InChain room result.2 :=
  ⟨hready.steps (Yields.steps hread.yields).1 (Yields.steps hread.yields).2, hread.clean⟩

/-- Whether another `elif` block follows. -/
def elifFollows (lexeme : Lexeme) : Bool := lexeme = .keyword .elifWord

private theorem isRead_elif (hready : reader.Ready room)
    (hmore : elifFollows reader.current.lexeme = true) :
    IsRead (IsGuarded room .elifWord) reader (guarded .elifBlock reader) := by
  have hword : reader.current.lexeme = .keyword .elifWord := by simpa [elifFollows] using hmore
  have hopens : Construct.elifBlock.OpenedBy reader.current.lexeme := hword
  exact isRead_guarded hready hopens hword

theorem repeats_elif :
    Repeats (InChain room) (IsGuarded room .elifWord) elifFollows (guarded .elifBlock) where
  stops := by
    intro reader hchain hahead
    simp [elifFollows, hchain.ready.proper.current_lexeme_eq_endOfInput_iff.mpr hahead]
  passes := by
    intro reader hchain hmore
    have hread := isRead_elif hchain.ready hmore
    exact ⟨.of_isRead hchain.ready hread, hread.length_lt⟩
  yields := fun hchain hmore => (isRead_elif hchain.ready hmore).yields

/-- The `else` block that may follow, which fails if it is there and fails. -/
def otherwiseAll : Rule (Option Otherwise) := do
  let otherwise ← otherwise?
  ofOption (otherwise.mapM id)

private theorem otherwise?_apply (reader : Reader) :
    otherwise? reader =
      if reader.current.lexeme = .keyword .elseWord then
        (some (some (otherwise reader).1), (otherwise reader).2)
      else (some none, reader) := by
  simp only [otherwise?, bind_apply, lexeme]
  split <;> rfl

theorem otherwiseAll_apply (reader : Reader) :
    otherwiseAll reader =
      if reader.current.lexeme = .keyword .elseWord then
        ((otherwise reader).1.map some, (otherwise reader).2)
      else (some none, reader) := by
  rw [otherwiseAll, bind_apply, otherwise?_apply]
  by_cases hword : reader.current.lexeme = .keyword .elseWord
  · rw [if_pos hword, if_pos hword]
    rfl
  · rw [if_neg hword, if_neg hword]
    rfl

/-- A rule keeps a reader in a chain by steps. -/
def KeepsChain {α : Type} (room : Nat) (rule : Rule α) : Prop :=
  ∀ reader : Reader, InChain room reader → Reader.Steps reader (rule reader).2 ∧
    (rule reader).2.enclosing = reader.enclosing ∧ InChain room (rule reader).2

private theorem keepsChain_otherwiseAll : KeepsChain room otherwiseAll := by
  intro reader hchain
  rw [otherwiseAll_apply]
  split
  · rename_i hword
    have hread := isRead_otherwise hchain.ready hword
    obtain ⟨hsteps, henclosing⟩ := Yields.steps hread.yields
    have hlater := InChain.of_isRead hchain.ready hread
    exact ⟨hsteps, henclosing, hlater⟩
  · exact ⟨.refl, rfl, hchain⟩

private theorem keepsChain_elifs :
    KeepsChain room (attemptAll elifFollows (guarded .elifBlock)) := by
  intro reader hchain
  obtain ⟨outcomes, later, hattempts, -, hresult⟩ :=
    attemptAll_apply repeats_elif.toAdvancing hchain
  obtain ⟨hsteps, henclosing, hlater, -⟩ := hattempts.steps repeats_elif hchain
  rw [hresult]
  exact ⟨hsteps, henclosing, hlater⟩

private theorem yields_elifs (hchain : InChain room reader) (hreported : reader.reported = false) :
    Yields False (IsSequence (IsGuarded room .elifWord)) reader
      (attemptAll elifFollows (guarded .elifBlock) reader) := by
  obtain ⟨outcomes, later, hattempts, -, hresult⟩ :=
    attemptAll_apply repeats_elif.toAdvancing hchain
  rw [hresult]
  exact hattempts.yields repeats_elif hchain hreported

private theorem yields_otherwiseAll (hready : reader.Ready room)
    (hreported : reader.reported = false) :
    Yields False (IsOptional (IsOtherwise room)) reader (otherwiseAll reader) := by
  rw [otherwiseAll_apply]
  split
  · rename_i hword
    have hyields := (isRead_otherwise hready hword).yields
    rcases hresult : otherwise reader with ⟨_ | block, later⟩
    · rw [hresult] at hyields
      refine hyields.mono fun passed hviable => ?_
      obtain ⟨rest, block, hlexical, hblock⟩ := hviable
      exact ⟨rest, some block, hlexical, .some hblock⟩
    · rw [hresult] at hyields
      obtain ⟨passed, hadvances, hblock⟩ := hyields
      exact ⟨passed, hadvances, .some hblock⟩
  · exact ⟨[], .refl hreported, .none⟩

/-! ## Conditionals -/

/-- A conditional of its blocks, where all of them were read. -/
def chain (head : Option Guarded) (elifs : Option (List Guarded))
    (otherwise : Option (Option Otherwise)) : Option Conditional := do
  return { head := ← head, elifs := ← elifs, otherwise := ← otherwise }

/-- The part of a conditional behind its `elif` blocks. -/
def lastBlock (head : Option Guarded) (elifs : Option (List Guarded)) : Rule Conditional := do
  let otherwise ← attempt otherwiseAll
  ofOption (chain head elifs otherwise)

/-- The part of a conditional behind its `if` block. -/
def followers (head : Option Guarded) : Rule Conditional := do
  let elifs ← attempt (attemptAll elifFollows (guarded .elifBlock))
  lastBlock head elifs

/-- A conditional is three attempts, of which the second is a loop. -/
theorem conditional_eq : conditional = attempt (guarded .ifBlock) >>= followers := by
  funext reader
  rcases hhead : guarded .ifBlock reader with ⟨head, second⟩
  obtain ⟨outcomes, third, hloop⟩ := exists_attemptWhile elifFollows (guarded .elifBlock) second
  have helifs : attemptAll elifFollows (guarded .elifBlock) second = (outcomes.mapM id, third) := by
    rw [attemptAll, bind_apply, hloop]
    rfl
  have hloop' : attemptWhile (fun lexeme => decide (lexeme = .keyword .elifWord))
      (guarded .elifBlock) second = (some outcomes, third) := hloop
  simp only [conditional, bind_apply, attempt, followers, lastBlock, hhead, hloop', helifs,
    otherwise?_apply, otherwiseAll_apply, ofOption]
  -- Both sides call the same rules in a row, and differ only in how the outcomes are put together.
  by_cases hword : third.current.lexeme = .keyword .elseWord
  · rw [if_pos hword, if_pos hword]
    rcases head with _ | head
    · rfl
    · rcases outcomes.mapM id with _ | elifs
      · rfl
      · rcases (otherwise third).1 with _ | block <;> rfl
  · rw [if_neg hword, if_neg hword]
    rcases head with _ | head
    · rfl
    · rcases outcomes.mapM id with _ | elifs <;> rfl

/-- Whatever becomes of its blocks, a conditional is read to the end. -/
theorem snd_conditional (reader : Reader) :
    (conditional reader).2 = (otherwiseAll
      (attemptAll elifFollows (guarded .elifBlock) (guarded .ifBlock reader).2).2).2 := by
  rw [conditional_eq, attempt_bind_apply, followers, attempt_bind_apply, lastBlock,
    attempt_bind_apply, ofOption]

private theorem failsLater_lastBlock {head : Option Guarded} {elifs : Option (List Guarded)}
    (hnone : head = none ∨ elifs = none) (hchain : InChain room reader) :
    FailsLater reader (lastBlock head elifs reader) := by
  obtain ⟨hsteps, henclosing, -⟩ := keepsChain_otherwiseAll reader hchain
  rw [lastBlock, attempt_bind_apply, ofOption]
  refine ⟨?_, hsteps, henclosing⟩
  rcases hnone with rfl | rfl
  · rfl
  · cases head <;> rfl

private theorem yields_lastBlock (hready : reader.Ready room) (hreported : reader.reported = false)
    (head : Guarded) (elifs : List Guarded) :
    Yields False (Made (IsOptional (IsOtherwise room)) (Conditional.mk head elifs)) reader
      (lastBlock (some head) (some elifs) reader) := by
  have hresult : lastBlock (some head) (some elifs) reader =
      ((otherwiseAll reader).1.map (Conditional.mk head elifs), (otherwiseAll reader).2) := by
    rw [lastBlock, attempt_bind_apply]
    cases (otherwiseAll reader).1 <;> rfl
  rw [hresult]
  exact yields_map (yields_otherwiseAll hready hreported) fun _ otherwise h => ⟨otherwise, h, rfl⟩

private theorem failsLater_followers (hchain : InChain room reader) :
    FailsLater reader (followers none reader) := by
  obtain ⟨hsteps, henclosing, hlater⟩ := keepsChain_elifs reader hchain
  obtain ⟨hnone, hrest, hsame⟩ := @failsLater_lastBlock room _ none
    (attemptAll elifFollows (guarded .elifBlock) reader).1 (Or.inl rfl) hlater
  exact ⟨hnone, hsteps.trans hrest, hsame.trans henclosing⟩

private theorem yields_followers (hchain : InChain room reader)
    (hreported : reader.reported = false) (head : Guarded) :
    Yields False (Follows (IsSequence (IsGuarded room .elifWord)) fun elifs =>
        Made (IsOptional (IsOtherwise room)) (Conditional.mk head elifs)) reader
      (followers (some head) reader) := by
  obtain ⟨-, -, hlater⟩ := keepsChain_elifs reader hchain
  refine yields_attempt_bind (yields_elifs hchain hreported) ?_ ?_ ?_
  · intro elifs passed later hresult hadvances _
    rw [hresult] at hlater
    exact yields_lastBlock hlater.ready hadvances.reported_eq head elifs
  · intro later hresult
    rw [hresult] at hlater
    exact failsLater_lastBlock (Or.inr rfl) hlater
  · exact fun _ _ _ => .made ⟨[], none, by simp, .none⟩ _

/-- A conditional is read to the end of its last block. -/
theorem isRead_conditional (hready : reader.Ready room)
    (hword : reader.current.lexeme = .keyword .ifWord) :
    IsRead (IsConditional room) reader (conditional reader) := by
  have hopens : Construct.ifBlock.OpenedBy reader.current.lexeme := hword
  have hhead : IsRead (IsGuarded room .ifWord) reader (guarded .ifBlock reader) :=
    isRead_guarded hready hopens hword
  have hsecond := InChain.of_isRead hready hhead
  obtain ⟨helifs, -, hthird⟩ := keepsChain_elifs _ hsecond
  obtain ⟨hotherwise, -, hlast⟩ := keepsChain_otherwiseAll _ hthird
  rw [← snd_conditional] at hotherwise hlast
  refine ⟨?_, hlast.clean, ?_⟩
  · rw [conditional_eq]
    refine yields_mono (yields_attempt_bind hhead.yields (Q := fun head =>
      Follows (IsSequence (IsGuarded room .elifWord)) fun elifs =>
        Made (IsOptional (IsOtherwise room)) (Conditional.mk head elifs)) ?_ ?_ ?_) ?_
    · intro head passed later hresult hadvances _
      rw [hresult] at hsecond
      exact yields_followers hsecond hadvances.reported_eq head
    · intro later hresult
      rw [hresult] at hsecond
      exact failsLater_followers hsecond
    · exact fun _ _ _ => .follows_left ⟨[], [], by simp, .nil⟩ fun _ _ _ =>
        .made ⟨[], none, by simp, .none⟩ _
    · rintro tokens c ⟨front, rest, head, rfl, hfront, middle, back, elifs, rfl, hmiddle, otherwise,
        hlast, rfl⟩
      exact IsConditional.mk hfront hmiddle hlast
  · have hsteps : Reader.Steps (guarded .ifBlock reader).2 (conditional reader).2 :=
      helifs.trans hotherwise
    exact (hsteps.frame.ahead_suffix.length_le).trans_lt hhead.length_lt

end Rule

end LoopLang
