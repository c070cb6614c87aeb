import LoopLang.Proofs.Accepting.Statements
import LoopLang.Proofs.Blocks.Items

/-!
# Where blocks close

A block with conditions comes to its own `end` in one of two ways.  If its header is read, its body
begins at its own `begin`, and a body that is laid out comes to its own `end`.  If its header fails,
it fails in front of its own `begin`, and recovery counts from there.  Either way the reader lands
behind the block, whether the statement around it is kept or not (`Rule.lands_keptStatement`).
-/

namespace LoopLang

open Grammar

/-- What stands behind the word that begins a block: a head, and a balanced body between `begin` and
`end`.  Where the head and `begin` are a header, the body is laid out. -/
inductive IsOrderly (room : Nat) : List Token → Prop where
  | mk {head inner : List Token} {first last : Token} (hhead : EdgeFree head)
      (hfirst : first.lexeme = .keyword .beginWord) (hinner : IsBalanced inner)
      (hlaid : ∀ conditions, Rule.IsGuard room (head ++ [first]) conditions → IsLaidOut inner)
      (hlast : last.lexeme = .keyword .endWord) :
      IsOrderly room (head ++ first :: (inner ++ [last]))

namespace Reader

/-- A reader in front of some tokens, none of them reported. -/
def Lands (rest : List Token) (later : Reader) : Prop :=
  later.ahead = rest ∧ later.reported = false

end Reader

namespace Rule

variable {room : Nat} {reader : Reader} {word first last : Token}
  {tokens head inner rest : List Token}

/-- A body that is laid out is read to its own `end`. -/
private theorem lands_body (hwithin : reader.Within 0 room) (hlaid : IsLaidOut inner)
    (hlast : last.lexeme = .keyword .endWord) (hahead : reader.ahead = inner ++ last :: rest) :
    (body reader).2.Lands rest := by
  have hbody : InBody room reader :=
    ⟨hwithin.ready, hwithin.enclosing_ne, by simp [hwithin.reported_eq]⟩
  obtain ⟨outcomes, later, hattempts, hresult⟩ := body_apply hwithin
  have hend : later.ahead = last :: rest := hattempts.ahead_of_isLaidOut hbody hlaid hlast hahead
  have hcurrent : later.current = last := later.current_of_ahead_eq_cons hend
  rw [hresult, if_pos (hcurrent ▸ hlast)]
  exact ⟨by simp [hend], later.reported_advance (by simp [hend])⟩

/-- A header that is read ends with the first `begin`. -/
private theorem IsGuard.eq_of_first {conditions : Conditions} {others : List Token}
    (hguard : IsGuard room tokens conditions) (heq : head ++ first :: rest = tokens ++ others)
    (hhead : EdgeFree head) (hfirst : first.lexeme = .keyword .beginWord) :
    tokens = head ++ [first] ∧ others = rest := by
  obtain ⟨front, _, rfl, hfront, colon, opening, rfl, hcolon, hopening⟩ := hguard
  have hne : ∀ token ∈ front ++ [colon], token.lexeme ≠ .keyword .beginWord := by
    intro token hmem hbegin
    rcases List.mem_append.mp hmem with hmem | hmem
    · have hline := inLine_of_isConditions hfront token hmem
      simp [hbegin, Lexeme.inLine] at hline
    · rw [List.mem_singleton.mp hmem, hcolon] at hbegin
      simp at hbegin
  have hsplit : head ++ first :: rest = (front ++ [colon]) ++ opening :: others := by
    simpa using heq
  obtain ⟨rfl, rfl, rfl⟩ := append_cons_inj_of_first hsplit (fun token hmem => (hhead token hmem).1)
    hfirst hne hopening
  exact ⟨by simp, rfl⟩

/-- What is read of a block behind its first word ends behind its own `end`. -/
private theorem lands_blockRest {α : Type} (make : Conditions → List Assignment → α)
    (hwithin : reader.Within 0 room) (horderly : IsOrderly room tokens)
    (hahead : reader.ahead = tokens ++ rest) : (blockRest guard make reader).2.Lands rest := by
  obtain @⟨head, inner, first, last, hhead, hfirst, hinner, hlaid, hlast⟩ := horderly
  have hsplit : reader.ahead = head ++ first :: (inner ++ last :: rest) := by simpa using hahead
  have hyields := @reads_guard room True reader hwithin
  rw [blockRest, bind_apply, recoveringBy]
  rcases hresult : guard reader with ⟨_ | conditions, later⟩
  -- The header fails in front of `begin`, so recovery counts it.
  · obtain ⟨passed, hpassed, hline⟩ := failsInLine_guard reader (by rw [hresult])
    rw [hresult] at hpassed
    have hbegin : ¬ first.lexeme.inLine := by simp [hfirst, Lexeme.inLine]
    obtain ⟨more, rfl, hmore⟩ := exists_append_of_first (hsplit.symm.trans hpassed) hbegin
      fun token hmem => not_not.mpr (hline token hmem)
    have hblock : IsBlock (more ++ first :: (inner ++ [last])) :=
      .mk hhead.of_append.2 hfirst hinner hlast
    exact Reader.ahead_recover_block hblock (by simpa using hmore)
  -- The header is read up to `begin`, so the body begins where it should.
  · rw [hresult] at hyields
    obtain ⟨passed, hadvances, hguard⟩ := hyields
    obtain ⟨rfl, hrest⟩ :=
      hguard.eq_of_first (hsplit.symm.trans hadvances.ahead_eq) hhead hfirst
    show (((do let body ← body; return make conditions body) : Rule α) later).2.Lands rest
    rw [map_apply]
    exact lands_body (hwithin.advances hadvances) (hlaid conditions hguard) hlast hrest

/-- A block with conditions is read to its own `end`. -/
private theorem lands_guarded {construct : Construct} (hready : reader.Ready room)
    (hopens : construct.OpenedBy word.lexeme) (hconstruct : construct ≠ .parenthesized)
    (horderly : IsOrderly room tokens) (hahead : reader.ahead = word :: (tokens ++ rest)) :
    (guarded construct reader).2.Lands rest := by
  obtain ⟨hwithin, hsplit⟩ := within_advanceInto hready hahead hopens hconstruct
  have hrest := lands_blockRest
    (fun conditions body => (⟨conditions, body, reader.current.location⟩ : Guarded)) hwithin
    horderly hsplit
  exact ⟨(Reader.ahead_leaveFrom _ _).trans hrest.1,
    (Reader.reported_leaveFrom _ _).trans hrest.2⟩

/-- A chain of one block is read to the `end` of the block. -/
private theorem lands_conditional (hready : reader.Ready room)
    (hword : word.lexeme = .keyword .ifWord) (horderly : IsOrderly room tokens)
    (hahead : reader.ahead = word :: (tokens ++ rest))
    (hnext : StartsAnew (rest.headD reader.endToken).lexeme) :
    (conditional reader).2.Lands rest := by
  have hcurrent : reader.current = word := reader.current_of_ahead_eq_cons hahead
  have hopens : Construct.ifBlock.OpenedBy word.lexeme := hword
  have hlands : (guarded .ifBlock reader).2.Lands rest :=
    lands_guarded hready hopens (by simp) horderly hahead
  have hread := isRead_guarded hready (hcurrent ▸ hopens) (hcurrent ▸ hword)
  have hsecond := InChain.of_isRead hready hread
  rw [← (Yields.steps hread.yields).1.frame.endToken_eq] at hnext
  -- No block follows, so the rest of the chain passes nothing.
  obtain ⟨third, helifs, hmore⟩ := accepts_elifs .nil hsecond hlands.2 hlands.1 hnext.1
  have hthird := hsecond.ready.steps hmore.steps hmore.enclosing_eq
  rw [← hmore.steps.frame.endToken_eq] at hnext
  have hrest := hmore.ahead_later hlands.1
  obtain ⟨last, hotherwise, hadvances⟩ :=
    accepts_otherwiseAll .none hthird hmore.reported_eq hrest fun _ => hnext.2
  rw [snd_conditional, helifs, hotherwise]
  exact ⟨hadvances.ahead_later hrest, hadvances.reported_eq⟩

/-- A statement that is one block is read to the `end` of the block, kept or not. -/
theorem lands_keptStatement (hready : reader.Ready room)
    (hword : word.lexeme = .keyword .ifWord ∨ word.lexeme = .keyword .loopWord)
    (horderly : IsOrderly room tokens) (hahead : reader.ahead = word :: (tokens ++ rest))
    (hnext : StartsAnew (rest.headD reader.endToken).lexeme) :
    (keptStatement reader).2.Lands rest := by
  have hcurrent : reader.current = word := reader.current_of_ahead_eq_cons hahead
  rw [Reader.Lands, ahead_keptStatement, reported_keptStatement, statement_apply, hcurrent]
  rcases hword with hword | hword
  · rw [hword]
    exact lands_conditional hready hword horderly hahead hnext
  · have hopens : Construct.loopBlock.OpenedBy word.lexeme := hword
    rw [hword]
    exact lands_guarded hready hopens (by simp) horderly hahead

end Rule

end LoopLang
