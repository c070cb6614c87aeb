import LoopLang.Proofs.Simulation.Basic

/-!
# Recovery in two runs

Recovery decides at each token whether it goes on, and by nothing but the lexeme of that token.  So
two readers in step that recover pass the same number of tokens, or the runs part on the way
(`Simulation.near_recover`, `Simulation.near_skipChain`).
-/

namespace LoopLang

open Rule

namespace Simulation

variable {S : Simulation} {x y : Reader}

private theorem frame_advanceBy (count : Nat) (reader : Reader) :
    Reader.Frame reader (reader.advanceBy count) :=
  (Reader.steps_advanceBy count).frame

/-- The two readers look for the boundary at the same tokens, and find it at the same one. -/
private theorem skip_inStep (boundary : Boundary) (opened : Nat) (hstep : S.InStep x y) :
    (boundary.skipFrom opened x.ahead = boundary.skipFrom opened y.ahead ∧
      S.InStep (x.advanceBy (boundary.skipFrom opened x.ahead))
        (y.advanceBy (boundary.skipFrom opened y.ahead))) ∨
      S.Parted (x.advanceBy (boundary.skipFrom opened x.ahead))
        (y.advanceBy (boundary.skipFrom opened y.ahead)) := by
  induction hahead : x.ahead generalizing x y opened with
  | nil =>
      have hother : y.ahead = [] := (ahead_eq_nil_iff hstep).mp hahead
      rw [hother]
      exact Or.inl ⟨rfl, hstep⟩
  | cons token behind ih =>
      have hne : x.ahead ≠ [] := by simp [hahead]
      obtain ⟨hnil, -⟩ | ⟨rest, behind', hx, hy⟩ := exists_ahead hstep
      · exact absurd hnil hne
      have hlexeme : token.lexeme = y.current.lexeme := by
        rw [← S.lexeme_eq hstep, x.current_of_ahead_eq_cons hahead]
      have htail : x.advance.ahead = behind := by rw [Reader.ahead_advance, hahead, List.tail_cons]
      have htail' : y.advance.ahead = behind' := by rw [Reader.ahead_advance, hy, List.tail_cons]
      have hnear := S.near_advance hstep hne
      rw [hy]
      simp only [Boundary.skipFrom, hlexeme]
      cases boundary.verdict opened y.current.lexeme with
      | before => exact Or.inl ⟨rfl, hstep⟩
      | behind => exact hnear.imp (fun hnext => ⟨rfl, hnext⟩) id
      | further opened =>
          -- The boundary is further on in both texts, unless the readers part at this token.
          dsimp only
          rcases hnear with hnext | hparted
          · have hrest := ih opened hnext htail
            rw [htail'] at hrest
            exact hrest.imp (fun h => ⟨by rw [h.1], h.2⟩) id
          · right
            exact S.parted_frames hparted (frame_advanceBy _ x.advance)
              (frame_advanceBy _ y.advance)

theorem near_recover (boundary : Boundary) (hstep : S.InStep x y) :
    S.Near (x.recover boundary) (y.recover boundary) := by
  rw [Reader.recover, Reader.recover, boundary.skip_eq_skipFrom, boundary.skip_eq_skipFrom]
  rcases skip_inStep boundary 0 hstep with ⟨hcount, hnext⟩ | hparted
  · left
    rw [← hcount] at hnext ⊢
    exact S.inStep_recovered hnext boundary _
  · right
    exact S.parted_frames hparted (Reader.frame_record trivial) (Reader.frame_record trivial)

private theorem near_skipFollowers (budget : List Token) :
    ∀ (budget' : List Token) {x y : Reader}, S.InStep x y → x.ahead.length ≤ budget.length →
      y.ahead.length ≤ budget'.length →
      S.Near (Reader.skipFollowers budget x) (Reader.skipFollowers budget' y) := by
  have hstop : Lexeme.endOfInput.continuesChain = false := rfl
  induction budget with
  | nil =>
      intro budget' x y hstep hbudget _
      have hahead : x.ahead = [] := List.eq_nil_of_length_eq_zero (Nat.le_zero.mp hbudget)
      have hend : y.current.lexeme = .endOfInput := by
        rw [← S.lexeme_eq hstep, (S.proper hstep).1.current_lexeme_eq_endOfInput_iff, hahead]
      cases budget' <;> simp [Reader.skipFollowers, hend, hstop, Near, hstep]
  | cons token budget ih =>
      intro budget' x y hstep hbudget hbudget'
      have hlexeme := S.lexeme_eq hstep
      cases budget' with
      | nil =>
          have hahead : y.ahead = [] := List.eq_nil_of_length_eq_zero (Nat.le_zero.mp hbudget')
          have hend : x.current.lexeme = .endOfInput := by
            rw [hlexeme, (S.proper hstep).2.current_lexeme_eq_endOfInput_iff, hahead]
          simp [Reader.skipFollowers, hend, hstop, Near, hstep]
      | cons another budget' =>
          simp only [Reader.skipFollowers, ← hlexeme]
          by_cases hmore : x.current.lexeme.continuesChain = true
          · rw [if_pos hmore, if_pos hmore]
            have hahead : x.ahead ≠ [] := by
              apply ahead_ne_nil hstep
              intro hend
              rw [hend, hstop] at hmore
              contradiction
            have hahead' : y.ahead ≠ [] := fun h => hahead ((ahead_eq_nil_iff hstep).mpr h)
            -- Both readers pass a block, so what is left of their budgets is enough.
            have hlt := (@Reader.recover_of_not_stopsAt x .block hahead id).2
            have hlt' := (@Reader.recover_of_not_stopsAt y .block hahead' id).2
            simp only [List.length_cons] at hbudget hbudget'
            exact (near_recover .block hstep).frames
              (fun hnext => ih budget' hnext (by omega) (by omega))
              (Reader.steps_skipFollowers _).1.frame (Reader.steps_skipFollowers _).1.frame
          · rw [if_neg hmore, if_neg hmore]
            exact Or.inl hstep

theorem near_skipChain (hstep : S.InStep x y) : S.Near x.skipChain y.skipChain :=
  (near_recover .block hstep).frames
    (fun hnext => near_skipFollowers _ _ hnext le_rfl le_rfl)
    (Reader.steps_skipFollowers _).1.frame (Reader.steps_skipFollowers _).1.frame

end Simulation

end LoopLang
