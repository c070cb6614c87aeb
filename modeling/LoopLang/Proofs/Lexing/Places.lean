import LoopLang.Proofs.Lexing.Tokens
import Mathlib.Data.Prod.Lex

/-!
# The order of places

A place lies before another one if it is on an earlier line, or on the same line further to the
left.  Each character leads to a later place, whatever it is, so the tokens of a text stand at
places that come one after the other (`Cursor.pairwise_location_lt`).
-/

namespace LoopLang

namespace Location

/-- A location as a pair, to be compared line first. -/
def key (location : Location) : Nat ×ₗ Nat := toLex (location.line, location.column)

private theorem key_injective : Function.Injective key := by
  rintro ⟨line, column⟩ ⟨line', column'⟩ heq
  simpa [key] using heq

instance : PartialOrder Location := PartialOrder.lift key key_injective

theorem lt_iff {first second : Location} :
    first < second ↔
      first.line < second.line ∨ first.line = second.line ∧ first.column < second.column :=
  Prod.Lex.lt_iff

private theorem lt_after (location : Location) (c : Char) : location < location.after c := by
  rw [lt_iff]
  by_cases hc : c = '\n'
  · subst hc
    rw [after_newline]
    exact Or.inl (Nat.lt_succ_self _)
  · rw [after_of_ne hc]
    exact Or.inr ⟨rfl, Nat.lt_succ_self _⟩

private theorem le_afterAll (location : Location) (cs : List Char) :
    location ≤ location.afterAll cs := by
  induction cs generalizing location with
  | nil => exact le_refl _
  | cons c cs ih => exact (location.lt_after c).le.trans (ih _)

private theorem lt_afterAll (location : Location) {cs : List Char} (hcs : cs ≠ []) :
    location < location.afterAll cs := by
  obtain ⟨c, cs, rfl⟩ := List.exists_cons_of_ne_nil hcs
  exact (location.lt_after c).trans_le (le_afterAll _ cs)

end Location

namespace Cursor

private theorem orders_location : Orders Cursor.location Token.location where
  le_next := fun cursor => cursor.location.le_afterAll _
  le_endToken := fun cursor => cursor.location.le_afterAll _
  lt_next_snd := fun cursor hend =>
    cursor.next.1.location.lt_afterAll (lexical_next hend).text_ne_nil

/-- Every token stands at a later place than those before it. -/
theorem pairwise_location_lt (cursor : Cursor) :
    cursor.tokenize.Pairwise fun before token => before.location < token.location :=
  orders_location.pairwise_lt cursor

end Cursor

end LoopLang
