import LoopLang.Proofs.Reading.Frames

/-!
# Loops that end by themselves

The loops of a reader are given a budget, so that they end whatever their turns do.  Here the budget
is taken away again.  Each kind of loop has a relation between the reader in front of it and what it
leads to, which knows of no budget: a loop is over where its condition says so, and otherwise goes
on behind one more turn.  A loop that went on forever would not be related to anything.  A turn has
to pass a token or more (`Reader.MovesOn`), so the relations say as well that no turn is spent in
vain.

* `Rule.Runs` is the relation for loops of rules (`Rule.Consumes.runs`);
* `Reader.SkipsTo` is the one for recovery, which looks at one token after the other
  (`Reader.skipsTo_advanceBy`);
* `Reader.SkipsFollowers` is the one for the blocks of a chain that is skipped
  (`Reader.skipsFollowers_skipFollowers`).
-/

namespace LoopLang

/-- A boundary is no further away than the end of input. -/
theorem Boundary.skipFrom_le_length (boundary : Boundary) (opened : Nat) (tokens : List Token) :
    boundary.skipFrom opened tokens ≤ tokens.length := by
  induction tokens generalizing opened with
  | nil => exact le_rfl
  | cons token behind ih =>
      rw [Boundary.skipFrom, List.length_cons]
      split
      · exact Nat.zero_le _
      · exact Nat.le_add_left 1 _
      · exact Nat.succ_le_succ (ih _)

namespace Reader

variable {reader later : Reader}

/-! ## Passing a token or more -/

/-- A reader has passed a token or more, of those in front of it. -/
def MovesOn (reader later : Reader) : Prop :=
  later.endToken = reader.endToken ∧
    ∃ token passed, reader.ahead = token :: (passed ++ later.ahead)

theorem movesOn_of_frame (hframe : Frame reader later)
    (hlt : later.ahead.length < reader.ahead.length) : reader.MovesOn later := by
  refine ⟨hframe.endToken_eq, ?_⟩
  obtain ⟨passed, hpassed⟩ := hframe.ahead_suffix
  rw [← hpassed, List.length_append] at hlt
  obtain ⟨token, passed, rfl⟩ := List.exists_cons_of_length_pos (l := passed) (by omega)
  exact ⟨token, passed, hpassed.symm⟩

private theorem MovesOn.length_lt (hmoves : reader.MovesOn later) :
    later.ahead.length < reader.ahead.length := by
  obtain ⟨-, token, passed, hahead⟩ := hmoves
  rw [hahead, List.length_cons, List.length_append]
  omega

/-- Recovery behind a block passes the token it starts at, whatever that is. -/
private theorem movesOn_recover_block (hahead : reader.ahead ≠ []) :
    reader.MovesOn (reader.recover .block) :=
  movesOn_of_frame (frame_recover _) (recover_of_not_stopsAt hahead id).2

/-! ## Recovery -/

/-- A reader that looks for a boundary, with so many `begin` standing open, finds it.  It decides at
each token whether the boundary is there, right behind it, or further on; and it stops at the end of
input whatever it looks for. -/
inductive SkipsTo (boundary : Boundary) : Nat → Reader → Reader → Prop where
  | atEnd {opened : Nat} {reader : Reader} (hahead : reader.ahead = []) :
      SkipsTo boundary opened reader reader
  | before {opened : Nat} {reader : Reader} (hahead : reader.ahead ≠ [])
      (hverdict : boundary.verdict opened reader.current.lexeme = .before) :
      SkipsTo boundary opened reader reader
  | behind {opened : Nat} {reader : Reader} (hahead : reader.ahead ≠ [])
      (hverdict : boundary.verdict opened reader.current.lexeme = .behind) :
      SkipsTo boundary opened reader reader.advance
  | further {opened count : Nat} {reader later : Reader} (hahead : reader.ahead ≠ [])
      (hverdict : boundary.verdict opened reader.current.lexeme = .further count)
      (hrest : SkipsTo boundary count reader.advance later) : SkipsTo boundary opened reader later

theorem skipsTo_advanceBy (boundary : Boundary) (opened : Nat) (reader : Reader) :
    reader.SkipsTo boundary opened (reader.advanceBy (boundary.skipFrom opened reader.ahead)) := by
  induction hahead : reader.ahead generalizing opened reader with
  | nil => exact .atEnd hahead
  | cons token behind ih =>
      have hne : reader.ahead ≠ [] := by simp [hahead]
      have hcurrent : reader.current.lexeme = token.lexeme := by
        rw [reader.current_of_ahead_eq_cons hahead]
      rw [Boundary.skipFrom]
      cases hverdict : boundary.verdict opened token.lexeme with
      | before => exact .before hne (by rw [hcurrent, hverdict])
      | behind => exact .behind hne (by rw [hcurrent, hverdict])
      | further count =>
          have hrest : reader.advance.ahead = behind := by
            rw [ahead_advance, hahead, List.tail_cons]
          exact .further hne (by rw [hcurrent, hverdict]) (ih count reader.advance hrest)

/-! ## Chains of blocks that are skipped -/

/-- A reader passes over one block after another, as long as an `elif` or `else` follows. -/
inductive SkipsFollowers : Reader → Reader → Prop where
  | stop {reader : Reader} (hnext : reader.current.lexeme.continuesChain = false) :
      SkipsFollowers reader reader
  | turn {reader later : Reader} (hnext : reader.current.lexeme.continuesChain = true)
      (hmoves : reader.MovesOn (reader.recover .block))
      (hrest : SkipsFollowers (reader.recover .block) later) : SkipsFollowers reader later

private theorem Proper.ahead_ne_nil_of_continuesChain (hproper : reader.Proper)
    (hnext : reader.current.lexeme.continuesChain = true) : reader.ahead ≠ [] := by
  intro hahead
  rw [hproper.current_lexeme_eq_endOfInput_iff.mpr hahead] at hnext
  contradiction

theorem skipsFollowers_skipFollowers (budget : List Token) (hproper : reader.Proper)
    (hbudget : reader.ahead.length ≤ budget.length) :
    reader.SkipsFollowers (skipFollowers budget reader) := by
  induction budget generalizing reader with
  | nil =>
      have hahead : reader.ahead = [] := List.eq_nil_of_length_eq_zero (Nat.le_zero.mp hbudget)
      refine .stop (Bool.eq_false_iff.mpr fun hnext => ?_)
      exact hproper.ahead_ne_nil_of_continuesChain hnext hahead
  | cons token budget ih =>
      unfold skipFollowers
      split
      · rename_i hnext
        have hmoves := movesOn_recover_block (hproper.ahead_ne_nil_of_continuesChain hnext)
        have hlt := hmoves.length_lt
        rw [List.length_cons] at hbudget
        exact .turn hnext hmoves (ih (hproper.of_frame (frame_recover _)) (by omega))
      · rename_i hnext
        exact .stop (Bool.eq_false_iff.mpr hnext)

/-- A chain is skipped block by block. -/
theorem skipsFollowers_skipChain (hproper : reader.Proper) :
    (reader.recover .block).SkipsFollowers reader.skipChain :=
  skipsFollowers_skipFollowers _ (hproper.of_frame (frame_recover _)) le_rfl

/-- Behind a chain that was skipped no block of it is left. -/
theorem SkipsFollowers.continuesChain_eq_false (hskips : reader.SkipsFollowers later) :
    later.current.lexeme.continuesChain = false := by
  induction hskips with
  | stop hnext => exact hnext
  | turn _ _ _ ih => exact ih

end Reader

namespace Rule

variable {α ω : Type} {select : Lexeme → Option ω} {step : ω → α → Rule α} {a : α}
  {reader : Reader} {result other : Option α × Reader}

/-! ## Loops of rules -/

/-- A loop on a value leads to a result.  It is over where nothing is selected, and where a turn
fails; and each turn passes a token or more. -/
inductive Runs (select : Lexeme → Option ω) (step : ω → α → Rule α) :
    α → Reader → Option α × Reader → Prop where
  | stop {a : α} {reader : Reader} (hselect : select reader.current.lexeme = none) :
      Runs select step a reader (some a, reader)
  | failed {a : α} {reader later : Reader} {choice : ω}
      (hselect : select reader.current.lexeme = some choice)
      (hstep : step choice a reader = (none, later)) (hmoves : reader.MovesOn later) :
      Runs select step a reader (none, later)
  | turn {a b : α} {reader later : Reader} {choice : ω} {result : Option α × Reader}
      (hselect : select reader.current.lexeme = some choice)
      (hstep : step choice a reader = (some b, later)) (hmoves : reader.MovesOn later)
      (hrest : Runs select step b later result) : Runs select step a reader result

/-- A loop leads to one result only. -/
theorem Runs.unique (hruns : Runs select step a reader result)
    (hother : Runs select step a reader other) : result = other := by
  induction hruns with
  | stop hselect => cases hother <;> simp_all
  | failed hselect hstep => cases hother <;> simp_all
  | turn hselect hstep hmoves hrest ih =>
      cases hother with
      | stop hnone => simp [hselect] at hnone
      | failed hselect' hstep' =>
          obtain rfl := Option.some.inj (hselect.symm.trans hselect')
          simp [hstep] at hstep'
      | turn hselect' hstep' hmoves' hrest' =>
          obtain rfl := Option.some.inj (hselect.symm.trans hselect')
          obtain ⟨hb, rfl⟩ := Prod.mk.inj (hstep.symm.trans hstep')
          obtain rfl := Option.some.inj hb
          exact ih hrest'

/-- A loop that yields a value ends where nothing is selected. -/
theorem Runs.select_eq_none {b : α} {later : Reader}
    (hruns : Runs select step a reader (some b, later)) : select later.current.lexeme = none := by
  generalize hresult : (some b, later) = result at hruns
  induction hruns with
  | stop hselect =>
      obtain ⟨-, rfl⟩ := Prod.mk.inj hresult
      exact hselect
  | failed => simp at hresult
  | turn _ _ _ _ ih => exact ih hresult

/-- What a loop does to a reader, it also does if its turns are exchanged for others that do the
same wherever the loop comes by. -/
theorem Runs.congr {other : ω → α → Rule α} {Inv : Reader → Prop} (hinv : Inv reader)
    (hkeeps : ∀ {reader later : Reader}, Inv reader → reader.MovesOn later → Inv later)
    (hsame : ∀ {reader : Reader}, Inv reader → ∀ choice a,
      select reader.current.lexeme = some choice → other choice a reader = step choice a reader)
    (hruns : Runs select step a reader result) : Runs select other a reader result := by
  induction hruns with
  | stop hselect => exact .stop hselect
  | failed hselect hstep hmoves =>
      exact .failed hselect ((hsame hinv _ _ hselect).trans hstep) hmoves
  | turn hselect hstep hmoves _ ih =>
      exact .turn hselect ((hsame hinv _ _ hselect).trans hstep) hmoves (ih (hkeeps hinv hmoves))

/-- A loop with a turn for every token leads where the loop without a budget leads. -/
theorem Consumes.runs (hconsumes : Consumes select step) (hproper : reader.Proper) (a : α) :
    Runs select step a reader (repeatWhile select step a reader) := by
  induction hlength : reader.ahead.length using Nat.strong_induction_on generalizing reader a with
  | _ length ih =>
  rw [repeatWhile_eq hconsumes.progresses hproper]
  cases hselect : select reader.current.lexeme with
  | none => exact .stop hselect
  | some choice =>
      have hframe := hconsumes.framed choice a reader
      have hlt := hconsumes.length_lt (hconsumes.ahead_ne_nil hproper hselect) choice a hselect
      have hmoves := Reader.movesOn_of_frame hframe hlt
      dsimp only
      rcases hresult : step choice a reader with ⟨_ | b, later⟩
      · rw [hresult] at hmoves
        exact .failed hselect hresult hmoves
      · rw [hresult] at hmoves hframe
        exact .turn hselect hresult hmoves
          (ih _ (hlength ▸ hmoves.length_lt) (hproper.of_frame hframe) b rfl)

/-- At a reader a loop leads, without a budget, where it leads with a turn for every token, and
nowhere else. -/
def EndsByItself (select : Lexeme → Option ω) (step : ω → α → Rule α) (reader : Reader) : Prop :=
  ∀ a result, Runs select step a reader result ↔ result = repeatWhile select step a reader

theorem Consumes.endsByItself (hconsumes : Consumes select step) (hproper : reader.Proper) :
    EndsByItself select step reader := by
  intro a result
  constructor
  · exact fun hruns => hruns.unique (hconsumes.runs hproper a)
  · rintro rfl
    exact hconsumes.runs hproper a

/-! ## Loops of attempts -/

variable {more : Lexeme → Bool} {rule : Rule α} {outcomes : List (Option α)} {later : Reader}

/-- A loop of attempts ends where no attempt is asked for. -/
theorem Attempts.more_eq_false (hattempts : Attempts more rule reader outcomes later) :
    more later.current.lexeme = false := by
  induction hattempts with
  | stop hmore => exact hmore
  | turn _ _ ih => exact ih

/-- What each attempt keeps, the loop keeps. -/
theorem Attempts.keeps (hattempts : Attempts more rule reader outcomes later) (Inv : Reader → Prop)
    (hturn : ∀ reader : Reader,
      Inv reader → more reader.current.lexeme = true → Inv (rule reader).2)
    (hinv : Inv reader) : Inv later := by
  induction hattempts with
  | stop => exact hinv
  | turn hmore _ ih => exact ih (hturn _ hinv hmore)

theorem Passing.movesOn (hpassing : Passing more rule) (hproper : reader.Proper)
    (hmore : more reader.current.lexeme = true) : reader.MovesOn (rule reader).2 :=
  Reader.movesOn_of_frame (hpassing.framed reader)
    (hpassing.length_lt (hpassing.ahead_ne_nil hproper hmore) hmore)

end Rule

end LoopLang
