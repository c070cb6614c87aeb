import LoopLang.Proofs.Reading.Contract
import LoopLang.Reader.Recovery

/-!
# What recovery leaves behind

Recovery is a run of steps that leaves the constructs around the reader alone.  A reader that
recovered either passed a token, and then nothing has been reported at the current one, or it stood
at a boundary already.  So a reported token in front of a recovered reader is one of the few that
its boundary stops at.
-/

namespace LoopLang

namespace Boundary

variable {tokens : List Token}

/-- Whether recovery to a boundary stops in front of a lexeme. -/
def StopsAt : Boundary → Lexeme → Prop
  | statement, lexeme => lexeme.startsStatement = true
  | insideBlock, lexeme => lexeme = .keyword .endWord
  | block, _ => False

private theorem skip_cons_eq_zero_iff {boundary : Boundary} {token : Token} {behind : List Token} :
    boundary.skip (token :: behind) = 0 ↔ boundary.StopsAt token.lexeme := by
  cases boundary with
  | statement =>
      simp only [skip, statementSkip, StopsAt]
      split
      · simp [*]
      · split <;> simp [*]
  | insideBlock =>
      simp only [skip, insideBlockSkip, StopsAt]
      split
      · simp [*]
      · split <;> simp [*]
  | block =>
      simp only [skip, blockSkip, StopsAt]
      split
      · simp
      · split <;> simp

/-! ## Deciding at each token -/

/-- What a token means to a reader that looks for a boundary. -/
inductive Verdict where
  /-- The boundary is in front of the token. -/
  | before
  /-- The boundary is behind the token. -/
  | behind
  /-- The boundary is further on, and this many `begin` stand open before it. -/
  | further (opened : Nat)

/-- The verdict on a lexeme where so many `begin` stand open. -/
def verdict (opened : Nat) : Boundary → Lexeme → Verdict
  | statement, lexeme =>
    if lexeme.startsStatement then .before
    else if lexeme = .mark .semicolon ∨ lexeme = .keyword .endWord then .behind
    else .further opened
  | insideBlock, lexeme =>
    if lexeme = .keyword .endWord then .before
    else if lexeme = .mark .semicolon then .behind
    else .further opened
  | block, lexeme =>
    if lexeme = .keyword .beginWord then .further (opened + 1)
    else if lexeme = .keyword .endWord then
      if opened ≤ 1 then .behind else .further (opened - 1)
    else .further opened

/-- How many tokens stand before the boundary, by the verdicts on them. -/
def skipFrom (boundary : Boundary) (opened : Nat) : List Token → Nat
  | [] => 0
  | token :: behind =>
    match boundary.verdict opened token.lexeme with
    | .before => 0
    | .behind => 1
    | .further opened => boundary.skipFrom opened behind + 1

private theorem blockSkip_eq_skipFrom (opened : Nat) (tokens : List Token) :
    blockSkip opened tokens = block.skipFrom opened tokens := by
  induction tokens generalizing opened with
  | nil => rfl
  | cons token behind ih =>
      simp only [blockSkip, skipFrom, verdict]
      grind

private theorem statementSkip_eq_skipFrom (tokens : List Token) :
    statementSkip tokens = statement.skipFrom 0 tokens := by
  induction tokens with
  | nil => rfl
  | cons token behind ih =>
      simp only [statementSkip, skipFrom, verdict, ih]
      grind

private theorem insideBlockSkip_eq_skipFrom (tokens : List Token) :
    insideBlockSkip tokens = insideBlock.skipFrom 0 tokens := by
  induction tokens with
  | nil => rfl
  | cons token behind ih =>
      simp only [insideBlockSkip, skipFrom, verdict, ih]
      grind

/-- The three ways of looking for a boundary are one, by the verdicts of the boundary. -/
theorem skip_eq_skipFrom (boundary : Boundary) (tokens : List Token) :
    boundary.skip tokens = boundary.skipFrom 0 tokens := by
  cases boundary with
  | statement => exact statementSkip_eq_skipFrom tokens
  | insideBlock => exact insideBlockSkip_eq_skipFrom tokens
  | block => exact blockSkip_eq_skipFrom 0 tokens

end Boundary

namespace Reader

variable {reader : Reader}

/-! ## Passing many tokens -/

theorem steps_advance : Steps reader reader.advance := by
  by_cases hahead : reader.ahead = []
  · rw [reader.advance_of_ahead_eq_nil hahead]
  · exact .single (.advance hahead)

theorem steps_advanceBy (count : Nat) : Steps reader (reader.advanceBy count) := by
  induction count generalizing reader with
  | zero => exact .refl
  | succ count ih => exact steps_advance.trans ih

private theorem reported_advanceBy_of_reported (hreported : reader.reported = false) (count : Nat) :
    (reader.advanceBy count).reported = false := by
  induction count generalizing reader with
  | zero => exact hreported
  | succ count ih =>
      apply ih
      by_cases hahead : reader.ahead = []
      · rw [reader.advance_of_ahead_eq_nil hahead, hreported]
      · exact reader.reported_advance hahead

theorem reported_advanceBy (hahead : reader.ahead ≠ []) {count : Nat} (hcount : count ≠ 0) :
    (reader.advanceBy count).reported = false := by
  obtain ⟨count, rfl⟩ := Nat.exists_eq_succ_of_ne_zero hcount
  exact reported_advanceBy_of_reported (reader.reported_advance hahead) count

/-! ## Recovery to a boundary -/

variable {boundary : Boundary}

theorem steps_recover : Steps reader (reader.recover boundary) :=
  (steps_advanceBy _).tail (.recovered _ _)

@[simp] theorem enclosing_recover : (reader.recover boundary).enclosing = reader.enclosing := by
  simp [recover]

theorem ahead_recover :
    (reader.recover boundary).ahead = reader.ahead.drop (boundary.skip reader.ahead) := by
  simp [recover]

/-- Where recovery starts in front of something else than a boundary, it passes a token. -/
theorem recover_of_not_stopsAt (hahead : reader.ahead ≠ [])
    (hstops : ¬ boundary.StopsAt reader.current.lexeme) :
    (reader.recover boundary).reported = false ∧
      (reader.recover boundary).ahead.length < reader.ahead.length := by
  obtain ⟨token, behind, hcons⟩ := List.exists_cons_of_ne_nil hahead
  have hskip : boundary.skip reader.ahead ≠ 0 := by
    rw [reader.current_of_ahead_eq_cons hcons] at hstops
    rwa [hcons, Ne, Boundary.skip_cons_eq_zero_iff]
  refine ⟨reported_advanceBy hahead hskip, ?_⟩
  have hlength := List.length_pos_iff.mpr hahead
  rw [ahead_recover, List.length_drop]
  omega

/-- A reported token in front of a recovered reader is one that the boundary stops at. -/
theorem stopsAt_of_reported_recover (hreported : (reader.recover boundary).reported = true) :
    (reader.recover boundary).ahead = [] ∨
      boundary.StopsAt (reader.recover boundary).current.lexeme := by
  by_cases hahead : reader.ahead = []
  · left
    simp [ahead_recover, hahead]
  · by_cases hstops : boundary.StopsAt reader.current.lexeme
    · right
      obtain ⟨token, behind, hcons⟩ := List.exists_cons_of_ne_nil hahead
      have hskip : boundary.skip reader.ahead = 0 := by
        rw [hcons, Boundary.skip_cons_eq_zero_iff]
        rwa [reader.current_of_ahead_eq_cons hcons] at hstops
      have hcurrent : (reader.recover boundary).current = reader.current := by
        rw [recover, hskip]
        rfl
      rwa [hcurrent]
    · rw [(recover_of_not_stopsAt hahead hstops).1] at hreported
      contradiction

/-! ## Recovery behind blocks -/

/-- A reader at which nothing is reported, unless it is at the end of input. -/
def Clean (reader : Reader) : Prop := reader.reported = true → reader.ahead = []

theorem clean_recover_block : (reader.recover .block).Clean := fun hreported =>
  (stopsAt_of_reported_recover hreported).resolve_right id

theorem steps_skipFollowers (budget : List Token) :
    Steps reader (skipFollowers budget reader) ∧
      (skipFollowers budget reader).enclosing = reader.enclosing ∧
      (reader.Clean → (skipFollowers budget reader).Clean) := by
  induction budget generalizing reader with
  | nil => exact ⟨.refl, rfl, id⟩
  | cons token budget ih =>
      unfold skipFollowers
      split
      · obtain ⟨hsteps, henclosing, hclean⟩ := @ih (reader.recover .block)
        exact ⟨steps_recover.trans hsteps, henclosing.trans enclosing_recover,
          fun _ => hclean clean_recover_block⟩
      · exact ⟨.refl, rfl, id⟩

theorem steps_skipChain : Steps reader reader.skipChain :=
  steps_recover.trans (steps_skipFollowers _).1

@[simp] theorem enclosing_skipChain : reader.skipChain.enclosing = reader.enclosing :=
  (steps_skipFollowers _).2.1.trans enclosing_recover

theorem clean_skipChain : reader.skipChain.Clean :=
  (steps_skipFollowers _).2.2 clean_recover_block

/-- A chain of blocks has at least one token. -/
theorem length_skipChain_lt (hahead : reader.ahead ≠ []) :
    reader.skipChain.ahead.length < reader.ahead.length :=
  calc reader.skipChain.ahead.length
      ≤ (reader.recover .block).ahead.length :=
        ((steps_skipFollowers _).1.frame.ahead_suffix).length_le
    _ < reader.ahead.length := (recover_of_not_stopsAt hahead id).2

end Reader

end LoopLang
