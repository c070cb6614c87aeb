import LoopLang.Proofs.Blocks.Balance
import LoopLang.Proofs.Outcome.StrayCharacters
import LoopLang.Proofs.Reading.Progress

/-!
# What recovery passes over

Recovery counts the tokens to pass over one by one.  Here they are given by the whole list of tokens
in sight (`Boundary.PassesOver`): those in front of the first one that stops the reader, cut behind
the first one that ends a statement; or the shortest text that ends in `end` and has as many `end`
as `begin`.  `recover_passes` states that recovery passes over these tokens and does nothing else.

The count of open `begin` treats none and one alike.  So as long as no `end` has ended the block, it
is how many `begin` there are more than `end`: the induction is over the tokens, with the `begin`
that are open before them added to their own.
-/

namespace LoopLang

variable {tokens behind passed front rest : List Token} {token last : Token} {opened : Nat}

/-! ## Parts of a list of tokens -/

/-- The tokens up to the first one that has a property, with that one; all of them if none has. -/
def upTo (property : Token → Bool) (tokens : List Token) : List Token :=
  tokens.take (tokens.findIdx property + 1)

@[simp] theorem upTo_nil (property : Token → Bool) : upTo property [] = [] := rfl

private theorem upTo_cons (property : Token → Bool) : upTo property (token :: tokens) =
    token :: if property token then [] else upTo property tokens := by
  cases hproperty : property token <;> simp [upTo, List.findIdx_cons, hproperty]

/-- The shortest of the texts at the front of a list of tokens that have a property. -/
structure IsShortest (property : List Token → Prop) (tokens passed : List Token) : Prop where
  isPrefix : passed <+: tokens
  holds : property passed
  length_le : ∀ front, front <+: tokens → property front → passed.length ≤ front.length

/-- No text at the front of a list of tokens has a property. -/
def NoneAtFront (property : List Token → Prop) (tokens : List Token) : Prop :=
  ∀ front, front <+: tokens → ¬ property front

section

variable {property further : List Token → Prop}

private theorem IsShortest.eq (hshortest : IsShortest property tokens passed)
    (hfront : IsShortest property tokens front) : front = passed := by
  have hle := hshortest.length_le front hfront.isPrefix hfront.holds
  have hge := hfront.length_le passed hshortest.isPrefix hshortest.holds
  exact (List.prefix_of_prefix_length_le hfront.isPrefix hshortest.isPrefix hge).eq_of_length_le hle

private theorem NoneAtFront.not_isShortest (hnone : NoneAtFront property tokens) :
    ¬ IsShortest property tokens passed :=
  fun hshortest => hnone passed hshortest.isPrefix hshortest.holds

private theorem IsShortest.cons (hnil : ¬ property [])
    (hcons : ∀ front, property (token :: front) ↔ further front)
    (hshortest : IsShortest further behind passed) :
    IsShortest property (token :: behind) (token :: passed) where
  isPrefix := List.cons_prefix_cons.mpr ⟨rfl, hshortest.isPrefix⟩
  holds := (hcons passed).mpr hshortest.holds
  length_le := by
    intro front hfront hproperty
    rcases List.prefix_cons_iff.mp hfront with rfl | ⟨more, rfl, hmore⟩
    · exact absurd hproperty hnil
    · exact Nat.succ_le_succ (hshortest.length_le more hmore ((hcons more).mp hproperty))

private theorem NoneAtFront.cons (hnil : ¬ property [])
    (hcons : ∀ front, property (token :: front) ↔ further front)
    (hnone : NoneAtFront further behind) : NoneAtFront property (token :: behind) := by
  intro front hfront hproperty
  rcases List.prefix_cons_iff.mp hfront with rfl | ⟨more, rfl, hmore⟩
  · exact hnil hproperty
  · exact hnone more hmore ((hcons more).mp hproperty)

/-- A token in which no text of the property ends makes no difference behind a list. -/
private theorem NoneAtFront.concat (hlast : ¬ property (tokens ++ [last]))
    (hnone : NoneAtFront property tokens) : NoneAtFront property (tokens ++ [last]) := by
  intro front hfront hproperty
  rcases List.prefix_concat_iff.mp hfront with rfl | hfront
  · exact hlast hproperty
  · exact hnone front hfront hproperty

private theorem IsShortest.concat (hlast : ¬ property (tokens ++ [last]))
    (hshortest : IsShortest property tokens passed) :
    IsShortest property (tokens ++ [last]) passed where
  isPrefix := hshortest.isPrefix.trans (List.prefix_append tokens [last])
  holds := hshortest.holds
  length_le := by
    intro front hfront hproperty
    rcases List.prefix_concat_iff.mp hfront with rfl | hfront
    · exact absurd hproperty hlast
    · exact hshortest.length_le front hfront hproperty

end

/-! ## The end of a block -/

/-- The text ends in `end`, and has no more `begin` than `end`, with so many `begin` open before
it. -/
def EndsBlockFrom (opened : Nat) (tokens : List Token) : Prop :=
  (∃ last ∈ tokens.getLast?, last.lexeme = .keyword .endWord) ∧ opened + begins tokens ≤ ends tokens

/-- The text ends in `end`, and has no more `begin` than `end`. -/
def EndsBlock (tokens : List Token) : Prop :=
  (∃ last ∈ tokens.getLast?, last.lexeme = .keyword .endWord) ∧ begins tokens ≤ ends tokens

private theorem endsBlockFrom_zero : EndsBlockFrom 0 = EndsBlock := by
  funext tokens
  simp [EndsBlockFrom, EndsBlock]

private theorem not_endsBlockFrom_nil : ¬ EndsBlockFrom opened [] := by
  simp [EndsBlockFrom]

private theorem not_endsBlockFrom_concat (hlast : last.lexeme ≠ .keyword .endWord) :
    ¬ EndsBlockFrom opened (tokens ++ [last]) := by
  simp [EndsBlockFrom, hlast]

private theorem endsBlockFrom_cons_begin (hbegin : token.lexeme = .keyword .beginWord) :
    EndsBlockFrom opened (token :: front) ↔ EndsBlockFrom (opened + 1) front := by
  rcases List.eq_nil_or_concat front with rfl | ⟨front, last, rfl⟩
  · simp [EndsBlockFrom, hbegin]
  · simp [EndsBlockFrom, begins_cons, ends_cons, hbegin, List.getLast?_cons]
    omega

private theorem endsBlockFrom_cons_of_ne (hbegin : token.lexeme ≠ .keyword .beginWord)
    (hend : token.lexeme ≠ .keyword .endWord) :
    EndsBlockFrom opened (token :: front) ↔ EndsBlockFrom opened front := by
  rcases List.eq_nil_or_concat front with rfl | ⟨front, last, rfl⟩
  · simp [EndsBlockFrom, hend]
  · simp [EndsBlockFrom, begins_cons, ends_cons, hbegin, hend, List.getLast?_cons]

/-- Where more than one `begin` is open, an `end` does not end the block. -/
private theorem endsBlockFrom_cons_end (hopened : 1 < opened)
    (hend : token.lexeme = .keyword .endWord) :
    EndsBlockFrom opened (token :: front) ↔ EndsBlockFrom (opened - 1) front := by
  rcases List.eq_nil_or_concat front with rfl | ⟨front, last, rfl⟩
  · simp [EndsBlockFrom, begins_cons, ends_cons, hend]
    omega
  · simp [EndsBlockFrom, begins_cons, ends_cons, hend, List.getLast?_cons]
    omega

/-- Where at most one is open, it ends the block, and nothing shorter does. -/
private theorem isShortest_end (hopened : opened ≤ 1) (hend : token.lexeme = .keyword .endWord) :
    IsShortest (EndsBlockFrom opened) (token :: behind) [token] where
  isPrefix := List.prefix_append [token] behind
  holds := by
    simp [EndsBlockFrom, begins_cons, ends_cons, hend]
    omega
  length_le := by
    intro front hfront hends
    rcases List.prefix_cons_iff.mp hfront with rfl | ⟨more, rfl, -⟩
    · exact absurd hends not_endsBlockFrom_nil
    · simp

namespace Boundary

/-- The count of recovery to the end of a block, as a text. -/
private theorem isShortest_take_blockSkip (opened : Nat) (tokens : List Token) :
    IsShortest (EndsBlockFrom opened) tokens (tokens.take (blockSkip opened tokens)) ∨
      NoneAtFront (EndsBlockFrom opened) tokens ∧
        tokens.take (blockSkip opened tokens) = tokens := by
  induction tokens generalizing opened with
  | nil =>
      refine .inr ⟨fun front hfront => ?_, rfl⟩
      rw [List.prefix_nil.mp hfront]
      exact not_endsBlockFrom_nil
  | cons token behind ih =>
      -- A token that does not end the block stands in front of what is passed behind it.
      have hgoesOn : ∀ {opened further},
          (∀ front, EndsBlockFrom opened (token :: front) ↔ EndsBlockFrom further front) →
          blockSkip opened (token :: behind) = blockSkip further behind + 1 →
          IsShortest (EndsBlockFrom opened) (token :: behind)
              ((token :: behind).take (blockSkip opened (token :: behind))) ∨
            NoneAtFront (EndsBlockFrom opened) (token :: behind) ∧
              (token :: behind).take (blockSkip opened (token :: behind)) = token :: behind := by
        intro opened further hcons hskip
        rw [hskip, List.take_succ_cons]
        rcases ih further with hshortest | ⟨hnone, hall⟩
        · exact .inl (hshortest.cons not_endsBlockFrom_nil hcons)
        · exact .inr ⟨hnone.cons not_endsBlockFrom_nil hcons, by rw [hall]⟩
      by_cases hbegin : token.lexeme = .keyword .beginWord
      · exact hgoesOn (fun _ => endsBlockFrom_cons_begin hbegin) (blockSkip_cons_begin hbegin)
      by_cases hend : token.lexeme = .keyword .endWord
      · by_cases hopened : opened ≤ 1
        · rw [blockSkip_cons_end hend, if_pos hopened]
          exact .inl (isShortest_end hopened hend)
        · exact hgoesOn (fun _ => endsBlockFrom_cons_end (Nat.lt_of_not_le hopened) hend)
            (by rw [blockSkip_cons_end hend, if_neg hopened])
      · exact hgoesOn (fun _ => endsBlockFrom_cons_of_ne hbegin hend)
          (blockSkip_cons_of_ne hbegin hend)

/-! ## The three boundaries -/

/-- What recovery to a boundary passes over, of the tokens in sight: at the boundary of statements
those in front of the end of input and of the first word that starts a statement, cut behind the
first semicolon or `end`; inside a body those in front of the end of input and of the first `end`,
cut behind the first semicolon; behind a block the shortest text that ends the block, or all in
front of the end of input if there is none. -/
def PassesOver (boundary : Boundary) (sight passed : List Token) : Prop :=
  match boundary with
  | statement =>
    passed =
      upTo (fun token => token.lexeme = .mark .semicolon ∨ token.lexeme = .keyword .endWord)
        (sight.takeWhile fun token =>
          ¬ (token.lexeme = .endOfInput ∨ token.lexeme.startsStatement))
  | insideBlock =>
    passed =
      upTo (fun token => token.lexeme = .mark .semicolon)
        (sight.takeWhile fun token =>
          ¬ (token.lexeme = .endOfInput ∨ token.lexeme = .keyword .endWord))
  | block =>
    IsShortest EndsBlock sight passed ∨
      NoneAtFront EndsBlock sight ∧
        passed = sight.takeWhile fun token => token.lexeme ≠ .endOfInput

/-- There is one text that a boundary passes over. -/
theorem PassesOver.eq {boundary : Boundary} (hpassed : boundary.PassesOver tokens passed)
    (hfront : boundary.PassesOver tokens front) : front = passed := by
  cases boundary with
  | statement => exact hfront.trans hpassed.symm
  | insideBlock => exact hfront.trans hpassed.symm
  | block =>
      rcases hpassed with hpassed | ⟨hnone, hpassed⟩
      · rcases hfront with hfront | ⟨hnone, -⟩
        · exact hpassed.eq hfront
        · exact absurd hpassed hnone.not_isShortest
      · rcases hfront with hfront | ⟨-, hfront⟩
        · exact absurd hfront hnone.not_isShortest
        · exact hfront.trans hpassed.symm

/-- Where a boundary is in front of the tokens that stop the reader and behind those that end a
statement, with no regard to the `begin` that are open. -/
private theorem take_skipFrom {boundary : Boundary} (stops ends : Lexeme → Prop)
    [DecidablePred stops]
    [DecidablePred ends]
    (hverdict : ∀ opened lexeme, boundary.verdict opened lexeme =
      if stops lexeme then .before else if ends lexeme then .behind else .further opened)
    (hlast : last.lexeme = .endOfInput)
    (htokens : ∀ token ∈ tokens, token.lexeme ≠ .endOfInput) :
    tokens.take (boundary.skipFrom 0 tokens) =
      upTo (fun token => ends token.lexeme)
        ((tokens ++ [last]).takeWhile fun token =>
          ¬ (token.lexeme = .endOfInput ∨ stops token.lexeme)) := by
  induction tokens with
  | nil => simp [hlast]
  | cons token behind ih =>
      obtain ⟨htoken, hbehind⟩ := List.forall_mem_cons.mp htokens
      rw [List.cons_append, List.takeWhile_cons, skipFrom, hverdict]
      by_cases hstops : stops token.lexeme
      · simp [hstops]
      by_cases hends : ends token.lexeme
      · simp [htoken, hstops, hends, upTo_cons]
      · simp [htoken, hstops, hends, upTo_cons, ih hbehind]

private theorem take_blockSkip (hlast : last.lexeme = .endOfInput)
    (htokens : ∀ token ∈ tokens, token.lexeme ≠ .endOfInput) :
    block.PassesOver (tokens ++ [last]) (tokens.take (blockSkip 0 tokens)) := by
  have hbehind : ¬ EndsBlock (tokens ++ [last]) :=
    endsBlockFrom_zero ▸ not_endsBlockFrom_concat (by simp [hlast])
  have hall : (tokens ++ [last]).takeWhile (fun token => token.lexeme ≠ .endOfInput) = tokens := by
    rw [List.takeWhile_append_of_pos (by simpa using htokens)]
    simp [hlast]
  rcases endsBlockFrom_zero ▸ isShortest_take_blockSkip 0 tokens with hshortest | ⟨hnone, htake⟩
  · exact .inl (hshortest.concat hbehind)
  · exact .inr ⟨hnone.concat hbehind, by rw [htake, hall]⟩

private theorem passesOver_take_skip (boundary : Boundary) (hlast : last.lexeme = .endOfInput)
    (htokens : ∀ token ∈ tokens, token.lexeme ≠ .endOfInput) :
    boundary.PassesOver (tokens ++ [last]) (tokens.take (boundary.skip tokens)) := by
  cases boundary with
  | statement =>
      rw [skip_eq_skipFrom]
      exact take_skipFrom (fun lexeme => lexeme.startsStatement)
        (fun lexeme => lexeme = .mark .semicolon ∨ lexeme = .keyword .endWord)
        (fun _ _ => rfl) hlast htokens
  | insideBlock =>
      rw [skip_eq_skipFrom]
      exact take_skipFrom (fun lexeme => lexeme = .keyword .endWord)
        (fun lexeme => lexeme = .mark .semicolon) (fun _ _ => rfl) hlast htokens
  | block => exact take_blockSkip hlast htokens

end Boundary

/-! ## What is done on the way -/

/-- The reports of the stray characters among some tokens, where the first one may have a diagnostic
already. -/
def strayReports (reported : Bool) (tokens : List Token) : List Diagnostic :=
  (if reported then tokens.tail else tokens).filterMap Token.strayReport?

/-- The events of passing tokens: each token that is a stray character without a diagnostic is
reported, and then the one behind it is reached. -/
def passingEvents (reported : Bool) (next : Token) : List Token → List Event
  | [] => []
  | token :: behind =>
    (strayReports reported [token]).map .reported ++
      .reached (behind.headD next) :: passingEvents false next behind

private theorem diagnostics_passingEvents (reported : Bool) (next : Token) (tokens : List Token) :
    (passingEvents reported next tokens).filterMap Event.diagnostic? =
      strayReports reported tokens := by
  have hreports : ∀ reports : List Diagnostic,
      (reports.map Event.reported).filterMap Event.diagnostic? = reports := by
    intro reports
    simp [List.filterMap_map, Function.comp_def, Event.diagnostic?]
  induction tokens generalizing reported with
  | nil => cases reported <;> rfl
  | cons token behind ih =>
      rw [passingEvents, List.filterMap_append, hreports, List.filterMap_cons_none rfl, ih]
      cases reported <;> simp [strayReports, List.filterMap_cons]
      cases token.strayReport? <;> rfl

namespace Reader

variable {reader : Reader}

private theorem advance_eq (hahead : reader.ahead = token :: behind) :
    reader.advance =
      { reader with
        ahead := behind
        reported := false
        log := .reached (behind.headD reader.endToken) ::
          ((strayReports reader.reported [token]).map .reported).reverse ++ reader.log } := by
  have hcurrent := reader.current_of_ahead_eq_cons hahead
  rw [advance, hahead]
  unfold reportStray
  rw [hcurrent]
  cases hlexeme : token.lexeme <;> cases hreported : reader.reported <;>
    simp [report, record, strayReports, Token.strayReport?, hlexeme]

private theorem advanceBy_eq (hahead : reader.ahead = passed ++ rest) :
    reader.advanceBy passed.length =
      { reader with
        ahead := rest
        reported := reader.reported && passed.isEmpty
        log := (passingEvents reader.reported (rest.headD reader.endToken) passed).reverse ++
          reader.log } := by
  induction passed generalizing reader with
  | nil =>
      obtain rfl : reader.ahead = rest := hahead
      simp [advanceBy, passingEvents]
  | cons token behind ih =>
      have hone : reader.advance = _ := advance_eq hahead
      rw [List.length_cons, advanceBy, ih (by simp [hahead]), hone]
      simp [passingEvents]

/-! ## Recovery -/

/-- Recovery to a boundary passes over the tokens that the boundary is behind of, and nothing else
happens: each stray character among them that has no diagnostic gets one, in order, and the log ends
with how many tokens were passed.  The constructs around the reader, its depth and its limit are the
same as before, and the token in front of it is reported only if none was passed and it was reported
before. -/
theorem recover_passes (reader : Reader) (hproper : reader.Proper) (boundary : Boundary) :
    ∃ passed : List Token,
      (∀ tokens, boundary.PassesOver reader.sight tokens ↔ tokens = passed) ∧
      reader.sight = passed ++ (reader.recover boundary).sight ∧
      (reader.recover boundary).diagnostics =
        reader.diagnostics ++ strayReports reader.reported passed ∧
      (reader.recover boundary).events =
        reader.events ++
          passingEvents reader.reported (reader.recover boundary).current passed ++
          [.recovered boundary passed.length] ∧
      reader.recover boundary =
        { reader with
          ahead := reader.ahead.drop passed.length
          reported := reader.reported && passed.isEmpty
          log := (reader.recover boundary).log } := by
  have hpasses := boundary.passesOver_take_skip hproper.endToken_lexeme hproper.ne_endOfInput
  have hle : boundary.skip reader.ahead ≤ reader.ahead.length := by
    rw [boundary.skip_eq_skipFrom]
    exact boundary.skipFrom_le_length 0 _
  have hlength : (reader.ahead.take (boundary.skip reader.ahead)).length =
      boundary.skip reader.ahead := List.length_take_of_le hle
  have hahead := (List.take_append_drop (boundary.skip reader.ahead) reader.ahead).symm
  generalize reader.ahead.take (boundary.skip reader.ahead) = passed at hpasses hlength hahead
  -- The reader that recovery leaves is spelled out, and the rest is read off it.
  have hrecover : reader.recover boundary =
      { reader with
        ahead := reader.ahead.drop passed.length
        reported := reader.reported && passed.isEmpty
        log := .recovered boundary passed.length ::
          (passingEvents reader.reported (reader.recover boundary).current passed).reverse ++
            reader.log } := by
    have hcurrent : (reader.recover boundary).current =
        (reader.ahead.drop passed.length).headD reader.endToken := by
      simp [current, recover, hlength]
    rw [hcurrent, recover, ← hlength, advanceBy_eq (hlength ▸ hahead)]
    rfl
  have hevents : (reader.recover boundary).events =
      reader.events ++ passingEvents reader.reported (reader.recover boundary).current passed ++
        [.recovered boundary passed.length] := by
    rw [events, congrArg Reader.log hrecover]
    simp [events]
  refine ⟨passed, fun tokens => ⟨hpasses.eq, fun htokens => htokens ▸ hpasses⟩, ?_, ?_, hevents,
    ?_⟩
  · rw [sight, sight, congrArg Reader.ahead hrecover, congrArg Reader.endToken hrecover,
      ← List.append_assoc, hlength, ← hahead]
  · rw [diagnostics, hevents, List.filterMap_append, List.filterMap_append,
      diagnostics_passingEvents]
    simp [diagnostics, Event.diagnostic?]
  · rw [hrecover]

/-- A block of two, with a stray character in it, in front of a word that starts a statement. -/
theorem recover_passes_nested :
    (start "begin begin $ end end int" 0).Proper ∧
      (∃ passed, Boundary.block.PassesOver (start "begin begin $ end end int" 0).sight passed ∧
        ((start "begin begin $ end end int" 0).recover .block).diagnostics =
          strayReports false passed) ∧
      ((start "begin begin $ end end int" 0).recover .block).current.lexeme = .keyword .intWord :=
  have hproper := (atStatement_start "begin begin $ end end int" 0).ready.proper
  have ⟨passed, hpassed, _, hdiagnostics, _⟩ := recover_passes _ hproper .block
  ⟨hproper, ⟨passed, (hpassed passed).mpr rfl, hdiagnostics⟩, by decide +kernel⟩

end Reader

end LoopLang
