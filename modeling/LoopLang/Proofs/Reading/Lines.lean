import LoopLang.Proofs.Grammar.Cuts
import LoopLang.Proofs.Reading.Chains

/-!
# How far a rule goes

The rules for expressions and conditions pass nothing but lexemes that can stand inside a line,
whatever is in front of them (`Rule.InLine`).  A declaration, an assignment and the header of a
block pass one lexeme more, but that one only to succeed: a declaration or an assignment that fails
stands in front of the first semicolon, and a header that fails in front of the first `begin`
(`Rule.FailsInLine`).
-/

namespace LoopLang

namespace Reader

variable {reader later last : Reader}

/-- What lies between one reader and another is part of a line. -/
def StaysInLine (reader later : Reader) : Prop :=
  ∃ passed, reader.ahead = passed ++ later.ahead ∧ LoopLang.InLine passed

private theorem staysInLine_of_ahead_eq (hahead : later.ahead = reader.ahead) :
    StaysInLine reader later :=
  ⟨[], by rw [hahead, List.nil_append], by simp [LoopLang.InLine]⟩

theorem StaysInLine.trans (hfirst : StaysInLine reader later) (hsecond : StaysInLine later last) :
    StaysInLine reader last := by
  obtain ⟨front, hahead, hfront⟩ := hfirst
  obtain ⟨back, hrest, hback⟩ := hsecond
  refine ⟨front ++ back, by rw [hahead, hrest, List.append_assoc], fun token hmem => ?_⟩
  rcases List.mem_append.mp hmem with hmem | hmem
  · exact hfront token hmem
  · exact hback token hmem

private theorem staysInLine_advance (hline : reader.current.lexeme.inLine) :
    StaysInLine reader reader.advance := by
  cases hahead : reader.ahead with
  | nil =>
      rw [reader.advance_of_ahead_eq_nil hahead]
      exact staysInLine_of_ahead_eq rfl
  | cons token behind =>
      rw [reader.current_of_ahead_eq_cons hahead] at hline
      exact ⟨[token], by simp [hahead], by simpa [LoopLang.InLine] using hline⟩

end Reader

namespace Rule

variable {α β ω : Type} {reader : Reader}

/-- A rule passes nothing but part of a line. -/
def InLine (rule : Rule α) : Prop := ∀ reader : Reader, reader.StaysInLine (rule reader).2

/-- A rule that fails has passed nothing but part of a line. -/
def FailsInLine (rule : Rule α) : Prop :=
  ∀ reader : Reader, (rule reader).1 = none → reader.StaysInLine (rule reader).2

/-! ## Combinations of rules -/

private theorem inLine_pure (a : α) : InLine (pure a : Rule α) :=
  fun _ => Reader.staysInLine_of_ahead_eq rfl

private theorem inLine_fail (wanted : Wanted) : InLine (fail wanted : Rule α) :=
  fun reader => Reader.staysInLine_of_ahead_eq (reader.ahead_complain wanted)

private theorem staysInLine_bind {rule : Rule α} {next : α → Rule β}
    (hrule : reader.StaysInLine (rule reader).2) (hnext : ∀ a, InLine (next a)) :
    reader.StaysInLine ((rule >>= next) reader).2 := by
  rw [bind_apply]
  rcases hresult : rule reader with ⟨_ | a, later⟩
  · rwa [hresult] at hrule
  · rw [hresult] at hrule
    exact hrule.trans (hnext a later)

private theorem InLine.bind {rule : Rule α} {next : α → Rule β} (hrule : InLine rule)
    (hnext : ∀ a, InLine (next a)) : InLine (rule >>= next) :=
  fun reader => staysInLine_bind (hrule reader) hnext

private theorem InLine.bind_fails {rule : Rule α} {next : α → Rule β} (hrule : InLine rule)
    (hnext : ∀ a, FailsInLine (next a)) : FailsInLine (rule >>= next) := by
  intro reader hnone
  have hfirst := hrule reader
  rw [bind_apply] at hnone ⊢
  rcases hresult : rule reader with ⟨_ | a, later⟩
  · rwa [hresult] at hfirst
  · rw [hresult] at hfirst hnone
    exact hfirst.trans (hnext a later hnone)

/-- What is made of a value makes no difference to where a rule fails. -/
private theorem FailsInLine.bind_pure {rule : Rule α} (hrule : FailsInLine rule) (f : α → β) :
    FailsInLine (do let a ← rule; return f a : Rule β) := by
  intro reader hnone
  rw [map_apply] at hnone ⊢
  exact hrule reader (Option.map_eq_none_iff.mp hnone)

private theorem inLine_expect {lexeme : Lexeme} (hline : lexeme.inLine) (wanted : Wanted) :
    InLine (expect lexeme wanted) := by
  intro reader
  rw [expect_apply]
  split
  · rename_i hcurrent
    exact Reader.staysInLine_advance (hcurrent ▸ hline)
  · exact inLine_fail wanted reader

private theorem failsInLine_expect (lexeme : Lexeme) (wanted : Wanted) :
    FailsInLine (expect lexeme wanted) := by
  intro reader hnone
  rw [expect_apply] at hnone ⊢
  split at hnone
  · simp [advance] at hnone
  · rename_i hcurrent
    rw [if_neg hcurrent]
    exact inLine_fail wanted reader

private theorem FailsInLine.inside {rule : Rule α} (hrule : FailsInLine rule) (opening : Opening) :
    FailsInLine (inside opening rule) := by
  intro reader hnone
  obtain ⟨passed, hahead, hpassed⟩ :=
    hrule ((reader.descendInto opening.construct).enter opening) hnone
  exact ⟨passed, by simpa [Rule.inside] using hahead, hpassed⟩

private theorem InLine.inside {rule : Rule α} (hrule : InLine rule) (opening : Opening) :
    InLine (inside opening rule) := by
  intro reader
  obtain ⟨passed, hahead, hpassed⟩ :=
    hrule ((reader.descendInto opening.construct).enter opening)
  exact ⟨passed, by simpa [Rule.inside] using hahead, hpassed⟩

/-- A loop whose turns stay in line does so as well. -/
private theorem inLine_repeatWithin {select : Lexeme → Option ω} {step : ω → α → Rule α}
    (hstep : ∀ {reader : Reader} choice a, select reader.current.lexeme = some choice →
      reader.StaysInLine (step choice a reader).2) (budget : List Token) (a : α) :
    InLine (repeatWithin select step budget a) := by
  induction budget generalizing a with
  | nil => exact inLine_pure a
  | cons token budget ih =>
      intro reader
      cases hselect : select reader.current.lexeme with
      | none =>
          rw [repeatWithin_cons, hselect]
          exact Reader.staysInLine_of_ahead_eq rfl
      | some choice =>
          have hresult : repeatWithin select step (token :: budget) a reader =
              (step choice a >>= repeatWithin select step budget) reader := by
            rw [repeatWithin_cons, hselect]
            rfl
          rw [hresult]
          exact staysInLine_bind (hstep choice a hselect) ih

private theorem inLine_repeatWhile {select : Lexeme → Option ω} {step : ω → α → Rule α}
    (hstep : ∀ {reader : Reader} choice a, select reader.current.lexeme = some choice →
      reader.StaysInLine (step choice a reader).2) (a : α) :
    InLine (repeatWhile select step a) :=
  fun reader => inLine_repeatWithin hstep reader.ahead a reader

private theorem staysInLine_advance_bind {next : Token → Rule α}
    (hline : reader.current.lexeme.inLine) (hnext : ∀ token, InLine (next token)) :
    reader.StaysInLine ((advance >>= next) reader).2 :=
  staysInLine_bind (Reader.staysInLine_advance hline) hnext

/-! ## Expressions and conditions -/

private theorem inLine_layer {level : Precedence} {operand : Rule Expr}
    (hoperand : InLine operand) :
    InLine (layer level operand) := by
  refine hoperand.bind fun first => inLine_repeatWhile (fun {reader} op left hselect => ?_) first
  have hline : reader.current.lexeme.inLine := by
    rw [(arithAt?_eq_some_iff.mp hselect).1]
    rfl
  exact staysInLine_advance_bind hline fun _ => hoperand.bind fun _ => inLine_pure _

/-- The rule of a layer stays in line if what it does from an opening parenthesis on does. -/
private theorem inLine_exprAt_of_nested {room : Nat}
    (hnested : ∀ {reader : Reader}, reader.current.lexeme = .mark .openParen →
      reader.StaysInLine ((do let opening ← advance; nestedWithin room opening) reader).2)
    (level : Option Precedence) : InLine (exprAt room level) := by
  induction level using Precedence.induction with
  | operand =>
      intro reader
      rw [exprAt, operand_apply]
      split
      · rename_i hlexeme
        exact Reader.staysInLine_advance (by rw [hlexeme]; rfl)
      · rename_i hlexeme
        exact Reader.staysInLine_advance (by rw [hlexeme]; rfl)
      · rename_i hlexeme
        exact hnested hlexeme
      · exact inLine_fail _ reader
  | layer level ih =>
      rw [exprAt_some]
      exact inLine_layer ih

private theorem inLine_exprAt (room : Nat) (level : Option Precedence) :
    InLine (exprAt room level) := by
  induction room generalizing level with
  | zero =>
      refine inLine_exprAt_of_nested (fun {reader} hparen => ?_) level
      show reader.StaysInLine ((do let opening ← advance; tooDeep opening : Rule Expr) reader).2
      rw [advance_tooDeep_apply]
      exact Reader.staysInLine_advance (by rw [hparen]; rfl)
  | succ room ih =>
      have hinner : InLine (expressionWithin room) := expressionWithin_eq room ▸ ih _
      have hbody : InLine (insideParens room) :=
        hinner.bind fun _ => (inLine_expect rfl _).bind fun _ => inLine_pure _
      have hnested : ∀ opening, InLine (nestedWithin (room + 1) opening) := fun _ => hbody.inside _
      exact inLine_exprAt_of_nested
        (fun hparen => staysInLine_advance_bind (by rw [hparen]; rfl) hnested) level

private theorem inLine_expression : InLine expression := by
  intro reader
  show reader.StaysInLine (expressionWithin (reader.limit - reader.depth) reader).2
  rw [expressionWithin_eq]
  exact inLine_exprAt _ _ reader

private theorem inLine_relation : InLine relation := by
  intro reader
  rw [relation_apply]
  split
  · rename_i hlexeme
    exact Reader.staysInLine_advance (by rw [hlexeme]; rfl)
  · exact inLine_fail _ reader

private theorem inLine_comparison : InLine comparison :=
  inLine_expression.bind fun _ => inLine_relation.bind fun _ =>
    inLine_expression.bind fun _ => inLine_pure _

private theorem inLine_conditions : InLine conditions := by
  refine inLine_comparison.bind fun first =>
    inLine_repeatWhile (fun {reader} op left hselect => ?_) _
  have hline : reader.current.lexeme.inLine := by
    unfold Lexeme.connective? at hselect
    split at hselect <;> simp_all [Lexeme.inLine]
  exact staysInLine_advance_bind hline fun _ => inLine_comparison.bind fun _ => inLine_pure _

/-! ## Declarations, assignments and headers -/

private theorem inLine_assignOp : InLine assignOp := by
  intro reader
  rw [assignOp_apply]
  split
  · rename_i hlexeme
    exact Reader.staysInLine_advance (by rw [hlexeme]; rfl)
  · exact inLine_fail _ reader

/-- An assignment that fails has not come to its semicolon. -/
theorem staysInLine_assignment {target : String} (hname : reader.current.lexeme = .ident target)
    (hnone : (assignment target reader).1 = none) :
    reader.StaysInLine (assignment target reader).2 := by
  have hrest : ∀ name, FailsInLine (assignmentRest target name) := fun name =>
    inLine_assignOp.bind_fails fun _ => inLine_expression.bind_fails fun _ =>
      (failsInLine_expect _ _).bind_pure _
  have hfirst : reader.StaysInLine reader.advance :=
    Reader.staysInLine_advance (by rw [hname]; rfl)
  exact hfirst.trans ((hrest reader.current).inside _ reader.advance hnone)

private theorem inLine_declaredName (names : List String) : InLine (declaredName names) := by
  intro reader
  rw [declaredName_apply]
  split
  · rename_i hlexeme
    split
    · exact Reader.staysInLine_of_ahead_eq rfl
    · exact Reader.staysInLine_advance (by rw [hlexeme]; rfl)
  · exact inLine_fail _ reader

private theorem inLine_declaredNames : InLine declaredNames := by
  rw [declaredNames_eq]
  refine (inLine_declaredName []).bind fun names =>
    inLine_repeatWhile (fun {reader} _ names hselect => ?_) names
  have hcomma : reader.current.lexeme = .mark .comma := by simpa [comma?] using hselect
  exact staysInLine_advance_bind (by rw [hcomma]; rfl) fun _ => inLine_declaredName names

private theorem inLine_initialValue : InLine initialValue := by
  intro reader
  rw [initialValue_apply]
  split
  · rename_i hsign
    exact staysInLine_advance_bind (by rw [hsign]; rfl)
      fun _ => inLine_expression.bind fun _ => inLine_pure _
  · exact Reader.staysInLine_of_ahead_eq rfl

/-- A declaration that fails has not come to its semicolon. -/
theorem staysInLine_declaration (hnone : (declaration reader).1 = none) :
    reader.advance.StaysInLine (declaration reader).2 := by
  have hrest : ∀ word, FailsInLine (declarationRest word) := fun _ =>
    inLine_declaredNames.bind_fails fun _ => inLine_initialValue.bind_fails fun _ =>
      (failsInLine_expect _ _).bind_pure _
  exact (hrest reader.current).inside _ reader.advance hnone

/-- A header that fails has not come to its `begin`. -/
theorem failsInLine_guard : FailsInLine guard :=
  inLine_conditions.bind_fails fun _ =>
    ((inLine_expect rfl _).bind_fails fun _ => (failsInLine_expect _ _).bind_pure _).bind_pure _

end Rule

end LoopLang
