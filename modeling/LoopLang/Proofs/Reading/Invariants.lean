import LoopLang.Proofs.Reading.Statements
import Mathlib.Data.List.DropRight

/-!
# What lasts while a program is read

An `Invariant` holds of a reader behind every step if it holds before it.  Such a fact lasts
whatever a rule does and whatever becomes of it, and this is proved once, rule by rule
(`Invariant.keeps_statement`, `Invariant.keeps_program`).

One step needs more than the reader to tell what it does: a parenthesis is refused where as many are
open in its expression as the limit says.  Which ones are open is a matter of the tokens: an
expression begins behind a token that stands in no expression, so what is read of it are the last
tokens that can stand in one (`expressionEnd`), and `unclosed` counts the parentheses that they open
and do not close.  Within an expression a reader counts as many levels as there are unclosed
parentheses behind it (`Reader.AtLevel`).  A rule for expressions keeps that only where it succeeds;
after a failure nothing is known of the level until a token is passed that stands in no expression,
and that is why each expression begins behind such a token.
-/

namespace LoopLang

/-! ## Unclosed parentheses -/

/-- Whether a lexeme can stand in an expression. -/
def Lexeme.inExpression : Lexeme → Bool
  | ident _ | number _ | arith _ | mark .openParen | mark .closeParen => true
  | _ => false

/-- How many parentheses are open behind a token, when `level` are open in front of it. -/
def Token.nest (level : Nat) (token : Token) : Nat :=
  if token.lexeme = .mark .openParen then level + 1
  else if token.lexeme = .mark .closeParen then level - 1
  else level

/-- The tokens at the end of a list that can stand in one expression. -/
def expressionEnd (tokens : List Token) : List Token :=
  tokens.rtakeWhile fun token => token.lexeme.inExpression

/-- How many parentheses some tokens open and do not close. -/
def unclosed (tokens : List Token) : Nat := tokens.foldl Token.nest 0

private theorem unclosed_expressionEnd_append (tokens : List Token) {token : Token}
    (htoken : token.lexeme.inExpression = true) :
    unclosed (expressionEnd (tokens ++ [token])) =
      token.nest (unclosed (expressionEnd tokens)) := by
  rw [expressionEnd, List.rtakeWhile_concat, if_pos htoken, unclosed, List.foldl_append]
  rfl

private theorem expressionEnd_append_of_not (tokens : List Token) {token : Token}
    (htoken : token.lexeme.inExpression = false) : expressionEnd (tokens ++ [token]) = [] := by
  rw [expressionEnd, List.rtakeWhile_concat, if_neg (by simp [htoken])]

namespace Reader

variable {reader later : Reader} {tokens : List Token} {level : Nat}

/-- In front of the reader so many parentheses are open in the same expression. -/
def AtLevel (tokens : List Token) (level : Nat) (reader : Reader) : Prop :=
  ∃ passed, tokens = passed ++ reader.ahead ∧ unclosed (expressionEnd passed) = level

private theorem AtLevel.of_ahead_eq (hlevel : reader.AtLevel tokens level)
    (hahead : later.ahead = reader.ahead) : later.AtLevel tokens level := by
  rwa [AtLevel, hahead]

private theorem ahead_eq_cons_advance (hahead : reader.ahead ≠ []) :
    reader.ahead = reader.current :: reader.advance.ahead := by
  obtain ⟨token, behind, hcons⟩ := List.exists_cons_of_ne_nil hahead
  rw [ahead_advance, hcons, reader.current_of_ahead_eq_cons hcons, List.tail_cons]

/-- Behind a token of an expression. -/
private theorem AtLevel.advance (hlevel : reader.AtLevel tokens level) (hahead : reader.ahead ≠ [])
    (hlexeme : reader.current.lexeme.inExpression = true) :
    reader.advance.AtLevel tokens (reader.current.nest level) := by
  obtain ⟨passed, hpassed, hunclosed⟩ := hlevel
  refine ⟨passed ++ [reader.current], ?_, ?_⟩
  · rw [hpassed, ahead_eq_cons_advance hahead]
    simp
  · rw [unclosed_expressionEnd_append passed hlexeme, hunclosed]

/-- Behind any other token no parenthesis is open. -/
private theorem atLevel_zero (hsuffix : reader.ahead <:+ tokens) (hahead : reader.ahead ≠ [])
    (hlexeme : reader.current.lexeme.inExpression = false) :
    reader.advance.AtLevel tokens 0 := by
  obtain ⟨passed, hpassed⟩ := hsuffix
  refine ⟨passed ++ [reader.current], ?_, ?_⟩
  · rw [← hpassed, ahead_eq_cons_advance hahead]
    simp
  · rw [expressionEnd_append_of_not passed hlexeme]
    rfl

end Reader

/-! ## Invariants -/

open Reader Rule

/-- What holds of a reader of some tokens behind every step, if it held before the step. -/
structure Invariant (tokens : List Token) (limit : Nat) where
  Holds : Reader → Prop
  advance {reader : Reader} (h : Holds reader) : Holds reader.advance
  complain {reader : Reader} (h : Holds reader) (wanted : Wanted) : Holds (reader.complain wanted)
  refuseName {reader : Reader} (h : Holds reader) (name : String) : Holds (reader.refuseName name)
  refuseParen {reader : Reader} (h : Holds reader) (hlimit : reader.limit = limit)
    (hparen : reader.current.lexeme = .mark .openParen) (hahead : reader.ahead ≠ [])
    (hlevel : reader.AtLevel tokens limit) : Holds reader.refuseParen
  enter {reader : Reader} (h : Holds reader) (opening : Opening) :
    Holds ((reader.descendInto opening.construct).enter opening)
  leave {reader : Reader} (h : Holds reader) (construct : Construct) :
    Holds (reader.leaveFrom construct)
  recovered {reader : Reader} (h : Holds reader) (boundary : Boundary) (skipped : Nat) :
    Holds (reader.record (.recovered boundary skipped))

namespace Invariant

variable {α β ω : Type} {tokens : List Token} {limit depth : Nat} {I : Invariant tokens limit}
  {reader later : Reader} {P Q R : Reader → Prop} {rule : Rule α}

/-- A reader of the tokens that counts so many levels of parentheses, and of which the invariant
holds. -/
structure Gauged (I : Invariant tokens limit) (depth : Nat) (reader : Reader) : Prop where
  proper : reader.Proper
  ahead_suffix : reader.ahead <:+ tokens
  depth_eq : reader.depth = depth
  limit_eq : reader.limit = limit
  holds : I.Holds reader

/-- A step behind which the same invariant holds, or another one. -/
private theorem Gauged.onward {J : Invariant tokens limit} (hgauged : I.Gauged depth reader)
    (hframe : Frame reader later) (hholds : J.Holds later) : J.Gauged later.depth later where
  proper := hgauged.proper.of_frame hframe
  ahead_suffix := hframe.ahead_suffix.trans hgauged.ahead_suffix
  depth_eq := rfl
  limit_eq := hframe.limit_eq.trans hgauged.limit_eq
  holds := hholds

/-- A step that counts no level. -/
theorem Gauged.step {J : Invariant tokens limit} (hgauged : I.Gauged depth reader)
    (hframe : Frame reader later) (hdepth : later.depth = reader.depth)
    (hholds : J.Holds later) : J.Gauged depth later := by
  have hlater := hgauged.onward hframe hholds
  rwa [hdepth, hgauged.depth_eq] at hlater

private theorem Gauged.advance (hgauged : I.Gauged depth reader) : I.Gauged depth reader.advance :=
  hgauged.step frame_advance reader.depth_advance (I.advance hgauged.holds)

private theorem Gauged.advanceBy (hgauged : I.Gauged depth reader) (count : Nat) :
    I.Gauged depth (reader.advanceBy count) := by
  induction count generalizing reader with
  | zero => exact hgauged
  | succ count ih => exact ih hgauged.advance

private theorem Gauged.complain (hgauged : I.Gauged depth reader) (wanted : Wanted) :
    I.Gauged depth (reader.complain wanted) :=
  hgauged.step (frame_complain wanted) (reader.depth_complain wanted)
    (I.complain hgauged.holds wanted)

private theorem Gauged.refuseName (hgauged : I.Gauged depth reader) (name : String) :
    I.Gauged depth (reader.refuseName name) :=
  hgauged.step (frame_refuseName name) rfl (I.refuseName hgauged.holds name)

private theorem Gauged.recover (hgauged : I.Gauged depth reader) (boundary : Boundary) :
    I.Gauged depth (reader.recover boundary) := by
  have hthere := hgauged.advanceBy (boundary.skip reader.ahead)
  exact hthere.step (frame_record trivial) rfl (I.recovered hthere.holds _ _)

private theorem Gauged.skipFollowers (hgauged : I.Gauged depth reader) (budget : List Token) :
    I.Gauged depth (skipFollowers budget reader) := by
  induction budget generalizing reader with
  | nil => exact hgauged
  | cons token budget ih =>
      rw [Reader.skipFollowers]
      split
      · exact ih (hgauged.recover .block)
      · exact hgauged

private theorem Gauged.skipChain (hgauged : I.Gauged depth reader) :
    I.Gauged depth reader.skipChain :=
  (hgauged.recover .block).skipFollowers _

/-- Entering a construct counts its level, if it has one. -/
private theorem Gauged.advanceInto (hgauged : I.Gauged depth reader) (construct : Construct) :
    I.Gauged (depth + if construct = .parenthesized then 1 else 0)
      (reader.advanceInto construct) := by
  have hlater := hgauged.onward (frame_advanceInto construct)
    (I.enter hgauged.advance.holds ⟨construct, reader.current.location⟩)
  rwa [depth_advanceInto, hgauged.depth_eq] at hlater

/-- Leaving it takes the level back. -/
private theorem Gauged.leaveFrom {construct : Construct}
    (hgauged : I.Gauged (depth + if construct = .parenthesized then 1 else 0) reader) :
    I.Gauged depth (reader.leaveFrom construct) := by
  have hlater := hgauged.onward (frame_leaveFrom construct) (I.leave hgauged.holds construct)
  rwa [depth_leaveFrom, hgauged.depth_eq, Nat.add_sub_cancel] at hlater

private theorem Gauged.ahead_ne_nil (hgauged : I.Gauged depth reader) {lexeme : Lexeme}
    (hlexeme : reader.current.lexeme = lexeme) (hend : lexeme ≠ .endOfInput) :
    reader.ahead ≠ [] := by
  subst hlexeme
  rwa [Ne, ← hgauged.proper.current_lexeme_eq_endOfInput_iff]

/-- A parenthesis that is refused where the limit is reached. -/
private theorem Gauged.refuseParen (hgauged : I.Gauged depth reader)
    (hparen : reader.current.lexeme = .mark .openParen) (hlevel : reader.AtLevel tokens limit) :
    I.Gauged depth reader.refuseParen :=
  hgauged.step frame_refuseParen (by simp [Reader.refuseParen, report])
    (I.refuseParen hgauged.holds hgauged.limit_eq hparen (hgauged.ahead_ne_nil hparen (by simp))
      hlevel)

/-- Behind a token that stands in no expression one can begin. -/
private theorem Gauged.atLevel_zero (hgauged : I.Gauged depth reader) {lexeme : Lexeme}
    (hlexeme : reader.current.lexeme = lexeme) (hend : lexeme ≠ .endOfInput)
    (hapart : lexeme.inExpression = false) : reader.advance.AtLevel tokens 0 :=
  Reader.atLevel_zero hgauged.ahead_suffix (hgauged.ahead_ne_nil hlexeme hend) (hlexeme ▸ hapart)

/-! ## Rules -/

/-- The invariant holds behind a rule, and something else if the rule succeeded. -/
def Leaves (I : Invariant tokens limit) (depth : Nat) (Q : Reader → Prop)
    (result : Option α × Reader) : Prop :=
  I.Gauged depth result.2 ∧ (result.1.isSome = true → Q result.2)

/-- Started where `P` holds, a rule keeps the invariant; where it succeeds, `Q` holds behind it. -/
def Keeps (I : Invariant tokens limit) (depth : Nat) (P Q : Reader → Prop) (rule : Rule α) :
    Prop :=
  ∀ reader : Reader, I.Gauged depth reader → P reader → I.Leaves depth Q (rule reader)

/-- No condition on a reader. -/
def Anywhere (_ : Reader) : Prop := True

/-! ## Combinations of rules -/

private theorem Leaves.anywhere {result : Option α × Reader} (hleaves : I.Leaves depth Q result) :
    I.Leaves depth Anywhere result :=
  ⟨hleaves.1, fun _ => trivial⟩

/-- A rule that asks for nothing may be started wherever something holds. -/
private theorem Keeps.everywhere (hrule : I.Keeps depth Anywhere Q rule) :
    I.Keeps depth P Q rule :=
  fun reader hgauged _ => hrule reader hgauged trivial

private theorem keeps_pure (a : α) : I.Keeps depth P P (pure a : Rule α) :=
  fun _ hgauged hP => ⟨hgauged, fun _ => hP⟩

private theorem keeps_ofOption (value : Option α) : I.Keeps depth P P (ofOption value) :=
  fun _ hgauged hP => ⟨hgauged, fun _ => hP⟩

private theorem leaves_fail (hgauged : I.Gauged depth reader) (wanted : Wanted) :
    I.Leaves depth Q ((fail wanted : Rule α) reader) :=
  ⟨hgauged.complain wanted, nofun⟩

private theorem leaves_advance (hgauged : I.Gauged depth reader) (a : α)
    (hQ : Q reader.advance) : I.Leaves depth Q (some a, reader.advance) :=
  ⟨hgauged.advance, fun _ => hQ⟩

private theorem Leaves.map {result : Option α × Reader} (hleaves : I.Leaves depth Q result)
    (f : α → β) : I.Leaves depth Q (result.1.map f, result.2) :=
  ⟨hleaves.1, fun hsome => hleaves.2 (by simpa using hsome)⟩

private theorem Keeps.bind {next : α → Rule β} (hrule : I.Keeps depth P Q rule)
    (hnext : ∀ a, I.Keeps depth Q R (next a)) :
    I.Keeps depth P R (rule >>= next) := by
  intro reader hgauged hP
  obtain ⟨hlater, hQ⟩ := hrule reader hgauged hP
  rw [bind_apply]
  rcases hresult : rule reader with ⟨_ | a, later⟩
  · rw [hresult] at hlater
    exact ⟨hlater, nofun⟩
  · rw [hresult] at hlater hQ
    exact hnext a later hlater (hQ rfl)

/-- A rule behind the current token. -/
private theorem leaves_advance_bind {next : Token → Rule α} (hgauged : I.Gauged depth reader)
    (hnext : I.Keeps depth P Q (next reader.current)) (hP : P reader.advance) :
    I.Leaves depth Q ((Rule.advance >>= next) reader) :=
  hnext reader.advance hgauged.advance hP

private theorem keeps_expect {lexeme : Lexeme} (wanted : Wanted)
    (hQ : ∀ reader : Reader, I.Gauged depth reader → P reader →
      reader.current.lexeme = lexeme → Q reader.advance) :
    I.Keeps depth P Q (expect lexeme wanted) := by
  intro reader hgauged hP
  rw [expect_apply]
  split
  · rename_i hlexeme
    exact leaves_advance hgauged _ (hQ reader hgauged hP hlexeme)
  · exact leaves_fail hgauged wanted

private theorem keeps_expect_anywhere (lexeme : Lexeme) (wanted : Wanted) :
    I.Keeps depth Anywhere Anywhere (expect lexeme wanted) :=
  keeps_expect wanted fun _ _ _ _ => trivial

/-- A rule inside a construct, behind the token that opens it. -/
private theorem leaves_inside (construct : Construct) (body : Token → Rule α)
    (hgauged : I.Gauged depth reader)
    (hbody : I.Keeps (depth + if construct = .parenthesized then 1 else 0) P Q
      (body reader.current))
    (hP : P (reader.advanceInto construct))
    (hQ : ∀ later, Q later → R (later.leaveFrom construct)) : I.Leaves depth R
      ((do let word ← Rule.advance; inside ⟨construct, word.location⟩ (body word) : Rule α)
        reader) := by
  obtain ⟨hlater, hholds⟩ := hbody _ (hgauged.advanceInto construct) hP
  rw [advance_inside_apply]
  exact ⟨hlater.leaveFrom, fun hsome => hQ _ (hholds hsome)⟩

private theorem Keeps.recoveringBy {recovery : Reader → Reader}
    (hrule : I.Keeps depth P Anywhere rule)
    (hrecovery : ∀ {reader : Reader}, I.Gauged depth reader →
      I.Gauged depth (recovery reader)) :
    I.Keeps depth P Anywhere (rule.recoveringBy recovery) := by
  intro reader hgauged hP
  obtain ⟨hlater, -⟩ := hrule reader hgauged hP
  unfold Rule.recoveringBy
  rcases hresult : rule reader with ⟨_ | a, later⟩
  · rw [hresult] at hlater
    exact ⟨hrecovery hlater, nofun⟩
  · rw [hresult] at hlater
    exact ⟨hlater, fun _ => trivial⟩

private theorem Keeps.attempt (hrule : I.Keeps depth P Q rule) :
    I.Keeps depth P Anywhere (attempt rule) :=
  fun reader hgauged hP => ⟨(hrule reader hgauged hP).1, fun _ => trivial⟩

/-- A loop whose turns take readers where `P` holds to such readers. -/
private theorem keeps_repeatWhile {select : Lexeme → Option ω} {step : ω → α → Rule α}
    (hstep : ∀ choice a, I.Keeps depth
      (fun reader => select reader.current.lexeme = some choice ∧ P reader) P (step choice a))
    (a : α) : I.Keeps depth P P (repeatWhile select step a) := by
  -- By induction on the budget of turns; what it is does not matter.
  have hwithin : ∀ (budget : List Token) (a : α),
      I.Keeps depth P P (repeatWithin select step budget a) := by
    intro budget
    induction budget with
    | nil => exact keeps_pure
    | cons token budget ih =>
        intro a reader hgauged hP
        rw [repeatWithin_cons]
        cases hselect : select reader.current.lexeme with
        | none => exact ⟨hgauged, fun _ => hP⟩
        | some choice =>
            obtain ⟨hlater, hholds⟩ := hstep choice a reader hgauged ⟨hselect, hP⟩
            dsimp only
            rcases hresult : step choice a reader with ⟨_ | b, later⟩
            · rw [hresult] at hlater
              exact ⟨hlater, nofun⟩
            · rw [hresult] at hlater hholds
              exact ih b later hlater (hholds rfl)
  exact fun reader => hwithin reader.ahead a reader

private theorem Keeps.attemptWhile {more : Lexeme → Bool} (hrule : I.Keeps depth
      (fun reader => more reader.current.lexeme = true) Anywhere rule) :
    I.Keeps depth Anywhere Anywhere (attemptWhile more rule) := by
  rw [attemptWhile_eq]
  refine (keeps_repeatWhile (fun _ outcomes reader hgauged hselect => ?_) []).bind
    fun _ => keeps_pure _
  exact ⟨(hrule reader hgauged (another?_eq_some_iff.mp hselect.1)).1, fun _ => trivial⟩

/-! ## Expressions -/

/-- Read where as many parentheses are open as levels are counted, a rule succeeds only where as
many are open behind it. -/
abbrev KeepsLevel (I : Invariant tokens limit) (depth : Nat) (rule : Rule α) : Prop :=
  I.Keeps depth (AtLevel tokens depth) (AtLevel tokens depth) rule

/-- A layer keeps the level if its operands do. -/
private theorem keepsLevel_layer {level : Precedence} {operand : Rule Expr}
    (hoperand : I.KeepsLevel depth operand) :
    I.KeepsLevel depth (layer level operand) := by
  rw [layer_eq]
  refine hoperand.bind fun first => keeps_repeatWhile (fun op left reader hgauged h => ?_) first
  obtain ⟨hselect, hlevel⟩ := h
  have hsign : reader.current.lexeme = .arith op := (arithAt?_eq_some_iff.mp hselect).1
  obtain ⟨behind, hahead⟩ := hgauged.proper.ahead_eq_cons (by simp [hsign])
  have hnext := hlevel.advance (by simp [hahead]) (by simp [hsign, Lexeme.inExpression])
  rw [Token.nest, if_neg (by simp [hsign]), if_neg (by simp [hsign])] at hnext
  exact leaves_advance_bind hgauged (hoperand.bind fun _ => keeps_pure _) hnext

/-- The rule of each layer keeps the level if what it does from an opening parenthesis on does. -/
private theorem keepsLevel_exprAt_of_nested {room : Nat}
    (hnested : ∀ reader : Reader, I.Gauged depth reader → reader.AtLevel tokens depth →
      reader.current.lexeme = .mark .openParen →
      I.Leaves depth (AtLevel tokens depth)
        ((do let opening ← Rule.advance; nestedWithin room opening) reader))
    (level : Option Precedence) :
    I.KeepsLevel depth (exprAt room level) := by
  induction level using Precedence.induction with
  | operand =>
      intro reader hgauged hlevel
      -- A name and a number leave the level as it is.
      have hsingle : ∀ (e : Expr), reader.current.lexeme.inExpression = true →
          reader.current.lexeme ≠ .mark .openParen →
          reader.current.lexeme ≠ .mark .closeParen →
          I.Leaves depth (AtLevel tokens depth) (some e, reader.advance) := by
        intro e hlexeme hopen hclose
        have hahead : reader.ahead ≠ [] := fun hnil => by
          have hend := hgauged.proper.current_lexeme_eq_endOfInput_iff.mpr hnil
          simp [hend, Lexeme.inExpression] at hlexeme
        have hnext := hlevel.advance hahead hlexeme
        rw [Token.nest, if_neg hopen, if_neg hclose] at hnext
        exact leaves_advance hgauged e hnext
      rw [exprAt, operand_apply]
      split
      · rename_i name hname
        exact hsingle _ (by simp [hname, Lexeme.inExpression]) (by simp [hname]) (by simp [hname])
      · rename_i digits hdigits
        exact hsingle _ (by simp [hdigits, Lexeme.inExpression]) (by simp [hdigits])
          (by simp [hdigits])
      · rename_i hparen
        exact hnested reader hgauged hlevel hparen
      · exact leaves_fail hgauged _
  | layer level ih =>
      rw [exprAt_some]
      exact keepsLevel_layer ih

/-- An expression, where the room that is left and the level make up the limit; by induction on the
room, which shrinks as the level grows. -/
private theorem keepsLevel_exprAt {room : Nat} (hlimit : depth + room = limit)
    (level : Option Precedence) :
    I.KeepsLevel depth (exprAt room level) := by
  induction room generalizing depth level with
  | zero =>
      refine keepsLevel_exprAt_of_nested (fun reader hgauged hlevel hparen => ?_) level
      -- No room is left, so as many parentheses are open here as the limit says.
      obtain rfl : depth = limit := by omega
      show I.Leaves depth (AtLevel tokens depth)
        ((do let opening ← Rule.advance; tooDeep opening : Rule Expr) reader)
      rw [advance_tooDeep_apply]
      exact ⟨hgauged.refuseParen hparen hlevel, nofun⟩
  | succ room ih =>
      refine keepsLevel_exprAt_of_nested (fun reader hgauged hlevel hparen => ?_) level
      obtain ⟨behind, hahead⟩ := hgauged.proper.ahead_eq_cons (by simp [hparen])
      have hopened : (reader.advanceInto .parenthesized).AtLevel tokens (depth + 1) := by
        have hnext := hlevel.advance (by simp [hahead]) (by simp [hparen, Lexeme.inExpression])
        rw [Token.nest, if_pos hparen] at hnext
        exact hnext.of_ahead_eq (by simp [Reader.advanceInto])
      have hinner : I.KeepsLevel (depth + 1) (expressionWithin room) := by
        rw [expressionWithin_eq]
        exact ih (by omega) _
      have hbody : I.Keeps (depth + 1) (AtLevel tokens (depth + 1))
          (AtLevel tokens depth) (insideParens room) := by
        refine hinner.bind fun _ => Keeps.bind ?_ fun _ => keeps_pure _
        -- Of what is read inside only the closing parenthesis changes the level.
        refine keeps_expect _ fun later hlater hdeeper hclose => ?_
        obtain ⟨rest, hrest⟩ := hlater.proper.ahead_eq_cons (by simp [hclose])
        have hnext := hdeeper.advance (by simp [hrest]) (by simp [hclose, Lexeme.inExpression])
        rwa [Token.nest, if_neg (by simp [hclose]), if_pos hclose] at hnext
      exact leaves_inside .parenthesized (fun _ => insideParens room) hgauged hbody hopened
        fun _ hclosed => hclosed.of_ahead_eq (by simp)

private theorem keeps_expression :
    I.Keeps 0 (AtLevel tokens 0) Anywhere expression := by
  intro reader hgauged hlevel
  have hroom : reader.limit - reader.depth = limit := by
    rw [hgauged.limit_eq, hgauged.depth_eq, Nat.sub_zero]
  show I.Leaves 0 Anywhere (expressionWithin (reader.limit - reader.depth) reader)
  rw [hroom, expressionWithin_eq]
  exact (keepsLevel_exprAt (Nat.zero_add limit) _ reader hgauged hlevel).anywhere

/-! ## Conditions -/

private theorem keeps_relation : I.Keeps 0 Anywhere (AtLevel tokens 0) relation := by
  intro reader hgauged _
  rw [relation_apply]
  split
  · rename_i op hop
    exact leaves_advance hgauged _ (hgauged.atLevel_zero hop (by simp) rfl)
  · exact leaves_fail hgauged _

private theorem keeps_comparison : I.Keeps 0 (AtLevel tokens 0) Anywhere comparison :=
  keeps_expression.bind fun _ => keeps_relation.bind fun _ =>
    keeps_expression.bind fun _ => keeps_pure _

private theorem keeps_conditions : I.Keeps 0 (AtLevel tokens 0) Anywhere conditions := by
  rw [conditions_eq]
  refine keeps_comparison.bind fun c => keeps_repeatWhile (fun op left reader hgauged h => ?_) _
  have hword : reader.current.lexeme = .connective op := connective?_eq_some_iff.mp h.1
  exact leaves_advance_bind hgauged (keeps_comparison.bind fun _ => keeps_pure _)
    (hgauged.atLevel_zero hword (by simp) rfl)

/-! ## Declarations and assignments -/

private theorem keeps_declaredName (names : List String) :
    I.Keeps 0 Anywhere Anywhere (declaredName names) := by
  intro reader hgauged _
  rw [declaredName_apply]
  split
  · split
    · exact ⟨hgauged.refuseName _, nofun⟩
    · exact leaves_advance hgauged _ trivial
  · exact leaves_fail hgauged _

private theorem keeps_declaredNames : I.Keeps 0 Anywhere Anywhere declaredNames := by
  rw [declaredNames_eq]
  refine (keeps_declaredName []).bind fun first =>
    keeps_repeatWhile (fun _ names reader hgauged _ => ?_) first
  exact leaves_advance_bind hgauged (keeps_declaredName names) trivial

private theorem keeps_initialValue : I.Keeps 0 Anywhere Anywhere initialValue := by
  intro reader hgauged _
  rw [initialValue_apply]
  split
  · rename_i hsign
    exact leaves_advance_bind hgauged (keeps_expression.bind fun _ => keeps_pure _)
      (hgauged.atLevel_zero hsign (by simp) rfl)
  · exact ⟨hgauged, fun _ => trivial⟩

private theorem keeps_declaration : I.Keeps 0 Anywhere Anywhere declaration := by
  intro reader hgauged _
  have hbody : ∀ word, I.Keeps 0 Anywhere Anywhere (declarationRest word) := fun _ =>
    keeps_declaredNames.bind fun _ => keeps_initialValue.bind fun _ =>
      (keeps_expect_anywhere _ _).bind fun _ => keeps_pure _
  exact leaves_inside .declaration declarationRest hgauged (hbody _) trivial fun _ _ => trivial

private theorem keeps_assignOp : I.Keeps 0 Anywhere (AtLevel tokens 0) assignOp := by
  intro reader hgauged _
  rw [assignOp_apply]
  split
  · rename_i op hop
    exact leaves_advance hgauged _ (hgauged.atLevel_zero hop (by simp) rfl)
  · exact leaves_fail hgauged _

private theorem keeps_assignment (target : String) :
    I.Keeps 0 Anywhere Anywhere (assignment target) := by
  intro reader hgauged _
  have hbody : ∀ name, I.Keeps 0 Anywhere Anywhere (assignmentRest target name) :=
    fun _ => keeps_assignOp.bind fun _ => keeps_expression.bind fun _ =>
      (keeps_expect_anywhere _ _).bind fun _ => keeps_pure _
  exact leaves_inside .assignment (assignmentRest target) hgauged (hbody _) trivial
    fun _ _ => trivial

/-! ## Blocks -/

private theorem keeps_bodyItem : I.Keeps 0 Anywhere Anywhere bodyItem := by
  intro reader hgauged _
  rw [bodyItem_apply]
  split
  · exact (keeps_assignment _).recoveringBy (fun h => h.recover _) reader hgauged trivial
  · split
    · exact ⟨(hgauged.complain _).skipChain, nofun⟩
    · exact ⟨(hgauged.complain _).recover _, nofun⟩

private theorem keeps_body : I.Keeps 0 Anywhere Anywhere body :=
  keeps_bodyItem.everywhere.attemptWhile.bind fun _ =>
    (keeps_expect_anywhere _ _).bind fun _ => keeps_ofOption _

private theorem keeps_blockStart : I.Keeps 0 Anywhere Anywhere blockStart :=
  (keeps_expect_anywhere _ _).bind fun _ =>
    (keeps_expect_anywhere _ _).bind fun _ => keeps_pure _

private theorem keeps_guard : I.Keeps 0 (AtLevel tokens 0) Anywhere guard :=
  keeps_conditions.bind fun _ => keeps_blockStart.bind fun _ => keeps_pure _

/-- A block whose header can begin behind the word that begins the block. -/
private theorem leaves_block {construct : Construct} {header : Rule β}
    {make : Token → β → List Assignment → α} (hgauged : I.Gauged 0 reader)
    (hconstruct : construct ≠ .parenthesized)
    (hheader : I.Keeps 0 P Anywhere header) (hP : P (reader.advanceInto construct)) :
    I.Leaves 0 Anywhere (block construct header make reader) := by
  have hrest : I.Keeps (0 + if construct = .parenthesized then 1 else 0) P Anywhere
      (blockRest header (make reader.current)) := by
    rw [if_neg hconstruct]
    exact (hheader.recoveringBy fun h => h.recover _).bind fun _ =>
      keeps_body.bind fun _ => keeps_pure _
  exact leaves_inside construct (fun word => blockRest header (make word)) hgauged hrest hP
    fun _ _ => trivial

/-- A block with conditions; the word that begins it stands in no expression. -/
private theorem leaves_guarded (construct : Construct) (hgauged : I.Gauged 0 reader)
    (hconstruct : construct ≠ .parenthesized) {word : Keyword}
    (hword : reader.current.lexeme = .keyword word) :
    I.Leaves 0 Anywhere (guarded construct reader) := by
  rw [guarded_eq]
  exact leaves_block hgauged hconstruct keeps_guard
    ((hgauged.atLevel_zero hword (by simp) rfl).of_ahead_eq
      (by simp [Reader.advanceInto]))

private theorem keeps_otherwiseAll : I.Keeps 0 Anywhere Anywhere otherwiseAll := by
  intro reader hgauged _
  rw [otherwiseAll_apply]
  split
  · rw [otherwise_eq]
    exact (leaves_block hgauged (by simp) keeps_blockStart trivial).map _
  · exact ⟨hgauged, fun _ => trivial⟩

private theorem keeps_elifs :
    I.Keeps 0 Anywhere Anywhere (attemptAll elifFollows (guarded .elifBlock)) :=
  Keeps.bind (Keeps.attemptWhile fun reader hgauged hmore =>
    leaves_guarded _ hgauged (by simp) (of_decide_eq_true hmore)) fun _ => keeps_ofOption _

private theorem leaves_conditional (hgauged : I.Gauged 0 reader)
    (hword : reader.current.lexeme = .keyword .ifWord) :
    I.Leaves 0 Anywhere (conditional reader) := by
  have hhead : I.Keeps 0 (fun reader => reader.current.lexeme = .keyword .ifWord)
      Anywhere (guarded .ifBlock) := fun _ hgauged hword =>
    leaves_guarded _ hgauged (by simp) hword
  rw [conditional_eq]
  exact (hhead.attempt.bind fun _ => keeps_elifs.attempt.bind fun _ =>
    keeps_otherwiseAll.attempt.bind fun _ => keeps_ofOption _) reader hgauged hword

/-! ## Statements and programs -/

private theorem keeps_simpleStatement : I.Keeps 0 Anywhere Anywhere simpleStatement := by
  intro reader hgauged _
  rw [simpleStatement_apply]
  split
  · exact (keeps_declaration reader hgauged trivial).map _
  · exact (keeps_assignment _ reader hgauged trivial).map _
  · exact leaves_fail hgauged _

theorem keeps_statement : I.Keeps 0 Anywhere Anywhere statement := by
  intro reader hgauged _
  rw [statement_apply]
  split
  · rename_i hword
    exact (leaves_conditional hgauged hword).map _
  · rename_i hword
    exact (leaves_guarded .loopBlock hgauged (by simp) hword).map _
  · split
    · exact ⟨(hgauged.complain _).skipChain, nofun⟩
    · exact keeps_simpleStatement.recoveringBy (fun h => h.recover _) reader hgauged trivial

/-- An invariant that holds behind kept statements too is kept by a whole program. -/
theorem keeps_program
    (hkept : ∀ {reader : Reader} (s : Statement), I.Holds reader →
      I.Holds (reader.record (.kept s))) :
    I.Keeps 0 Anywhere Anywhere program := by
  have hnote : ∀ s : Statement, I.Keeps 0 Anywhere Anywhere (note (.kept s)) := by
    intro s reader hgauged _
    exact ⟨hgauged.step (frame_record trivial) rfl (hkept s hgauged.holds), fun _ => trivial⟩
  have hstatement : I.Keeps 0 Anywhere Anywhere keptStatement :=
    keeps_statement.bind fun s => (hnote s).bind fun _ => keeps_pure s
  exact hstatement.everywhere.attemptWhile.bind fun _ => keeps_pure _

end Invariant

end LoopLang
