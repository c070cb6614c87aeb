import LoopLang.Proofs.Reading.Chains
import LoopLang.Proofs.Reading.Statements

/-!
# What lies between the readers before and behind a rule

Some facts relate the reader that a rule is given to the one that it leaves, whatever becomes of the
rule.  Such a relation is a `Passage` if it lies between a reader and the same reader one move
later, if it can be put together, and if it lasts when a construct is entered and left around it.
Then it lies between the readers before and behind every rule (`Rule.Leads`), wherever the rule
starts.  This is proved here once, along the definitions of the rules.
-/

namespace LoopLang

/-- A relation that lies between the readers before and behind whatever a rule does. -/
structure Passage (R : Reader → Reader → Prop) : Prop where
  refl (reader : Reader) : R reader reader
  trans {reader later last : Reader} (hfirst : R reader later) (hsecond : R later last) :
    R reader last
  advance (reader : Reader) : R reader reader.advance
  complain (reader : Reader) (wanted : Wanted) : R reader (reader.complain wanted)
  refuseName (reader : Reader) (name : String) : R reader (reader.refuseName name)
  refuseParen (reader : Reader) : R reader reader.refuseParen
  recovered (reader : Reader) (boundary : Boundary) (skipped : Nat) :
    R reader (reader.record (.recovered boundary skipped))
  kept (reader : Reader) (s : Statement) : R reader (reader.record (.kept s))
  inside {reader later : Reader} (opening : Opening)
    (hinside : R ((reader.descendInto opening.construct).enter opening) later) :
    R reader (later.leaveFrom opening.construct)

namespace Rule

/-- The relation lies between the readers before and behind a rule. -/
def Leads {α : Type} (R : Reader → Reader → Prop) (rule : Rule α) : Prop :=
  ∀ reader : Reader, R reader (rule reader).2

end Rule

namespace Passage

open Rule (Leads)

variable {α β ω : Type} {R : Reader → Reader → Prop} {rule : Rule α}

section

variable (hpassage : Passage R)

include hpassage

/-! ## Recovery -/

private theorem advanceBy (reader : Reader) (count : Nat) : R reader (reader.advanceBy count) := by
  induction count generalizing reader with
  | zero => exact hpassage.refl reader
  | succ count ih => exact hpassage.trans (hpassage.advance reader) (ih reader.advance)

theorem recover (reader : Reader) (boundary : Boundary) : R reader (reader.recover boundary) :=
  hpassage.trans (hpassage.advanceBy reader _) (hpassage.recovered _ boundary _)

private theorem skipFollowers (reader : Reader) (budget : List Token) :
    R reader (Reader.skipFollowers budget reader) := by
  induction budget generalizing reader with
  | nil => exact hpassage.refl reader
  | cons token budget ih =>
      unfold Reader.skipFollowers
      split
      · exact hpassage.trans (hpassage.recover reader .block) (ih _)
      · exact hpassage.refl reader

private theorem skipChain (reader : Reader) : R reader reader.skipChain :=
  hpassage.trans (hpassage.recover reader .block) (hpassage.skipFollowers _ _)

/-! ## Combinations of rules -/

theorem pure (a : α) : Leads R (pure a : Rule α) := fun reader => hpassage.refl reader

theorem ofOption (value : Option α) : Leads R (Rule.ofOption value) :=
  fun reader => hpassage.refl reader

theorem advance_rule : Leads R Rule.advance := hpassage.advance

theorem bind {next : α → Rule β} (hrule : Leads R rule) (hnext : ∀ a, Leads R (next a)) :
    Leads R (rule >>= next) := by
  intro reader
  have hfirst := hrule reader
  rw [Rule.bind_apply]
  rcases hresult : rule reader with ⟨_ | a, later⟩
  · rwa [hresult] at hfirst
  · rw [hresult] at hfirst
    exact hpassage.trans hfirst (hnext a later)

private theorem bind_pure (hrule : Leads R rule) (f : α → β) :
    Leads R (do let a ← rule; return f a) :=
  hpassage.bind hrule fun a => hpassage.pure (f a)

private theorem lexeme_bind {next : Lexeme → Rule α} (hnext : ∀ lexeme, Leads R (next lexeme)) :
    Leads R (Rule.lexeme >>= next) :=
  hpassage.bind (fun reader => hpassage.refl reader) hnext

theorem expect (lexeme : Lexeme) (wanted : Wanted) : Leads R (Rule.expect lexeme wanted) := by
  intro reader
  rw [Rule.expect_apply]
  split
  · exact hpassage.advance reader
  · exact hpassage.complain reader wanted

private theorem skip (lexeme : Lexeme) : Leads R (Rule.skip lexeme) := by
  intro reader
  rw [Rule.skip_apply]
  split
  · exact hpassage.advance reader
  · exact hpassage.refl reader

theorem inside_rule (hrule : Leads R rule) (opening : Opening) :
    Leads R (Rule.inside opening rule) :=
  fun _ => hpassage.inside opening (hrule _)

private theorem recoveringBy {recovery : Reader → Reader} (hrule : Leads R rule)
    (hrecovery : ∀ reader, R reader (recovery reader)) :
    Leads R (rule.recoveringBy recovery) := by
  intro reader
  have hfirst := hrule reader
  unfold Rule.recoveringBy
  rcases hresult : rule reader with ⟨_ | a, later⟩
  · rw [hresult] at hfirst
    exact hpassage.trans hfirst (hrecovery later)
  · rwa [hresult] at hfirst

private theorem repeatWithin {select : Lexeme → Option ω} {step : ω → α → Rule α}
    (hstep : ∀ choice a, Leads R (step choice a)) (budget : List Token) (a : α) :
    Leads R (Rule.repeatWithin select step budget a) := by
  induction budget generalizing a with
  | nil => exact hpassage.pure a
  | cons token budget ih =>
      apply hpassage.lexeme_bind
      intro lexeme
      split
      · exact hpassage.bind (hstep _ a) ih
      · exact hpassage.pure a

theorem repeatWhile {select : Lexeme → Option ω} {step : ω → α → Rule α}
    (hstep : ∀ choice a, Leads R (step choice a)) (a : α) :
    Leads R (Rule.repeatWhile select step a) :=
  fun reader => hpassage.repeatWithin hstep reader.ahead a reader

private theorem attemptWhile (hrule : Leads R rule) (more : Lexeme → Bool) :
    Leads R (Rule.attemptWhile more rule) := by
  have hattempt : Leads R (Rule.attempt rule) := hrule
  exact hpassage.bind_pure (hpassage.repeatWhile (fun _ _ => hpassage.bind_pure hattempt _) _) _

/-! ## Expressions and conditions -/

private theorem layer (level : Precedence) {operand : Rule Expr} (hoperand : Leads R operand) :
    Leads R (Rule.layer level operand) :=
  hpassage.bind hoperand fun first => hpassage.repeatWhile (fun _ _ =>
    hpassage.bind hpassage.advance_rule fun _ => hpassage.bind_pure hoperand _) first

/-- The relation lies around a layer if it lies around what stands from a parenthesis on. -/
private theorem exprAt_of_nested {room : Nat}
    (hnested : Leads R (do let opening ← Rule.advance; Rule.nestedWithin room opening))
    (level : Option Precedence) : Leads R (Rule.exprAt room level) := by
  induction level using Precedence.induction with
  | operand =>
      intro reader
      rw [Rule.exprAt, Rule.operand_apply]
      split
      · exact hpassage.advance reader
      · exact hpassage.advance reader
      · exact hnested reader
      · exact hpassage.complain reader _
  | layer level ih =>
      rw [Rule.exprAt_some]
      exact hpassage.layer _ ih

theorem exprAt (room : Nat) (level : Option Precedence) : Leads R (Rule.exprAt room level) := by
  induction room generalizing level with
  | zero =>
      refine hpassage.exprAt_of_nested (fun reader => ?_) level
      show R reader ((do let opening ← Rule.advance; Rule.tooDeep opening : Rule Expr) reader).2
      rw [Rule.advance_tooDeep_apply]
      exact hpassage.refuseParen reader
  | succ room ih =>
      have hinner : Leads R (Rule.expressionWithin room) := Rule.expressionWithin_eq room ▸ ih _
      have hbody : Leads R (Rule.insideParens room) :=
        hpassage.bind hinner fun _ => hpassage.bind_pure (hpassage.expect _ _) _
      have hnested : ∀ opening, Leads R (Rule.nestedWithin (room + 1) opening) :=
        fun _ => hpassage.inside_rule hbody _
      exact hpassage.exprAt_of_nested (hpassage.bind hpassage.advance_rule hnested) level

theorem expressionWithin (room : Nat) : Leads R (Rule.expressionWithin room) :=
  Rule.expressionWithin_eq room ▸ hpassage.exprAt room _

theorem expression : Leads R Rule.expression :=
  fun reader => hpassage.expressionWithin (reader.limit - reader.depth) reader

theorem relation : Leads R Rule.relation := by
  intro reader
  rw [Rule.relation_apply]
  split
  · exact hpassage.advance reader
  · exact hpassage.complain reader _

theorem comparison : Leads R Rule.comparison :=
  hpassage.bind hpassage.expression fun _ => hpassage.bind hpassage.relation fun _ =>
    hpassage.bind_pure hpassage.expression _

theorem conditions : Leads R Rule.conditions :=
  hpassage.bind hpassage.comparison fun _ => hpassage.repeatWhile (fun _ _ =>
    hpassage.bind hpassage.advance_rule fun _ => hpassage.bind_pure hpassage.comparison _) _

/-! ## Declarations and assignments -/

theorem declaredName (names : List String) : Leads R (Rule.declaredName names) := by
  intro reader
  rw [Rule.declaredName_apply]
  split
  · split
    · exact hpassage.refuseName reader _
    · exact hpassage.advance reader
  · exact hpassage.complain reader _

theorem declaredNames : Leads R Rule.declaredNames :=
  hpassage.bind (hpassage.declaredName []) fun _ => hpassage.repeatWhile (fun _ names =>
    hpassage.bind hpassage.advance_rule fun _ => hpassage.declaredName names) _

theorem initialValue : Leads R Rule.initialValue := by
  refine hpassage.bind (hpassage.skip _) fun there => ?_
  cases there with
  | true => exact hpassage.bind_pure hpassage.expression _
  | false => exact hpassage.pure none

theorem declaration : Leads R Rule.declaration :=
  hpassage.bind hpassage.advance_rule fun _ => hpassage.inside_rule
    (hpassage.bind hpassage.declaredNames fun _ => hpassage.bind hpassage.initialValue fun _ =>
      hpassage.bind_pure (hpassage.expect _ _) _) _

theorem assignOp : Leads R Rule.assignOp := by
  intro reader
  rw [Rule.assignOp_apply]
  split
  · exact hpassage.advance reader
  · exact hpassage.complain reader _

theorem assignment (target : String) : Leads R (Rule.assignment target) :=
  hpassage.bind hpassage.advance_rule fun _ => hpassage.inside_rule
    (hpassage.bind hpassage.assignOp fun _ => hpassage.bind hpassage.expression fun _ =>
      hpassage.bind_pure (hpassage.expect _ _) _) _

/-! ## Blocks -/

theorem bodyItem : Leads R Rule.bodyItem := by
  intro reader
  rw [Rule.bodyItem_apply]
  split
  · exact hpassage.recoveringBy (hpassage.assignment _) (hpassage.recover · .insideBlock) reader
  · split
    · exact hpassage.trans (hpassage.complain reader _) (hpassage.skipChain _)
    · exact hpassage.trans (hpassage.complain reader _) (hpassage.recover _ _)

theorem body : Leads R Rule.body :=
  hpassage.bind (hpassage.attemptWhile hpassage.bodyItem _) fun _ =>
    hpassage.bind (hpassage.expect _ _) fun _ => hpassage.ofOption _

theorem blockStart : Leads R Rule.blockStart :=
  hpassage.bind (hpassage.expect _ _) fun _ => hpassage.bind_pure (hpassage.expect _ _) _

theorem guard : Leads R Rule.guard :=
  hpassage.bind hpassage.conditions fun _ => hpassage.bind_pure hpassage.blockStart _

theorem blockRest {header : Rule β} (hheader : Leads R header)
    (make : β → List Assignment → α) : Leads R (Rule.blockRest header make) :=
  hpassage.bind (hpassage.recoveringBy hheader (hpassage.recover · .block)) fun _ =>
    hpassage.bind_pure hpassage.body _

private theorem block (construct : Construct) {header : Rule β} (hheader : Leads R header)
    (make : Token → β → List Assignment → α) : Leads R (Rule.block construct header make) :=
  hpassage.bind hpassage.advance_rule fun word =>
    hpassage.inside_rule (hpassage.blockRest hheader (make word)) _

theorem guarded (construct : Construct) : Leads R (Rule.guarded construct) :=
  hpassage.block construct hpassage.guard _

theorem otherwise : Leads R Rule.otherwise := hpassage.block .elseBlock hpassage.blockStart _

theorem otherwiseAll : Leads R Rule.otherwiseAll := by
  intro reader
  rw [Rule.otherwiseAll_apply]
  split
  · exact hpassage.otherwise reader
  · exact hpassage.refl reader

theorem attemptAll (hrule : Leads R rule) (more : Lexeme → Bool) :
    Leads R (Rule.attemptAll more rule) :=
  hpassage.bind (hpassage.attemptWhile hrule more) fun _ => hpassage.ofOption _

theorem conditional : Leads R Rule.conditional := by
  intro reader
  have helifs := hpassage.attemptAll (hpassage.guarded .elifBlock) Rule.elifFollows
  rw [Rule.snd_conditional]
  exact hpassage.trans (hpassage.guarded .ifBlock reader)
    (hpassage.trans (helifs _) (hpassage.otherwiseAll _))

theorem loop : Leads R Rule.loop := hpassage.guarded .loopBlock

/-! ## Statements -/

theorem simpleStatement : Leads R Rule.simpleStatement := by
  intro reader
  rw [Rule.simpleStatement_apply]
  split
  · exact hpassage.declaration reader
  · exact hpassage.assignment _ reader
  · exact hpassage.complain reader _

theorem statement : Leads R Rule.statement := by
  intro reader
  rw [Rule.statement_apply]
  split
  · exact hpassage.conditional reader
  · exact hpassage.loop reader
  · split
    · exact hpassage.trans (hpassage.complain reader _) (hpassage.skipChain _)
    · exact hpassage.recoveringBy hpassage.simpleStatement (hpassage.recover · .statement) reader

theorem keptStatement : Leads R Rule.keptStatement :=
  hpassage.bind hpassage.statement fun s =>
    hpassage.bind_pure (fun reader => hpassage.kept reader s) _

theorem program : Leads R Rule.program :=
  hpassage.bind_pure (hpassage.attemptWhile hpassage.keptStatement _) _

end

end Passage

end LoopLang
