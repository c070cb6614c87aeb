import LoopLang.Proofs.Simulation.Recovery

/-!
# Expressions in two runs

Two runs in step read the same expressions and the same conditions, up to locations, as long as they
have room for parentheses at the same time (`Simulation.keeps_exprAt`).  Where only one of them has
room, they part there.
-/

namespace LoopLang

open Rule

namespace Simulation

variable {S : Simulation} {x y : Reader}

/-! ## Expressions -/

private theorem keeps_layer {level : Precedence} {operand operand' : Rule Expr}
    (hoperand : S.Keeps (S.Same Expr.relocate) operand operand') (hframed : Framed operand)
    (hframed' : Framed operand') :
    S.Keeps (S.Same Expr.relocate) (layer level operand) (layer level operand') := by
  have hconsumes := consumes_layer level hframed
  have hconsumes' := consumes_layer level hframed'
  rw [layer_eq, layer_eq]
  refine hoperand.bind (fun first first' hfirst => ?_) (framed_repeatWhile hconsumes.framed)
    (framed_repeatWhile hconsumes'.framed)
  refine keeps_repeatWhile hconsumes hconsumes' ?_ hfirst
  intro x y hstep hahead op left left' _ hleft
  refine meets_advance_bind hstep hahead (fun sign sign' hsign => ?_)
    (fun _ => hframed.bind fun _ => framed_pure _) fun _ => hframed'.bind fun _ => framed_pure _
  refine hoperand.bind (fun right right' hright => keeps_pure ?_) (fun _ => framed_pure _)
    fun _ => framed_pure _
  rw [Same, Expr.relocate, Expr.relocate, hleft, hright, hsign]

/-- What an opening parenthesis does in two runs whose rooms belong together. -/
private theorem meets_nested {m n : Nat} (hrooms : S.Rooms m n)
    (hinner : ∀ k l, m = k + 1 → n = l + 1 →
      S.Keeps (S.Same Expr.relocate) (expressionWithin k) (expressionWithin l))
    (hstep : S.InStep x y) (hparen : x.current.lexeme = .mark .openParen) :
    S.Meets (S.Same Expr.relocate) ((do let opening ← advance; nestedWithin m opening) x)
      ((do let opening ← advance; nestedWithin n opening) y) := by
  have hahead : x.ahead ≠ [] := ahead_ne_nil hstep (by simp [hparen])
  have hinside : ∀ (room : Nat) (reader : Reader), Reader.Frame (reader.advanceInto .parenthesized)
      ((do let opening ← advance; nestedWithin (room + 1) opening) reader).2 := fun room reader =>
    (framed_insideParens room _).trans (Reader.frame_leaveFrom .parenthesized)
  have hrefused : ∀ reader : Reader, (do let opening ← advance; nestedWithin 0 opening) reader =
      (none, reader.refuseParen) := advance_tooDeep_apply
  -- Without room the parenthesis is refused; if that happens in one run only, they part.
  cases m with
  | zero =>
      rw [hrefused]
      cases n with
      | zero =>
          rw [hrefused]
          exact meets_none (S.near_refuseParen hstep hparen hrooms)
      | succ l =>
          have hparted := S.parted_refuseParen_first hstep hparen hrooms
          exact Or.inr (S.parted_frames hparted .refl (hinside l y))
  | succ k =>
      cases n with
      | zero =>
          rw [hrefused]
          have hparted := S.parted_refuseParen_second hstep hparen hrooms
          exact Or.inr (S.parted_frames hparted (hinside k x) .refl)
      | succ l =>
          have hbody : S.Keeps (S.Same Expr.relocate) (insideParens k) (insideParens l) :=
            (hinner k l rfl rfl).bind (fun _ _ hsame => (keeps_expect (by simp) _).bind
              (fun _ _ _ => keeps_pure hsame) (fun _ => framed_pure _) fun _ => framed_pure _)
              (fun _ => (framed_expect _ _).bind fun _ => framed_pure _)
              fun _ => (framed_expect _ _).bind fun _ => framed_pure _
          exact meets_inside .parenthesized hstep hahead (fun _ _ _ => hbody)
            (fun _ => framed_insideParens k) fun _ => framed_insideParens l

private theorem keeps_exprAt_of_nested {m n : Nat}
    (hnested : ∀ {x y : Reader}, S.InStep x y → x.current.lexeme = .mark .openParen →
      S.Meets (S.Same Expr.relocate) ((do let opening ← advance; nestedWithin m opening) x)
        ((do let opening ← advance; nestedWithin n opening) y))
    (level : Option Precedence) :
    S.Keeps (S.Same Expr.relocate) (exprAt m level) (exprAt n level) := by
  induction level using Precedence.induction with
  | operand =>
      intro x y hstep
      have hlexeme := S.lexeme_eq hstep
      have hlocation := S.location_eq hstep
      rw [exprAt, exprAt, operand_apply, operand_apply, ← hlexeme]
      split
      · rename_i name hname
        exact meets_advance hstep (ahead_ne_nil hstep (by simp [hname])) (by simp [Same, hlocation])
      · rename_i digits hdigits
        exact meets_advance hstep (ahead_ne_nil hstep (by simp [hdigits]))
          (by simp [Same, hlocation])
      · rename_i hparen
        exact hnested hstep hparen
      · exact keeps_fail _ hstep
  | layer level ih =>
      rw [exprAt_some, exprAt_some]
      exact keeps_layer ih (framed_exprAt m _) (framed_exprAt n _)

/-- Expressions with rooms that belong together; by induction on the rooms, which shrink
together. -/
theorem keeps_exprAt {m n : Nat} (hrooms : S.Rooms m n) (level : Option Precedence) :
    S.Keeps (S.Same Expr.relocate) (exprAt m level) (exprAt n level) := by
  induction m generalizing n level with
  | zero =>
      exact keeps_exprAt_of_nested (fun hstep hparen =>
        meets_nested hrooms (fun k _ h => by omega) hstep hparen) level
  | succ m ih =>
      refine keeps_exprAt_of_nested (fun hstep hparen =>
        meets_nested hrooms (fun k l hk hl => ?_) hstep hparen) level
      obtain rfl : m = k := by omega
      subst hl
      rw [expressionWithin_eq, expressionWithin_eq]
      exact ih (S.rooms_pred hrooms) _

theorem keeps_expression : S.Keeps (S.Same Expr.relocate) expression expression := by
  intro x y hstep
  show S.Meets _ (expressionWithin (x.limit - x.depth) x) (expressionWithin (y.limit - y.depth) y)
  rw [expressionWithin_eq, expressionWithin_eq]
  exact keeps_exprAt (S.rooms_left hstep) _ hstep

/-! ## Conditions -/

private theorem keeps_relation : S.Keeps Eq relation relation := by
  intro x y hstep
  rw [relation_apply, relation_apply, ← S.lexeme_eq hstep]
  split
  · rename_i op hop
    exact meets_advance hstep (ahead_ne_nil hstep (by simp [hop])) rfl
  · exact keeps_fail _ hstep

private theorem keeps_comparison : S.Keeps (S.Same Comparison.relocate) comparison comparison := by
  refine keeps_expression.bind (fun left left' hleft => ?_) (fun _ => by simp) fun _ => by simp
  refine keeps_relation.bind (fun op op' hop => ?_) (fun _ => by simp) fun _ => by simp
  refine keeps_expression.bind (fun right right' hright => keeps_pure ?_) (fun _ => by simp)
    fun _ => by simp
  have hlocation : (left.relocate S.first).location = (left'.relocate S.second).location :=
    congrArg Expr.location hleft
  rw [Expr.location_relocate, Expr.location_relocate] at hlocation
  rw [Same, Comparison.relocate, Comparison.relocate, hop, hleft, hright, hlocation]

theorem keeps_conditions : S.Keeps (S.Same Conditions.relocate) conditions conditions := by
  have hturn := consumes_conditions.framed
  rw [conditions_eq]
  refine keeps_comparison.bind (fun c c' hc => ?_) (fun _ => framed_repeatWhile hturn _)
    fun _ => framed_repeatWhile hturn _
  have hsingle : S.Same Conditions.relocate (.single c) (.single c') :=
    congrArg Conditions.single hc
  refine keeps_repeatWhile consumes_conditions consumes_conditions ?_ hsingle
  intro x y hstep hahead op left left' _ hleft
  refine meets_advance_bind hstep hahead (fun word word' hword => ?_) (fun _ => by simp)
    fun _ => by simp
  refine keeps_comparison.bind (fun right right' hright => keeps_pure ?_) (fun _ => by simp)
    fun _ => by simp
  rw [Same, Conditions.relocate, Conditions.relocate, hleft, hright, hword]

end Simulation

end LoopLang
