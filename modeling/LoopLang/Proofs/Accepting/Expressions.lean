import LoopLang.Proofs.Reading.Expressions

/-!
# Accepting expressions and conditions

What the grammar derives, a rule accepts, and it yields the tree that the derivation denotes
(`Rule.accepts_exprAt`, `Rule.accepts_conditions`), provided that the token behind the sentence does
not continue it.  A chain of operators is a left recursion in the grammar and a loop in the rule, so
the induction on a derivation says that the rule reaches its loop with the tree so far; where no
operator of the level follows, the loop is over.
-/

namespace LoopLang

open Grammar

/-! ## What continues an expression -/

private theorem Precedence.rank_lt_of_tighter_eq {level tight : Precedence}
    (htighter : level.tighter = some tight) : level.rank < tight.rank := by
  cases level <;> simp only [tighter, Option.some.injEq, reduceCtorEq] at htighter <;>
    subst htighter <;> decide

/-- Whether a lexeme behind an expression of a level continues it: it is an operator of the level
or of a tighter one. -/
def Lexeme.Continues (level : Option Precedence) (lexeme : Lexeme) : Prop :=
  ∃ op : ArithOp, lexeme = .arith op ∧ ∃ loosest, level = some loosest ∧ loosest ≤ op.precedence

namespace Lexeme

private theorem arithAt?_eq_none_of_not_continues {level : Precedence} {lexeme : Lexeme}
    (hstops : ¬ lexeme.Continues (some level)) : lexeme.arithAt? level = none := by
  rw [Option.eq_none_iff_forall_not_mem]
  intro op hop
  obtain ⟨hlexeme, hlevel⟩ := Rule.arithAt?_eq_some_iff.mp hop
  exact hstops ⟨op, hlexeme, level, rfl, by rw [hlevel]; exact le_refl level.rank⟩

private theorem not_continues_tighter {level : Precedence} {lexeme : Lexeme}
    (hstops : ¬ lexeme.Continues (some level)) : ¬ lexeme.Continues level.tighter := by
  rintro ⟨op, hlexeme, loosest, htighter, hle⟩
  have hlt : level.rank < loosest.rank := Precedence.rank_lt_of_tighter_eq htighter
  exact hstops ⟨op, hlexeme, level, rfl, hlt.le.trans hle⟩

/-- An operator of a level does not continue what is tighter. -/
private theorem not_continues_tighter_of_precedence {level : Precedence} {op : ArithOp}
    (hlevel : op.precedence = level) : ¬ (Lexeme.arith op).Continues level.tighter := by
  rintro ⟨other, hlexeme, loosest, htighter, hle⟩
  obtain rfl : op = other := by simpa using hlexeme
  have hlt : level.rank < loosest.rank := Precedence.rank_lt_of_tighter_eq htighter
  have hrank : loosest.rank ≤ op.precedence.rank := hle
  rw [hlevel] at hrank
  omega

private theorem not_continues_of_ne_arith {level : Option Precedence} {lexeme : Lexeme}
    (hlexeme : ∀ op, lexeme ≠ .arith op) : ¬ lexeme.Continues level := by
  rintro ⟨op, h, -⟩
  exact hlexeme op h

end Lexeme

namespace Reader

variable {reader later : Reader} {tokens rest : List Token}

theorem Advances.ahead_later (hadvances : Advances tokens reader later)
    (hahead : reader.ahead = tokens ++ rest) : later.ahead = rest :=
  List.append_cancel_left (hadvances.ahead_eq.symm.trans hahead)

theorem Advances.current_later (hadvances : Advances tokens reader later)
    (hahead : reader.ahead = tokens ++ rest) : later.current = rest.headD reader.endToken := by
  rw [current, hadvances.ahead_later hahead, hadvances.steps.frame.endToken_eq]

end Reader

namespace Rule

variable {α β : Type} {depth room : Nat} {reader later last : Reader}
  {tokens front back rest : List Token}

/-! ## Acceptance -/

/-- A rule passes some tokens, reports nothing, and yields a value. -/
def Accepts (reader : Reader) (tokens : List Token) (a : α) (result : Option α × Reader) : Prop :=
  ∃ later, result = (some a, later) ∧ reader.Advances tokens later

theorem Accepts.bind {rule : Rule α} {next : α → Rule β} {a : α} {b : β}
    (hrule : Accepts reader front a (rule reader))
    (hnext : ∀ later, reader.Advances front later → Accepts later back b (next a later)) :
    Accepts reader (front ++ back) b ((rule >>= next) reader) := by
  obtain ⟨later, hresult, hadvances⟩ := hrule
  obtain ⟨last, hlast, hmore⟩ := hnext later hadvances
  refine ⟨last, ?_, hadvances.trans hmore⟩
  rw [bind_apply, hresult]
  exact hlast

theorem Accepts.bind_pure {rule : Rule α} {a : α} (hrule : Accepts reader tokens a (rule reader))
    (f : α → β) : Accepts reader tokens (f a) ((do let a ← rule; return f a : Rule β) reader) := by
  obtain ⟨later, hresult, hadvances⟩ := hrule
  refine ⟨later, ?_, hadvances⟩
  rw [bind_apply, hresult]
  rfl

theorem advances_token {token : Token} (hproper : reader.Proper)
    (hahead : reader.ahead = token :: rest) (hknown : ∀ found, token.lexeme ≠ .unknown found) :
    reader.current = token ∧ Reader.Advances [token] reader reader.advance := by
  have hcurrent : reader.current = token := reader.current_of_ahead_eq_cons hahead
  have hne := hproper.ne_endOfInput token (by simp [hahead])
  refine ⟨hcurrent, ?_⟩
  rw [← hcurrent] at hknown hne ⊢
  exact .advance hproper hne hknown

theorem accepts_advance {token : Token} (hproper : reader.Proper)
    (hahead : reader.ahead = token :: rest) (hknown : ∀ found, token.lexeme ≠ .unknown found) :
    Accepts reader [token] token (advance reader) := by
  obtain ⟨hcurrent, hadvances⟩ := advances_token hproper hahead hknown
  exact ⟨reader.advance, by rw [advance, hcurrent], hadvances⟩

theorem accepts_expect {lexeme : Lexeme} {token : Token} (wanted : Wanted)
    (hproper : reader.Proper) (hahead : reader.ahead = token :: rest)
    (htoken : token.lexeme = lexeme) (hknown : ∀ found, lexeme ≠ .unknown found) :
    Accepts reader [token] token (expect lexeme wanted reader) := by
  have hcurrent : reader.current = token := reader.current_of_ahead_eq_cons hahead
  rw [expect_apply, hcurrent, if_pos htoken]
  exact accepts_advance hproper hahead (htoken ▸ hknown)

/-- A rule inside a construct, right behind the token that opens the construct. -/
theorem accepts_inside {a : α} {token : Token} (construct : Construct) (body : Token → Rule α)
    (hproper : reader.Proper) (hahead : reader.ahead = token :: rest)
    (hopens : construct.OpenedBy token.lexeme)
    (hdepth : construct = .parenthesized → reader.depth < reader.limit)
    (hbody : Accepts (reader.advanceInto construct) tokens a
      (body token (reader.advanceInto construct))) :
    Accepts reader (token :: tokens) a
      ((do let word ← advance; inside ⟨construct, word.location⟩ (body word) : Rule α) reader) := by
  have hcurrent : reader.current = token := reader.current_of_ahead_eq_cons hahead
  obtain ⟨later, hresult, hadvances⟩ := hbody
  have hyields : Yields True (fun passed b => passed = tokens ∧ b = a)
      (reader.advanceInto construct)
      (body reader.current (reader.advanceInto construct)) := by
    rw [hcurrent, hresult]
    exact ⟨tokens, hadvances, rfl, rfl⟩
  have hinside := (yields_inside construct body hproper (hcurrent ▸ hopens) hdepth hyields).1
  rw [advance_inside_apply, hcurrent, hresult] at hinside ⊢
  obtain ⟨passed, hpassed, front, rfl, rfl, -⟩ := hinside
  exact ⟨later.leaveFrom construct, rfl, hpassed⟩

theorem ahead_advanceInto {token : Token} (construct : Construct)
    (hahead : reader.ahead = token :: rest) : (reader.advanceInto construct).ahead = rest := by
  simp [Reader.advanceInto, hahead]

/-- A reader that enters a construct stands inside of it, behind the token that opens it. -/
theorem within_advanceInto {token : Token} {construct : Construct} (hready : reader.Ready room)
    (hahead : reader.ahead = token :: rest) (hopens : construct.OpenedBy token.lexeme)
    (hconstruct : construct ≠ .parenthesized) :
    (reader.advanceInto construct).Within 0 room ∧ (reader.advanceInto construct).ahead = rest := by
  have hcurrent : reader.current = token := reader.current_of_ahead_eq_cons hahead
  exact ⟨hready.advanceInto (by rwa [hcurrent]) hconstruct, ahead_advanceInto construct hahead⟩

/-! ## Layers -/

/-- A rule for operands accepts one; a rule for a chain of operators comes to its loop with what
it has read so far. -/
def Reaches (room : Nat) (reader : Reader) (tokens : List Token) (e : Expr) :
    Option Precedence → Prop
  | none => Accepts reader tokens e (exprAt room none reader)
  | some level => ∃ later, reader.Advances tokens later ∧
    exprAt room (some level) reader =
      repeatWhile (Lexeme.arithAt? level) (layerTurn (exprAt room level.tighter)) e later

private theorem progresses_layer (depth room : Nat) (level : Precedence) :
    Progresses (Reader.Within depth room) (Lexeme.arithAt? level)
      (layerTurn (exprAt room level.tighter)) :=
  (@turns_layer depth room True level _ (reads_exprAt room depth level.tighter)).progresses rfl

/-- Where no operator of the level follows, the loop is over. -/
theorem Reaches.accepts {level : Option Precedence} {e : Expr} (hwithin : reader.Within depth room)
    (hahead : reader.ahead = tokens ++ rest) (hreaches : Reaches room reader tokens e level)
    (hstops : ¬ (rest.headD reader.endToken).lexeme.Continues level) :
    Accepts reader tokens e (exprAt room level reader) := by
  cases level with
  | none => exact hreaches
  | some level =>
      obtain ⟨later, hadvances, hresult⟩ := hreaches
      refine ⟨later, ?_, hadvances⟩
      rw [hresult]
      apply repeatWhile_of_select_eq_none (progresses_layer depth room level)
        (hwithin.advances hadvances)
      rw [hadvances.current_later hahead]
      exact Lexeme.arithAt?_eq_none_of_not_continues hstops

/-- Wherever the tokens stand in front of one that continues no tighter chain, the rule of the layer
comes to its loop with the expression. -/
def Arrives (room : Nat) (level : Option Precedence) (tokens : List Token) (e : Expr) : Prop :=
  ∀ ⦃depth : Nat⦄ ⦃reader : Reader⦄ ⦃rest : List Token⦄, reader.Within depth room →
    reader.ahead = tokens ++ rest →
    (∀ loosest, level = some loosest →
      ¬ (rest.headD reader.endToken).lexeme.Continues loosest.tighter) →
    Reaches room reader tokens e level

/-- An operand of a layer is accepted in front of what does not continue a chain of that layer. -/
private theorem Arrives.accepts_tighter {level : Precedence} {e : Expr}
    (harrives : Arrives room level.tighter tokens e) (hwithin : reader.Within depth room)
    (hahead : reader.ahead = tokens ++ rest)
    (hstops : ¬ (rest.headD reader.endToken).lexeme.Continues level.tighter) :
    Accepts reader tokens e (exprAt room level.tighter reader) := by
  refine (harrives hwithin hahead fun loosest hloosest => ?_).accepts hwithin hahead hstops
  rw [hloosest] at hstops
  exact Lexeme.not_continues_tighter hstops

/-- A chain is accepted in front of what is no arithmetic operator. -/
private theorem Arrives.accepts_additive {e : Expr}
    (harrives : Arrives room (some .additive) tokens e) (hwithin : reader.Within depth room)
    (hahead : reader.ahead = tokens ++ rest)
    (hnext : ∀ op, (rest.headD reader.endToken).lexeme ≠ .arith op) :
    Accepts reader tokens e (expressionWithin room reader) := by
  rw [expressionWithin_eq]
  exact (harrives hwithin hahead fun _ _ => Lexeme.not_continues_of_ne_arith hnext).accepts hwithin
    hahead (Lexeme.not_continues_of_ne_arith hnext)

/-- An operand that is a single token. -/
private theorem arrives_operand {token : Token} {e : Expr}
    (hknown : ∀ found, token.lexeme ≠ .unknown found)
    (hoperand : ∀ reader : Reader, reader.current = token →
      exprAt room none reader = (some e, reader.advance)) : Arrives room none [token] e := by
  intro depth reader rest hwithin hahead _
  obtain ⟨hcurrent, hadvances⟩ := advances_token hwithin.proper hahead hknown
  exact ⟨reader.advance, hoperand reader hcurrent, hadvances⟩

private theorem Arrives.accepts_insideParens {closing : Token} {inner : List Token} {e : Expr}
    (harrives : Arrives room (some .additive) inner e) (hwithin : reader.Within depth room)
    (hahead : reader.ahead = inner ++ ([closing] ++ rest))
    (hclosing : closing.lexeme = .mark .closeParen) :
    Accepts reader (inner ++ [closing]) e (insideParens room reader) := by
  have hexpression := harrives.accepts_additive hwithin hahead (by simp [hclosing])
  refine hexpression.bind fun later hadvances => ?_
  have hlater := hwithin.advances hadvances
  have hrest := hadvances.ahead_later hahead
  have hexpect := accepts_expect .closeParen hlater.proper hrest hclosing (by simp)
  exact hexpect.bind_pure fun _ => e

private theorem Arrives.parenthesized {opening closing : Token} {inner : List Token} {e : Expr}
    (harrives : Arrives room (some .additive) inner e)
    (hopening : opening.lexeme = .mark .openParen)
    (hclosing : closing.lexeme = .mark .closeParen) :
    Arrives (room + 1) none (opening :: (inner ++ [closing])) e := by
  intro depth reader rest hwithin hahead _
  have hcons : reader.ahead = opening :: (inner ++ ([closing] ++ rest)) := by simpa using hahead
  have hcurrent : reader.current = opening := reader.current_of_ahead_eq_cons hcons
  have hparen : reader.current.lexeme = .mark .openParen := by rw [hcurrent, hopening]
  have hdepth : reader.depth < reader.limit := by
    have hlimit := hwithin.limit_eq
    rw [hwithin.depth_eq]
    omega
  have hbody := harrives.accepts_insideParens (hwithin.advanceInto_parenthesized hparen)
    (ahead_advanceInto .parenthesized hcons) hclosing
  show Accepts reader _ e (operand (nestedWithin (room + 1)) reader)
  rw [operand_apply, hparen]
  exact accepts_inside .parenthesized (fun _ => insideParens room) hwithin.proper hcons hopening
    (fun _ => hdepth) hbody

theorem Arrives.single {level : Precedence} {e : Expr}
    (harrives : Arrives room level.tighter tokens e) : Arrives room (some level) tokens e := by
  intro depth reader rest hwithin hahead hstops
  obtain ⟨later, hresult, hadvances⟩ := harrives.accepts_tighter hwithin hahead (hstops level rfl)
  refine ⟨later, hadvances, ?_⟩
  rw [exprAt_some, layer_eq, bind_apply, hresult]

/-- One more turn of the loop of a layer, in front of what does not continue the right operand. -/
private theorem Arrives.accepts_layerTurn {level : Precedence} {right : List Token} {sign : Token}
    {op : ArithOp} {f : Expr} (harrives : Arrives room level.tighter right f)
    (hsign : sign.lexeme = .arith op) (hwithin : reader.Within depth room)
    (hahead : reader.ahead = sign :: (right ++ rest))
    (hstops : ¬ (rest.headD reader.endToken).lexeme.Continues level.tighter) (e : Expr) :
    Accepts reader (sign :: right) (.binary op e f sign.location)
      (layerTurn (exprAt room level.tighter) op e reader) := by
  refine (accepts_advance hwithin.proper hahead (by simp [hsign])).bind fun later hadvances => ?_
  have hlater := hwithin.advances hadvances
  have hrest : later.ahead = right ++ rest := hadvances.ahead_later hahead
  rw [← hadvances.steps.frame.endToken_eq] at hstops
  have hoperand := harrives.accepts_tighter hlater hrest hstops
  exact hoperand.bind_pure fun right => Expr.binary op e right sign.location

private theorem Arrives.binary {level : Precedence} {left right : List Token} {sign : Token}
    {op : ArithOp} {e f : Expr} (hleft : Arrives room (some level) left e)
    (hsign : sign.lexeme = .arith op) (hlevel : op.precedence = level)
    (hright : Arrives room level.tighter right f) :
    Arrives room (some level) (left ++ sign :: right) (.binary op e f sign.location) := by
  intro depth reader rest hwithin hahead hstops
  have hsplit : reader.ahead = left ++ sign :: (right ++ rest) := by simpa using hahead
  -- The operator ends what is read for the left operand, but not the loop that reads it.
  obtain ⟨middle, hadvances, hresult⟩ := hleft hwithin hsplit (by
    rintro loosest ⟨⟩
    rw [show ((sign :: (right ++ rest)).headD reader.endToken).lexeme = .arith op from hsign]
    exact Lexeme.not_continues_tighter_of_precedence hlevel)
  have hmiddle := hwithin.advances hadvances
  have hbehind : middle.ahead = sign :: (right ++ rest) := hadvances.ahead_later hsplit
  have hend := hstops level rfl
  rw [← hadvances.steps.frame.endToken_eq] at hend
  obtain ⟨later, hstep, hmore⟩ := hright.accepts_layerTurn hsign hmiddle hbehind hend e
  refine ⟨later, hadvances.trans hmore, ?_⟩
  rw [hresult]
  apply repeatWhile_of_step_eq (progresses_layer depth room level) hmiddle ?_ hstep
  rw [middle.current_of_ahead_eq_cons hbehind]
  exact arithAt?_eq_some_iff.mpr ⟨hsign, hlevel⟩

/-- The rule of each layer comes to its loop with what the grammar derives. -/
theorem arrives_of_isExpr {level : Option Precedence} {e : Expr}
    (hexpr : IsExpr room level tokens e) : Arrives room level tokens e := by
  induction hexpr with
  | ident htoken =>
      refine arrives_operand (by simp [htoken]) fun reader hcurrent => ?_
      rw [exprAt, operand_apply, hcurrent, htoken]
  | number htoken =>
      refine arrives_operand (by simp [htoken]) fun reader hcurrent => ?_
      rw [exprAt, operand_apply, hcurrent, htoken]
  | parenthesized hopening _ hclosing ih => exact ih.parenthesized hopening hclosing
  | single _ ih => exact ih.single
  | binary _ hsign hlevel _ ihleft ihright => exact ihleft.binary hsign hlevel ihright

theorem accepts_expression {e : Expr} (hexpr : IsExpr room (some .additive) tokens e)
    (hwithin : reader.Within 0 room) (hahead : reader.ahead = tokens ++ rest)
    (hnext : ∀ op, (rest.headD reader.endToken).lexeme ≠ .arith op) :
    Accepts reader tokens e (expression reader) := by
  have hroom : reader.limit - reader.depth = room := by
    rw [hwithin.ready.limit_eq, hwithin.depth_eq, Nat.sub_zero]
  show Accepts reader tokens e (expressionWithin (reader.limit - reader.depth) reader)
  rw [hroom]
  exact (arrives_of_isExpr hexpr).accepts_additive hwithin hahead hnext

/-! ## Conditions -/

private theorem accepts_relation {op : RelOp} {sign : Token} (hproper : reader.Proper)
    (hahead : reader.ahead = sign :: rest) (hsign : sign.lexeme = .relation op) :
    Accepts reader [sign] op (relation reader) := by
  obtain ⟨hcurrent, hadvances⟩ := advances_token hproper hahead (by simp [hsign])
  refine ⟨reader.advance, ?_, hadvances⟩
  rw [relation_apply, hcurrent, hsign]

private theorem accepts_comparison {c : Comparison} (hcomparison : IsComparison room tokens c)
    (hwithin : reader.Within 0 room) (hahead : reader.ahead = tokens ++ rest)
    (hnext : ∀ op, (rest.headD reader.endToken).lexeme ≠ .arith op) :
    Accepts reader tokens c (comparison reader) := by
  obtain @⟨left, right, sign, op, e, f, hleft, hsign, hright⟩ := hcomparison
  have hsplit : reader.ahead = left ++ sign :: (right ++ rest) := by simpa using hahead
  refine (accepts_expression hleft hwithin hsplit (by simp [hsign])).bind fun middle hfirst => ?_
  have hmiddle := hwithin.advances hfirst
  have hahead := hfirst.ahead_later hsplit
  refine (accepts_relation hmiddle.proper hahead hsign).bind fun later hsecond => ?_
  have hlater := hmiddle.advances hsecond
  have hrest := hsecond.ahead_later hahead
  have hend : later.endToken = reader.endToken :=
    (hfirst.trans hsecond).steps.frame.endToken_eq
  exact (accepts_expression hright hlater hrest (hend ▸ hnext)).bind_pure
    fun right => Comparison.mk op e right e.location

private theorem progresses_conditions (room : Nat) :
    Progresses (Reader.Within 0 room) Lexeme.connective? conditionsTurn :=
  (@turns_conditions room True).progresses rfl

/-- The rule for conditions comes to its loop with what the grammar derives. -/
private theorem reaches_conditions {cs : Conditions} (hconditions : IsConditions room tokens cs) :
    ∀ {reader : Reader} {rest : List Token}, reader.Within 0 room → reader.ahead = tokens ++ rest →
      (∀ op, (rest.headD reader.endToken).lexeme ≠ .arith op) →
      ∃ later, reader.Advances tokens later ∧
        conditions reader = repeatWhile Lexeme.connective? conditionsTurn cs later := by
  induction hconditions with
  | single htokens =>
      intro reader rest hwithin hahead hnext
      obtain ⟨later, hresult, hadvances⟩ := accepts_comparison htokens hwithin hahead hnext
      refine ⟨later, hadvances, ?_⟩
      rw [conditions_eq, bind_apply, hresult]
  | @combined left right word op cs c _ hword hright ih =>
      intro reader rest hwithin hahead hnext
      have hsplit : reader.ahead = left ++ word :: (right ++ rest) := by simpa using hahead
      obtain ⟨middle, hfirst, hresult⟩ := ih hwithin hsplit (by simp [hword])
      have hmiddle := hwithin.advances hfirst
      have hahead := hfirst.ahead_later hsplit
      -- One more turn of the loop reads the connective and the comparison behind it.
      have hturn : Accepts middle (word :: right) (.combined op cs c word.location)
          (conditionsTurn op cs middle) := by
        refine (accepts_advance hmiddle.proper hahead (by simp [hword])).bind
          fun later hsecond => ?_
        have hlater := hmiddle.advances hsecond
        have hend : later.endToken = reader.endToken :=
          (hfirst.trans hsecond).steps.frame.endToken_eq
        have hcomparison := accepts_comparison hright hlater (hsecond.ahead_later hahead)
          (hend ▸ hnext)
        exact hcomparison.bind_pure fun right => Conditions.combined op cs right word.location
      obtain ⟨later, hstep, hmore⟩ := hturn
      refine ⟨later, hfirst.trans hmore, ?_⟩
      rw [hresult]
      apply repeatWhile_of_step_eq (progresses_conditions room) hmiddle ?_ hstep
      rw [middle.current_of_ahead_eq_cons hahead]
      exact connective?_eq_some_iff.mpr hword

theorem accepts_conditions {cs : Conditions} (hconditions : IsConditions room tokens cs)
    (hwithin : reader.Within 0 room) (hahead : reader.ahead = tokens ++ rest)
    (hnext : ∀ op, (rest.headD reader.endToken).lexeme ≠ .arith op)
    (hstops : ∀ op, (rest.headD reader.endToken).lexeme ≠ .connective op) :
    Accepts reader tokens cs (conditions reader) := by
  obtain ⟨later, hadvances, hresult⟩ := reaches_conditions hconditions hwithin hahead hnext
  refine ⟨later, ?_, hadvances⟩
  rw [hresult]
  apply repeatWhile_of_select_eq_none (progresses_conditions room) (hwithin.advances hadvances)
  rw [hadvances.current_later hahead, Option.eq_none_iff_forall_not_mem]
  exact fun op hop => hstops op (connective?_eq_some_iff.mp hop)

end Rule

end LoopLang
