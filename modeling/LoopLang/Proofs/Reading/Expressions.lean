import LoopLang.Proofs.Grammar.Derivation
import LoopLang.Proofs.Reading.Constructs
import LoopLang.Proofs.Reading.Loops

/-!
# Reading expressions and conditions

The rules for expressions and conditions read the sentences of the grammar: `exprAt` is the rule of
one layer, and the number of levels of parentheses it has room for is that of the grammar
(`reads_exprAt`).  A parenthesis is the only token that is refused after it was passed; it is
refused exactly where no room is left.
-/

namespace LoopLang

open Grammar

/-! ## Every layer has a sentence -/

theorem Grammar.isExpr_ident {room : Nat} {token : Token} {name : String}
    (htoken : token.lexeme = .ident name) (level : Option Precedence) :
    IsExpr room level [token] (.ident name token.location) := by
  induction level using Precedence.induction with
  | operand => exact .ident htoken
  | layer level ih => exact .single ih

/-- A token for places where a name is wanted. -/
def someName : Token := ⟨.ident "x", 0, .first⟩

theorem lexical_someName : someName.lexeme.Lexical := by
  exact ⟨by decide, List.all_eq_true.mp (by decide), by decide⟩

theorem viable_isExpr (room : Nat) (level : Option Precedence) : Viable (IsExpr room level) [] :=
  ⟨[someName], _, by simpa using lexical_someName, isExpr_ident rfl level⟩

namespace Rule

variable {depth room : Nat} {single : Prop} {reader : Reader}

/-! ## Operands -/

/-- What is read behind an opening parenthesis where there is room for so many. -/
def nestedWithin : Nat → Token → Rule Expr
  | 0 => tooDeep
  | room + 1 => parenthesized (expressionWithin room)

/-- The rule of one layer. -/
def exprAt (room : Nat) : Option Precedence → Rule Expr
  | none => operand (nestedWithin room)
  | some .power => layer .power (operand (nestedWithin room))
  | some .multiplicative => layer .multiplicative (layer .power (operand (nestedWithin room)))
  | some .additive => layers (nestedWithin room)

theorem exprAt_some (room : Nat) (level : Precedence) :
    exprAt room (some level) = layer level (exprAt room level.tighter) := by
  cases level <;> rfl

theorem expressionWithin_eq (room : Nat) :
    expressionWithin room = exprAt room (some .additive) := by
  cases room <;> rfl

theorem operand_apply (nested : Token → Rule Expr) (reader : Reader) :
    operand nested reader =
      match reader.current.lexeme with
      | .ident name => (some (.ident name reader.current.location), reader.advance)
      | .number digits => (some (.number digits reader.current.location), reader.advance)
      | .mark .openParen => (do let opening ← advance; nested opening) reader
      | _ => fail .expression reader := by
  unfold operand
  rw [bind_apply]
  rcases hcurrent : reader.current with ⟨lexeme, offset, location⟩
  simp only [current, hcurrent]
  split <;> simp_all [bind_apply, advance]

theorem advance_tooDeep_apply (reader : Reader) :
    (do let opening ← advance; tooDeep opening : Rule Expr) reader =
      (none, reader.refuseParen) := by
  simp [bind_apply, advance, tooDeep, Reader.refuseParen]

/-- No parenthesis is passed without room for it. -/
private theorem yields_tooDeep (hwithin : reader.Within depth 0)
    (hparen : reader.current.lexeme = .mark .openParen) :
    Yields single (IsExpr 0 none) reader ((do let opening ← advance; tooDeep opening) reader) := by
  have hlimit : reader.limit ≤ reader.depth := by
    rw [hwithin.limit_eq, hwithin.depth_eq]
    exact le_rfl
  rw [advance_tooDeep_apply]
  refine ⟨.single (.refuseParen hparen hwithin.reported_eq hlimit), by simp [Reader.refuseParen,
    Reader.report], [], reader.ahead, .tooDeep reader.limit, [], rfl, viable_isExpr 0 none, ?_,
    fun _ => rfl⟩
  rw [Reader.refuseParen, Reader.diagnostics_report,
    reader.diagnostics_advance_of_ne_unknown (by simp [hparen])]
  rfl

/-- What is read between parentheses, the closing one included. -/
def insideParens (room : Nat) : Rule Expr := do
  let inner ← expressionWithin room
  let _ ← expect (.mark .closeParen) .closeParen
  return inner

private theorem reads_insideParens
    (hinner : Reads single depth room (IsExpr room (some .additive)) (expressionWithin room)) :
    Reads single depth room
      (Follows (IsExpr room (some .additive)) fun e =>
        Made (IsToken (.mark .closeParen)) fun _ => e)
      (insideParens room) :=
  hinner.bind (fun e => (reads_expect (by simp) (by simp) _).bind_pure fun _ => e)
    fun _ _ _ => (viable_isToken (by simp)).made _

private theorem yields_parenthesized
    (hinner : Reads single (depth + 1) room (IsExpr room (some .additive)) (expressionWithin room))
    (hwithin : reader.Within depth (room + 1))
    (hparen : reader.current.lexeme = .mark .openParen) :
    Yields single (IsExpr (room + 1) none) reader
      ((do let opening ← advance; parenthesized (expressionWithin room) opening) reader) := by
  have hdepth : reader.depth < reader.limit := by
    have hlimit := hwithin.limit_eq
    rw [hwithin.depth_eq]
    omega
  have hbody := reads_insideParens hinner _ (hwithin.advanceInto_parenthesized hparen)
  refine yields_mono
    (yields_inside .parenthesized _ hwithin.proper hparen (fun _ => hdepth) hbody).1 ?_
  rintro tokens e ⟨rest, rfl, inner, back, f, rfl, hf, closing, ⟨rfl, hclosing⟩, rfl⟩
  exact IsExpr.parenthesized hparen hf hclosing

/-! ## Layers -/

theorem arithAt?_eq_some_iff {level : Precedence} {lexeme : Lexeme} {op : ArithOp} :
    lexeme.arithAt? level = some op ↔ lexeme = .arith op ∧ op.precedence = level := by
  cases lexeme <;> simp [Lexeme.arithAt?]
  grind

/-- One turn of the loop of a layer. -/
def layerTurn (operand : Rule Expr) (op : ArithOp) (left : Expr) : Rule Expr := do
  let sign ← advance
  let right ← operand
  return .binary op left right sign.location

theorem layer_eq (level : Precedence) (operand : Rule Expr) :
    layer level operand = operand >>= repeatWhile (Lexeme.arithAt? level) (layerTurn operand) := rfl

theorem turns_layer {level : Precedence} {operand : Rule Expr}
    (hoperand : Reads single depth room (IsExpr room level.tighter) operand) :
    Turns single depth room (IsExpr room (some level)) (Lexeme.arithAt? level)
      (layerTurn operand) := by
  intro reader op left hwithin hselect
  obtain ⟨hsign, hlevel⟩ := arithAt?_eq_some_iff.mp hselect
  refine yields_mono (yields_advance_bind hwithin (by simp [hsign]) (by simp [hsign])
    (hoperand.bind_pure _)) ?_
  rintro tokens e ⟨rest, rfl, f, hf, rfl⟩
  refine ⟨by simp, fun first hfirst => ?_⟩
  exact IsExpr.binary hfirst hsign hlevel hf

/-- A layer of operands reads a layer of the grammar. -/
private theorem reads_layer {level : Precedence} {operand : Rule Expr}
    (hoperand : Reads single depth room (IsExpr room level.tighter) operand) :
    Reads single depth room (IsExpr room (some level)) (layer level operand) := by
  refine (hoperand.bind (fun e => .repeatWhile rfl (turns_layer hoperand) e)
    fun _ e _ => ⟨[], e, by simp, .nil e⟩).mono ?_
  rintro tokens e ⟨front, back, f, rfl, hf, hextends⟩
  exact hextends front (.single hf)

/-- A layer reads what it should if what stands in parentheses does. -/
private theorem reads_exprAt_of_nested
    (hnested : ∀ reader : Reader, reader.Within depth room →
      reader.current.lexeme = .mark .openParen →
      Yields single (IsExpr room none) reader
        ((do let opening ← advance; nestedWithin room opening) reader))
    (level : Option Precedence) :
    Reads single depth room (IsExpr room level) (exprAt room level) := by
  induction level using Precedence.induction with
  | operand =>
      intro reader hwithin
      rw [exprAt, operand_apply]
      split
      · rename_i name hlexeme
        exact ⟨[reader.current], .advance hwithin.proper (by simp [hlexeme]) (by simp [hlexeme]),
          .ident hlexeme⟩
      · rename_i digits hlexeme
        exact ⟨[reader.current], .advance hwithin.proper (by simp [hlexeme]) (by simp [hlexeme]),
          .number hlexeme⟩
      · rename_i hlexeme
        exact hnested reader hwithin hlexeme
      · exact yields_fail hwithin _ (viable_isExpr room none)
  | layer level ih =>
      rw [exprAt_some]
      exact reads_layer ih

/-- The rule of each layer reads the sentences of that layer. -/
theorem reads_exprAt (room depth : Nat) (level : Option Precedence) :
    Reads single depth room (IsExpr room level) (exprAt room level) := by
  induction room generalizing depth level with
  | zero => exact reads_exprAt_of_nested (fun _ hwithin => yields_tooDeep hwithin) level
  | succ room ih =>
      have hinner : Reads single (depth + 1) room (IsExpr room (some .additive))
          (expressionWithin room) := by
        rw [expressionWithin_eq]
        exact ih (depth + 1) (some .additive)
      exact reads_exprAt_of_nested (fun _ hwithin => yields_parenthesized hinner hwithin) level

theorem reads_expression : Reads single 0 room (IsExpr room (some .additive)) expression := by
  intro reader hwithin
  have hroom : reader.limit - reader.depth = room := by
    rw [hwithin.ready.limit_eq, hwithin.depth_eq, Nat.sub_zero]
  show Yields single _ reader (expressionWithin (reader.limit - reader.depth) reader)
  rw [hroom, expressionWithin_eq]
  exact reads_exprAt room 0 _ reader hwithin

/-! ## Conditions -/

/-- A token that is a relation. -/
def IsRelation (tokens : List Token) (op : RelOp) : Prop :=
  ∃ sign, tokens = [sign] ∧ sign.lexeme = .relation op

private theorem viable_isRelation : Viable IsRelation [] :=
  ⟨[⟨.relation .eq, 0, .first⟩], .eq, by simp, _, rfl, rfl⟩

theorem relation_apply (reader : Reader) :
    relation reader =
      match reader.current.lexeme with
      | .relation op => (some op, reader.advance)
      | _ => fail .comparisonOperator reader := by
  simp only [relation, bind_apply, lexeme]
  split <;> simp_all [bind_apply, advance]

private theorem reads_relation : Reads single depth room IsRelation relation := by
  intro reader hwithin
  rw [relation_apply]
  split
  · rename_i op hlexeme
    exact ⟨[reader.current], .advance hwithin.proper (by simp [hlexeme]) (by simp [hlexeme]),
      _, rfl, hlexeme⟩
  · exact yields_fail hwithin _ viable_isRelation

private theorem reads_comparison : Reads single 0 room (IsComparison room) comparison := by
  have hoperator : ∀ left : Expr, Reads single 0 room
      (Follows IsRelation fun op => Made (IsExpr room (some .additive)) fun right =>
        (⟨op, left, right, left.location⟩ : Comparison))
      (do
        let op ← relation
        let right ← expression
        return { op, left, right, location := left.location }) :=
    fun left => reads_relation.bind (fun op => reads_expression.bind_pure _)
      fun _ _ _ => (viable_isExpr room _).made _
  refine (reads_expression.bind hoperator fun _ _ _ => viable_isRelation.follows_left
    fun _ _ _ => (viable_isExpr room _).made _).mono ?_
  rintro tokens c ⟨left, rest, e, rfl, he, front, right, op, rfl, ⟨sign, rfl, hsign⟩, f, hf, rfl⟩
  exact IsComparison.mk he hsign hf

theorem connective?_eq_some_iff {lexeme : Lexeme} {op : BoolOp} :
    lexeme.connective? = some op ↔ lexeme = .connective op := by
  cases lexeme <;> simp [Lexeme.connective?]

/-- One turn of the loop of conditions. -/
def conditionsTurn (op : BoolOp) (left : Conditions) : Rule Conditions := do
  let word ← advance
  let right ← comparison
  return .combined op left right word.location

theorem conditions_eq : conditions =
    comparison >>= fun first => repeatWhile Lexeme.connective? conditionsTurn (.single first) := rfl

theorem turns_conditions :
    Turns single 0 room (IsConditions room) Lexeme.connective? conditionsTurn := by
  intro reader op left hwithin hselect
  have hword : reader.current.lexeme = .connective op := connective?_eq_some_iff.mp hselect
  refine yields_mono (yields_advance_bind hwithin (by simp [hword]) (by simp [hword])
    (reads_comparison.bind_pure _)) ?_
  rintro tokens cs ⟨rest, rfl, c, hc, rfl⟩
  refine ⟨by simp, fun first hfirst => ?_⟩
  exact IsConditions.combined hfirst hword hc

theorem reads_conditions : Reads single 0 room (IsConditions room) conditions := by
  refine (reads_comparison.bind (fun c => .repeatWhile rfl turns_conditions (.single c))
    fun _ c _ => ⟨[], .single c, by simp, .nil _⟩).mono ?_
  rintro tokens cs ⟨front, back, c, rfl, hc, hextends⟩
  exact hextends front (.single hc)

end Rule

end LoopLang
