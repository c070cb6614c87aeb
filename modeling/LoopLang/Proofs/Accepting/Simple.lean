import LoopLang.Proofs.Accepting.Expressions
import LoopLang.Proofs.Reading.Simple

/-!
# Accepting declarations and assignments

A declaration that the grammar derives is accepted if its names are distinct, and an assignment is
accepted always.  Both end in a semicolon, so nothing behind them matters.
-/

namespace LoopLang

open Grammar

namespace Rule

variable {room : Nat} {reader : Reader} {tokens rest : List Token}

/-! ## Names -/

private theorem accepts_declaredName {names : List String} {token : Token} {name : String}
    (hproper : reader.Proper) (hahead : reader.ahead = token :: rest)
    (htoken : token.lexeme = .ident name) (hnew : name ∉ names) :
    Accepts reader [token] (names ++ [name]) (declaredName names reader) := by
  obtain ⟨hcurrent, hadvances⟩ := advances_token hproper hahead (by simp [htoken])
  refine ⟨reader.advance, ?_, hadvances⟩
  rw [declaredName_apply, hcurrent, htoken]
  exact if_neg hnew

private theorem progresses_names (room : Nat) :
    Progresses (Reader.Within 0 room) comma? namesTurn :=
  (@turns_names room True).progresses rfl

/-- The rule for names comes to its loop with what the grammar derives. -/
private theorem reaches_names {names : List String} (hnames : IsNames tokens names) :
    ∀ {reader : Reader} {rest : List Token}, names.Nodup → reader.Within 0 room →
      reader.ahead = tokens ++ rest → ∃ later, reader.Advances tokens later ∧
        declaredNames reader = repeatWhile comma? namesTurn names later := by
  induction hnames with
  | @one token name htoken =>
      intro reader rest _ hwithin hahead
      have hfirst :=
        accepts_declaredName hwithin.proper hahead htoken (List.not_mem_nil (a := name))
      obtain ⟨later, hresult, hadvances⟩ := hfirst
      refine ⟨later, hadvances, ?_⟩
      rw [declaredNames_eq, bind_apply, hresult]
      rfl
  | @more tokens names comma token name _ hcomma htoken ih =>
      intro reader rest hnodup hwithin hahead
      have hsplit : reader.ahead = tokens ++ comma :: (token :: rest) := by simpa using hahead
      obtain ⟨hbefore, hnew⟩ : names.Nodup ∧ name ∉ names := by
        rw [List.nodup_append] at hnodup
        exact ⟨hnodup.1, fun hmem => hnodup.2.2 name hmem name (by simp) rfl⟩
      obtain ⟨middle, hfirst, hresult⟩ := ih hbefore hwithin hsplit
      have hmiddle := hwithin.advances hfirst
      have hahead := hfirst.ahead_later hsplit
      -- One more turn of the loop reads the comma and the name behind it, which is a new one.
      have hturn : Accepts middle [comma, token] (names ++ [name]) (namesTurn () names middle) := by
        refine (accepts_advance hmiddle.proper hahead (by simp [hcomma])).bind
          fun later hsecond => ?_
        exact accepts_declaredName (hmiddle.advances hsecond).proper (hsecond.ahead_later hahead)
          htoken hnew
      obtain ⟨later, hstep, hmore⟩ := hturn
      refine ⟨later, hfirst.trans hmore, ?_⟩
      rw [hresult]
      apply repeatWhile_of_step_eq (progresses_names room) hmiddle ?_ hstep
      rw [middle.current_of_ahead_eq_cons hahead, comma?, if_pos hcomma]

private theorem accepts_declaredNames {names : List String} (hnames : IsNames tokens names)
    (hnodup : names.Nodup) (hwithin : reader.Within 0 room) (hahead : reader.ahead = tokens ++ rest)
    (hnext : (rest.headD reader.endToken).lexeme ≠ .mark .comma) :
    Accepts reader tokens names (declaredNames reader) := by
  obtain ⟨later, hadvances, hresult⟩ := reaches_names hnames hnodup hwithin hahead
  refine ⟨later, ?_, hadvances⟩
  rw [hresult]
  apply repeatWhile_of_select_eq_none (progresses_names room) (hwithin.advances hadvances)
  rw [hadvances.current_later hahead, comma?, if_neg hnext]

/-! ## Declarations -/

private theorem accepts_initialValue {initial : Option Expr}
    (hinitial : IsOptional (IsInitial room) tokens initial) (hwithin : reader.Within 0 room)
    (hahead : reader.ahead = tokens ++ rest)
    (hnext : (rest.headD reader.endToken).lexeme = .mark .semicolon) :
    Accepts reader tokens initial (initialValue reader) := by
  rw [initialValue_apply]
  cases hinitial with
  | none =>
      have hcurrent : reader.current = rest.headD reader.endToken := by
        rw [Reader.current, hahead, List.nil_append]
      rw [hcurrent, hnext, if_neg (by simp)]
      exact ⟨reader, rfl, .refl hwithin.reported_eq⟩
  | some hinitial =>
      obtain @⟨sign, tokens, e, hsign, hexpr⟩ := hinitial
      have hcurrent : reader.current = sign := reader.current_of_ahead_eq_cons hahead
      rw [hcurrent, if_pos hsign]
      have hadvance := accepts_advance hwithin.proper hahead (by simp [hsign])
      refine hadvance.bind fun later hfirst => ?_
      have hlater := hwithin.advances hfirst
      have hend : later.endToken = reader.endToken := hfirst.steps.frame.endToken_eq
      have hvalue := accepts_expression hexpr hlater (hfirst.ahead_later hahead)
        (by simp only [hend, hnext]; simp)
      exact hvalue.bind_pure some

theorem accepts_declaration {d : Declaration} (hdeclaration : IsDeclaration room tokens d)
    (hnodup : d.names.Nodup) (hready : reader.Ready room) (hahead : reader.ahead = tokens ++ rest) :
    Accepts reader tokens d (declaration reader) := by
  obtain @⟨word, semicolon, front, back, names, initial, hword, hnames, hinitial, hsemicolon⟩ :=
    hdeclaration
  have hcons : reader.ahead = word :: (front ++ (back ++ (semicolon :: rest))) := by
    simpa using hahead
  have hopens : Construct.declaration.OpenedBy word.lexeme := hword
  obtain ⟨hwithin, hsplit⟩ := within_advanceInto hready hcons hopens (by simp)
  -- What follows the names is neither a comma nor, if there is no initial value, an equals sign.
  have hnext : ((back ++ (semicolon :: rest)).headD
      (reader.advanceInto .declaration).endToken).lexeme ≠ .mark .comma := by
    cases hinitial with
    | none => simp [hsemicolon]
    | some hinitial =>
        obtain @⟨sign, tokens, e, hsign, -⟩ := hinitial
        simp [hsign]
  refine accepts_inside .declaration
    (fun word => do
      let names ← declaredNames
      let initial ← initialValue
      let _ ← expect (.mark .semicolon) .semicolonAfterDeclaration
      return ({ names, initial, location := word.location } : Declaration))
    hready.proper hcons hopens (by simp) ?_
  refine (accepts_declaredNames hnames hnodup hwithin hsplit hnext).bind fun middle hfirst => ?_
  have hmiddle := hwithin.advances hfirst
  have hahead := hfirst.ahead_later hsplit
  refine (accepts_initialValue hinitial hmiddle hahead hsemicolon).bind fun later hsecond => ?_
  have hlater := hmiddle.advances hsecond
  have hexpect := accepts_expect .semicolonAfterDeclaration hlater.proper
    (hsecond.ahead_later hahead) hsemicolon (by simp)
  exact hexpect.bind_pure fun _ => Declaration.mk names initial word.location

/-! ## Assignments -/

private theorem accepts_assignOp {op : AssignOp} {sign : Token} (hproper : reader.Proper)
    (hahead : reader.ahead = sign :: rest) (hsign : sign.lexeme = .assign op) :
    Accepts reader [sign] op (assignOp reader) := by
  obtain ⟨hcurrent, hadvances⟩ := advances_token hproper hahead (by simp [hsign])
  refine ⟨reader.advance, ?_, hadvances⟩
  rw [assignOp_apply, hcurrent, hsign]

theorem accepts_assignment {a : Assignment} (hassignment : IsAssignment room tokens a)
    (hready : reader.Ready room) (hahead : reader.ahead = tokens ++ rest) :
    Accepts reader tokens a (assignment a.target reader) := by
  obtain @⟨token, sign, semicolon, value, target, op, e, htoken, hsign, hvalue, hsemicolon⟩ :=
    hassignment
  have hcons : reader.ahead = token :: (sign :: (value ++ (semicolon :: rest))) := by
    simpa using hahead
  have hopens : Construct.assignment.OpenedBy token.lexeme := ⟨target, htoken⟩
  obtain ⟨hwithin, hsplit⟩ := within_advanceInto hready hcons hopens (by simp)
  refine accepts_inside .assignment
    (fun name => do
      let op ← assignOp
      let value ← expression
      let _ ← expect (.mark .semicolon) .semicolonAfterAssignment
      return ({ target, op, value, location := name.location } : Assignment))
    hready.proper hcons hopens (by simp) ?_
  refine (accepts_assignOp hwithin.proper hsplit hsign).bind fun middle hfirst => ?_
  have hmiddle := hwithin.advances hfirst
  have hahead := hfirst.ahead_later hsplit
  refine (accepts_expression hvalue hmiddle hahead (by simp [hsemicolon])).bind
    fun later hsecond => ?_
  have hlater := hmiddle.advances hsecond
  have hexpect := accepts_expect .semicolonAfterAssignment hlater.proper
    (hsecond.ahead_later hahead) hsemicolon (by simp)
  exact hexpect.bind_pure fun _ => Assignment.mk target op e token.location

end Rule

end LoopLang
