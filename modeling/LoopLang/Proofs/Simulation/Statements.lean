import LoopLang.Proofs.Simulation.Expressions

/-!
# Statements in two runs

Two runs in step read the same statements, up to locations, and recover in the same way from those
that fail, so that they keep the same program (`Simulation.program_meets`).
-/

namespace LoopLang

open Rule

namespace Simulation

variable {S : Simulation} {x y : Reader}

/-! ## Declarations and assignments -/

private theorem keeps_declaredName (names : List String) :
    S.Keeps Eq (declaredName names) (declaredName names) := by
  intro x y hstep
  rw [declaredName_apply, declaredName_apply, ← S.lexeme_eq hstep]
  split
  · rename_i name hname
    split
    · exact meets_none (Or.inl (S.inStep_refuseName hstep hname))
    · exact meets_advance hstep (ahead_ne_nil hstep (by simp [hname])) rfl
  · exact keeps_fail _ hstep

private theorem keeps_declaredNames : S.Keeps Eq declaredNames declaredNames := by
  have hturn := consumes_names.framed
  rw [declaredNames_eq]
  refine (keeps_declaredName []).bind (fun names names' hnames => ?_)
    (fun _ => framed_repeatWhile hturn _) fun _ => framed_repeatWhile hturn _
  refine keeps_repeatWhile consumes_names consumes_names ?_ hnames
  intro x y hstep hahead _ names names' _ hnames
  rw [hnames]
  exact meets_advance_bind hstep hahead (fun _ _ _ => keeps_declaredName names')
    (fun _ => framed_declaredName _) fun _ => framed_declaredName _

private theorem keeps_initialValue :
    S.Keeps (Option.Rel (S.Same Expr.relocate)) initialValue initialValue := by
  intro x y hstep
  rw [initialValue_apply, initialValue_apply, ← S.lexeme_eq hstep]
  split
  · rename_i hsign
    exact meets_advance_bind hstep (ahead_ne_nil hstep (by simp [hsign]))
      (fun _ _ _ => keeps_expression.bind (fun _ _ he => keeps_pure (.some he)) (fun _ => by simp)
        fun _ => by simp) (fun _ => by simp) fun _ => by simp
  · exact keeps_pure .none hstep

private theorem meets_declaration (hstep : S.InStep x y) (hahead : x.ahead ≠ []) :
    S.Meets (S.Same Declaration.relocate) (declaration x) (declaration y) := by
  have hend : ∀ names initial (word : Token), Framed (do
      let _ ← expect (.mark .semicolon) .semicolonAfterDeclaration
      return (⟨names, initial, word.location⟩ : Declaration)) := fun _ _ _ => by simp
  have hvalue : ∀ names (word : Token), Framed (do
      let initial ← initialValue
      let _ ← expect (.mark .semicolon) .semicolonAfterDeclaration
      return (⟨names, initial, word.location⟩ : Declaration)) := fun _ _ =>
    framed_initialValue.bind fun _ => hend _ _ _
  refine meets_inside .declaration hstep hahead (fun word word' hword => ?_)
    (fun _ => framed_declaredNames.bind fun _ => hvalue _ _)
    fun _ => framed_declaredNames.bind fun _ => hvalue _ _
  refine keeps_declaredNames.bind (fun names names' hnames => ?_) (fun _ => hvalue _ _)
    fun _ => hvalue _ _
  refine keeps_initialValue.bind (fun initial initial' hinitial => ?_) (fun _ => hend _ _ _)
    fun _ => hend _ _ _
  refine (keeps_expect (by simp) _).bind (fun _ _ _ => keeps_pure ?_) (fun _ => framed_pure _)
    fun _ => framed_pure _
  have hmap := map_eq_of_rel hinitial
  rw [Same, Declaration.relocate, Declaration.relocate, hnames, hmap, hword]

private theorem keeps_assignOp : S.Keeps Eq assignOp assignOp := by
  intro x y hstep
  rw [assignOp_apply, assignOp_apply, ← S.lexeme_eq hstep]
  split
  · rename_i op hop
    exact meets_advance hstep (ahead_ne_nil hstep (by simp [hop])) rfl
  · exact keeps_fail _ hstep

theorem meets_assignment (target : String) (hstep : S.InStep x y) (hahead : x.ahead ≠ []) :
    S.Meets (S.Same Assignment.relocate) (assignment target x) (assignment target y) := by
  have hend : ∀ op value (name : Token), Framed (do
      let _ ← expect (.mark .semicolon) .semicolonAfterAssignment
      return (⟨target, op, value, name.location⟩ : Assignment)) := fun _ _ _ => by simp
  have hvalue : ∀ op (name : Token), Framed (do
      let value ← expression
      let _ ← expect (.mark .semicolon) .semicolonAfterAssignment
      return (⟨target, op, value, name.location⟩ : Assignment)) := fun _ _ =>
    framed_expression.bind fun _ => hend _ _ _
  refine meets_inside .assignment hstep hahead (fun name name' hname => ?_)
    (fun _ => framed_assignOp.bind fun _ => hvalue _ _)
    fun _ => framed_assignOp.bind fun _ => hvalue _ _
  refine keeps_assignOp.bind (fun op op' hop => ?_) (fun _ => hvalue _ _) fun _ => hvalue _ _
  refine keeps_expression.bind (fun value value' hsame => ?_) (fun _ => hend _ _ _)
    fun _ => hend _ _ _
  refine (keeps_expect (by simp) _).bind (fun _ _ _ => keeps_pure ?_) (fun _ => framed_pure _)
    fun _ => framed_pure _
  rw [Same, Assignment.relocate, Assignment.relocate, hop, hsame, hname]

/-! ## Blocks -/

private theorem near_complain_recover (wanted : Wanted) (boundary : Boundary)
    (hstep : S.InStep x y) :
    S.Near ((x.complain wanted).recover boundary) ((y.complain wanted).recover boundary) :=
  near_recover boundary (S.inStep_complain hstep wanted)

private theorem near_complain_skipChain (wanted : Wanted) (hstep : S.InStep x y) :
    S.Near (x.complain wanted).skipChain (y.complain wanted).skipChain :=
  near_skipChain (S.inStep_complain hstep wanted)

private theorem meets_bodyItem (hstep : S.InStep x y) :
    S.Meets (S.Same Assignment.relocate) (bodyItem x) (bodyItem y) := by
  rw [bodyItem_apply, bodyItem_apply, ← S.lexeme_eq hstep]
  split
  · rename_i target hname
    exact meets_recoveringBy (meets_assignment target hstep (ahead_ne_nil hstep (by simp [hname])))
      (near_recover .insideBlock) fun _ => Reader.frame_recover _
  · split
    · exact meets_none (near_complain_skipChain _ hstep)
    · exact meets_none (near_complain_recover _ _ hstep)

private theorem keeps_body :
    S.Keeps (List.Forall₂ (S.Same Assignment.relocate)) body body := by
  have hloop : S.Keeps (List.Forall₂ (Option.Rel (S.Same Assignment.relocate)))
      (attemptWhile bodyGoesOn bodyItem) (attemptWhile bodyGoesOn bodyItem) :=
    keeps_attemptWhile passing_bodyItem fun hstep _ => meets_bodyItem hstep
  exact hloop.bind (fun _ _ hitems => (keeps_expect (by simp) _).bind
    (fun _ _ _ => keeps_ofOption (rel_mapM_id hitems)) (fun _ => by simp) fun _ => by simp)
    (fun _ => by simp) fun _ => by simp

private theorem keeps_blockStart : S.Keeps (fun _ _ => True) blockStart blockStart :=
  (keeps_expect (by simp) _).bind (fun _ _ _ => (keeps_expect (by simp) _).bind
    (fun _ _ _ => keeps_pure trivial) (fun _ => by simp) fun _ => by simp)
    (fun _ => by simp) fun _ => by simp

private theorem keeps_guard : S.Keeps (S.Same Conditions.relocate) guard guard :=
  keeps_conditions.bind (fun _ _ hsame => keeps_blockStart.bind (fun _ _ _ => keeps_pure hsame)
    (fun _ => by simp) fun _ => by simp) (fun _ => by simp) fun _ => by simp

/-- A header and a body, inside the construct that the current token opens. -/
private theorem meets_block {α β : Type} {R : β → β → Prop} {move : (Location → Location) → α → α}
    (construct : Construct) {header : Rule β} {make : Token → β → List Assignment → α}
    (hheader : S.Keeps R header header) (hframed : Framed header)
    (hmake : ∀ (t u : Token) (b c : β) (body body' : List Assignment),
      S.first t.location = S.second u.location → R b c →
      body.map (Assignment.relocate S.first) = body'.map (Assignment.relocate S.second) →
      move S.first (make t b body) = move S.second (make u c body'))
    (hstep : S.InStep x y) (hahead : x.ahead ≠ []) :
    S.Meets (S.Same move) (block construct header make x) (block construct header make y) := by
  refine meets_inside construct hstep hahead (fun t u hword => ?_)
    (fun t => framed_blockRest hframed (make t)) fun t => framed_blockRest hframed (make t)
  refine (hheader.recoveringBy (near_recover .block) fun _ => Reader.frame_recover _).bind
    (fun b c hrel => ?_) (fun _ => by simp) fun _ => by simp
  refine keeps_body.bind (fun body body' hbody => keeps_pure ?_) (fun _ => framed_pure _)
    fun _ => framed_pure _
  exact hmake t u b c body body' hword hrel (map_eq_of_forall₂ hbody)

private theorem meets_guarded (construct : Construct) (hstep : S.InStep x y)
    (hahead : x.ahead ≠ []) :
    S.Meets (S.Same Guarded.relocate) (guarded construct x) (guarded construct y) := by
  rw [guarded_eq]
  refine meets_block construct keeps_guard framed_guard ?_ hstep hahead
  intro t u b c body body' hword hconditions hbody
  rw [Guarded.relocate, Guarded.relocate, hbody, hword, hconditions]

private theorem meets_otherwise (hstep : S.InStep x y) (hahead : x.ahead ≠ []) :
    S.Meets (S.Same Otherwise.relocate) (otherwise x) (otherwise y) := by
  rw [otherwise_eq]
  refine meets_block .elseBlock keeps_blockStart framed_blockStart ?_ hstep hahead
  intro t u _ _ body body' hword _ hbody
  rw [Otherwise.relocate, Otherwise.relocate, hbody, hword]

/-! ## Chains of blocks -/

private theorem keeps_elifs : S.Keeps (List.Forall₂ (S.Same Guarded.relocate))
    (attemptAll elifFollows (guarded .elifBlock))
      (attemptAll elifFollows (guarded .elifBlock)) := by
  have hloop : S.Keeps (List.Forall₂ (Option.Rel (S.Same Guarded.relocate)))
      (attemptWhile elifFollows (guarded .elifBlock))
      (attemptWhile elifFollows (guarded .elifBlock)) := by
    refine keeps_attemptWhile passing_elif fun hstep hmore => ?_
    refine meets_guarded _ hstep (ahead_ne_nil hstep ?_)
    intro hend
    simp [elifFollows, hend] at hmore
  exact hloop.bind (fun _ _ helifs => keeps_ofOption (rel_mapM_id helifs)) (fun _ => by simp)
    fun _ => by simp

private theorem keeps_otherwiseAll : S.Keeps (Option.Rel (S.Same Otherwise.relocate)) otherwiseAll
    otherwiseAll := by
  intro x y hstep
  rw [otherwiseAll_apply, otherwiseAll_apply, ← S.lexeme_eq hstep]
  split
  · rename_i hword
    exact (meets_otherwise hstep (ahead_ne_nil hstep (by simp [hword]))).map
      fun _ _ hsame => .some hsame
  · exact Or.inl ⟨.some .none, hstep⟩

private theorem rel_chain {head head' : Option Guarded} {elifs elifs' : Option (List Guarded)}
    {last last' : Option (Option Otherwise)}
    (hhead : Option.Rel (S.Same Guarded.relocate) head head')
    (helifs : Option.Rel (List.Forall₂ (S.Same Guarded.relocate)) elifs elifs')
    (hlast : Option.Rel (Option.Rel (S.Same Otherwise.relocate)) last last') :
    Option.Rel (S.Same Conditional.relocate) (chain head elifs last)
      (chain head' elifs' last') := by
  cases hhead with
  | none => exact .none
  | some hhead =>
      cases helifs with
      | none => exact .none
      | some helifs =>
          cases hlast with
          | none => exact .none
          | some hlast =>
              have hmap := map_eq_of_forall₂ helifs
              have hrest := map_eq_of_rel hlast
              apply Option.Rel.some
              rw [Same, Conditional.relocate, Conditional.relocate, hhead, hmap, hrest]

private theorem meets_conditional (hstep : S.InStep x y) (hahead : x.ahead ≠ []) :
    S.Meets (S.Same Conditional.relocate) (conditional x) (conditional y) := by
  have hlast : ∀ head elifs, Framed (lastBlock head elifs) := fun _ _ =>
    framed_otherwiseAll.attempt.bind fun _ => framed_ofOption _
  have hfollowers : ∀ head, Framed (followers head) := fun head =>
    (framed_attemptAll (framed_guarded _) _).attempt.bind fun _ => hlast head _
  have hhead : S.Meets (Option.Rel (S.Same Guarded.relocate)) (attempt (guarded .ifBlock) x)
      (attempt (guarded .ifBlock) y) :=
    (meets_guarded .ifBlock hstep hahead).imp (fun h => ⟨.some h.1, h.2⟩) id
  rw [conditional_eq]
  refine meets_bind hhead (fun head head' _ _ _ _ hhead hlater => ?_) hfollowers hfollowers
  refine (keeps_elifs.attempt).bind (fun elifs elifs' helifs => ?_) (hlast _) (hlast _) hlater
  exact keeps_otherwiseAll.attempt.bind
    (fun last last' hlast => keeps_ofOption (rel_chain hhead helifs hlast))
    (fun _ => framed_ofOption _) fun _ => framed_ofOption _

/-! ## Statements -/

theorem keeps_simpleStatement : S.Keeps (S.Same Statement.relocate) simpleStatement
    simpleStatement := by
  intro x y hstep
  rw [simpleStatement_apply, simpleStatement_apply, ← S.lexeme_eq hstep]
  split
  · rename_i hword
    exact (meets_declaration hstep (ahead_ne_nil hstep (by simp [hword]))).map
      fun _ _ hsame => congrArg Statement.declaration hsame
  · rename_i target hname
    exact (meets_assignment target hstep (ahead_ne_nil hstep (by simp [hname]))).map
      fun _ _ hsame => congrArg Statement.assignment hsame
  · exact keeps_fail _ hstep

theorem keeps_statement : S.Keeps (S.Same Statement.relocate) statement statement := by
  intro x y hstep
  rw [statement_apply, statement_apply, ← S.lexeme_eq hstep]
  split
  · rename_i hword
    exact (meets_conditional hstep (ahead_ne_nil hstep (by simp [hword]))).map
      fun _ _ hsame => congrArg Statement.conditional hsame
  · rename_i hword
    exact (meets_guarded _ hstep (ahead_ne_nil hstep (by simp [hword]))).map
      fun _ _ hsame => congrArg Statement.loop hsame
  · split
    · exact meets_none (near_complain_skipChain _ hstep)
    · exact keeps_simpleStatement.recoveringBy (near_recover .statement)
        (fun _ => Reader.frame_recover _) hstep

private theorem keeps_keptStatement :
    S.Keeps (S.Same Statement.relocate) keptStatement keptStatement := by
  refine keeps_statement.bind (fun s s' hsame => ?_) (fun _ => by simp) fun _ => by simp
  intro x y hstep
  exact Or.inl ⟨.some hsame, S.inStep_kept hstep hsame⟩

/-! ## Programs -/

theorem keeps_program : S.Keeps (S.Same Program.relocate) Rule.program Rule.program := by
  have hloop : S.Keeps (List.Forall₂ (Option.Rel (S.Same Statement.relocate)))
      (attemptWhile programGoesOn keptStatement) (attemptWhile programGoesOn keptStatement) :=
    keeps_attemptWhile passing_keptStatement fun hstep _ => keeps_keptStatement hstep
  refine hloop.bind (fun outcomes others hrel => keeps_pure ?_) (fun _ => framed_pure _)
    fun _ => framed_pure _
  have hkept : List.Forall₂ (S.Same Statement.relocate) (outcomes.filterMap id)
      (others.filterMap id) := List.rel_filterMap (fun _ _ h => h) hrel
  exact congrArg Program.mk (map_eq_of_forall₂ hkept)

/-- Two runs that start in step keep the same program and end in step, unless they part. -/
theorem program_meets (hstep : S.InStep x y) :
    S.Same Program.relocate x.program.1 y.program.1 ∧ S.InStep x.program.2 y.program.2 ∨
      S.Parted x.program.2 y.program.2 := by
  rcases keeps_program hstep with ⟨hrel, hlast⟩ | hparted
  · left
    refine ⟨?_, hlast⟩
    show S.Same Program.relocate ((Rule.program x).1.getD ⟨[]⟩) ((Rule.program y).1.getD ⟨[]⟩)
    generalize (Rule.program x).1 = kept at hrel
    generalize (Rule.program y).1 = kept' at hrel
    cases hrel with
    | some hsame => exact hsame
    | none => rfl
  · exact Or.inr hparted

end Simulation

end LoopLang
