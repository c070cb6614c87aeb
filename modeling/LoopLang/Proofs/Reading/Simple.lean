import LoopLang.Proofs.Reading.Expressions
import LoopLang.Reader.Simple

/-!
# Reading declarations and assignments

The rules for declarations and assignments read the sentences of the grammar, and a declaration
that is read lists distinct names.  Where a name stands a second time, it is the token refused: the
names before it can be followed by a name that is not among them.
-/

namespace LoopLang

open Grammar

namespace Rule

variable {room : Nat} {single : Prop} {reader : Reader}

/-! ## Names -/

/-- One name that is not among those there are, and all names together. -/
def IsNewName (names : List String) (tokens : List Token) (all : List String) : Prop :=
  ∃ token name, tokens = [token] ∧ token.lexeme = .ident name ∧ name ∉ names ∧
    all = names ++ [name]

private theorem viable_isNewName (names : List String) : Viable (IsNewName names) [] := by
  obtain ⟨name, hname, hnew⟩ := exists_isName_not_mem names
  exact ⟨[⟨.ident name, 0, .first⟩], _, by simpa using hname, _, name, rfl, rfl, hnew, rfl⟩

theorem declaredName_apply (names : List String) (reader : Reader) :
    declaredName names reader =
      match reader.current.lexeme with
      | .ident name =>
        if name ∈ names then (none, reader.refuseName name)
        else (some (names ++ [name]), reader.advance)
      | _ => fail .variableName reader := by
  simp only [declaredName, bind_apply, lexeme]
  cases reader.current.lexeme <;> try rfl
  dsimp only
  split <;> rfl

private theorem reads_declaredName (names : List String) :
    Reads single 0 room (IsNewName names) (declaredName names) := by
  intro reader hwithin
  rw [declaredName_apply]
  split
  · rename_i name hlexeme
    split
    · refine ⟨.single (.refuseName hlexeme hwithin.reported_eq), rfl, [], reader.ahead,
        .duplicate name, [], rfl, viable_isNewName names, ?_, fun _ => rfl⟩
      rw [Reader.diagnostics_refuseName]
      rfl
    · rename_i hnew
      exact ⟨[reader.current], .advance hwithin.proper (by simp [hlexeme]) (by simp [hlexeme]),
        _, name, rfl, hlexeme, hnew, rfl⟩
  · exact yields_fail hwithin _ (viable_isNewName names)

/-- Names with commas between them, all of them different. -/
def IsDistinctNames (tokens : List Token) (names : List String) : Prop :=
  IsNames tokens names ∧ names.Nodup

/-- One turn of the loop of declared names. -/
def namesTurn (_ : Unit) (names : List String) : Rule (List String) := do
  let _ ← advance
  declaredName names

/-- Whether another name follows. -/
def comma? (lexeme : Lexeme) : Option Unit := if lexeme = .mark .comma then some () else none

theorem declaredNames_eq : declaredNames = declaredName [] >>= repeatWhile comma? namesTurn := rfl

theorem turns_names : Turns single 0 room IsDistinctNames comma? namesTurn := by
  intro reader _ names hwithin hselect
  have hcomma : reader.current.lexeme = .mark .comma := by simpa [comma?] using hselect
  refine yields_mono (yields_advance_bind hwithin (by simp [hcomma]) (by simp [hcomma])
    (reads_declaredName names)) ?_
  rintro tokens all ⟨rest, rfl, token, name, rfl, htoken, hnew, rfl⟩
  refine ⟨by simp, fun first hfirst => ⟨?_, ?_⟩⟩
  · exact IsNames.more hfirst.1 hcomma htoken
  · simpa [List.nodup_append] using ⟨hfirst.2, fun a ha hname => hnew (hname ▸ ha)⟩

private theorem reads_declaredNames : Reads single 0 room IsDistinctNames declaredNames := by
  refine ((reads_declaredName []).bind (fun names => .repeatWhile rfl turns_names names)
    fun _ names _ => ⟨[], names, by simp, .nil _⟩).mono ?_
  rintro tokens names ⟨front, back, first, rfl, ⟨token, name, rfl, htoken, -, rfl⟩, hextends⟩
  exact hextends [token] ⟨.one htoken, by simp⟩

/-! ## Declarations -/

theorem skip_apply (lexeme : Lexeme) (reader : Reader) :
    skip lexeme reader =
      if reader.current.lexeme = lexeme then (some true, reader.advance)
      else (some false, reader) := by
  simp only [skip, bind_apply, Rule.lexeme]
  split <;> simp [bind_apply, advance]

theorem initialValue_apply (reader : Reader) :
    initialValue reader =
      if reader.current.lexeme = .assign .plain then
        (do let _ ← advance; let e ← expression; return some e : Rule (Option Expr)) reader
      else (some none, reader) := by
  unfold initialValue
  rw [bind_apply, skip_apply]
  by_cases hsign : reader.current.lexeme = .assign .plain
  · rw [if_pos hsign, if_pos hsign]
    rfl
  · rw [if_neg hsign, if_neg hsign]
    rfl

private theorem reads_initialValue :
    Reads single 0 room (IsOptional (IsInitial room)) initialValue := by
  intro reader hwithin
  rw [initialValue_apply]
  split
  · rename_i hsign
    refine yields_mono (yields_advance_bind hwithin (by simp [hsign]) (by simp [hsign])
      (reads_expression.bind_pure some)) ?_
    rintro tokens initial ⟨rest, rfl, e, he, rfl⟩
    exact IsOptional.some (IsInitial.mk hsign he)
  · exact ⟨[], .refl hwithin.reported_eq, .none⟩

/-- Declarations that list distinct names. -/
def IsDistinctDeclaration (room : Nat) (tokens : List Token) (d : Declaration) : Prop :=
  IsDeclaration room tokens d ∧ d.names.Nodup

/-- What is read of a declaration behind its first word. -/
def declarationRest (word : Token) : Rule Declaration := do
  let names ← declaredNames
  let initial ← initialValue
  let _ ← expect (.mark .semicolon) .semicolonAfterDeclaration
  return { names, initial, location := word.location }

private theorem reads_declarationRest (word : Token) : Reads single 0 room
    (Follows IsDistinctNames fun names => Follows (IsOptional (IsInitial room)) fun initial =>
      Made (IsToken (.mark .semicolon)) fun _ => (⟨names, initial, word.location⟩ : Declaration))
    (declarationRest word) := by
  have hsemicolon : ∀ d : Declaration,
      Viable (Made (IsToken (.mark .semicolon)) fun _ => d) [] := fun _ =>
    (viable_isToken (by simp)).made _
  have hinitial : ∀ names : List String,
      Viable (Follows (IsOptional (IsInitial room)) fun initial =>
        Made (IsToken (.mark .semicolon)) fun _ =>
          (⟨names, initial, word.location⟩ : Declaration)) [] :=
    fun names => .follows_left ⟨[], none, by simp, .none⟩ fun _ _ _ => hsemicolon _
  refine reads_declaredNames.bind (fun names => ?_) fun _ names _ => hinitial names
  refine reads_initialValue.bind (fun initial => ?_) fun _ _ _ => hsemicolon _
  exact (reads_expect (by simp) (by simp) _).bind_pure _

theorem yields_declaration (hready : reader.Ready room)
    (hword : reader.current.lexeme = .keyword .intWord) :
    Yields single (IsDistinctDeclaration room) reader (declaration reader) ∧
      (declaration reader).2.ahead.length < reader.ahead.length := by
  have hopens : Construct.declaration.OpenedBy reader.current.lexeme := hword
  have hrest := @reads_declarationRest room single reader.current _
    (hready.advanceInto hopens (by simp))
  obtain ⟨hyields, hlt⟩ := yields_inside .declaration declarationRest hready.proper hopens (by simp)
    hrest
  refine ⟨yields_mono hyields ?_, hlt⟩
  rintro tokens d ⟨rest, rfl, front, more, names, rfl, ⟨hnames, hnodup⟩, back, last, initial, rfl,
    hinitial, semicolon, ⟨rfl, hsemicolon⟩, rfl⟩
  exact ⟨IsDeclaration.mk hword hnames hinitial hsemicolon, hnodup⟩

/-! ## Assignments -/

/-- A token that is an assignment operator. -/
def IsAssignOp (tokens : List Token) (op : AssignOp) : Prop :=
  ∃ sign, tokens = [sign] ∧ sign.lexeme = .assign op

private theorem viable_isAssignOp : Viable IsAssignOp [] :=
  ⟨[⟨.assign .plain, 0, .first⟩], .plain, by simp, _, rfl, rfl⟩

theorem assignOp_apply (reader : Reader) :
    assignOp reader =
      match reader.current.lexeme with
      | .assign op => (some op, reader.advance)
      | _ => fail .assignmentOperator reader := by
  simp only [assignOp, bind_apply, lexeme]
  split <;> simp_all [bind_apply, advance]

private theorem reads_assignOp : Reads single 0 room IsAssignOp assignOp := by
  intro reader hwithin
  rw [assignOp_apply]
  split
  · rename_i op hlexeme
    exact ⟨[reader.current], .advance hwithin.proper (by simp [hlexeme]) (by simp [hlexeme]),
      _, rfl, hlexeme⟩
  · exact yields_fail hwithin _ viable_isAssignOp

/-- What is read of an assignment behind the name. -/
def assignmentRest (target : String) (name : Token) : Rule Assignment := do
  let op ← assignOp
  let value ← expression
  let _ ← expect (.mark .semicolon) .semicolonAfterAssignment
  return { target, op, value, location := name.location }

private theorem reads_assignmentRest (target : String) (name : Token) : Reads single 0 room
    (Follows IsAssignOp fun op => Follows (IsExpr room (some .additive)) fun value =>
      Made (IsToken (.mark .semicolon)) fun _ => (⟨target, op, value, name.location⟩ : Assignment))
    (assignmentRest target name) := by
  have hsemicolon : ∀ a : Assignment,
      Viable (Made (IsToken (.mark .semicolon)) fun _ => a) [] := fun _ =>
    (viable_isToken (by simp)).made _
  refine reads_assignOp.bind (fun op => ?_) fun _ _ _ =>
    (viable_isExpr room _).follows_left fun _ _ _ => hsemicolon _
  refine reads_expression.bind (fun value => ?_) fun _ _ _ => hsemicolon _
  exact (reads_expect (by simp) (by simp) _).bind_pure _

theorem yields_assignment {target : String} (hready : reader.Ready room)
    (hname : reader.current.lexeme = .ident target) :
    Yields single (IsAssignment room) reader (assignment target reader) ∧
      (assignment target reader).2.ahead.length < reader.ahead.length := by
  have hopens : Construct.assignment.OpenedBy reader.current.lexeme := ⟨target, hname⟩
  have hrest := @reads_assignmentRest room single target reader.current _
    (hready.advanceInto hopens (by simp))
  obtain ⟨hyields, hlt⟩ := yields_inside .assignment (assignmentRest target) hready.proper hopens
    (by simp) hrest
  refine ⟨yields_mono hyields ?_, hlt⟩
  rintro tokens a ⟨rest, rfl, front, more, op, rfl, ⟨sign, rfl, hsign⟩, value, last, e, rfl, he,
    semicolon, ⟨rfl, hsemicolon⟩, rfl⟩
  exact IsAssignment.mk hname hsign he hsemicolon

end Rule

end LoopLang
