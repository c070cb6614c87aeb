import LoopLang.Proofs.Reading.Attempts
import LoopLang.Proofs.Reading.Recovery
import LoopLang.Proofs.Reading.Simple
import LoopLang.Reader.Block

/-!
# Reading blocks

The rules for blocks and their chains read the sentences of the grammar, although they go on after
a failure: what fails first is where the whole block is refused, and everything behind it is only
more steps.  Behind a block, read or refused, nothing is reported at the current token unless it is
the end of input, so that whatever follows the block can be refused by itself.
-/

namespace LoopLang

open Grammar

namespace Reader

variable {reader : Reader} {room : Nat}

@[simp] theorem current_complain (wanted : Wanted) :
    (reader.complain wanted).current = reader.current := by
  simp [current]

private theorem clean_leaveFrom_iff {construct : Construct} :
    (reader.leaveFrom construct).Clean ↔ reader.Clean := by
  simp [Clean]

theorem clean_of_reported (hreported : reader.reported = false) : reader.Clean := by
  simp [Clean, hreported]

private theorem Ready.within (hready : reader.Ready room) (henclosing : reader.enclosing ≠ [])
    (hreported : reader.reported = false) : reader.Within 0 room :=
  ⟨hready.proper, hreported, henclosing, hready.levelled, hready.depth_eq,
    by rw [hready.limit_eq, Nat.zero_add]⟩

end Reader

namespace Rule

variable {α β : Type} {room : Nat} {single : Prop} {reader : Reader} {P : List Token → α → Prop}

/-- A rule that is followed by recovery where it fails. -/
theorem yields_recoveringBy {rule : Rule α} {recovery : Reader → Reader}
    (hrule : Yields single P reader (rule reader))
    (hsteps : ∀ reader : Reader, Reader.Steps reader (recovery reader))
    (henclosing : ∀ reader : Reader, (recovery reader).enclosing = reader.enclosing) :
    Yields False P reader (rule.recoveringBy recovery reader) := by
  unfold recoveringBy
  rcases hresult : rule reader with ⟨_ | a, later⟩
  · rw [hresult] at hrule
    exact hrule.steps_later (hsteps later) (henclosing later)
  · rw [hresult] at hrule
    exact hrule

section

variable {boundary : Boundary} {wanted : Wanted}

/-- A rule that passes a token and recovers where it fails: what is reported in front of the reader
then is what the boundary stops at. -/
theorem yields_recover {rule : Rule α} (hrule : Yields single P reader (rule reader))
    (hlt : (rule reader).2.ahead.length < reader.ahead.length) :
    Yields False P reader (rule.recoveringBy (Reader.recover boundary) reader) ∧
      ((rule.recoveringBy (Reader.recover boundary) reader).2.reported = true →
        (rule.recoveringBy (Reader.recover boundary) reader).2.ahead = [] ∨
          boundary.StopsAt
            (rule.recoveringBy (Reader.recover boundary) reader).2.current.lexeme) ∧
      (rule.recoveringBy (Reader.recover boundary) reader).2.ahead.length <
        reader.ahead.length := by
  refine ⟨yields_recoveringBy hrule (fun _ => Reader.steps_recover)
    (fun _ => Reader.enclosing_recover), ?_⟩
  unfold recoveringBy
  rcases hresult : rule reader with ⟨_ | a, later⟩
  · rw [hresult] at hlt
    have hle : (later.recover boundary).ahead.length ≤ later.ahead.length :=
      Reader.steps_recover.frame.ahead_suffix.length_le
    exact ⟨Reader.stopsAt_of_reported_recover, hle.trans_lt hlt⟩
  · rw [hresult] at hrule hlt
    obtain ⟨passed, hadvances, -⟩ := hrule
    exact ⟨by simp [hadvances.reported_eq], hlt⟩

/-- Recovery behind a refusal passes the refused token, unless the boundary stops at it. -/
theorem refuses_recover (hrefuses : reader.Refuses single P (reader.complain wanted))
    (hahead : reader.ahead ≠ []) (hstops : ¬ boundary.StopsAt reader.current.lexeme) :
    reader.Refuses False P ((reader.complain wanted).recover boundary) ∧
      (((reader.complain wanted).recover boundary).reported = true →
        ((reader.complain wanted).recover boundary).ahead = [] ∨
          boundary.StopsAt ((reader.complain wanted).recover boundary).current.lexeme) ∧
      ((reader.complain wanted).recover boundary).ahead.length < reader.ahead.length := by
  rw [← reader.current_complain wanted] at hstops
  rw [← reader.ahead_complain wanted] at hahead
  refine ⟨hrefuses.steps_later Reader.steps_recover Reader.enclosing_recover,
    Reader.stopsAt_of_reported_recover, ?_⟩
  simpa using (Reader.recover_of_not_stopsAt hahead hstops).2

/-- Behind a refusal the chain of blocks that begins at the refused token is skipped. -/
theorem refuses_skipChain (hrefuses : reader.Refuses single P (reader.complain wanted))
    (hahead : reader.ahead ≠ []) :
    reader.Refuses False P (reader.complain wanted).skipChain ∧
      (reader.complain wanted).skipChain.Clean ∧
      (reader.complain wanted).skipChain.ahead.length < reader.ahead.length := by
  rw [← reader.ahead_complain wanted] at hahead
  refine ⟨hrefuses.steps_later Reader.steps_skipChain Reader.enclosing_skipChain,
    Reader.clean_skipChain, ?_⟩
  simpa using Reader.length_skipChain_lt hahead

end

private theorem exists_recovery {rule : Rule α} {recovery : Reader → Reader}
    (hnone : (rule.recoveringBy recovery reader).1 = none) :
    ∃ failed, (rule.recoveringBy recovery reader).2 = recovery failed := by
  unfold recoveringBy at hnone ⊢
  rcases hresult : rule reader with ⟨_ | a, later⟩
  · exact ⟨later, rfl⟩
  · simp [hresult] at hnone

private theorem clean_bind {rule : Rule α} {next : α → Rule β}
    (hfails : (rule reader).1 = none → (rule reader).2.Clean)
    (hnext : ∀ a later, rule reader = (some a, later) → (next a later).2.Clean) :
    ((rule >>= next) reader).2.Clean := by
  rw [bind_apply]
  rcases hresult : rule reader with ⟨_ | a, later⟩
  · rw [hresult] at hfails
    exact hfails rfl
  · exact hnext a later hresult

/-! ## Every kind of block has a sentence -/

theorem viable_isAssignment (room : Nat) : Viable (IsAssignment room) [] := by
  have hvalue : IsExpr room (some .additive) [someName] (.ident "x" .first) := isExpr_ident rfl _
  have hsign : (⟨.assign .plain, 0, .first⟩ : Token).lexeme = .assign .plain := rfl
  have hsemicolon : (⟨.mark .semicolon, 0, .first⟩ : Token).lexeme = .mark .semicolon := rfl
  have hname : someName.lexeme = .ident "x" := rfl
  exact .nil (IsAssignment.mk hname hsign hvalue hsemicolon) (by simp [lexical_someName])

/-- `assignment* "end"`, what is left of a body behind its first word. -/
def IsBodyRest (room : Nat) (tokens : List Token) (body : List Assignment) : Prop :=
  ∃ front last, tokens = front ++ [last] ∧ IsSequence (IsAssignment room) front body ∧
    last.lexeme = .keyword .endWord

private theorem viable_isBodyRest (room : Nat) : Viable (IsBodyRest room) [] :=
  ⟨[⟨.keyword .endWord, 0, .first⟩], [], by simp, [], _, rfl, .nil, rfl⟩

/-- `":" "begin"` -/
def IsBlockStart (tokens : List Token) (_ : Unit) : Prop :=
  ∃ colon first, tokens = [colon, first] ∧ colon.lexeme = .mark .colon ∧
    first.lexeme = .keyword .beginWord

private theorem viable_isBlockStart : Viable IsBlockStart [] :=
  ⟨[⟨.mark .colon, 0, .first⟩, ⟨.keyword .beginWord, 0, .first⟩], (), by simp, _, _, rfl, rfl, rfl⟩

/-- `conditions ":" "begin"` -/
def IsGuard (room : Nat) (tokens : List Token) (conditions : Conditions) : Prop :=
  ∃ front back, tokens = front ++ back ∧ IsConditions room front conditions ∧ IsBlockStart back ()

/-! ## Bodies -/

theorem bodyItem_apply (reader : Reader) :
    bodyItem reader =
      match reader.current.lexeme with
      | .ident target => (assignment target).recoveringBy (Reader.recover .insideBlock) reader
      | lexeme =>
        if lexeme.opensBlock then (none, (reader.complain .assignmentOrEnd).skipChain)
        else (none, (reader.complain .assignmentOrEnd).recover .insideBlock) := by
  simp only [bodyItem, bind_apply, lexeme]
  cases reader.current.lexeme <;> try rfl
  dsimp only
  split <;> rfl

/-- At a word that begins a block, the block is skipped with the chain behind it. -/
theorem bodyItem_of_opensBlock (hopens : reader.current.lexeme.opensBlock) :
    bodyItem reader = (none, (reader.complain .assignmentOrEnd).skipChain) := by
  rw [bodyItem_apply]
  split
  · rename_i hname
    simp [hname, Lexeme.opensBlock] at hopens
  · rw [if_pos hopens]

/-- A reader between the assignments of a body.  It can only stand at a reported token where the
body ends. -/
structure InBody (room : Nat) (reader : Reader) : Prop where
  ready : reader.Ready room
  enclosing_ne : reader.enclosing ≠ []
  reported : reader.reported = true → reader.ahead = [] ∨ reader.current.lexeme = .keyword .endWord

/-- Whether a body goes on at a lexeme. -/
def bodyGoesOn (lexeme : Lexeme) : Bool := lexeme ≠ .keyword .endWord ∧ lexeme ≠ .endOfInput

private theorem InBody.within (hbody : InBody room reader)
    (hmore : bodyGoesOn reader.current.lexeme = true) : reader.Within 0 room := by
  obtain ⟨hready, henclosing, hreported⟩ := hbody
  have hends : ¬ (reader.ahead = [] ∨ reader.current.lexeme = .keyword .endWord) := by
    rw [← hready.proper.current_lexeme_eq_endOfInput_iff]
    simp only [bodyGoesOn, decide_eq_true_eq] at hmore
    tauto
  exact hready.within henclosing (Bool.eq_false_iff.mpr fun h => hends (hreported h))

/-- An item of a body is an assignment or refused, and behind it the body goes on or ends. -/
theorem yields_bodyItem (hbody : InBody room reader)
    (hmore : bodyGoesOn reader.current.lexeme = true) :
    Yields False (IsAssignment room) reader (bodyItem reader) ∧
      ((bodyItem reader).2.reported = true → (bodyItem reader).2.ahead = [] ∨
        (bodyItem reader).2.current.lexeme = .keyword .endWord) ∧
      (bodyItem reader).2.ahead.length < reader.ahead.length := by
  have hwithin := hbody.within hmore
  simp only [bodyGoesOn, decide_eq_true_eq] at hmore
  obtain ⟨behind, hahead⟩ := hwithin.proper.ahead_eq_cons hmore.2
  have hne : reader.ahead ≠ [] := by simp [hahead]
  have hrefuses : reader.Refuses True (IsAssignment room) (reader.complain .assignmentOrEnd) :=
    .complain hwithin.reported_eq (fun h => absurd h hne) _ (viable_isAssignment room)
  have hstops : ¬ Boundary.insideBlock.StopsAt reader.current.lexeme := hmore.1
  rw [bodyItem_apply]
  split
  · rename_i target hlexeme
    obtain ⟨hassignment, hlt⟩ := @yields_assignment room True _ _ hbody.ready hlexeme
    exact yields_recover hassignment hlt
  · split
    · obtain ⟨hchain, hclean, hlt⟩ := refuses_skipChain hrefuses hne
      exact ⟨hchain, fun hreported => Or.inl (hclean hreported), hlt⟩
    · exact refuses_recover hrefuses hne hstops

theorem repeats_bodyItem : Repeats (InBody room) (IsAssignment room) bodyGoesOn bodyItem where
  stops := by
    intro reader hbody hahead
    simp [bodyGoesOn, hbody.ready.proper.current_lexeme_eq_endOfInput_iff.mpr hahead]
  passes := by
    intro reader hbody hmore
    obtain ⟨hyields, hreported, hlt⟩ := yields_bodyItem hbody hmore
    obtain ⟨hsteps, henclosing⟩ := Yields.steps hyields
    exact ⟨⟨hbody.ready.steps hsteps henclosing, henclosing ▸ hbody.enclosing_ne, hreported⟩, hlt⟩
  yields := fun hbody hmore => (yields_bodyItem hbody hmore).1

/-- A body is read to its `end`, whatever became of the assignments in it. -/
theorem exists_body {Inv : Reader → Prop} (hadvancing : Advancing Inv bodyGoesOn bodyItem)
    (hinv : Inv reader) :
    ∃ outcomes later, Attempts bodyGoesOn bodyItem reader outcomes later ∧
      body reader =
        if later.current.lexeme = .keyword .endWord then (outcomes.mapM id, later.advance)
        else (none, later.complain .endWord) := by
  obtain ⟨outcomes, later, hattempts, hresult⟩ := exists_attempts hadvancing hinv
  refine ⟨outcomes, later, hattempts, ?_⟩
  have hloop :
      attemptWhile (fun lexeme => decide (lexeme ≠ .keyword .endWord ∧ lexeme ≠ .endOfInput))
        bodyItem reader = (some outcomes, later) := hresult
  rw [body, bind_apply, hloop]
  dsimp only
  rw [bind_apply, expect_apply]
  by_cases hend : later.current.lexeme = .keyword .endWord
  · rw [if_pos hend, if_pos hend]
    rfl
  · rw [if_neg hend, if_neg hend]
    rfl

theorem body_apply (hwithin : reader.Within 0 room) :
    ∃ outcomes later, Attempts bodyGoesOn bodyItem reader outcomes later ∧
      body reader =
        if later.current.lexeme = .keyword .endWord then (outcomes.mapM id, later.advance)
        else (none, later.complain .endWord) := by
  have hbody : InBody room reader :=
    ⟨hwithin.ready, hwithin.enclosing_ne, by simp [hwithin.reported_eq]⟩
  exact exists_body repeats_bodyItem.toAdvancing hbody

private theorem viable_isBodyRest_of_isSequence {tokens : List Token}
    (hviable : Viable (IsSequence (IsAssignment room)) tokens) :
    Viable (IsBodyRest room) tokens := by
  obtain ⟨rest, as, hlexical, has⟩ := hviable
  refine ⟨rest ++ [⟨.keyword .endWord, 0, .first⟩], as, ?_, tokens ++ rest,
    ⟨.keyword .endWord, 0, .first⟩, by simp, has, rfl⟩
  simpa [or_imp, forall_and] using hlexical

/-- A body whose `end` is there. -/
private theorem yields_closedBody {outcomes : Option (List Assignment)}
    (hyields : Yields False (IsSequence (IsAssignment room)) reader (outcomes, later))
    (hproper : later.Proper) (hend : later.current.lexeme = .keyword .endWord) :
    Yields False (IsBodyRest room) reader (outcomes, later.advance) := by
  have hne : later.current.lexeme ≠ .endOfInput := by simp [hend]
  cases outcomes with
  | none =>
      have hrefuses := hyields.steps_later Reader.steps_advance (by simp)
      exact hrefuses.mono fun _ => viable_isBodyRest_of_isSequence
  | some as =>
      obtain ⟨passed, hadvances, has⟩ := hyields
      exact ⟨passed ++ [later.current], hadvances.trans (.advance hproper hne (by simp [hend])),
        passed, _, rfl, has, hend⟩

/-- A body that the end of input cuts off. -/
private theorem refuses_unclosedBody {outcomes : Option (List Assignment)}
    (hyields : Yields False (IsSequence (IsAssignment room)) reader (outcomes, later))
    (henclosing : later.enclosing ≠ []) :
    reader.Refuses False (IsBodyRest room) (later.complain .endWord) := by
  cases outcomes with
  | none =>
      have hstep : Reader.Step later (later.complain .endWord) := .complain _ fun _ => henclosing
      have hrefuses := hyields.steps_later (.single hstep) (by simp)
      exact hrefuses.mono fun _ => viable_isBodyRest_of_isSequence
  | some as =>
      obtain ⟨passed, hadvances, has⟩ := hyields
      have hrefuses : later.Refuses False (IsToken (.keyword .endWord)) (later.complain .endWord) :=
        .complain hadvances.reported_eq (fun _ => henclosing) _ (viable_isToken (by simp))
      refine hadvances.refuses hrefuses fun tokens hviable => ?_
      obtain ⟨rest, token, hlexical, htoken, hlexeme⟩ := hviable
      exact ⟨rest, as, hlexical, passed, token, by rw [List.append_assoc, htoken], has, hlexeme⟩

private theorem yields_body (hwithin : reader.Within 0 room) :
    Yields False (IsBodyRest room) reader (body reader) ∧ (body reader).2.Clean := by
  have hbody : InBody room reader :=
    ⟨hwithin.ready, hwithin.enclosing_ne, by simp [hwithin.reported_eq]⟩
  obtain ⟨outcomes, later, hattempts, hresult⟩ := body_apply hwithin
  obtain ⟨hsteps, henclosing, hlater, hmore⟩ := hattempts.steps repeats_bodyItem hbody
  have hyields := hattempts.yields repeats_bodyItem hbody hwithin.reported_eq
  have hproper := hlater.ready.proper
  rw [hresult]
  split
  · rename_i hend
    obtain ⟨behind, hahead⟩ := hproper.ahead_eq_cons (by simp [hend])
    have hreported := later.reported_advance (by simp [hahead])
    exact ⟨yields_closedBody hyields hproper hend, Reader.clean_of_reported hreported⟩
  · rename_i hend
    have hlast : later.ahead = [] := by
      rw [← hproper.current_lexeme_eq_endOfInput_iff]
      simpa [bodyGoesOn, hend] using hmore
    exact ⟨refuses_unclosedBody hyields hlater.enclosing_ne, fun _ => by simpa using hlast⟩

/-! ## Single blocks -/

theorem reads_blockStart : Reads single 0 room IsBlockStart blockStart := by
  refine ((reads_expect (by simp) (by simp) _).bind
    (fun _ => (reads_expect (by simp) (by simp) _).bind_pure _)
    fun _ _ _ => (viable_isToken (by simp)).made _).mono ?_
  rintro tokens ⟨⟩ ⟨front, back, colon, rfl, ⟨rfl, hcolon⟩, first, ⟨rfl, hfirst⟩, -⟩
  exact ⟨colon, first, rfl, hcolon, hfirst⟩

theorem reads_guard : Reads single 0 room (IsGuard room) guard := by
  refine (reads_conditions.bind (fun conditions => reads_blockStart.bind_pure fun _ => conditions)
    fun _ _ _ => viable_isBlockStart.made _).mono ?_
  rintro tokens conditions ⟨front, back, cs, rfl, hfront, ⟨⟩, hback, rfl⟩
  exact ⟨front, back, rfl, hfront, hback⟩

/-- A block was read or refused.  It has passed a token at least, and nothing is reported behind
it. -/
structure IsRead (P : List Token → α → Prop) (reader : Reader) (result : Option α × Reader) :
    Prop where
  yields : Yields False P reader result
  clean : result.2.Clean
  length_lt : result.2.ahead.length < reader.ahead.length

/-- What is read of a block behind its first word. -/
def blockRest (header : Rule β) (make : β → List Assignment → α) : Rule α := do
  let b ← header.recoveringBy (Reader.recover .block)
  let body ← body
  return make b body

/-- A block with any kind of header; the current token is the word that begins it. -/
def block (construct : Construct) (header : Rule β) (make : Token → β → List Assignment → α) :
    Rule α := do
  let word ← advance
  inside ⟨construct, word.location⟩ (blockRest header (make word))

theorem guarded_eq (construct : Construct) : guarded construct =
    block construct guard fun word conditions body => ⟨conditions, body, word.location⟩ := rfl

theorem otherwise_eq : otherwise =
    block .elseBlock blockStart fun word _ body => ⟨body, word.location⟩ := rfl

private theorem yields_blockRest {header : Rule β} {Q : List Token → β → Prop}
    (make : β → List Assignment → α) (hheader : Reads False 0 room Q header)
    (hwithin : reader.Within 0 room) :
    Yields False (Follows Q fun b => Made (IsBodyRest room) (make b)) reader
        (blockRest header make reader) ∧
      (blockRest header make reader).2.Clean := by
  have hrecovering : Yields False Q reader (header.recoveringBy (Reader.recover .block) reader) :=
    yields_recoveringBy (hheader _ hwithin) (fun _ => Reader.steps_recover)
      (fun _ => Reader.enclosing_recover)
  have hbody : ∀ (b : β) (later : Reader), later.Within 0 room →
      Yields False (Made (IsBodyRest room) (make b)) later
        ((do let body ← body; return make b body) later) := by
    intro b later hlater
    rw [map_apply]
    exact yields_map (yields_body hlater).1 fun _ body h => ⟨body, h, rfl⟩
  refine ⟨?_, clean_bind ?_ ?_⟩
  · exact yields_bind hrecovering
      (fun b _ later hadvances _ => hbody b later (hwithin.advances hadvances))
      fun _ _ _ => (viable_isBodyRest room).made _
  -- Only a header that failed can leave a report behind, and the recovery takes that away.
  · intro hnone
    obtain ⟨failed, hfailed⟩ := exists_recovery hnone
    rw [hfailed]
    exact Reader.clean_recover_block
  · intro b later hresult
    rw [hresult] at hrecovering
    obtain ⟨passed, hadvances, -⟩ := hrecovering
    have hlater := (yields_body (hwithin.advances hadvances)).2
    exact clean_bind (fun _ => hlater) fun body last hbody => by simpa [hbody] using hlater

/-- A block with any kind of header. -/
private theorem isRead_block {header : Rule β} {Q : List Token → β → Prop} (construct : Construct)
    (make : Token → β → List Assignment → α) (hready : reader.Ready room)
    (hopens : construct.OpenedBy reader.current.lexeme) (hconstruct : construct ≠ .parenthesized)
    (hheader : Reads False 0 room Q header) :
    IsRead
      (Behind reader.current (Follows Q fun b => Made (IsBodyRest room) (make reader.current b)))
      reader (block construct header make reader) := by
  obtain ⟨hrest, hclean⟩ := yields_blockRest (make reader.current) hheader
    (hready.advanceInto hopens hconstruct)
  obtain ⟨hyields, hlt⟩ := yields_inside construct (fun word => blockRest header (make word))
    hready.proper hopens (by simp [hconstruct]) hrest
  exact ⟨hyields, Reader.clean_leaveFrom_iff.mpr hclean, hlt⟩

private theorem IsRead.mono {P Q : List Token → α → Prop} {result : Option α × Reader}
    (hread : IsRead P reader result) (himp : ∀ tokens a, P tokens a → Q tokens a) :
    IsRead Q reader result :=
  ⟨yields_mono hread.yields himp, hread.clean, hread.length_lt⟩

/-- A block with conditions, whatever word begins it. -/
theorem isRead_guarded {construct : Construct} {keyword : Keyword} (hready : reader.Ready room)
    (hopens : construct.OpenedBy reader.current.lexeme)
    (hword : reader.current.lexeme = .keyword keyword) :
    IsRead (IsGuarded room keyword) reader (guarded construct reader) := by
  have hconstruct : construct ≠ .parenthesized := by
    rintro rfl
    simp [Construct.OpenedBy, hword] at hopens
  rw [guarded_eq]
  refine (isRead_block construct _ hready hopens hconstruct reads_guard).mono ?_
  rintro tokens block ⟨rest, rfl, front, back, conditions, rfl, ⟨first, start, rfl, hfirst, colon,
    opening, rfl, hcolon, hopening⟩, body, ⟨inner, closing, rfl, hinner, hclosing⟩, rfl⟩
  simpa using IsGuarded.mk hword hfirst hcolon (.mk hopening hinner hclosing)

theorem isRead_otherwise (hready : reader.Ready room)
    (hword : reader.current.lexeme = .keyword .elseWord) :
    IsRead (IsOtherwise room) reader (otherwise reader) := by
  have hopens : Construct.elseBlock.OpenedBy reader.current.lexeme := hword
  rw [otherwise_eq]
  refine (isRead_block .elseBlock _ hready hopens (by simp) reads_blockStart).mono ?_
  rintro tokens block ⟨rest, rfl, front, back, ⟨⟩, rfl, ⟨colon, opening, rfl, hcolon, hopening⟩,
    body, ⟨inner, closing, rfl, hinner, hclosing⟩, rfl⟩
  exact IsOtherwise.mk hword hcolon (.mk hopening hinner hclosing)

end Rule

end LoopLang
