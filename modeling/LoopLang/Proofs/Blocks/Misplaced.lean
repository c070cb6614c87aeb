import LoopLang.Proofs.Accepting.Statements
import LoopLang.Proofs.Blocks.Balance
import LoopLang.Proofs.Grammar.Cuts

/-!
# Chains of blocks where none may stand

A chain of blocks that stands between the assignments of a body is one failed turn of the body
(`Rule.ends_bodyItem_chain`).  The turns around it are taken as if it were not there, so every rule
around the body ends where it would have ended, with no value and with one report: the body, the
block, the chain of blocks, and the statement (`Rule.ends_statement_chain`).
-/

namespace LoopLang

open Grammar

namespace Rule

variable {α : Type} {room : Nat} {reader : Reader} {chain front back before after rest : List Token}
  {first : Token}

/-! ## A failed turn among others -/

private theorem mapM_id_gap (as bs : List α) :
    (as.map some ++ none :: bs.map some).mapM id = none := by
  rw [Option.eq_none_iff_forall_not_mem]
  intro cs hcs
  rw [Option.mem_def, mapM_id_eq_some_iff] at hcs
  have hmem : none ∈ cs.map some := by simp [← hcs]
  simp at hmem

/-- Turns that succeed, one that fails, and turns that succeed again. -/
theorem attempted_gap {Inv : Reader → Prop} {P : List Token → α → Prop} {more : Lexeme → Bool}
    {rule : Rule α} {as bs : List α} {gap : List Token} {reports : List Diagnostic}
    (hrepeats : Repeats Inv P more rule) (hahead : reader.ahead = front ++ (gap ++ (back ++ rest)))
    (hfront : ∃ later, Attempted more rule reader (as.map some) later ∧
      reader.Advances front later ∧ Inv later)
    (hgap : ∀ later : Reader, Inv later → later.reported = false →
      later.endToken = reader.endToken → later.ahead = gap ++ (back ++ rest) →
      more later.current.lexeme = true ∧ Ends later gap none reports (rule later))
    (hback : ∀ later : Reader, Inv later → later.reported = false →
      later.endToken = reader.endToken → later.ahead = back ++ rest →
      ∃ last, Attempted more rule later (bs.map some) last ∧ later.Advances back last ∧ Inv last) :
    ∃ last, Attempted more rule reader (as.map some ++ none :: bs.map some) last ∧
      reader.Passes (front ++ (gap ++ back)) reports last ∧ Inv last := by
  obtain ⟨second, hattempted, hadvances, hinv⟩ := hfront
  obtain ⟨hmore, hnone, hpasses⟩ := hgap second hinv hadvances.reported_eq
    hadvances.steps.frame.endToken_eq (hadvances.ahead_later hahead)
  have hboth := hadvances.trans_passes hpasses
  have hthird := (hrepeats.passes hinv hmore).1
  obtain ⟨last, hothers, hrest, hlast⟩ := hback _ hthird hpasses.reported_eq
    hboth.steps.frame.endToken_eq (hpasses.ahead_later (hadvances.ahead_later hahead))
  refine ⟨last, ?_, ?_, hlast⟩
  · rw [← hnone]
    exact hattempted.trans (.turn hmore hothers)
  · rw [← List.append_assoc]
    exact hboth.advances hrest

/-! ## Inside a body -/

/-- A chain of blocks between the assignments of a body. -/
theorem ends_bodyItem_chain (hchain : IsChain first chain) (hreported : reader.reported = false)
    (hahead : reader.ahead = chain ++ rest)
    (hnext : (rest.headD reader.endToken).lexeme.continuesChain = false) :
    bodyGoesOn reader.current.lexeme = true ∧
      Ends reader chain none [Reader.misplaced first .assignmentOrEnd] (bodyItem reader) := by
  obtain ⟨behind, rfl⟩ := hchain.exists_cons
  have hcurrent : reader.current = first := reader.current_of_ahead_eq_cons hahead
  have hopens := hchain.opens
  rw [bodyItem_of_opensBlock (hcurrent ▸ hopens), hcurrent]
  refine ⟨?_, rfl, Reader.passes_skipChain hchain _ hreported hahead hnext⟩
  rw [bodyGoesOn, decide_eq_true_eq]
  constructor <;> (intro h; simp [h, Lexeme.opensBlock] at hopens)

private theorem not_continuesChain_of_isSequence {as : List Assignment} {last : Token}
    (hsequence : IsSequence (IsAssignment room) back as) (hlast : last.lexeme = .keyword .endWord)
    (token : Token) :
    ((back ++ last :: rest).headD token).lexeme.continuesChain = false := by
  cases hsequence with
  | nil => simp [hlast, Lexeme.continuesChain]
  | cons hfirst _ =>
      obtain @⟨name, _, _, _, _, _, _, hname, -, -, -⟩ := hfirst
      simp [hname, Lexeme.continuesChain]

/-- A body that is cut between two assignments and holds a chain there. -/
private theorem ends_body_chain {as bs : List Assignment} {last : Token}
    (hchain : IsChain first chain) (hfront : IsSequence (IsAssignment room) front as)
    (hback : IsSequence (IsAssignment room) back bs) (hlast : last.lexeme = .keyword .endWord)
    (hwithin : reader.Within 0 room)
    (hahead : reader.ahead = front ++ (chain ++ (back ++ last :: rest))) :
    Ends reader (front ++ (chain ++ (back ++ [last]))) none
      [Reader.misplaced first .assignmentOrEnd] (body reader) := by
  have hbody : InBody room reader :=
    ⟨hwithin.ready, hwithin.enclosing_ne, by simp [hwithin.reported_eq]⟩
  obtain ⟨later, hattempted, hpasses, -⟩ := attempted_gap repeats_bodyItem hahead
    (attempted_assignments hfront hbody hwithin.reported_eq hahead)
    (fun later _ hreported _ hlater => ends_bodyItem_chain hchain hreported hlater
      (not_continuesChain_of_isSequence hback hlast _))
    (fun later hinv hreported _ hlater => attempted_assignments hback hinv hreported hlater)
  have hsplit : reader.ahead = (front ++ (chain ++ back)) ++ last :: rest := by simpa using hahead
  have hends := ends_body hwithin hattempted hpasses hsplit hlast
  rw [mapM_id_gap] at hends
  simpa using hends

/-! ## Around a body -/

/-- A block with any kind of header, whose body is cut between two assignments. -/
private theorem ends_block_chain {β : Type} {word : Token} {body : List Assignment}
    (construct : Construct) (header : Rule β) (make : Token → β → List Assignment → α)
    (start : List Token) (b : β) (hchain : IsChain first chain)
    (hbody : IsBody room (before ++ after) body) (hat : AtItem before) (hready : reader.Ready room)
    (hahead : reader.ahead = word :: (start ++ (before ++ (chain ++ (after ++ rest)))))
    (hopens : construct.OpenedBy word.lexeme) (hconstruct : construct ≠ .parenthesized)
    (hheader : ∀ {reader : Reader} {rest : List Token} {opening : Token},
      opening.lexeme = .keyword .beginWord → reader.Within 0 room →
      reader.ahead = (start ++ [opening]) ++ rest →
      Accepts reader (start ++ [opening]) b (header reader)) :
    Ends reader (word :: (start ++ (before ++ (chain ++ after)))) none
      [Reader.misplaced first .assignmentOrEnd] (block construct header make reader) := by
  obtain ⟨opening, front, back, last, as, bs, rfl, rfl, hopening, hfront, hback, hlast⟩ :=
    hbody.cut hat
  have hsplit : reader.ahead =
      word :: ((start ++ [opening]) ++ (front ++ (chain ++ (back ++ last :: rest)))) := by
    simpa using hahead
  have hends := ends_block construct make hready hsplit hopens hconstruct (hheader hopening)
    fun _ hwithin hrest => ends_body_chain hchain hfront hback hlast hwithin hrest
  simpa using hends

private theorem ends_guarded_chain {construct : Construct} {keyword : Keyword} {block : Guarded}
    (hchain : IsChain first chain) (hblock : IsGuarded room keyword (before ++ after) block)
    (hat : AtItem before) (hopens : construct.OpenedBy (.keyword keyword))
    (hready : reader.Ready room) (hahead : reader.ahead = before ++ (chain ++ (after ++ rest))) :
    Ends reader (before ++ (chain ++ after)) none [Reader.misplaced first .assignmentOrEnd]
      (guarded construct reader) := by
  have hkeyword : keyword ≠ .beginWord := by
    rintro rfl
    cases construct <;> simp [Construct.OpenedBy] at hopens
  have hconstruct : construct ≠ .parenthesized := by
    rintro rfl
    simp [Construct.OpenedBy] at hopens
  obtain ⟨word, colon, front, start, conditions, body, rfl, hword, hconditions, hcolon, hbody,
    hatStart⟩ := hblock.cut hkeyword hat
  have hsplit : reader.ahead =
      word :: ((front ++ [colon]) ++ (start ++ (chain ++ (after ++ rest)))) := by simpa using hahead
  have hends := ends_block_chain construct guard
    (fun word conditions body => (⟨conditions, body, word.location⟩ : Guarded)) (front ++ [colon])
    conditions hchain hbody hatStart hready hsplit (hword ▸ hopens) hconstruct
    fun {_ _ opening} hopening hwithin hrest => by
      have htokens : (front ++ [colon]) ++ [opening] = front ++ [colon, opening] := by simp
      rw [htokens] at hrest ⊢
      exact accepts_guard hconditions hcolon hopening hwithin hrest
  rw [guarded_eq]
  simpa using hends

private theorem ends_otherwise_chain {block : Otherwise} (hchain : IsChain first chain)
    (hblock : IsOtherwise room (before ++ after) block) (hat : AtItem before)
    (hready : reader.Ready room) (hahead : reader.ahead = before ++ (chain ++ (after ++ rest))) :
    Ends reader (before ++ (chain ++ after)) none [Reader.misplaced first .assignmentOrEnd]
      (otherwise reader) := by
  obtain ⟨word, colon, start, body, rfl, hword, hcolon, hbody, hatStart⟩ := hblock.cut hat
  have hopens : Construct.elseBlock.OpenedBy word.lexeme := hword
  have hends := ends_block_chain .elseBlock blockStart
    (fun word _ body => (⟨body, word.location⟩ : Otherwise)) [colon] () hchain hbody hatStart hready
    hahead hopens (by simp)
    fun hopening hwithin hrest => accepts_blockStart hcolon hopening hwithin hrest
  rw [otherwise_eq]
  exact hends

/-! ## Around a block -/

/-- The `elif` blocks of a conditional, one of which is cut. -/
private theorem ends_elifs_chain {elifs : List Guarded} (hchain : IsChain first chain)
    (helifs : IsSequence (IsGuarded room .elifWord) (before ++ after) elifs) (hat : AtItem before)
    (hreader : InChain room reader) (hreported : reader.reported = false)
    (hahead : reader.ahead = before ++ (chain ++ (after ++ rest)))
    (hnext : (rest.headD reader.endToken).lexeme ≠ .keyword .elifWord) :
    Ends reader (before ++ (chain ++ after)) none [Reader.misplaced first .assignmentOrEnd]
      (attemptAll elifFollows (guarded .elifBlock) reader) := by
  obtain ⟨front, inner, outer, back, as, a, bs, rfl, rfl, -, hfront, hcut, hinner, hback⟩ :=
    helifs.cut rfl hat
  have hopens : Construct.elifBlock.OpenedBy (.keyword .elifWord) := rfl
  have hsplit : reader.ahead = front ++ ((inner ++ (chain ++ outer)) ++ (back ++ rest)) := by
    simpa using hahead
  obtain ⟨later, hattempted, hpasses, -⟩ := attempted_gap repeats_elif hsplit
    (attempted_elifs hfront hreader hreported hsplit)
    (fun later hlater _ _ hrest => by
      have hcutAhead : later.ahead = inner ++ (chain ++ (outer ++ (back ++ rest))) := by
        simpa using hrest
      refine ⟨?_, ends_guarded_chain hchain hcut hinner hopens hlater.ready hcutAhead⟩
      obtain ⟨word, colon, start, more, _, _, rfl, hword, -, -, -, -⟩ := hcut.cut (by simp) hinner
      rw [later.current_of_ahead_eq_cons hcutAhead, elifFollows, hword]
      rfl)
    (fun later hlater hreported _ hrest => attempted_elifs hback hlater hreported hrest)
  have hends := ends_elifs hreader hattempted hpasses (by simpa using hsplit) hnext
  rw [mapM_id_gap] at hends
  simpa using hends

/-- An `else` block that is cut is there. -/
private theorem exists_isOtherwise {otherwise : Option Otherwise}
    (hotherwise : IsOptional (IsOtherwise room) (before ++ after) otherwise) (hat : AtItem before) :
    ∃ block word more, IsOtherwise room (before ++ after) block ∧ before = word :: more ∧
      word.lexeme = .keyword .elseWord := by
  generalize htokens : before ++ after = tokens at hotherwise
  cases hotherwise with
  | none => exact absurd (List.append_eq_nil_iff.mp htokens).1 hat.ne_nil
  | @some _ block hblock =>
      subst htokens
      obtain ⟨word, colon, start, body, hbefore, hword, -, -, -⟩ := hblock.cut hat
      exact ⟨block, word, colon :: start, hblock, hbefore, hword⟩

private theorem ends_otherwiseAll_chain {otherwise : Option Otherwise}
    (hchain : IsChain first chain)
    (hotherwise : IsOptional (IsOtherwise room) (before ++ after) otherwise) (hat : AtItem before)
    (hready : reader.Ready room) (hahead : reader.ahead = before ++ (chain ++ (after ++ rest))) :
    Ends reader (before ++ (chain ++ after)) none [Reader.misplaced first .assignmentOrEnd]
      (otherwiseAll reader) := by
  obtain ⟨block, word, more, hblock, rfl, hword⟩ := exists_isOtherwise hotherwise hat
  have hcurrent : reader.current = word := reader.current_of_ahead_eq_cons hahead
  rw [otherwiseAll_apply, hcurrent, if_pos hword]
  exact (ends_otherwise_chain hchain hblock hat hready hahead).map some

/-- A chain of values one of which is missing is missing itself. -/
private theorem chain_eq_none {head : Option Guarded} {elifs : Option (List Guarded)}
    {otherwise : Option (Option Otherwise)}
    (hnone : head = none ∨ elifs = none ∨ otherwise = none) :
    Rule.chain head elifs otherwise = none := by
  rcases hnone with rfl | rfl | rfl
  · rfl
  · cases head <;> rfl
  · cases head <;> cases elifs <;> rfl

/-- A conditional that is cut in one of its bodies. -/
private theorem ends_conditional_chain {c : Conditional} (hchain : IsChain first chain)
    (hconditional : IsConditional room (before ++ after) c) (hat : AtItem before)
    (hready : reader.Ready room) (hahead : reader.ahead = before ++ (chain ++ (after ++ rest)))
    (hnext : StartsAnew (rest.headD reader.endToken).lexeme) :
    Ends reader (before ++ (chain ++ after)) none [Reader.misplaced first .assignmentOrEnd]
      (conditional reader) := by
  generalize htokens : before ++ after = tokens at hconditional
  obtain @⟨front, middle, back, head, elifs, otherwise, hhead, helifs, hotherwise⟩ := hconditional
  have hopens : Construct.ifBlock.OpenedBy (.keyword .ifWord) := rfl
  have helif := ne_elif_of_isOptional hotherwise fun _ => hnext
  rcases append_cut htokens.symm hat with ⟨more, rfl, rfl⟩ | ⟨more, rfl, hmore, hatMore⟩
  -- The cut is in the `if` block.
  · have hsplit : reader.ahead = before ++ (chain ++ (more ++ (middle ++ (back ++ rest)))) := by
      simpa using hahead
    have hends := ends_conditional (ends_guarded_chain hchain hhead hat hopens hready hsplit)
      (fun _ => ends_elifs_behind helifs hready (by simpa using hsplit) helif)
      (fun _ => ends_otherwiseAll_behind hotherwise hready (by simpa using hsplit) fun _ => hnext.2)
    rw [chain_eq_none (Or.inl rfl)] at hends
    simpa using hends
  rcases append_cut hmore hatMore with ⟨more', rfl, rfl⟩ | ⟨more', rfl, rfl, hatMore'⟩
  -- The cut is in an `elif` block.
  · have hsplit : reader.ahead = front ++ (more ++ (chain ++ (more' ++ (back ++ rest)))) := by
      simpa using hahead
    have hends := ends_conditional (accepts_guarded hhead hopens hready hsplit).ends
      (fun later hpasses =>
        ends_elifs_chain hchain helifs hatMore (.of_passes hready hpasses) hpasses.reported_eq
          (hpasses.ahead_later hsplit) (by rwa [hpasses.steps.frame.endToken_eq]))
      (fun _ => ends_otherwiseAll_behind hotherwise hready (by simpa using hsplit) fun _ => hnext.2)
    rw [chain_eq_none (Or.inr (Or.inl rfl))] at hends
    simpa using hends
  -- The cut is in the `else` block.
  · have hsplit : reader.ahead = front ++ (middle ++ (more' ++ (chain ++ (after ++ rest)))) := by
      simpa using hahead
    obtain ⟨-, word, others, -, hothers, hword⟩ := exists_isOtherwise hotherwise hatMore'
    have hends := ends_conditional (accepts_guarded hhead hopens hready hsplit).ends
      (fun _ => ends_elifs_behind helifs hready hsplit (by simp [hothers, hword]))
      (fun later hpasses =>
        ends_otherwiseAll_chain hchain hotherwise hatMore' (InChain.of_passes hready hpasses).ready
          (hpasses.ahead_later (by simpa using hsplit)))
    rw [chain_eq_none (Or.inr (Or.inr rfl))] at hends
    simpa using hends

/-! ## Around a statement -/

/-- A statement that is cut in one of its bodies. -/
theorem ends_statement_chain {s : Statement} (hchain : IsChain first chain)
    (hstatement : IsStatement room (before ++ after) s) (hat : AtItem before) (hafter : after ≠ [])
    (hready : reader.Ready room) (hahead : reader.ahead = before ++ (chain ++ (after ++ rest)))
    (hnext : StartsAnew (rest.headD reader.endToken).lexeme) :
    Ends reader (before ++ (chain ++ after)) none [Reader.misplaced first .assignmentOrEnd]
      (statement reader) := by
  obtain ⟨token, more, rfl⟩ := List.exists_cons_of_ne_nil hat.ne_nil
  have hcurrent : reader.current = token := reader.current_of_ahead_eq_cons hahead
  rw [statement_apply, hcurrent]
  rcases hstatement.cut hat hafter with ⟨c, hconditional⟩ | ⟨block, hblock⟩
  · have hends := ends_conditional_chain hchain hconditional hat hready hahead hnext
    have hword : token.lexeme = .keyword .ifWord := by
      generalize htokens : token :: more ++ after = tokens at hconditional
      obtain @⟨_, _, _, _, _, _, hhead, -, -⟩ := hconditional
      obtain @⟨word, _, _, _, _, _, hword, -, -, -⟩ := hhead
      rwa [(List.cons_eq_cons.mp htokens).1]
    rw [hword]
    exact hends.map Statement.conditional
  · have hopens : Construct.loopBlock.OpenedBy (.keyword .loopWord) := rfl
    have hends := ends_guarded_chain hchain hblock hat hopens hready hahead
    obtain ⟨word, _, _, _, _, _, hbefore, hword, -, -, -, -⟩ := hblock.cut (by simp) hat
    obtain ⟨rfl, -⟩ := List.cons_eq_cons.mp hbefore
    rw [hword]
    exact hends.map Statement.loop

/-- A chain of blocks at the top level that `if` and `loopc` do not begin. -/
theorem ends_statement_misplaced (hchain : IsChain first chain)
    (hstarts : first.lexeme.startsStatement = false) (hreported : reader.reported = false)
    (hahead : reader.ahead = chain ++ rest)
    (hnext : StartsAnew (rest.headD reader.endToken).lexeme) :
    Ends reader chain none [Reader.misplaced first .statement] (statement reader) := by
  obtain ⟨behind, rfl⟩ := hchain.exists_cons
  have hcurrent : reader.current = first := reader.current_of_ahead_eq_cons hahead
  have hopens := hchain.opens
  have hcontinues := Lexeme.continuesChain_eq_false_iff.mpr hnext
  rw [statement_of_misplaced (hcurrent ▸ hopens) (hcurrent ▸ hstarts)]
  exact ⟨rfl, Reader.passes_skipChain hchain _ hreported hahead hcontinues⟩

end Rule

end LoopLang
