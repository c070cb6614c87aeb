import LoopLang.Proofs.Blocks.Balance
import LoopLang.Proofs.Reading.Lines

/-!
# Bodies that are laid out

A body is laid out if it is a list of stretches, each with a semicolon behind it but for the last
one, and of blocks.  Whatever is wrong inside of the stretches and the blocks, each turn of the body
takes one or more of them and leaves a text that is laid out (`Rule.exists_laidOut_bodyItem`).  So
the body comes to its own `end` (`Rule.Attempts.ahead_of_isLaidOut`).
-/

namespace LoopLang

open Grammar

/-! ## Stretches and blocks -/

/-- Part of a body that no block begins, without semicolons, `begin` and `end`. -/
structure IsStretch (tokens : List Token) : Prop where
  edgeFree : EdgeFree tokens
  ne_semicolon : ∀ token ∈ tokens, token.lexeme ≠ .mark .semicolon
  opensBlock_eq : ∀ first ∈ tokens.head?, first.lexeme.opensBlock = false

/-- A token that no line goes on behind. -/
def EndsLine (token : Token) : Prop :=
  token.lexeme = .mark .semicolon ∨ token.lexeme = .keyword .endWord

private theorem EndsLine.not_inLine {stop : Token} (hstop : EndsLine stop) :
    ¬ stop.lexeme.inLine := by
  rcases hstop with h | h <;> simp [h, Lexeme.inLine]

private theorem IsStretch.not_endsLine {stretch : List Token} (hstretch : IsStretch stretch) :
    ∀ token ∈ stretch, ¬ EndsLine token := by
  rintro token hmem (h | h)
  · exact hstretch.ne_semicolon token hmem h
  · exact (hstretch.edgeFree token hmem).2 h

/-- The text of a body as stretches and blocks. -/
inductive IsLaidOut : List Token → Prop where
  | last {stretch : List Token} (hstretch : IsStretch stretch) : IsLaidOut stretch
  | stretch {stretch rest : List Token} {semicolon : Token} (hstretch : IsStretch stretch)
      (hsemicolon : semicolon.lexeme = .mark .semicolon) (hrest : IsLaidOut rest) :
      IsLaidOut (stretch ++ semicolon :: rest)
  | block {block rest : List Token} {first : Token} (hblock : IsBlock block)
      (hfirst : block.head? = some first) (hopens : first.lexeme.opensBlock)
      (hrest : IsLaidOut rest) : IsLaidOut (block ++ rest)

/-- Every `begin` of such a text has an `end` of its own. -/
theorem IsLaidOut.isBalanced {tokens : List Token} (hlaid : IsLaidOut tokens) :
    IsBalanced tokens := by
  induction hlaid with
  | last hstretch => exact hstretch.edgeFree.isBalanced
  | @stretch stretch rest semicolon hstretch hsemicolon _ ih =>
      have hfree : EdgeFree [semicolon] := by simp [EdgeFree, hsemicolon]
      exact hstretch.edgeFree.isBalanced.append (hfree.isBalanced.append ih)
  | block hblock _ _ _ ih => exact hblock.isBalanced.append ih

/-- Such a text does not begin with the end of a body. -/
private theorem IsLaidOut.ne_endWord {tokens : List Token} (hlaid : IsLaidOut tokens) :
    ∀ first ∈ tokens.head?, first.lexeme ≠ .keyword .endWord := by
  cases hlaid with
  | last hstretch =>
      exact fun first hfirst => (hstretch.edgeFree first (List.mem_of_mem_head? hfirst)).2
  | @stretch stretch rest semicolon hstretch hsemicolon _ =>
      rcases stretch with _ | ⟨token, stretch⟩
      · simp [hsemicolon]
      · simpa using (hstretch.edgeFree token (by simp)).2
  | @block block rest first hblock hfirst hopens _ =>
      obtain ⟨behind, rfl⟩ := List.head?_eq_some_iff.mp hfirst
      intro other hother
      obtain rfl : first = other := by simpa using hother
      intro h
      simp [h, Lexeme.opensBlock] at hopens

/-- Where such a text begins like a block, a block begins. -/
private theorem IsLaidOut.exists_block {tokens : List Token} {first : Token}
    (hlaid : IsLaidOut tokens) (hfirst : tokens.head? = some first)
    (hopens : first.lexeme.opensBlock) :
    ∃ block rest, tokens = block ++ rest ∧ IsBlock block ∧ IsLaidOut rest := by
  cases hlaid with
  | last hstretch => simp [hstretch.opensBlock_eq first hfirst] at hopens
  | @stretch stretch rest semicolon hstretch hsemicolon _ =>
      rcases stretch with _ | ⟨token, stretch⟩
      · obtain rfl : semicolon = first := by simpa using hfirst
        simp [hsemicolon, Lexeme.opensBlock] at hopens
      · obtain rfl : token = first := by simpa using hfirst
        simp [hstretch.opensBlock_eq token rfl] at hopens
  | @block block rest _ hblock _ _ hrest => exact ⟨block, rest, rfl, hblock, hrest⟩

/-! ## The first token of a kind -/

section

variable {α : Type} {p : α → Prop} {front back rest others : List α} {stop other : α}

/-- A list is cut in one way only at its first element of a kind. -/
theorem append_cons_inj_of_first (heq : front ++ stop :: rest = back ++ other :: others)
    (hfront : ∀ a ∈ front, ¬ p a) (hstop : p stop) (hback : ∀ a ∈ back, ¬ p a) (hother : p other) :
    front = back ∧ stop = other ∧ rest = others := by
  induction front generalizing back with
  | nil =>
      cases back with
      | nil => simpa using heq
      | cons a back =>
          obtain ⟨rfl, -⟩ := List.cons_eq_cons.mp heq
          exact absurd hstop (hback stop (by simp))
  | cons a front ih =>
      cases back with
      | nil =>
          obtain ⟨rfl, -⟩ := List.cons_eq_cons.mp heq
          exact absurd hother (hfront a (by simp))
      | cons b back =>
          obtain ⟨rfl, hrest⟩ := List.cons_eq_cons.mp heq
          obtain ⟨rfl, hsame⟩ := ih hrest (fun c hc => hfront c (List.mem_cons_of_mem _ hc))
            fun c hc => hback c (List.mem_cons_of_mem _ hc)
          exact ⟨rfl, hsame⟩

/-- What begins a list and has no element of a kind ends before the first such element. -/
theorem exists_append_of_first (heq : front ++ stop :: rest = back ++ others)
    (hstop : p stop) (hback : ∀ a ∈ back, ¬ p a) :
    ∃ more, front = back ++ more ∧ others = more ++ stop :: rest := by
  rcases List.append_eq_append_iff.mp heq with ⟨more, rfl, hmore⟩ | ⟨more, rfl, hmore⟩
  · rcases more with _ | ⟨a, more⟩
    · exact ⟨[], by simp, by simpa using hmore.symm⟩
    · obtain ⟨rfl, -⟩ := List.cons_eq_cons.mp hmore
      exact absurd hstop (hback stop (by simp))
  · exact ⟨more, rfl, hmore⟩

end

/-! ## Recovery inside a body -/

namespace Reader

variable {reader : Reader} {stretch rest : List Token} {stop : Token}

private theorem insideBlockSkip_stretch (hfree : EdgeFree stretch)
    (hsemicolon : ∀ token ∈ stretch, token.lexeme ≠ .mark .semicolon) :
    Boundary.insideBlockSkip (stretch ++ rest) =
      stretch.length + Boundary.insideBlockSkip rest := by
  induction stretch with
  | nil => simp
  | cons token stretch ih =>
      rw [List.cons_append, Boundary.insideBlockSkip, if_neg (hfree token (by simp)).2,
        if_neg (hsemicolon token (by simp)), ih
          (fun other hmem => hfree other (List.mem_cons_of_mem _ hmem))
          (fun other hmem => hsemicolon other (List.mem_cons_of_mem _ hmem)), List.length_cons]
      omega

/-- Recovery inside a body goes behind the next semicolon. -/
private theorem ahead_recover_semicolon (hfree : EdgeFree stretch)
    (hsemicolon : ∀ token ∈ stretch, token.lexeme ≠ .mark .semicolon)
    (hstop : stop.lexeme = .mark .semicolon) (hahead : reader.ahead = stretch ++ stop :: rest) :
    (reader.recover .insideBlock).ahead = rest := by
  have hskip : Boundary.insideBlock.skip reader.ahead = (stretch ++ [stop]).length := by
    rw [hahead, Boundary.skip, insideBlockSkip_stretch hfree hsemicolon, Boundary.insideBlockSkip,
      if_neg (by simp [hstop]), if_pos hstop]
    simp
  have hsplit : reader.ahead = (stretch ++ [stop]) ++ rest := by simpa using hahead
  rw [ahead_recover, hskip, hsplit, List.drop_left]

/-- Recovery inside a body stops in front of the `end` of the body. -/
private theorem ahead_recover_endWord (hfree : EdgeFree stretch)
    (hsemicolon : ∀ token ∈ stretch, token.lexeme ≠ .mark .semicolon)
    (hstop : stop.lexeme = .keyword .endWord) (hahead : reader.ahead = stretch ++ stop :: rest) :
    (reader.recover .insideBlock).ahead = stop :: rest := by
  have hskip : Boundary.insideBlock.skip reader.ahead = stretch.length := by
    rw [hahead, Boundary.skip, insideBlockSkip_stretch hfree hsemicolon, Boundary.insideBlockSkip,
      if_pos hstop]
    rfl
  rw [ahead_recover, hskip, hahead, List.drop_left]

end Reader

namespace Rule

variable {room : Nat} {reader : Reader} {tokens rest stretch : List Token} {stop last : Token}

/-! ## Turns of a body -/

/-- A turn at a stretch reads an assignment up to the semicolon behind it, or recovers from a reader
inside the stretch. -/
private theorem bodyItem_stretch (hready : reader.Ready room) (hstretch : IsStretch stretch)
    (hstop : EndsLine stop) (hahead : reader.ahead = stretch ++ stop :: rest) :
    (stop.lexeme = .mark .semicolon ∧ (bodyItem reader).2.ahead = rest) ∨
      ∃ failed : Reader, ∃ passed more,
        stretch = passed ++ more ∧ failed.ahead = more ++ stop :: rest ∧
        (bodyItem reader).2 = failed.recover .insideBlock := by
  rw [bodyItem_apply]
  split
  · rename_i target hname
    obtain ⟨hyields, -⟩ := @yields_assignment room True _ _ hready hname
    unfold recoveringBy
    rcases hresult : assignment target reader with ⟨_ | a, later⟩
    -- It fails in front of the first lexeme that ends a line, which is the one behind the stretch.
    · right
      obtain ⟨passed, hpassed, hline⟩ := staysInLine_assignment hname (by rw [hresult])
      rw [hresult] at hpassed
      obtain ⟨more, hsplit, hmore⟩ := exists_append_of_first (hahead.symm.trans hpassed)
        hstop.not_inLine fun token hmem => not_not.mpr (hline token hmem)
      exact ⟨later, passed, more, hsplit, hmore, rfl⟩
    -- It is read up to the first semicolon, so that the stretch has one behind it.
    · left
      rw [hresult] at hyields
      obtain ⟨passed, hadvances, hassignment⟩ := hyields
      obtain ⟨line, semicolon, rfl, hline, hsemicolon⟩ := hassignment.exists_line
      have heq : stretch ++ stop :: rest = line ++ semicolon :: later.ahead := by
        rw [← hahead, hadvances.ahead_eq]
        simp
      obtain ⟨-, rfl, hrest⟩ := append_cons_inj_of_first heq hstretch.not_endsLine hstop
        (fun token hmem h => h.not_inLine (hline token hmem)) (Or.inl hsemicolon)
      exact ⟨hsemicolon, hrest.symm⟩
  -- It does not begin with a name, so recovery begins where the stretch does.
  · right
    have hopens : reader.current.lexeme.opensBlock = false := by
      rcases stretch with _ | ⟨token, stretch⟩
      · rw [reader.current_of_ahead_eq_cons hahead]
        rcases hstop with h | h <;> simp [h, Lexeme.opensBlock]
      · rw [reader.current_of_ahead_eq_cons hahead]
        exact hstretch.opensBlock_eq token rfl
    rw [if_neg (by simp [hopens])]
    exact ⟨reader.complain .assignmentOrEnd, [], stretch, rfl, by rwa [Reader.ahead_complain], rfl⟩

/-- Behind a block the chain that goes on is skipped block by block. -/
private theorem exists_laidOut_skipFollowers (budget : List Token) (hlaid : IsLaidOut tokens)
    (hlast : last.lexeme = .keyword .endWord) (hahead : reader.ahead = tokens ++ last :: rest) :
    ∃ more, IsLaidOut more ∧ (Reader.skipFollowers budget reader).ahead = more ++ last :: rest := by
  induction budget generalizing reader tokens with
  | nil => exact ⟨tokens, hlaid, hahead⟩
  | cons token budget ih =>
      unfold Reader.skipFollowers
      split
      · rename_i hcontinues
        have hfirst : tokens.head? = some reader.current := by
          rcases tokens with _ | ⟨first, tokens⟩
          · rw [reader.current_of_ahead_eq_cons hahead, hlast] at hcontinues
            simp [Lexeme.continuesChain] at hcontinues
          · rw [reader.current_of_ahead_eq_cons hahead]
            rfl
        have hopens := Lexeme.opensBlock_of_continuesChain hcontinues
        obtain ⟨block, more, rfl, hblock, hmore⟩ := hlaid.exists_block hfirst hopens
        rw [List.append_assoc] at hahead
        exact ih hmore (Reader.ahead_recover_block hblock hahead).1
      · exact ⟨tokens, hlaid, hahead⟩

/-- A turn of a body that is laid out leaves the rest laid out. -/
theorem exists_laidOut_bodyItem (hready : reader.Ready room) (hlaid : IsLaidOut tokens)
    (hlast : last.lexeme = .keyword .endWord) (hahead : reader.ahead = tokens ++ last :: rest) :
    ∃ more, IsLaidOut more ∧ (bodyItem reader).2.ahead = more ++ last :: rest := by
  have hnil : IsLaidOut [] := .last ⟨by simp [EdgeFree], by simp, by simp⟩
  cases hlaid with
  | last hstretch =>
      -- No semicolon is behind the last stretch, so it is not read, and recovery passes all of it.
      rcases bodyItem_stretch hready hstretch (Or.inr hlast) hahead with
        ⟨hsemicolon, -⟩ | ⟨failed, passed, more, rfl, hmore, hresult⟩
      · simp [hlast] at hsemicolon
      · refine ⟨[], hnil, ?_⟩
        rw [hresult]
        exact Reader.ahead_recover_endWord hstretch.edgeFree.of_append.2
          (fun token hmem => hstretch.ne_semicolon token (List.mem_append_right _ hmem)) hlast hmore
  | @stretch stretch more semicolon hstretch hsemicolon hmore =>
      have hsplit : reader.ahead = stretch ++ semicolon :: (more ++ last :: rest) := by
        simpa using hahead
      -- Whether the stretch is read or not, its semicolon is the last token that is passed.
      rcases bodyItem_stretch hready hstretch (Or.inl hsemicolon) hsplit with
        ⟨-, hresult⟩ | ⟨failed, passed, others, rfl, hothers, hresult⟩
      · exact ⟨more, hmore, hresult⟩
      · refine ⟨more, hmore, ?_⟩
        rw [hresult]
        exact Reader.ahead_recover_semicolon hstretch.edgeFree.of_append.2
          (fun token hmem => hstretch.ne_semicolon token (List.mem_append_right _ hmem)) hsemicolon
          hothers
  | @block block more first hblock hfirst hopens hmore =>
      obtain ⟨behind, rfl⟩ := List.head?_eq_some_iff.mp hfirst
      have hcurrent : reader.current = first := reader.current_of_ahead_eq_cons hahead
      rw [bodyItem_of_opensBlock (hcurrent ▸ hopens)]
      have hsplit : (reader.complain .assignmentOrEnd).ahead =
          (first :: behind) ++ (more ++ last :: rest) := by
        rw [Reader.ahead_complain, hahead, List.append_assoc]
      exact exists_laidOut_skipFollowers _ hmore hlast (Reader.ahead_recover_block hblock hsplit).1

/-- The turns of a body that is laid out end in front of the `end` of the body. -/
theorem Attempts.ahead_of_isLaidOut {outcomes : List (Option Assignment)} {later : Reader}
    (hattempts : Attempts bodyGoesOn bodyItem reader outcomes later) (hbody : InBody room reader)
    (hlaid : IsLaidOut tokens) (hlast : last.lexeme = .keyword .endWord)
    (hahead : reader.ahead = tokens ++ last :: rest) : later.ahead = last :: rest := by
  induction hattempts generalizing tokens with
  | @stop reader hmore =>
      rcases tokens with _ | ⟨first, tokens⟩
      · exact hahead
      -- A body that is not over stops at none of its tokens.
      · have hcurrent : reader.current = first := reader.current_of_ahead_eq_cons hahead
        have hend := hlaid.ne_endWord first rfl
        have hinput := hbody.ready.proper.ne_endOfInput first (by simp [hahead])
        simp [bodyGoesOn, hcurrent, hend, hinput] at hmore
  | turn hmore _ ih =>
      obtain ⟨more, hlaidOut, hrest⟩ := exists_laidOut_bodyItem hbody.ready hlaid hlast hahead
      exact ih (repeats_bodyItem.passes hbody hmore).1 hlaidOut hrest

end Rule

end LoopLang
