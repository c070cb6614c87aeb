import LoopLang.Proofs.Blocks.Endings
import Mathlib.Data.List.Infix

/-!
# Blocks as balanced text

Recovery to the end of a block knows nothing of a block but its `begin` and `end`.  It counts them,
and so it ends behind the `end` that belongs to the first `begin`, whatever else stands between the
two (`Boundary.skip_of_isBlock`).  A chain of blocks that may not stand where it is costs one report
(`Reader.passes_skipChain`).
-/

namespace LoopLang

/-! ## Balanced text -/

/-- How many of some tokens are `begin`. -/
def begins (tokens : List Token) : Nat :=
  tokens.countP fun token => token.lexeme = .keyword .beginWord

/-- How many of some tokens are `end`. -/
def ends (tokens : List Token) : Nat :=
  tokens.countP fun token => token.lexeme = .keyword .endWord

/-- Each `end` has a `begin` in front of it, and each `begin` an `end` behind it. -/
structure IsBalanced (tokens : List Token) : Prop where
  le_of_prefix : ∀ front, front <+: tokens → ends front ≤ begins front
  ends_eq : ends tokens = begins tokens

/-- Neither `begin` nor `end` is among some tokens. -/
def EdgeFree (tokens : List Token) : Prop :=
  ∀ token ∈ tokens, token.lexeme ≠ .keyword .beginWord ∧ token.lexeme ≠ .keyword .endWord

instance (tokens : List Token) : Decidable (IsBalanced tokens) :=
  decidable_of_iff
    ((∀ front ∈ tokens.inits, ends front ≤ begins front) ∧ ends tokens = begins tokens)
    ⟨fun ⟨hle, heq⟩ => ⟨fun front hfront => hle front ((List.mem_inits _ _).mpr hfront), heq⟩,
      fun ⟨hle, heq⟩ => ⟨fun front hfront => hle front ((List.mem_inits _ _).mp hfront), heq⟩⟩

instance (tokens : List Token) : Decidable (EdgeFree tokens) :=
  inferInstanceAs (Decidable (∀ token ∈ tokens,
    token.lexeme ≠ .keyword .beginWord ∧ token.lexeme ≠ .keyword .endWord))

/-- A head without `begin` and `end`, and behind it a balanced text between `begin` and `end`. -/
inductive IsBlock : List Token → Prop where
  | mk {head inner : List Token} {first last : Token} (hhead : EdgeFree head)
      (hfirst : first.lexeme = .keyword .beginWord) (hinner : IsBalanced inner)
      (hlast : last.lexeme = .keyword .endWord) : IsBlock (head ++ first :: (inner ++ [last]))

private theorem IsBlock.ne_nil {tokens : List Token} (hblock : IsBlock tokens) : tokens ≠ [] := by
  obtain ⟨-, -, -, -⟩ := hblock
  simp

section Counts

variable {tokens front back : List Token} {token : Token}

@[simp] theorem begins_nil : begins [] = 0 := rfl

@[simp] theorem ends_nil : ends [] = 0 := rfl

private theorem begins_append : begins (front ++ back) = begins front + begins back :=
  List.countP_append

private theorem ends_append : ends (front ++ back) = ends front + ends back :=
  List.countP_append

theorem begins_cons : begins (token :: tokens) =
    begins tokens + if token.lexeme = .keyword .beginWord then 1 else 0 := by
  simp [begins, List.countP_cons]

theorem ends_cons : ends (token :: tokens) =
    ends tokens + if token.lexeme = .keyword .endWord then 1 else 0 := by
  simp [ends, List.countP_cons]

private theorem EdgeFree.counts (hfree : EdgeFree tokens) :
    begins tokens = 0 ∧ ends tokens = 0 := by
  simp only [begins, ends, List.countP_eq_zero, decide_eq_true_eq]
  exact ⟨fun token hmem => (hfree token hmem).1, fun token hmem => (hfree token hmem).2⟩

theorem EdgeFree.of_append (hfree : EdgeFree (front ++ back)) : EdgeFree front ∧ EdgeFree back :=
  ⟨fun token hmem => hfree token (List.mem_append_left _ hmem),
    fun token hmem => hfree token (List.mem_append_right _ hmem)⟩

/-! ## Texts that are balanced -/

theorem EdgeFree.isBalanced (hfree : EdgeFree tokens) : IsBalanced tokens where
  le_of_prefix := by
    rintro front ⟨back, rfl⟩
    rw [hfree.of_append.1.counts.1, hfree.of_append.1.counts.2]
  ends_eq := by rw [hfree.counts.1, hfree.counts.2]

theorem IsBalanced.append (hfront : IsBalanced front) (hback : IsBalanced back) :
    IsBalanced (front ++ back) where
  le_of_prefix := by
    intro start hstart
    rw [List.prefix_iff_eq_take.mp hstart, List.take_append, begins_append, ends_append]
    exact Nat.add_le_add (hfront.le_of_prefix _ (List.take_prefix _ _))
      (hback.le_of_prefix _ (List.take_prefix _ _))
  ends_eq := by rw [begins_append, ends_append, hfront.ends_eq, hback.ends_eq]

/-- A balanced text between `begin` and `end` is balanced. -/
theorem IsBalanced.enclose {first last : Token} (hinner : IsBalanced tokens)
    (hfirst : first.lexeme = .keyword .beginWord) (hlast : last.lexeme = .keyword .endWord) :
    IsBalanced (first :: (tokens ++ [last])) where
  le_of_prefix := by
    intro start hstart
    rcases List.prefix_cons_iff.mp hstart with rfl | ⟨more, rfl, hmore⟩
    · rfl
    · have hle := hinner.le_of_prefix _ (List.take_prefix more.length tokens)
      have hone : ends ([last].take (more.length - tokens.length)) ≤ 1 :=
        List.countP_le_length.trans (List.length_take_le' _ _)
      rw [begins_cons, ends_cons, if_pos hfirst, if_neg (by simp [hfirst]),
        List.prefix_iff_eq_take.mp hmore, List.take_append, begins_append, ends_append]
      omega
  ends_eq := by
    simp [begins_cons, ends_cons, begins_append, ends_append, hfirst, hlast, hinner.ends_eq]

theorem IsBlock.isBalanced (hblock : IsBlock tokens) : IsBalanced tokens := by
  obtain ⟨hhead, hfirst, hinner, hlast⟩ := hblock
  exact hhead.isBalanced.append (hinner.enclose hfirst hlast)

end Counts

/-! ## Recovery to the end of a block -/

namespace Boundary

variable {token : Token} {tokens rest : List Token} {opened : Nat}

theorem blockSkip_cons_begin (hbegin : token.lexeme = .keyword .beginWord) :
    blockSkip opened (token :: rest) = blockSkip (opened + 1) rest + 1 := by
  rw [blockSkip, if_pos hbegin]

theorem blockSkip_cons_end (hend : token.lexeme = .keyword .endWord) :
    blockSkip opened (token :: rest) =
      if opened ≤ 1 then 1 else blockSkip (opened - 1) rest + 1 := by
  rw [blockSkip, if_neg (by simp [hend]), if_pos hend]

theorem blockSkip_cons_of_ne (hbegin : token.lexeme ≠ .keyword .beginWord)
    (hend : token.lexeme ≠ .keyword .endWord) :
    blockSkip opened (token :: rest) = blockSkip opened rest + 1 := by
  rw [blockSkip, if_neg hbegin, if_neg hend]

private theorem blockSkip_edgeFree (hfree : EdgeFree tokens) (opened : Nat) :
    blockSkip opened (tokens ++ rest) = tokens.length + blockSkip opened rest := by
  induction tokens with
  | nil => simp
  | cons token tokens ih =>
      obtain ⟨hbegin, hend⟩ := hfree token (by simp)
      have hrest := ih fun other hmem => hfree other (List.mem_cons_of_mem _ hmem)
      rw [List.cons_append, blockSkip_cons_of_ne hbegin hend, hrest, List.length_cons]
      omega

/-- Text in which every `end` matches a `begin`, behind one `begin` at least, is passed whole. -/
theorem blockSkip_balanced (opened : Nat)
    (hle : ∀ front, front <+: tokens → ends front < opened + begins front) :
    blockSkip opened (tokens ++ rest) =
      tokens.length + blockSkip (opened + begins tokens - ends tokens) rest := by
  induction tokens generalizing opened with
  | nil => simp
  | cons token tokens ih =>
      have hfirst : ends [token] < opened + begins [token] :=
        hle [token] (List.cons_prefix_cons.mpr ⟨rfl, List.nil_prefix⟩)
      have hall := hle _ List.prefix_rfl
      have hfront : ∀ front, front <+: tokens →
          ends (token :: front) < opened + begins (token :: front) :=
        fun front h => hle _ (List.cons_prefix_cons.mpr ⟨rfl, h⟩)
      simp only [begins_cons, ends_cons, begins_nil, ends_nil] at hfirst hall hfront
      rw [List.cons_append, List.length_cons, begins_cons, ends_cons]
      -- The `begin` or `end` in front moves over into the count of what is open.
      by_cases hbegin : token.lexeme = .keyword .beginWord
      · have hend : token.lexeme ≠ .keyword .endWord := by simp [hbegin]
        simp only [if_pos hbegin, if_neg hend] at hall hfront ⊢
        have hrest := ih (opened + 1) fun front h => by have := hfront front h; omega
        have hcount : opened + 1 + begins tokens - ends tokens =
            opened + (begins tokens + 1) - (ends tokens + 0) := by omega
        rw [blockSkip_cons_begin hbegin, hrest, hcount]
        omega
      · by_cases hend : token.lexeme = .keyword .endWord
        · simp only [if_neg hbegin, if_pos hend] at hfirst hall hfront ⊢
          have hrest := ih (opened - 1) fun front h => by have := hfront front h; omega
          have hcount : opened - 1 + begins tokens - ends tokens =
              opened + (begins tokens + 0) - (ends tokens + 1) := by omega
          rw [blockSkip_cons_end hend, if_neg (by omega), hrest, hcount]
          omega
        · simp only [if_neg hbegin, if_neg hend, Nat.add_zero] at hfront ⊢
          rw [blockSkip_cons_of_ne hbegin hend, ih opened hfront]
          omega

/-- Behind a block is where recovery to the end of a block stops. -/
theorem skip_of_isBlock (hblock : IsBlock tokens) :
    block.skip (tokens ++ rest) = tokens.length := by
  obtain @⟨head, inner, first, last, hhead, hfirst, hinner, hlast⟩ := hblock
  have hcount := hinner.ends_eq
  have hpassed : blockSkip 1 (inner ++ last :: rest) = inner.length + 1 := by
    rw [blockSkip_balanced 1 fun front h => by have := hinner.le_of_prefix front h; omega]
    have hopened : 1 + begins inner - ends inner = 1 := by omega
    rw [hopened, blockSkip_cons_end hlast, if_pos le_rfl]
  rw [skip, List.append_assoc, blockSkip_edgeFree hhead, List.cons_append,
    blockSkip_cons_begin hfirst, List.append_assoc, List.singleton_append, hpassed]
  simp

end Boundary

/-! ## Chains of blocks -/

/-- A block that begins with the token `first`, and behind it blocks that begin with `elif` or
`else`.  All of their tokens are of the language. -/
structure IsChain (first : Token) (tokens : List Token) : Prop where
  known : ∀ token ∈ tokens, ∀ found, token.lexeme ≠ .unknown found
  opens : first.lexeme.opensBlock
  blocks : ∃ (block : List Token) (followers : List (List Token)),
    tokens = block ++ followers.flatten ∧ IsBlock block ∧ block.head? = some first ∧
    ∀ follower ∈ followers, IsBlock follower ∧ ∃ word ∈ follower.head?, word.lexeme.continuesChain

theorem IsChain.exists_cons {first : Token} {tokens : List Token} (hchain : IsChain first tokens) :
    ∃ behind, tokens = first :: behind := by
  obtain ⟨block, followers, rfl, -, hfirst, -⟩ := hchain.blocks
  obtain ⟨behind, rfl⟩ := List.head?_eq_some_iff.mp hfirst
  exact ⟨behind ++ followers.flatten, rfl⟩

namespace Reader

variable {reader later : Reader} {tokens rest : List Token}

theorem ahead_recover_block (hblock : IsBlock tokens) (hahead : reader.ahead = tokens ++ rest) :
    (reader.recover .block).ahead = rest ∧ (reader.recover .block).reported = false := by
  have hne : reader.ahead ≠ [] := by simp [hahead, hblock.ne_nil]
  refine ⟨?_, (recover_of_not_stopsAt hne id).1⟩
  rw [ahead_recover, hahead, Boundary.skip_of_isBlock hblock, List.drop_left]

/-- Passing tokens of the language reports nothing. -/
private theorem diagnostics_advanceBy {count : Nat}
    (hknown : ∀ token ∈ reader.ahead.take count, ∀ found, token.lexeme ≠ .unknown found) :
    (reader.advanceBy count).diagnostics = reader.diagnostics := by
  induction count generalizing reader with
  | zero => rfl
  | succ count ih =>
      cases hahead : reader.ahead with
      | nil => rw [advanceBy, reader.advance_of_ahead_eq_nil hahead, ih (by simp [hahead])]
      | cons token behind =>
          rw [hahead, List.take_succ_cons] at hknown
          have hcurrent := reader.current_of_ahead_eq_cons hahead
          have hfirst : ∀ found, reader.current.lexeme ≠ .unknown found := by
            rw [hcurrent]
            exact hknown token (by simp)
          rw [advanceBy, ih, reader.diagnostics_advance_of_ne_unknown hfirst]
          intro other hmem
          rw [ahead_advance, hahead] at hmem
          exact hknown other (List.mem_cons_of_mem _ hmem)

/-- Recovery passes a block of the language without a report. -/
private theorem passes_recover_block (hblock : IsBlock tokens)
    (hknown : ∀ token ∈ tokens, ∀ found, token.lexeme ≠ .unknown found)
    (hahead : reader.ahead = tokens ++ rest) : reader.Passes tokens [] (reader.recover .block) := by
  obtain ⟨hrest, hreported⟩ := ahead_recover_block hblock hahead
  refine ⟨steps_recover, by rw [hrest, hahead], enclosing_recover, hreported, ?_⟩
  rw [recover, diagnostics_record, hahead, Boundary.skip_of_isBlock hblock, List.append_nil,
    diagnostics_advanceBy]
  · simp [Event.diagnostic?]
  · rw [hahead, List.take_left]
    exact hknown

/-- All blocks that follow in a chain are skipped. -/
private theorem passes_skipFollowers {followers : List (List Token)}
    (hfollowers : ∀ follower ∈ followers,
      IsBlock follower ∧ ∃ word ∈ follower.head?, word.lexeme.continuesChain)
    (hknown : ∀ token ∈ followers.flatten, ∀ found, token.lexeme ≠ .unknown found)
    (hnext : (rest.headD reader.endToken).lexeme.continuesChain = false) (budget : List Token)
    (hbudget : reader.ahead.length ≤ budget.length) (hreported : reader.reported = false)
    (hahead : reader.ahead = followers.flatten ++ rest) :
    reader.Passes followers.flatten [] (skipFollowers budget reader) := by
  induction followers generalizing reader budget with
  | nil =>
      have hcurrent : reader.current = rest.headD reader.endToken := by
        rw [current, hahead, List.flatten_nil, List.nil_append]
      have hstop : skipFollowers budget reader = reader := by
        cases budget with
        | nil => rfl
        | cons token budget => rw [skipFollowers, hcurrent, hnext]; rfl
      rw [hstop]
      exact (Advances.refl hreported).passes
  | cons follower followers ih =>
      rw [List.flatten_cons] at hknown hahead ⊢
      obtain ⟨hblock, word, hword, hcontinues⟩ := hfollowers follower (by simp)
      obtain ⟨behind, rfl⟩ := List.head?_eq_some_iff.mp hword
      have hcurrent : reader.current = word := reader.current_of_ahead_eq_cons hahead
      rw [List.append_assoc] at hahead
      have hpasses := passes_recover_block hblock
        (fun token hmem => hknown token (List.mem_append_left _ hmem)) hahead
      have hrest := hpasses.ahead_later hahead
      cases budget with
      | nil => simp [hahead] at hbudget
      -- A block passed is a token of the budget at least.
      | cons token budget =>
          rw [skipFollowers, hcurrent, if_pos hcontinues]
          refine hpasses.trans (ih
            (fun other hmem => hfollowers other (List.mem_cons_of_mem _ hmem))
            (fun other hmem => hknown other (List.mem_append_right _ hmem)) ?_ budget ?_
            hpasses.reported_eq hrest)
          · rwa [hpasses.steps.frame.endToken_eq]
          · rw [hahead] at hbudget
            rw [hrest]
            simp only [List.length_cons, List.length_append] at hbudget ⊢
            omega

/-- Whoever complains before passing some tokens has one report more. -/
private theorem Passes.of_complain {wanted : Wanted} (hreported : reader.reported = false)
    (hahead : reader.ahead ≠ []) (hpasses : (reader.complain wanted).Passes tokens [] later) :
    reader.Passes tokens
      [⟨reader.complaint wanted, reader.current.location, reader.current.span⟩] later where
  steps := .head (.complain wanted fun h => absurd h hahead) hpasses.steps
  ahead_eq := by rw [← ahead_complain, hpasses.ahead_eq]
  enclosing_eq := by rw [hpasses.enclosing_eq, enclosing_complain]
  reported_eq := hpasses.reported_eq
  diagnostics_eq := by
    rw [hpasses.diagnostics_eq, diagnostics_complain, hreported, List.append_nil]
    rfl

/-- The report about a token that stands where something else is wanted. -/
def misplaced (first : Token) (wanted : Wanted) : Diagnostic :=
  ⟨.unexpected wanted.text first.lexeme.describe, first.location, first.span⟩

/-- A chain that may not stand where it is costs one report, and all of it is skipped. -/
theorem passes_skipChain {first : Token} (hchain : IsChain first tokens) (wanted : Wanted)
    (hreported : reader.reported = false) (hahead : reader.ahead = tokens ++ rest)
    (hnext : (rest.headD reader.endToken).lexeme.continuesChain = false) :
    reader.Passes tokens [misplaced first wanted] (reader.complain wanted).skipChain := by
  obtain ⟨behind, hcons⟩ := hchain.exists_cons
  have hcurrent : reader.current = first :=
    reader.current_of_ahead_eq_cons (by rw [hahead, hcons, List.cons_append])
  have hcause : reader.complaint wanted = .unexpected wanted.text first.lexeme.describe := by
    have hopens := hchain.opens
    unfold complaint
    rw [hcurrent]
    cases hlexeme : first.lexeme <;> simp_all [Lexeme.opensBlock]
  obtain ⟨block, followers, rfl, hblock, -, hfollowers⟩ := hchain.blocks
  rw [misplaced, ← hcause, ← hcurrent]
  refine .of_complain hreported (by simp [hahead, hcons]) ?_
  have hsplit : (reader.complain wanted).ahead = block ++ (followers.flatten ++ rest) := by
    rw [ahead_complain, hahead, List.append_assoc]
  have hfirst := passes_recover_block hblock
    (fun token hmem => hchain.known token (List.mem_append_left _ hmem)) hsplit
  refine hfirst.trans (passes_skipFollowers hfollowers
    (fun token hmem => hchain.known token (List.mem_append_right _ hmem)) ?_ _ le_rfl
    hfirst.reported_eq (hfirst.ahead_later hsplit))
  rwa [hfirst.steps.frame.endToken_eq, endToken_complain]

end Reader

end LoopLang
