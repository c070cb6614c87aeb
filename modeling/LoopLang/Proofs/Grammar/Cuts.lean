import LoopLang.Proofs.Grammar.Derivation

/-!
# Cutting blocks between their assignments

Inside a block an assignment, or the `end` of the body, can only stand behind `begin` or a
semicolon, and everywhere behind one of these it does.  So a block that is cut there is cut between
two sentences of its body (`IsBody.cut`, `IsGuarded.cut`, `IsOtherwise.cut`), and a statement that
goes on behind the cut is a block or a chain of blocks (`IsStatement.cut`).
-/

namespace LoopLang

/-! ## Lexemes inside a line -/

/-- Whether a lexeme can stand inside of an assignment, behind the first word of a declaration, or
between the first word of a block and its `begin`. -/
def Lexeme.inLine : Lexeme → Bool
  | ident _ | number _ | arith _ | assign _ | relation _ | connective _ => true
  | mark sign => sign ≠ .semicolon
  | keyword _ | unknown _ | endOfInput => false

/-- Tokens that can stand inside a line. -/
def InLine (tokens : List Token) : Prop := ∀ token ∈ tokens, token.lexeme.inLine

namespace Grammar

variable {room : Nat} {tokens before after front back : List Token}

private theorem inLine_of_isExpr {level : Option Precedence} {e : Expr}
    (hexpr : IsExpr room level tokens e) : InLine tokens := by
  induction hexpr with
  | ident htoken | number htoken => simp [InLine, htoken, Lexeme.inLine]
  | parenthesized hopening _ hclosing ih =>
      simp only [InLine, List.mem_cons, List.mem_append, List.not_mem_nil, or_false]
      rintro token (rfl | hmem | rfl)
      · simp [hopening, Lexeme.inLine]
      · exact ih token hmem
      · simp [hclosing, Lexeme.inLine]
  | single _ ih => exact ih
  | binary _ hsign _ _ ihleft ihright =>
      simp only [InLine, List.mem_cons, List.mem_append]
      rintro token (hmem | rfl | hmem)
      · exact ihleft token hmem
      · simp [hsign, Lexeme.inLine]
      · exact ihright token hmem

private theorem inLine_of_isComparison {c : Comparison} (hcomparison : IsComparison room tokens c) :
    InLine tokens := by
  obtain ⟨hleft, hsign, hright⟩ := hcomparison
  simp only [InLine, List.mem_cons, List.mem_append]
  rintro token (hmem | rfl | hmem)
  · exact inLine_of_isExpr hleft token hmem
  · simp [hsign, Lexeme.inLine]
  · exact inLine_of_isExpr hright token hmem

theorem inLine_of_isConditions {cs : Conditions} (hconditions : IsConditions room tokens cs) :
    InLine tokens := by
  induction hconditions with
  | single htokens => exact inLine_of_isComparison htokens
  | combined _ hword hright ih =>
      simp only [InLine, List.mem_cons, List.mem_append]
      rintro token (hmem | rfl | hmem)
      · exact ih token hmem
      · simp [hword, Lexeme.inLine]
      · exact inLine_of_isComparison hright token hmem

theorem inLine_of_isNames {names : List String} (hnames : IsNames tokens names) :
    InLine tokens := by
  induction hnames with
  | one htoken => simp [InLine, htoken, Lexeme.inLine]
  | more _ hcomma htoken ih =>
      simp only [InLine, List.mem_append, List.mem_cons, List.not_mem_nil, or_false]
      rintro token (hmem | rfl | rfl)
      · exact ih token hmem
      · simp [hcomma, Lexeme.inLine]
      · simp [htoken, Lexeme.inLine]

theorem inLine_of_isOptional_isInitial {initial : Option Expr}
    (hinitial : IsOptional (IsInitial room) tokens initial) : InLine tokens := by
  cases hinitial with
  | none => simp [InLine]
  | some htokens =>
      obtain ⟨hsign, hvalue⟩ := htokens
      simp only [InLine, List.mem_cons]
      rintro token (rfl | hmem)
      · simp [hsign, Lexeme.inLine]
      · exact inLine_of_isExpr hvalue token hmem

/-- An assignment is a line and the semicolon behind it. -/
theorem IsAssignment.exists_line {a : Assignment} (hassignment : IsAssignment room tokens a) :
    ∃ line semicolon, tokens = line ++ [semicolon] ∧ InLine line ∧
      semicolon.lexeme = .mark .semicolon := by
  obtain @⟨token, sign, semicolon, value, target, op, e, htoken, hsign, hvalue, hsemicolon⟩ :=
    hassignment
  refine ⟨token :: sign :: value, semicolon, rfl, ?_, hsemicolon⟩
  simp only [InLine, List.mem_cons]
  rintro other (rfl | rfl | hmem)
  · simp [htoken, Lexeme.inLine]
  · simp [hsign, Lexeme.inLine]
  · exact inLine_of_isExpr hvalue other hmem

/-! ## Places between assignments -/

end Grammar

/-- Whether an assignment of a body, or the end of the body, stands behind a lexeme of a block. -/
def Lexeme.BeforeItem (lexeme : Lexeme) : Prop :=
  lexeme = .keyword .beginWord ∨ lexeme = .mark .semicolon

/-- Text of a block that ends where an assignment can begin. -/
def AtItem (before : List Token) : Prop := ∃ edge ∈ before.getLast?, edge.lexeme.BeforeItem

/-- Tokens that do not end where an assignment can begin, wherever they are cut. -/
def Inert (tokens : List Token) : Prop := ∀ token ∈ tokens, ¬ token.lexeme.BeforeItem

private theorem Lexeme.not_beforeItem_of_inLine {lexeme : Lexeme} (hline : lexeme.inLine) :
    ¬ lexeme.BeforeItem := by
  rintro (rfl | rfl) <;> simp [inLine] at hline

private theorem InLine.inert {tokens : List Token} (hline : InLine tokens) : Inert tokens :=
  fun token hmem => Lexeme.not_beforeItem_of_inLine (hline token hmem)

section

variable {before after front back : List Token}

theorem AtItem.ne_nil (hat : AtItem before) : before ≠ [] := by
  rintro rfl
  simp [AtItem] at hat

private theorem AtItem.not_inert (hat : AtItem before) : ¬ Inert before := by
  obtain ⟨edge, hedge, hitem⟩ := hat
  exact fun hinert => hinert edge (List.mem_of_getLast? hedge) hitem

private theorem AtItem.of_append (hat : AtItem (front ++ back)) (hne : back ≠ []) :
    AtItem back := by
  obtain ⟨start, edge, rfl⟩ := (List.eq_nil_or_concat back).resolve_left hne
  simpa [AtItem] using hat

/-- A text of two parts is cut in the one or the other. -/
theorem append_cut (heq : front ++ back = before ++ after) (hat : AtItem before) :
    (∃ more, front = before ++ more ∧ after = more ++ back) ∨
      ∃ more, before = front ++ more ∧ back = more ++ after ∧ AtItem more := by
  rcases List.append_eq_append_iff.mp heq with ⟨more, hbefore, hback⟩ | ⟨more, hfront, hafter⟩
  · by_cases hmore : more = []
    · subst hmore
      exact Or.inl ⟨[], by simpa using hbefore.symm, by simpa using hback.symm⟩
    · rw [hbefore] at hat
      exact Or.inr ⟨more, hbefore, hback, hat.of_append hmore⟩
  · exact Or.inl ⟨more, hfront, hafter⟩

/-- Tokens at which no assignment begins stand in front of the cut. -/
private theorem Inert.append_cut (hinert : Inert front) (heq : front ++ back = before ++ after)
    (hat : AtItem before) :
    ∃ more, before = front ++ more ∧ back = more ++ after ∧ AtItem more := by
  rcases LoopLang.append_cut heq hat with ⟨more, rfl, -⟩ | h
  · exact absurd (fun token hmem => hinert token (List.mem_append_left _ hmem)) hat.not_inert
  · exact h

end

namespace Grammar

variable {room : Nat} {tokens before after front back : List Token}

/-! ## Cutting sequences -/

private theorem IsSequence.append {α : Type} {P : List Token → α → Prop} {as bs : List α}
    (hfront : IsSequence P front as) (hback : IsSequence P back bs) :
    IsSequence P (front ++ back) (as ++ bs) := by
  induction hfront with
  | nil => exact hback
  | cons hfirst _ ih =>
      rw [List.append_assoc]
      exact .cons hfirst ih

/-- The cut of a sequence is in one of its sentences. -/
theorem IsSequence.cut {α : Type} {P : List Token → α → Prop} {as : List α}
    (hsequence : IsSequence P tokens as) (htokens : tokens = before ++ after)
    (hat : AtItem before) :
    ∃ front inner outer back as₁ a as₂, before = front ++ inner ∧ after = outer ++ back ∧
      as = as₁ ++ a :: as₂ ∧ IsSequence P front as₁ ∧ P (inner ++ outer) a ∧ AtItem inner ∧
      IsSequence P back as₂ := by
  induction hsequence generalizing before with
  | nil =>
      have hnil := (List.append_eq_nil_iff.mp htokens.symm).1
      exact absurd hnil hat.ne_nil
  | @cons first rest a as hfirst hrest ih =>
      rcases append_cut htokens hat with ⟨more, rfl, rfl⟩ | ⟨more, rfl, hmore, hatMore⟩
      · exact ⟨[], before, more, rest, [], a, as, rfl, rfl, rfl, .nil, hfirst, hat, hrest⟩
      · obtain ⟨front, inner, outer, back, as₁, b, as₂, rfl, rfl, rfl, hfront, hcut, hinner,
          hback⟩ := ih hmore hatMore
        exact ⟨first ++ front, inner, outer, back, a :: as₁, b, as₂, by simp, rfl, rfl,
          .cons hfirst hfront, hcut, hinner, hback⟩

/-- An assignment ends at the only place of it where another one can begin. -/
private theorem IsAssignment.after_eq_nil {a : Assignment}
    (hassignment : IsAssignment room (before ++ after) a) (hat : AtItem before) : after = [] := by
  obtain ⟨line, semicolon, heq, hline, -⟩ := hassignment.exists_line
  obtain ⟨more, -, hmore, hatMore⟩ := hline.inert.append_cut heq.symm hat
  have hlength := congrArg List.length hmore
  have hpos := List.length_pos_iff.mpr hatMore.ne_nil
  simp only [List.length_cons, List.length_nil, List.length_append] at hlength
  exact List.eq_nil_of_length_eq_zero (by omega)

private theorem IsSequence.cut_assignments {body : List Assignment}
    (hsequence : IsSequence (IsAssignment room) (before ++ after) body) (hat : AtItem before) :
    ∃ as bs,
      IsSequence (IsAssignment room) before as ∧ IsSequence (IsAssignment room) after bs := by
  obtain ⟨front, inner, outer, back, as, a, bs, rfl, rfl, -, hfront, hcut, hinner, hback⟩ :=
    hsequence.cut rfl hat
  obtain rfl := hcut.after_eq_nil hinner
  rw [List.append_nil] at hcut
  refine ⟨as ++ [a], bs, hfront.append ?_, hback⟩
  simpa using IsSequence.cons hcut .nil

/-! ## Cutting blocks -/

theorem IsBody.cut {body : List Assignment} (hbody : IsBody room (before ++ after) body)
    (hat : AtItem before) :
    ∃ first front back last as bs, before = first :: front ∧ after = back ++ [last] ∧
      first.lexeme = .keyword .beginWord ∧ IsSequence (IsAssignment room) front as ∧
      IsSequence (IsAssignment room) back bs ∧ last.lexeme = .keyword .endWord := by
  generalize htokens : before ++ after = tokens at hbody
  obtain @⟨first, last, tokens, _, hfirst, hsequence, hlast⟩ := hbody
  obtain ⟨token, front, rfl⟩ := List.exists_cons_of_ne_nil hat.ne_nil
  obtain ⟨rfl, hrest⟩ := List.cons_eq_cons.mp htokens
  by_cases hfront : front = []
  · subst hfront
    exact ⟨token, [], tokens, last, [], body, rfl, hrest, hfirst, .nil, hsequence, hlast⟩
  have hsplit : AtItem ([token] ++ front) := hat
  have hatFront := hsplit.of_append hfront
  rcases append_cut hrest.symm hatFront with ⟨more, rfl, rfl⟩ | ⟨more, rfl, hmore, hatMore⟩
  · obtain ⟨as, bs, has, hbs⟩ := hsequence.cut_assignments hatFront
    exact ⟨token, front, more, last, as, bs, rfl, rfl, hfirst, has, hbs, hlast⟩
  · have hinert : Inert [last] := by simp [Inert, hlast, Lexeme.BeforeItem]
    refine absurd (fun other hmem => hinert other ?_) hatMore.not_inert
    rw [hmore]
    exact List.mem_append_left _ hmem

theorem IsGuarded.cut {keyword : Keyword} {block : Guarded} (hkeyword : keyword ≠ .beginWord)
    (hblock : IsGuarded room keyword (before ++ after) block) (hat : AtItem before) :
    ∃ word colon front start conditions body, before = word :: (front ++ colon :: start) ∧
      word.lexeme = .keyword keyword ∧ IsConditions room front conditions ∧
      colon.lexeme = .mark .colon ∧ IsBody room (start ++ after) body ∧ AtItem start := by
  generalize htokens : before ++ after = tokens at hblock
  obtain @⟨word, colon, front, back, conditions, body, hword, hconditions, hcolon, hbody⟩ := hblock
  have hinert : Inert (word :: (front ++ [colon])) := by
    simp only [Inert, List.mem_cons, List.mem_append, List.not_mem_nil, or_false]
    rintro token (rfl | hmem | rfl)
    · simp [hword, Lexeme.BeforeItem, hkeyword]
    · exact (inLine_of_isConditions hconditions).inert token hmem
    · simp [hcolon, Lexeme.BeforeItem]
  have heq : word :: (front ++ [colon]) ++ back = before ++ after := by simpa using htokens.symm
  obtain ⟨start, rfl, rfl, hatStart⟩ := hinert.append_cut heq hat
  exact ⟨word, colon, front, start, conditions, body, by simp, hword, hconditions, hcolon, hbody,
    hatStart⟩

theorem IsOtherwise.cut {block : Otherwise} (hblock : IsOtherwise room (before ++ after) block)
    (hat : AtItem before) :
    ∃ word colon start body, before = word :: colon :: start ∧ word.lexeme = .keyword .elseWord ∧
      colon.lexeme = .mark .colon ∧ IsBody room (start ++ after) body ∧ AtItem start := by
  generalize htokens : before ++ after = tokens at hblock
  obtain @⟨word, colon, back, body, hword, hcolon, hbody⟩ := hblock
  have hinert : Inert [word, colon] := by simp [Inert, hword, hcolon, Lexeme.BeforeItem]
  have heq : [word, colon] ++ back = before ++ after := htokens.symm
  obtain ⟨start, rfl, rfl, hatStart⟩ := hinert.append_cut heq hat
  exact ⟨word, colon, start, body, rfl, hword, hcolon, hbody, hatStart⟩

/-- Of the statements only blocks and chains of blocks go on behind a place where an assignment can
begin. -/
theorem IsStatement.cut {s : Statement} (hstatement : IsStatement room (before ++ after) s)
    (hat : AtItem before) (hafter : after ≠ []) :
    (∃ c, IsConditional room (before ++ after) c) ∨
      ∃ block, IsGuarded room .loopWord (before ++ after) block := by
  generalize htokens : before ++ after = tokens at hstatement
  cases hstatement with
  | declaration h =>
      obtain @⟨word, semicolon, front, back, names, initial, hword, hnames, hinitial, -⟩ := h
      -- Behind no token of a declaration but its semicolon can an assignment begin.
      have hinert : Inert (word :: (front ++ back)) := by
        simp only [Inert, List.mem_cons, List.mem_append]
        rintro token (rfl | hmem | hmem)
        · simp [hword, Lexeme.BeforeItem]
        · exact (inLine_of_isNames hnames).inert token hmem
        · exact (inLine_of_isOptional_isInitial hinitial).inert token hmem
      have heq : word :: (front ++ back) ++ [semicolon] = before ++ after := by
        simpa using htokens.symm
      obtain ⟨more, -, hmore, hatMore⟩ := hinert.append_cut heq hat
      have hlength := congrArg List.length hmore
      have hfirst := List.length_pos_iff.mpr hatMore.ne_nil
      have hsecond := List.length_pos_iff.mpr hafter
      simp only [List.length_cons, List.length_nil, List.length_append] at hlength
      omega
  | assignment h =>
      rw [← htokens] at h
      exact absurd (h.after_eq_nil hat) hafter
  | conditional h => exact Or.inl ⟨_, h⟩
  | loop h => exact Or.inr ⟨_, h⟩

end Grammar

end LoopLang
