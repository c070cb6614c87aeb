import LoopLang.Proofs.Grammar.Derivation

/-!
# Room and nesting

The grammar counts the room for parentheses down, and a text counts them up.  Both counts say the
same: a sentence is one with so much room if it is a sentence at all, and no parenthesis of it
stands inside so many others (`Grammar.isProgram_iff`).
-/

namespace LoopLang

/-- Whether each opening parenthesis has fewer than `limit` others around it, when `depth`
parentheses are open in front of the tokens. -/
def NestsWithin (limit depth : Nat) : List Token → Prop
  | [] => True
  | token :: tokens =>
    if token.lexeme = .mark .openParen then depth < limit ∧ NestsWithin limit (depth + 1) tokens
    else if token.lexeme = .mark .closeParen then NestsWithin limit (depth - 1) tokens
    else NestsWithin limit depth tokens

section

variable {limit depth : Nat} {token : Token} {tokens : List Token}

@[simp] theorem nestsWithin_nil : NestsWithin limit depth [] := trivial

private theorem nestsWithin_open (hopening : token.lexeme = .mark .openParen) :
    NestsWithin limit depth (token :: tokens) ↔
      depth < limit ∧ NestsWithin limit (depth + 1) tokens := by
  rw [NestsWithin, if_pos hopening]

private theorem nestsWithin_close (hclosing : token.lexeme = .mark .closeParen) :
    NestsWithin limit depth (token :: tokens) ↔ NestsWithin limit (depth - 1) tokens := by
  rw [NestsWithin, if_neg (by simp [hclosing]), if_pos hclosing]

/-- A token that is a word of the language and no parenthesis. -/
def Plain (token : Token) : Prop :=
  token.lexeme ≠ .mark .openParen ∧ token.lexeme ≠ .mark .closeParen ∧
    token.lexeme ≠ .endOfInput ∧ ∀ c, token.lexeme ≠ .unknown c

private theorem plain_of_lexeme {lexeme : Lexeme} (htoken : token.lexeme = lexeme)
    (hplain : lexeme ≠ .mark .openParen ∧ lexeme ≠ .mark .closeParen ∧ lexeme ≠ .endOfInput ∧
      ∀ c, lexeme ≠ .unknown c := by simp) : Plain token := by
  subst htoken
  exact hplain

private theorem nestsWithin_plain (hplain : Plain token) :
    NestsWithin limit depth (token :: tokens) ↔ NestsWithin limit depth tokens := by
  rw [NestsWithin, if_neg hplain.1, if_neg hplain.2.1]

end

namespace Grammar

/-! ## Sentences close what they open -/

/-- Words of the language, with parentheses that match. -/
inductive Bracketed : List Token → Prop where
  | nil : Bracketed []
  | cons {token : Token} {tokens : List Token} (hplain : Plain token)
      (htokens : Bracketed tokens) : Bracketed (token :: tokens)
  | nested {opening closing : Token} {inner : List Token}
      (hopening : opening.lexeme = .mark .openParen) (hinner : Bracketed inner)
      (hclosing : closing.lexeme = .mark .closeParen) : Bracketed (opening :: (inner ++ [closing]))
  | append {first second : List Token} (hfirst : Bracketed first) (hsecond : Bracketed second) :
      Bracketed (first ++ second)

/-- Behind such tokens as many parentheses are open as in front of them. -/
private theorem Bracketed.nestsWithin_append {tokens : List Token} (hbracketed : Bracketed tokens) :
    ∀ limit depth rest, NestsWithin limit depth (tokens ++ rest) ↔
      NestsWithin limit depth tokens ∧ NestsWithin limit depth rest := by
  induction hbracketed with
  | nil => simp
  | cons hplain _ ih =>
      intro limit depth rest
      rw [List.cons_append, nestsWithin_plain hplain, nestsWithin_plain hplain, ih]
  | nested hopening _ hclosing ih =>
      intro limit depth rest
      rw [List.cons_append, List.append_assoc, nestsWithin_open hopening,
        nestsWithin_open hopening, ih, ih, List.singleton_append, nestsWithin_close hclosing,
        nestsWithin_close hclosing, Nat.add_sub_cancel]
      simp [and_assoc]
  | append _ _ ihfirst ihsecond =>
      intro limit depth rest
      rw [List.append_assoc, ihfirst, ihsecond, ihfirst, and_assoc]

/-- No stray character stands among them, and the text does not end there. -/
theorem Bracketed.known {tokens : List Token} (hbracketed : Bracketed tokens) :
    ∀ token ∈ tokens, token.lexeme ≠ .endOfInput ∧ ∀ c, token.lexeme ≠ .unknown c := by
  induction hbracketed with
  | nil => simp
  | cons hplain _ ih =>
      intro token hmem
      rcases List.mem_cons.mp hmem with rfl | hmem
      · exact hplain.2.2
      · exact ih token hmem
  | nested hopening _ hclosing ih =>
      intro token hmem
      simp only [List.mem_cons, List.mem_append, List.not_mem_nil, or_false] at hmem
      rcases hmem with rfl | hmem | rfl
      · simp [hopening]
      · exact ih token hmem
      · simp [hclosing]
  | append _ _ ihfirst ihsecond =>
      intro token hmem
      rcases List.mem_append.mp hmem with hmem | hmem
      · exact ihfirst token hmem
      · exact ihsecond token hmem

theorem bracketed_isExpr {room : Nat} {level : Option Precedence} {tokens : List Token} {e : Expr}
    (hexpr : IsExpr room level tokens e) : Bracketed tokens := by
  induction hexpr with
  | ident htoken => exact .cons (plain_of_lexeme htoken) .nil
  | number htoken => exact .cons (plain_of_lexeme htoken) .nil
  | parenthesized hopening _ hclosing ih => exact .nested hopening ih hclosing
  | single _ ih => exact ih
  | binary _ hsign _ _ ihleft ihright => exact ihleft.append (.cons (plain_of_lexeme hsign) ihright)

private theorem nestsWithin_of_isExpr {room : Nat} {level : Option Precedence} {tokens : List Token}
    {e : Expr} (hexpr : IsExpr room level tokens e) :
    ∀ depth, NestsWithin (depth + room) depth tokens := by
  induction hexpr with
  | ident htoken =>
      intro depth
      rw [nestsWithin_plain (plain_of_lexeme htoken)]
      exact nestsWithin_nil
  | number htoken =>
      intro depth
      rw [nestsWithin_plain (plain_of_lexeme htoken)]
      exact nestsWithin_nil
  | @parenthesized room _ _ inner _ hopening hinner hclosing ih =>
      intro depth
      -- One level further in there is room for one level less.
      have hinside : NestsWithin (depth + (room + 1)) (depth + 1) inner := by
        have h := ih (depth + 1)
        rwa [Nat.add_right_comm] at h
      rw [nestsWithin_open hopening, (bracketed_isExpr hinner).nestsWithin_append,
        nestsWithin_close hclosing]
      exact ⟨by omega, hinside, nestsWithin_nil⟩
  | single _ ih => exact ih
  | binary hleft hsign _ _ ihleft ihright =>
      intro depth
      rw [(bracketed_isExpr hleft).nestsWithin_append, nestsWithin_plain (plain_of_lexeme hsign)]
      exact ⟨ihleft depth, ihright depth⟩

private theorem isExpr_of_nestsWithin {room : Nat} {level : Option Precedence} {tokens : List Token}
    {e : Expr} (hexpr : IsExpr room level tokens e) :
    ∀ limit depth, NestsWithin (depth + limit) depth tokens → IsExpr limit level tokens e := by
  induction hexpr with
  | ident htoken => exact fun _ _ _ => .ident htoken
  | number htoken => exact fun _ _ _ => .number htoken
  | @parenthesized room _ _ inner _ hopening hinner hclosing ih =>
      intro limit depth hnests
      rw [nestsWithin_open hopening, (bracketed_isExpr hinner).nestsWithin_append] at hnests
      obtain ⟨hlt, hinside, -⟩ := hnests
      obtain ⟨limit, rfl⟩ : ∃ inside, limit = inside + 1 := ⟨limit - 1, by omega⟩
      have hlimit : depth + (limit + 1) = depth + 1 + limit := by omega
      rw [hlimit] at hinside
      exact .parenthesized hopening (ih _ _ hinside) hclosing
  | single _ ih => exact fun limit depth hnests => .single (ih limit depth hnests)
  | binary hleft hsign hlevel _ ihleft ihright =>
      intro limit depth hnests
      rw [(bracketed_isExpr hleft).nestsWithin_append,
        nestsWithin_plain (plain_of_lexeme hsign)] at hnests
      exact .binary (ihleft _ _ hnests.1) hsign hlevel (ihright _ _ hnests.2)

/-! ## Room is nesting, whatever the kind of sentence -/

/-- The parentheses of a kind of sentence match, and it has the room that they need. -/
structure RoomIsNesting {α : Type} (P : Nat → List Token → α → Prop) : Prop where
  bracketed : ∀ {room : Nat} {tokens : List Token} {a : α}, P room tokens a → Bracketed tokens
  nests : ∀ {room : Nat} {tokens : List Token} {a : α}, P room tokens a →
    NestsWithin room 0 tokens
  of_nests : ∀ {room limit : Nat} {tokens : List Token} {a : α}, P room tokens a →
    NestsWithin limit 0 tokens → P limit tokens a

private theorem RoomIsNesting.closes {α : Type} {P : Nat → List Token → α → Prop}
    (hP : RoomIsNesting P) {room : Nat} {tokens : List Token} {a : α} (h : P room tokens a)
    (limit depth : Nat) (rest : List Token) : NestsWithin limit depth (tokens ++ rest) ↔
      NestsWithin limit depth tokens ∧ NestsWithin limit depth rest :=
  (hP.bracketed h).nestsWithin_append limit depth rest

section

variable {α : Type} {P : Nat → List Token → α → Prop}

theorem roomIsNesting_isSequence (hP : RoomIsNesting P) :
    RoomIsNesting fun room => IsSequence (P room) where
  bracketed := by
    intro room tokens as h
    induction h with
    | nil => exact .nil
    | cons hfirst _ ih => exact (hP.bracketed hfirst).append ih
  nests := by
    intro room tokens as h
    induction h with
    | nil => exact nestsWithin_nil
    | cons hfirst _ ih => exact (hP.closes hfirst _ _ _).mpr ⟨hP.nests hfirst, ih⟩
  of_nests := by
    intro room limit tokens as h
    induction h with
    | nil => exact fun _ => .nil
    | cons hfirst _ ih =>
        intro hnests
        rw [hP.closes hfirst] at hnests
        exact .cons (hP.of_nests hfirst hnests.1) (ih hnests.2)

private theorem roomIsNesting_isOptional (hP : RoomIsNesting P) :
    RoomIsNesting fun room => IsOptional (P room) where
  bracketed := by
    rintro room _ _ (_ | h)
    · exact .nil
    · exact hP.bracketed h
  nests := by
    rintro room _ _ (_ | h)
    · exact nestsWithin_nil
    · exact hP.nests h
  of_nests := by
    rintro room limit _ _ (_ | h) hnests
    · exact .none
    · exact .some (hP.of_nests h hnests)

end

private theorem roomIsNesting_isExpr : RoomIsNesting fun room => IsExpr room (some .additive) where
  bracketed := bracketed_isExpr
  nests := fun h => by simpa using nestsWithin_of_isExpr h 0
  of_nests := fun h hnests => isExpr_of_nestsWithin h _ 0 (by simpa using hnests)

private theorem roomIsNesting_isComparison : RoomIsNesting IsComparison where
  bracketed := by
    rintro room _ _ ⟨hleft, hsign, hright⟩
    exact (bracketed_isExpr hleft).append (.cons (plain_of_lexeme hsign) (bracketed_isExpr hright))
  nests := by
    rintro room _ _ ⟨hleft, hsign, hright⟩
    rw [(bracketed_isExpr hleft).nestsWithin_append, nestsWithin_plain (plain_of_lexeme hsign)]
    exact ⟨roomIsNesting_isExpr.nests hleft, roomIsNesting_isExpr.nests hright⟩
  of_nests := by
    rintro room limit _ _ ⟨hleft, hsign, hright⟩ hnests
    rw [(bracketed_isExpr hleft).nestsWithin_append, nestsWithin_plain (plain_of_lexeme hsign)]
      at hnests
    exact ⟨roomIsNesting_isExpr.of_nests hleft hnests.1, hsign,
      roomIsNesting_isExpr.of_nests hright hnests.2⟩

private theorem roomIsNesting_isConditions : RoomIsNesting IsConditions := by
  have hbracketed : ∀ {room : Nat} {tokens : List Token} {cs : Conditions},
      IsConditions room tokens cs → Bracketed tokens := by
    intro room tokens cs h
    induction h with
    | single h => exact roomIsNesting_isComparison.bracketed h
    | combined _ hword hright ih =>
        exact ih.append
          (.cons (plain_of_lexeme hword) (roomIsNesting_isComparison.bracketed hright))
  refine ⟨hbracketed, ?_, ?_⟩
  · intro room tokens cs h
    induction h with
    | single h => exact roomIsNesting_isComparison.nests h
    | combined hleft hword hright ih =>
        rw [(hbracketed hleft).nestsWithin_append, nestsWithin_plain (plain_of_lexeme hword)]
        exact ⟨ih, roomIsNesting_isComparison.nests hright⟩
  · intro room limit tokens cs h
    induction h with
    | single h => exact fun hnests => .single (roomIsNesting_isComparison.of_nests h hnests)
    | combined hleft hword hright ih =>
        intro hnests
        rw [(hbracketed hleft).nestsWithin_append, nestsWithin_plain (plain_of_lexeme hword)]
          at hnests
        exact .combined (ih hnests.1) hword
          (roomIsNesting_isComparison.of_nests hright hnests.2)

private theorem bracketed_isNames {tokens : List Token} {names : List String}
    (hnames : IsNames tokens names) :
    Bracketed tokens ∧ ∀ limit, NestsWithin limit 0 tokens := by
  induction hnames with
  | one htoken =>
      have hplain := plain_of_lexeme htoken
      exact ⟨.cons hplain .nil, fun limit => (nestsWithin_plain hplain).mpr nestsWithin_nil⟩
  | more _ hcomma htoken ih =>
      have hplain := plain_of_lexeme htoken
      have hseparator := plain_of_lexeme hcomma
      refine ⟨ih.1.append (.cons hseparator (.cons hplain .nil)), fun limit => ?_⟩
      rw [ih.1.nestsWithin_append, nestsWithin_plain hseparator, nestsWithin_plain hplain]
      exact ⟨ih.2 limit, nestsWithin_nil⟩

private theorem roomIsNesting_isInitial : RoomIsNesting IsInitial where
  bracketed := by
    rintro room _ _ ⟨hsign, hexpr⟩
    exact .cons (plain_of_lexeme hsign) (bracketed_isExpr hexpr)
  nests := by
    rintro room _ _ ⟨hsign, hexpr⟩
    rw [nestsWithin_plain (plain_of_lexeme hsign)]
    exact roomIsNesting_isExpr.nests hexpr
  of_nests := by
    rintro room limit _ _ ⟨hsign, hexpr⟩ hnests
    rw [nestsWithin_plain (plain_of_lexeme hsign)] at hnests
    exact ⟨hsign, roomIsNesting_isExpr.of_nests hexpr hnests⟩

theorem roomIsNesting_isDeclaration : RoomIsNesting IsDeclaration where
  bracketed := by
    rintro room _ _ ⟨hword, hnames, hinitial, hsemicolon⟩
    have hback := (roomIsNesting_isOptional roomIsNesting_isInitial).bracketed hinitial
    have hend := Bracketed.cons (plain_of_lexeme hsemicolon) .nil
    exact .cons (plain_of_lexeme hword) ((bracketed_isNames hnames).1.append (hback.append hend))
  nests := by
    rintro room _ _ ⟨hword, hnames, hinitial, hsemicolon⟩
    have hoptional := roomIsNesting_isOptional roomIsNesting_isInitial
    rw [nestsWithin_plain (plain_of_lexeme hword), (bracketed_isNames hnames).1.nestsWithin_append,
      hoptional.closes hinitial, nestsWithin_plain (plain_of_lexeme hsemicolon)]
    exact ⟨(bracketed_isNames hnames).2 room, hoptional.nests hinitial, nestsWithin_nil⟩
  of_nests := by
    rintro room limit _ _ ⟨hword, hnames, hinitial, hsemicolon⟩ hnests
    have hoptional := roomIsNesting_isOptional roomIsNesting_isInitial
    rw [nestsWithin_plain (plain_of_lexeme hword), (bracketed_isNames hnames).1.nestsWithin_append,
      hoptional.closes hinitial] at hnests
    exact ⟨hword, hnames, hoptional.of_nests hinitial hnests.2.1, hsemicolon⟩

theorem roomIsNesting_isAssignment : RoomIsNesting IsAssignment where
  bracketed := by
    rintro room _ _ ⟨htoken, hsign, hvalue, hsemicolon⟩
    have hend := Bracketed.cons (plain_of_lexeme hsemicolon) .nil
    exact .cons (plain_of_lexeme htoken) (.cons (plain_of_lexeme hsign)
      ((bracketed_isExpr hvalue).append hend))
  nests := by
    rintro room _ _ ⟨htoken, hsign, hvalue, hsemicolon⟩
    rw [nestsWithin_plain (plain_of_lexeme htoken),
      nestsWithin_plain (plain_of_lexeme hsign), (bracketed_isExpr hvalue).nestsWithin_append,
      nestsWithin_plain (plain_of_lexeme hsemicolon)]
    exact ⟨roomIsNesting_isExpr.nests hvalue, nestsWithin_nil⟩
  of_nests := by
    rintro room limit _ _ ⟨htoken, hsign, hvalue, hsemicolon⟩ hnests
    rw [nestsWithin_plain (plain_of_lexeme htoken), nestsWithin_plain (plain_of_lexeme hsign),
      (bracketed_isExpr hvalue).nestsWithin_append] at hnests
    exact ⟨htoken, hsign, roomIsNesting_isExpr.of_nests hvalue hnests.1, hsemicolon⟩

private theorem roomIsNesting_isBody : RoomIsNesting IsBody where
  bracketed := by
    rintro room _ _ ⟨hfirst, htokens, hlast⟩
    have hinner := (roomIsNesting_isSequence roomIsNesting_isAssignment).bracketed htokens
    have hend := Bracketed.cons (plain_of_lexeme hlast) .nil
    exact .cons (plain_of_lexeme hfirst) (hinner.append hend)
  nests := by
    rintro room _ _ ⟨hfirst, htokens, hlast⟩
    have hsequence := roomIsNesting_isSequence roomIsNesting_isAssignment
    rw [nestsWithin_plain (plain_of_lexeme hfirst), hsequence.closes htokens,
      nestsWithin_plain (plain_of_lexeme hlast)]
    exact ⟨hsequence.nests htokens, nestsWithin_nil⟩
  of_nests := by
    rintro room limit _ _ ⟨hfirst, htokens, hlast⟩ hnests
    have hsequence := roomIsNesting_isSequence roomIsNesting_isAssignment
    rw [nestsWithin_plain (plain_of_lexeme hfirst), hsequence.closes htokens]
      at hnests
    exact ⟨hfirst, hsequence.of_nests htokens hnests.1, hlast⟩

private theorem roomIsNesting_isGuarded (keyword : Keyword) :
    RoomIsNesting fun room => IsGuarded room keyword where
  bracketed := by
    rintro room _ _ ⟨hword, hconditions, hcolon, hbody⟩
    have hback := Bracketed.cons (plain_of_lexeme hcolon) (roomIsNesting_isBody.bracketed hbody)
    exact .cons (plain_of_lexeme hword)
      ((roomIsNesting_isConditions.bracketed hconditions).append hback)
  nests := by
    rintro room _ _ ⟨hword, hconditions, hcolon, hbody⟩
    rw [nestsWithin_plain (plain_of_lexeme hword),
      roomIsNesting_isConditions.closes hconditions,
      nestsWithin_plain (plain_of_lexeme hcolon)]
    exact ⟨roomIsNesting_isConditions.nests hconditions, roomIsNesting_isBody.nests hbody⟩
  of_nests := by
    rintro room limit _ _ ⟨hword, hconditions, hcolon, hbody⟩ hnests
    rw [nestsWithin_plain (plain_of_lexeme hword),
      roomIsNesting_isConditions.closes hconditions,
      nestsWithin_plain (plain_of_lexeme hcolon)] at hnests
    exact ⟨hword, roomIsNesting_isConditions.of_nests hconditions hnests.1, hcolon,
      roomIsNesting_isBody.of_nests hbody hnests.2⟩

private theorem roomIsNesting_isOtherwise : RoomIsNesting IsOtherwise where
  bracketed := by
    rintro room _ _ ⟨hword, hcolon, hbody⟩
    exact .cons (plain_of_lexeme hword)
      (.cons (plain_of_lexeme hcolon) (roomIsNesting_isBody.bracketed hbody))
  nests := by
    rintro room _ _ ⟨hword, hcolon, hbody⟩
    rw [nestsWithin_plain (plain_of_lexeme hword),
      nestsWithin_plain (plain_of_lexeme hcolon)]
    exact roomIsNesting_isBody.nests hbody
  of_nests := by
    rintro room limit _ _ ⟨hword, hcolon, hbody⟩ hnests
    rw [nestsWithin_plain (plain_of_lexeme hword),
      nestsWithin_plain (plain_of_lexeme hcolon)] at hnests
    exact ⟨hword, hcolon, roomIsNesting_isBody.of_nests hbody hnests⟩

private theorem roomIsNesting_isConditional : RoomIsNesting IsConditional := by
  have hguarded := roomIsNesting_isGuarded
  have hsequence := roomIsNesting_isSequence (hguarded .elifWord)
  have hoptional := roomIsNesting_isOptional roomIsNesting_isOtherwise
  refine ⟨?_, ?_, ?_⟩
  · rintro room _ _ ⟨hhead, helifs, hotherwise⟩
    exact ((hguarded _).bracketed hhead).append
      ((hsequence.bracketed helifs).append (hoptional.bracketed hotherwise))
  · rintro room _ _ ⟨hhead, helifs, hotherwise⟩
    rw [(hguarded _).closes hhead, hsequence.closes helifs]
    exact ⟨(hguarded _).nests hhead, hsequence.nests helifs, hoptional.nests hotherwise⟩
  · rintro room limit _ _ ⟨hhead, helifs, hotherwise⟩ hnests
    rw [(hguarded _).closes hhead, hsequence.closes helifs] at hnests
    exact ⟨(hguarded _).of_nests hhead hnests.1, hsequence.of_nests helifs hnests.2.1,
      hoptional.of_nests hotherwise hnests.2.2⟩

theorem roomIsNesting_isStatement : RoomIsNesting IsStatement where
  bracketed := by
    intro room tokens s h
    cases h with
    | declaration h => exact roomIsNesting_isDeclaration.bracketed h
    | assignment h => exact roomIsNesting_isAssignment.bracketed h
    | conditional h => exact roomIsNesting_isConditional.bracketed h
    | loop h => exact (roomIsNesting_isGuarded _).bracketed h
  nests := by
    intro room tokens s h
    cases h with
    | declaration h => exact roomIsNesting_isDeclaration.nests h
    | assignment h => exact roomIsNesting_isAssignment.nests h
    | conditional h => exact roomIsNesting_isConditional.nests h
    | loop h => exact (roomIsNesting_isGuarded _).nests h
  of_nests := by
    intro room limit tokens s h hnests
    cases h with
    | declaration h => exact .declaration (roomIsNesting_isDeclaration.of_nests h hnests)
    | assignment h => exact .assignment (roomIsNesting_isAssignment.of_nests h hnests)
    | conditional h => exact .conditional (roomIsNesting_isConditional.of_nests h hnests)
    | loop h => exact .loop ((roomIsNesting_isGuarded _).of_nests h hnests)

/-- A program has room for its parentheses if and only if they nest within it. -/
theorem isProgram_iff {limit : Nat} {tokens : List Token} {p : Program} :
    IsProgram limit tokens p ↔
      (∃ room, IsProgram room tokens p) ∧ NestsWithin limit 0 tokens := by
  have hsequence := roomIsNesting_isSequence roomIsNesting_isStatement
  constructor
  · exact fun h => ⟨⟨limit, h⟩, hsequence.nests h⟩
  · rintro ⟨⟨room, h⟩, hnests⟩
    exact hsequence.of_nests h hnests

/-! ## Valid texts -/

/-- The tokens are a program of the grammar, its declarations list distinct names, and each of its
parentheses has fewer than `limit` others around it. -/
structure IsValid (limit : Nat) (tokens : List Token) (p : Program) : Prop where
  derived : ∃ room, IsProgram room tokens p
  distinct : p.DistinctNames
  nests : NestsWithin limit 0 tokens

theorem isValid_iff {limit : Nat} {tokens : List Token} {p : Program} :
    IsValid limit tokens p ↔ IsProgram limit tokens p ∧ p.DistinctNames := by
  rw [isProgram_iff]
  constructor
  · exact fun h => ⟨⟨h.derived, h.nests⟩, h.distinct⟩
  · exact fun h => ⟨h.1.1, h.2, h.1.2⟩

end Grammar

end LoopLang
