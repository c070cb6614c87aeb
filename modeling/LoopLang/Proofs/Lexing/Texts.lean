import LoopLang.Proofs.Lexing.Tokens

/-!
# The lexemes of a text

Which lexemes a text has depends on nothing but its characters (`Cursor.map_lexeme_tokens`).  White
space in front changes nothing, and a lexeme in front is read as it is written, as long as the
character behind it does not continue it (`lexemesOf_append`).  A text has as many opening
parentheses among its lexemes as among its characters (`count_openParen_lexemesOf`).
-/

namespace LoopLang

/-! ## Runs of one kind -/

theorem exists_cons_toList {text : String} (htext : text ≠ "") :
    ∃ c cs, text.toList = c :: cs :=
  List.exists_cons_of_ne_nil (by simpa using htext)

section

variable {α : Type} {p : α → Bool} {cs ds rest behind : List α}

theorem takeWhile_append_of_all (hall : ∀ c ∈ cs, p c) (hrest : ∀ c ∈ rest.head?, p c = false) :
    (cs ++ rest).takeWhile p = cs := by
  rw [List.takeWhile_append_of_pos hall]
  cases rest with
  | nil => simp
  | cons c rest => simp [hrest c rfl]

theorem dropWhile_append_of_all (hall : ∀ c ∈ cs, p c) (hrest : ∀ c ∈ rest.head?, p c = false) :
    (cs ++ rest).dropWhile p = rest := by
  rw [List.dropWhile_append_of_pos hall]
  cases rest with
  | nil => rfl
  | cons c rest => simp [hrest c rfl]

/-- A run of one kind of elements is known from a list it stands in front of. -/
theorem append_inj_of_all (hcs : ∀ c ∈ cs, p c) (hds : ∀ d ∈ ds, p d)
    (hrest : ∀ c ∈ rest.head?, p c = false) (hbehind : ∀ c ∈ behind.head?, p c = false)
    (hsame : cs ++ rest = ds ++ behind) : cs = ds ∧ rest = behind := by
  constructor
  · rw [← takeWhile_append_of_all hcs hrest, hsame, takeWhile_append_of_all hds hbehind]
  · rw [← dropWhile_append_of_all hcs hrest, hsame, dropWhile_append_of_all hds hbehind]

end

/-! ## Reading a lexeme that is written -/

/-- A text whose first character continues no lexeme. -/
def EndsLexeme (rest : List Char) : Prop :=
  ∀ c ∈ rest.head?, c.isAlpha = false ∧ c.isDigit = false ∧ c ≠ '='

theorem endsLexeme_cons {c : Char} (hc : c ∈ [' ', '\n', ')', ';', ',']) (rest : List Char) :
    EndsLexeme (c :: rest) := by
  intro d hd
  obtain rfl : c = d := by simpa using hd
  simp only [List.mem_cons, List.not_mem_nil, or_false] at hc
  rcases hc with rfl | rfl | rfl | rfl | rfl <;> decide

namespace Lexeme

/-- A run of letters is read as it is written, unless a letter is behind it. -/
theorem read_word {word : String} (hword : word ≠ "") (halpha : ∀ c ∈ word.toList, c.isAlpha)
    {rest : List Char} (hnext : ∀ c ∈ rest.head?, c.isAlpha = false) :
    read (word.toList ++ rest) = (ofWord word, rest) := by
  obtain ⟨c, cs, hcs⟩ := exists_cons_toList hword
  rw [hcs] at halpha
  have hletters : ∀ d ∈ cs, d.isAlpha := fun d hd => halpha d (List.mem_cons_of_mem _ hd)
  rw [hcs, List.cons_append, read, if_pos (halpha c List.mem_cons_self),
    takeWhile_append_of_all hletters hnext, dropWhile_append_of_all hletters hnext, ← hcs,
    String.ofList_toList]

theorem isAlpha_eq_false_of_isDigit {c : Char} (hdigit : c.isDigit = true) :
    c.isAlpha = false := by
  delta Char.isAlpha Char.isUpper Char.isLower
  simp only [Char.isDigit, Bool.and_eq_true, decide_eq_true_eq] at hdigit
  grind

/-- A run of digits is read as it is written, unless a digit is behind it. -/
theorem read_digits {digits : String} (hdigits : IsNumeral digits) {rest : List Char}
    (hnext : ∀ c ∈ rest.head?, c.isDigit = false) :
    read (digits.toList ++ rest) = (number digits, rest) := by
  obtain ⟨hne, hall⟩ := hdigits
  obtain ⟨c, cs, hcs⟩ := exists_cons_toList hne
  rw [hcs] at hall
  have hrun : ∀ d ∈ cs, d.isDigit := fun d hd => hall d (List.mem_cons_of_mem _ hd)
  have hdigit : c.isDigit = true := hall c List.mem_cons_self
  have halpha : ¬ c.isAlpha = true := by simp [isAlpha_eq_false_of_isDigit hdigit]
  rw [hcs, List.cons_append, read, if_neg halpha, if_pos hdigit,
    takeWhile_append_of_all hrun hnext, dropWhile_append_of_all hrun hnext, ← hcs,
    String.ofList_toList]

private theorem readSign_of_endsLexeme {c : Char} {rest : List Char} (hrest : EndsLexeme rest) :
    readSign c rest = (ofSign c, rest) := by
  unfold readSign
  split
  · exact absurd rfl (hrest '=' rfl).2.2
  · rfl

theorem read_cons {c : Char} (halpha : c.isAlpha = false) (hdigit : c.isDigit = false)
    (rest : List Char) : read (c :: rest) = readSign c rest := by
  simp [read, halpha, hdigit]

theorem ofWord_of_isName {name : String} (hname : IsName name) : ofWord name = ident name := by
  rw [ofWord, hname.2.2]
  rfl

private theorem read_reserved {word : String} {lexeme : Lexeme} (hword : word ≠ "")
    (halpha : word.toList.all Char.isAlpha = true) (hsame : ofWord word = lexeme) {rest : List Char}
    (hrest : EndsLexeme rest) : read (word.toList ++ rest) = (lexeme, rest) := by
  rw [read_word hword (List.all_eq_true.mp halpha) fun c hc => (hrest c hc).1, hsame]

private theorem read_single {c : Char} {lexeme : Lexeme} (halpha : c.isAlpha = false)
    (hdigit : c.isDigit = false) (hsame : ofSign c = lexeme) {rest : List Char}
    (hrest : EndsLexeme rest) : read ([c] ++ rest) = (lexeme, rest) := by
  rw [List.singleton_append, read_cons halpha hdigit, readSign_of_endsLexeme hrest, hsame]

theorem read_pair {c : Char} {lexeme : Lexeme} (halpha : c.isAlpha = false)
    (hdigit : c.isDigit = false) (hsame : withEquals? c = some lexeme) (rest : List Char) :
    read ([c, '='] ++ rest) = (lexeme, rest) := by
  calc read ([c, '='] ++ rest)
      = readSign c ('=' :: rest) := read_cons halpha hdigit ('=' :: rest)
    _ = (lexeme, rest) := by simp [readSign, hsame]

/-- A lexeme is read as it is written, unless the text behind it continues it. -/
theorem read_append {lexeme : Lexeme} (hlexical : lexeme.Lexical) {rest : List Char}
    (hrest : EndsLexeme rest) : read (lexeme.text.toList ++ rest) = (lexeme, rest) := by
  cases lexeme with
  | ident name =>
      have hread := read_word hlexical.1 hlexical.2.1 fun c hc => (hrest c hc).1
      rwa [ofWord_of_isName hlexical] at hread
  | number digits => exact read_digits hlexical fun c hc => (hrest c hc).2.1
  | keyword word => cases word <;> exact read_reserved (by decide) (by decide) (by decide) hrest
  | connective op => cases op <;> exact read_reserved (by decide) (by decide) (by decide) hrest
  | arith op => cases op <;> exact read_single (by decide) (by decide) (by decide) hrest
  | mark m => cases m <;> exact read_single (by decide) (by decide) (by decide) hrest
  | assign op =>
      cases op with
      | plain => exact read_single (by decide) (by decide) (by decide) hrest
      | compound op => cases op <;> exact read_pair (by decide) (by decide) (by decide) rest
  | relation op =>
      cases op with
      | lt | gt => exact read_single (by decide) (by decide) (by decide) hrest
      | eq | ne | le | ge => exact read_pair (by decide) (by decide) (by decide) rest
  | unknown found =>
      obtain ⟨hstray, halpha, hdigit, -⟩ := hlexical
      have htext : (unknown found).text.toList = [found] := by simp [text]
      rw [htext]
      exact read_single halpha hdigit hstray hrest
  | endOfInput => exact absurd hlexical id

/-- A mark is read as it is written, whatever is behind it. -/
theorem read_mark (m : Mark) (rest : List Char) :
    read ((mark m).text.toList ++ rest) = (mark m, rest) := by
  cases m <;> rfl

end Lexeme

/-! ## The lexemes of a text -/

/-- The lexemes of a text. -/
def lexemesOf (cs : List Char) : List Lexeme := (⟨cs, 0, .first⟩ : Cursor).tokens.map Token.lexeme

/-- Where a cursor stands makes no difference to the lexemes in front of it. -/
theorem Cursor.map_lexeme_tokens (cursor : Cursor) :
    cursor.tokens.map Token.lexeme = lexemesOf cursor.rest := by
  -- The induction goes along one cursor, and the other one passes the same characters.
  have hsame : ∀ cursor other : Cursor, cursor.rest = other.rest →
      cursor.tokens.map Token.lexeme = other.tokens.map Token.lexeme := by
    intro cursor
    induction cursor using Cursor.along with
    | stop cursor hend =>
        intro other hrest
        have hread : cursor.pastBlanks.rest = other.pastBlanks.rest := by
          rw [pastBlanks, pastBlanks, past, past, hrest]
        have hother : other.next.1.lexeme = .endOfInput := by
          rw [next_lexeme_eq_endOfInput_iff] at hend ⊢
          rwa [← hread]
        rw [tokens_eq, if_pos hend, tokens_eq, if_pos hother]
    | turn cursor hend ih =>
        intro other hrest
        have hread : cursor.pastBlanks.rest = other.pastBlanks.rest := by
          rw [pastBlanks, pastBlanks, past, past, hrest]
        have hlexeme : cursor.next.1.lexeme = other.next.1.lexeme := by
          rw [next_fst, next_fst, hread]
        have hbehind : cursor.next.2.rest = other.next.2.rest := by
          rw [next_snd, next_snd, past, past, hread]
        rw [tokens_eq, if_neg hend, tokens_eq other, if_neg (hlexeme ▸ hend), List.map_cons,
          List.map_cons, hlexeme, ih other.next.2 hbehind]
  exact hsame cursor _ rfl

@[simp] theorem lexemesOf_nil : lexemesOf [] = [] := rfl

private theorem lexemesOf_eq (cs : List Char) :
    lexemesOf cs =
      if (Lexeme.read (cs.dropWhile isBlank)).1 = .endOfInput then []
      else (Lexeme.read (cs.dropWhile isBlank)).1 ::
        lexemesOf (Lexeme.read (cs.dropWhile isBlank)).2 := by
  have hlexeme : (⟨cs, 0, .first⟩ : Cursor).next.1.lexeme =
      (Lexeme.read (cs.dropWhile isBlank)).1 := rfl
  rw [lexemesOf, Cursor.tokens_eq, hlexeme]
  by_cases hend : (Lexeme.read (cs.dropWhile isBlank)).1 = .endOfInput
  · rw [if_pos hend, if_pos hend, List.map_nil]
  · rw [if_neg hend, if_neg hend, List.map_cons, hlexeme, Cursor.map_lexeme_tokens]
    rfl

theorem lexemesOf_blank {c : Char} (hblank : isBlank c = true) (cs : List Char) :
    lexemesOf (c :: cs) = lexemesOf cs := by
  rw [lexemesOf_eq, lexemesOf_eq cs, List.dropWhile_cons_of_pos hblank]

theorem lexemesOf_blanks {blanks : List Char} (hblanks : ∀ c ∈ blanks, isBlank c = true)
    (cs : List Char) : lexemesOf (blanks ++ cs) = lexemesOf cs := by
  induction blanks with
  | nil => rfl
  | cons c blanks ih =>
      rw [List.cons_append, lexemesOf_blank (hblanks c List.mem_cons_self),
        ih fun d hd => hblanks d (List.mem_cons_of_mem _ hd)]

theorem isBlank_eq_false {c : Char} (hc : c.isAlpha = true ∨ c.isDigit = true) :
    isBlank c = false := by
  rw [Bool.eq_false_iff]
  intro hblank
  simp only [isBlank, Bool.or_eq_true, beq_iff_eq] at hblank
  rcases hblank with ((((rfl | rfl) | rfl) | rfl) | rfl) | rfl <;> revert hc <;> decide

/-- No lexeme holds white space. -/
theorem Lexeme.Lexical.isBlank_eq_false {lexeme : Lexeme} (hlexical : lexeme.Lexical) :
    ∀ c ∈ lexeme.text.toList, isBlank c = false := by
  cases lexeme, hlexical using Lexical.cases with
  | ident name hname => exact fun c hc => LoopLang.isBlank_eq_false (Or.inl (hname.2.1 c hc))
  | number digits hdigits =>
      exact fun c hc => LoopLang.isBlank_eq_false (Or.inr (hdigits.2 c hc))
  | fixed lexeme _ hmem =>
      have hall : ∀ lexeme ∈ fixed, lexeme.text.toList.all (!isBlank ·) = true := by decide
      intro c hc
      simpa using List.all_eq_true.mp (hall lexeme hmem) c hc
  | unknown found hfound =>
      intro c hc
      obtain rfl : c = found := by simpa [Lexeme.text] using hc
      exact hfound.2.2.2

private theorem lexemesOf_of_read {lexeme : Lexeme} (hlexical : lexeme.Lexical) {rest : List Char}
    (hread : Lexeme.read (lexeme.text.toList ++ rest) = (lexeme, rest)) :
    lexemesOf (lexeme.text.toList ++ rest) = lexeme :: lexemesOf rest := by
  have hdrop : (lexeme.text.toList ++ rest).dropWhile isBlank = lexeme.text.toList ++ rest := by
    obtain ⟨c, cs, hcs⟩ := List.exists_cons_of_ne_nil hlexical.text_ne_nil
    have hblank : isBlank c = false :=
      hlexical.isBlank_eq_false c (by rw [hcs]; exact List.mem_cons_self)
    rw [hcs, List.cons_append, List.dropWhile_cons_of_neg (by simp [hblank])]
  rw [lexemesOf_eq, hdrop, hread, if_neg hlexical.ne_endOfInput]

/-- A lexeme in front of a text that does not continue it. -/
theorem lexemesOf_append {lexeme : Lexeme} (hlexical : lexeme.Lexical) {rest : List Char}
    (hrest : EndsLexeme rest) :
    lexemesOf (lexeme.text.toList ++ rest) = lexeme :: lexemesOf rest :=
  lexemesOf_of_read hlexical (Lexeme.read_append hlexical hrest)

/-- A mark in front of a text. -/
theorem lexemesOf_mark (m : Mark) (rest : List Char) :
    lexemesOf ((Lexeme.mark m).text.toList ++ rest) = .mark m :: lexemesOf rest :=
  lexemesOf_of_read (Lexeme.lexical_mark m) (Lexeme.read_mark m rest)

/-! ## The parentheses of a text -/

/-- No lexeme but the mark itself is written with an opening parenthesis. -/
private theorem Lexeme.Lexical.count_openParen {lexeme : Lexeme} (hlexical : lexeme.Lexical) :
    lexeme.text.toList.count '(' = [lexeme].count (.mark .openParen) := by
  cases lexeme, hlexical using Lexical.cases with
  | ident name hname =>
      have hletters : '(' ∉ name.toList := fun hmem =>
        absurd (hname.2.1 '(' hmem) (by decide)
      simpa [Lexeme.text] using List.count_eq_zero.mpr hletters
  | number digits hnumeral =>
      have hdigits : '(' ∉ digits.toList := fun hmem =>
        absurd (hnumeral.2 '(' hmem) (by decide)
      simpa [Lexeme.text] using List.count_eq_zero.mpr hdigits
  | fixed lexeme _ hmem =>
      have hall : ∀ lexeme ∈ fixed,
          lexeme.text.toList.count '(' = [lexeme].count (.mark .openParen) := by decide
      exact hall lexeme hmem
  | unknown found hstray =>
      have hfound : found ≠ '(' := by
        rintro rfl
        exact absurd hstray.1 (by decide)
      simp [Lexeme.text, hfound]

private theorem Cursor.count_openParen (cursor : Cursor) :
    (cursor.tokens.map Token.lexeme).count (.mark .openParen) = cursor.rest.count '(' := by
  have hblanks : ∀ cursor : Cursor, (cursor.rest.takeWhile isBlank).count '(' = 0 := by
    intro cursor
    refine List.count_eq_zero.mpr fun hmem => ?_
    exact absurd (List.mem_takeWhile_imp hmem) (by decide)
  have hrest : ∀ cursor : Cursor, cursor.rest.count '(' = cursor.pastBlanks.rest.count '(' := by
    intro cursor
    rw [← congrArg (List.count '(') takeWhile_append_pastBlanks, List.count_append, hblanks,
      Nat.zero_add]
  induction cursor using Cursor.along with
  | stop cursor hend =>
      rw [tokens_eq, if_pos hend, hrest, next_lexeme_eq_endOfInput_iff.mp hend]
      rfl
  | turn cursor hend ih =>
      have hfirst := (lexical_next hend).count_openParen
      rw [tokens_eq, if_neg hend, List.map_cons, ← List.singleton_append, List.count_append, ih,
        ← hfirst, ← List.count_append, text_append_next, hrest cursor]

/-- The opening parentheses of a text are its characters of this kind. -/
theorem count_openParen_lexemesOf (cs : List Char) :
    (lexemesOf cs).count (.mark .openParen) = cs.count '(' :=
  Cursor.count_openParen _

end LoopLang
