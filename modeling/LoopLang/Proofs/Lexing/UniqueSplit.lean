import LoopLang.Proofs.Lexing.Texts

/-!
# The only way to split a text

The tokens of a text are described without saying how they are found (`IsSplit`): they are words of
the language, with nothing but white space between them, and none of them could be made longer.
There is exactly one list like this, the one that is read (`isSplit_iff_eq_tokenize`).

What is a word of the language depends on its text alone (`Lexeme.classify?`), and so does which
characters would make it longer (`Lexeme.GrowsBy`).  Reading agrees with both
(`Lexeme.read_of_classify?`, `Lexeme.not_growsBy_read`).  A place in a text is a number of bytes;
since no character takes none, it determines the characters before it
(`append_inj_of_utf8Length`), and so a list of words is compared with the tokens from the front,
word by word.
-/

namespace LoopLang

/-! ## The lexeme of a text -/

namespace Lexeme

/-- The lexeme with a given text.  A run of letters is a reserved word or a name, and a run of
digits a number; the other lexemes are operators, marks and single characters outside the
language. -/
def classify? (text : String) : Option Lexeme :=
  if text = "" then none
  else if text.toList.all Char.isAlpha then some (ofWord text)
  else if text.toList.all Char.isDigit then some (number text)
  else match text.toList with
    | [c] => some (ofSign c)
    | [c, '='] => withEquals? c
    | _ => none

/-- Whether a character behind the text of a lexeme belongs to it: a letter behind letters, a digit
behind digits, an equals sign behind a character with which it makes a lexeme. -/
def GrowsBy (text : String) (next : Char) : Prop :=
  (text.toList.all Char.isAlpha = true ∧ next.isAlpha = true) ∨
    (text.toList.all Char.isDigit = true ∧ next.isDigit = true) ∨
    ∃ c, text.toList = [c] ∧ (withEquals? c).isSome = true ∧ next = '='

private theorem sign_of_withEquals? {c : Char} {lexeme : Lexeme}
    (hpair : withEquals? c = some lexeme) :
    c.isAlpha = false ∧ c.isDigit = false := by
  unfold withEquals? at hpair
  split at hpair
  all_goals first
    | exact ⟨rfl, rfl⟩
    | simp at hpair

private theorem not_growsBy_of_sign {c next : Char} (halpha : c.isAlpha = false)
    (hdigit : c.isDigit = false) {text : String} (htext : text.toList = [c])
    (hnext : (withEquals? c).isSome = true → next ≠ '=') : ¬ GrowsBy text next := by
  rintro (⟨hall, -⟩ | ⟨hall, -⟩ | ⟨d, hd, hpair, hequals⟩)
  · simp [htext, halpha] at hall
  · simp [htext, hdigit] at hall
  · obtain rfl : c = d := List.singleton_inj.mp (htext.symm.trans hd)
    exact hnext hpair hequals

/-- Each lexeme that can stand in a text is the one with its text. -/
theorem Lexical.classify?_text {lexeme : Lexeme} (hlexical : lexeme.Lexical) :
    classify? lexeme.text = some lexeme := by
  cases lexeme, hlexical using Lexical.cases with
  | ident name hname =>
      have hall : name.toList.all Char.isAlpha = true := List.all_eq_true.mpr hname.2.1
      rw [text, classify?, if_neg hname.1, if_pos hall, ofWord_of_isName hname]
  | number digits hnumeral =>
      obtain ⟨hne, hdigit⟩ := hnumeral
      have hall : digits.toList.all Char.isDigit = true := List.all_eq_true.mpr hdigit
      have hsome : ¬ digits.toList.all Char.isAlpha = true := by
        obtain ⟨c, cs, hcs⟩ := exists_cons_toList hne
        rw [hcs] at hdigit ⊢
        simp [isAlpha_eq_false_of_isDigit (hdigit c List.mem_cons_self)]
      rw [text, classify?, if_neg hne, if_neg hsome, if_pos hall]
  | fixed lexeme _ hmem =>
      have hall : ∀ lexeme ∈ fixed, classify? lexeme.text = some lexeme := by decide
      exact hall lexeme hmem
  | unknown found hfound =>
      obtain ⟨hstray, halpha, hdigit, -⟩ := hfound
      simp [text, classify?, halpha, hdigit, hstray]

/-! ## Reading as much as possible -/

/-- A text is read as the lexeme it is the text of, unless something behind it belongs to it. -/
theorem read_of_classify? {text : String} {lexeme : Lexeme} (hclass : classify? text = some lexeme)
    {rest : List Char} (hrest : ∀ c ∈ rest.head?, ¬ GrowsBy text c) :
    read (text.toList ++ rest) = (lexeme, rest) := by
  unfold classify? at hclass
  split at hclass
  · contradiction
  rename_i hne
  split at hclass
  · rename_i hall
    obtain rfl := Option.some.inj hclass
    refine read_word hne (List.all_eq_true.mp hall) fun c hc => ?_
    exact Bool.eq_false_iff.mpr fun hletter => hrest c hc (Or.inl ⟨hall, hletter⟩)
  rename_i halpha
  split at hclass
  · rename_i hall
    obtain rfl := Option.some.inj hclass
    refine read_digits ⟨hne, List.all_eq_true.mp hall⟩ fun c hc => ?_
    exact Bool.eq_false_iff.mpr fun hdigit => hrest c hc (Or.inr (Or.inl ⟨hall, hdigit⟩))
  rename_i hdigit
  -- What is left are one sign, and one sign with an equals sign behind it.
  split at hclass
  · rename_i c htext
    obtain rfl := Option.some.inj hclass
    rw [htext] at halpha hdigit ⊢
    rw [List.singleton_append, read_cons (by simpa using halpha) (by simpa using hdigit)]
    unfold readSign
    split
    · rename_i lexeme behind hpair
      exact absurd (Or.inr (Or.inr ⟨c, htext, by rw [hpair]; rfl, rfl⟩)) (hrest '=' rfl)
    · rfl
  · rename_i c htext
    obtain ⟨hc, hc'⟩ := sign_of_withEquals? hclass
    rw [htext]
    exact read_pair hc hc' hclass rest
  · contradiction

private theorem eq_false_of_head?_dropWhile {p : Char → Bool} {cs : List Char} {next : Char}
    (hnext : next ∈ (cs.dropWhile p).head?) : p next = false := by
  have hhead := List.head?_dropWhile_not p cs
  rwa [Option.mem_def.mp hnext] at hhead

/-- What begins with a letter and goes on with others is continued by a letter only. -/
private theorem not_growsBy_of_letter {c next : Char} (halpha : c.isAlpha = true)
    (hnext : next.isAlpha = false) {text : String} {cs : List Char}
    (htext : text.toList = c :: cs) : ¬ GrowsBy text next := by
  rintro (⟨-, hletter⟩ | ⟨hall, -⟩ | ⟨d, hd, hpair, -⟩)
  · simp [hnext] at hletter
  · have hdigit : c.isDigit = true := List.all_eq_true.mp hall c (by simp [htext])
    simp [isAlpha_eq_false_of_isDigit hdigit] at halpha
  · obtain ⟨lexeme, hpair⟩ := Option.isSome_iff_exists.mp hpair
    obtain ⟨rfl, -⟩ := List.cons.inj (htext.symm.trans hd)
    simp [(sign_of_withEquals? hpair).1] at halpha

/-- What begins with a digit is continued by a digit only. -/
private theorem not_growsBy_of_digit {c next : Char} (hdigit : c.isDigit = true)
    (hnext : next.isDigit = false) {text : String} {cs : List Char}
    (htext : text.toList = c :: cs) : ¬ GrowsBy text next := by
  rintro (⟨hall, -⟩ | ⟨-, hdigit'⟩ | ⟨d, hd, hpair, -⟩)
  · have halpha : c.isAlpha = true := List.all_eq_true.mp hall c (by simp [htext])
    simp [isAlpha_eq_false_of_isDigit hdigit] at halpha
  · simp [hnext] at hdigit'
  · obtain ⟨lexeme, hpair⟩ := Option.isSome_iff_exists.mp hpair
    obtain ⟨rfl, -⟩ := List.cons.inj (htext.symm.trans hd)
    simp [(sign_of_withEquals? hpair).2] at hdigit

/-- Nothing behind a lexeme that was read belongs to it. -/
theorem not_growsBy_read (c : Char) (cs : List Char) :
    ∀ next ∈ (read (c :: cs)).2.head?, ¬ GrowsBy (read (c :: cs)).1.text next := by
  intro next
  by_cases halpha : c.isAlpha = true
  · rw [read, if_pos halpha]
    intro hnext
    have htext : (ofWord (String.ofList (c :: cs.takeWhile Char.isAlpha))).text.toList =
        c :: cs.takeWhile Char.isAlpha := by rw [text_ofWord, String.toList_ofList]
    exact not_growsBy_of_letter halpha (eq_false_of_head?_dropWhile hnext) htext
  by_cases hdigit : c.isDigit = true
  · rw [read, if_neg halpha, if_pos hdigit]
    intro hnext
    exact not_growsBy_of_digit hdigit (eq_false_of_head?_dropWhile hnext) String.toList_ofList
  have halpha' : c.isAlpha = false := Bool.eq_false_iff.mpr halpha
  have hdigit' : c.isDigit = false := Bool.eq_false_iff.mpr hdigit
  rw [read_cons halpha' hdigit']
  unfold readSign
  split
  · rename_i lexeme behind hpair
    have htext := text_of_withEquals hpair
    rintro - (⟨hall, -⟩ | ⟨hall, -⟩ | ⟨d, hd, -⟩)
    · simp [htext, halpha'] at hall
    · simp [htext, hdigit'] at hall
    · simp [htext] at hd
  · rename_i hsingle
    intro hnext
    refine not_growsBy_of_sign halpha' hdigit' (text_ofSign c) fun hpair hequals => ?_
    -- With an equals sign behind it, the two would have been read together.
    obtain ⟨lexeme, hpair⟩ := Option.isSome_iff_exists.mp hpair
    obtain ⟨behind, hbehind⟩ := List.head?_eq_some_iff.mp hnext
    exact hsingle lexeme behind hpair (hequals ▸ hbehind)

end Lexeme

/-! ## Places in a text -/

/-- The bytes of a text from `start` up to `stop` are those of some characters. -/
def Span.Holds (source : String) (span : Span) (cs : List Char) : Prop :=
  ∃ before after, source.toList = before ++ cs ++ after ∧ span.start = utf8Length before ∧
    span.stop = utf8Length (before ++ cs)

private theorem utf8Length_toList (source : String) :
    utf8Length source.toList = source.utf8ByteSize := by
  have hlist : ∀ cs : List Char, (String.ofList cs).utf8ByteSize = utf8Length cs := by
    intro cs
    induction cs with
    | nil => rfl
    | cons c cs ih =>
        rw [← List.singleton_append, String.ofList_append, String.utf8ByteSize_append, ih]
        simp
  rw [← hlist, String.ofList_toList]

/-- Two ways to cut a text behind the same number of bytes are the same. -/
theorem append_inj_of_utf8Length {before after before' after' : List Char}
    (hsame : before ++ after = before' ++ after')
    (hlength : utf8Length before = utf8Length before') : before = before' ∧ after = after' := by
  have hnil : ∀ cs : List Char, utf8Length cs = 0 → cs = [] := by
    intro cs hzero
    by_contra hne
    exact absurd hzero (utf8Length_pos hne).ne'
  rcases List.append_eq_append_iff.mp hsame with ⟨cs, rfl, rfl⟩ | ⟨cs, rfl, rfl⟩
  · rw [utf8Length_append] at hlength
    obtain rfl := hnil cs (by omega)
    simp
  · rw [utf8Length_append] at hlength
    obtain rfl := hnil cs (by omega)
    simp

namespace Cursor

variable {source : String} {cursor : Cursor} {cs rest : List Char} {stop : Nat}

/-- The cursor stands in a text: what it has in front of it is what is left of the text behind as
many bytes as it says. -/
def StandsIn (source : String) (cursor : Cursor) : Prop :=
  ∃ passed, source.toList = passed ++ cursor.rest ∧ cursor.offset = utf8Length passed

private theorem standsIn_start (source : String) : (start source).StandsIn source := ⟨[], rfl, rfl⟩

private theorem StandsIn.past (hstands : cursor.StandsIn source)
    (hrest : cursor.rest = cs ++ rest) :
    (cursor.past cs rest).StandsIn source := by
  obtain ⟨passed, hsource, hoffset⟩ := hstands
  refine ⟨passed ++ cs, ?_, ?_⟩
  · rw [hsource, hrest, ← List.append_assoc]
    rfl
  · rw [utf8Length_append, ← hoffset]
    rfl

private theorem StandsIn.pastBlanks (hstands : cursor.StandsIn source) :
    cursor.pastBlanks.StandsIn source :=
  hstands.past takeWhile_append_pastBlanks.symm

theorem StandsIn.next (hstands : cursor.StandsIn source) : cursor.next.2.StandsIn source :=
  hstands.pastBlanks.past text_append_next.symm

/-- From the cursor on a text holds what the cursor has in front of it. -/
private theorem StandsIn.holds_iff (hstands : cursor.StandsIn source) :
    Span.Holds source ⟨cursor.offset, stop⟩ cs ↔
      cs <+: cursor.rest ∧ stop = cursor.offset + utf8Length cs := by
  obtain ⟨passed, hsource, hoffset⟩ := hstands
  constructor
  · rintro ⟨before, after, hsplit, hstart, hstop⟩
    rw [List.append_assoc, hsource] at hsplit
    obtain ⟨rfl, hrest⟩ := append_inj_of_utf8Length hsplit (hoffset.symm.trans hstart)
    refine ⟨⟨after, hrest.symm⟩, ?_⟩
    rw [utf8Length_append, ← hoffset] at hstop
    exact hstop
  · rintro ⟨⟨after, hrest⟩, rfl⟩
    refine ⟨passed, after, ?_, hoffset, ?_⟩
    · rw [hsource, ← hrest, List.append_assoc]
    · rw [utf8Length_append, hoffset]

end Cursor

/-! ## Ways to split a text -/

/-- A word of the language at a span of a text: its text stands there, it holds no white space, and
what is behind it does not belong to it. -/
structure IsWordAt (source : String) (lexeme : Lexeme) (span : Span) : Prop where
  ne_endOfInput : lexeme ≠ .endOfInput
  holds : span.Holds source lexeme.text.toList
  ne_empty : lexeme.text ≠ ""
  not_blank : ∀ c ∈ lexeme.text.toList, isBlank c = false
  classified : Lexeme.classify? lexeme.text = some lexeme
  maximal : ∀ next, Span.Holds source ⟨span.stop, span.stop + next.utf8Size⟩ [next] →
    ¬ Lexeme.GrowsBy lexeme.text next

/-- White space and nothing else stands in a text between two places. -/
def IsGap (source : String) (start stop : Nat) : Prop :=
  ∃ gap, Span.Holds source ⟨start, stop⟩ gap ∧ ∀ c ∈ gap, isBlank c = true

/-- There are gaps from a place to the first span, and from each span to the next one. -/
def GapsBetween (source : String) : Nat → List Span → Prop
  | _, [] => True
  | front, span :: spans => IsGap source front span.start ∧ GapsBetween source span.stop spans

/-- Words at their spans that make up a text from a place on, and the end of input behind them. -/
structure IsSplit (source : String) (front : Nat) (words : List (Lexeme × Span)) : Prop where
  ordered : words.Pairwise fun word next => word.2.stop ≤ next.2.start
  gaps : GapsBetween source front (words.map Prod.snd)
  ends : ∃ inner,
    words = inner ++ [(.endOfInput, ⟨source.utf8ByteSize, source.utf8ByteSize⟩)] ∧
      ∀ word ∈ inner, IsWordAt source word.1 word.2

section

variable {source : String} {front start stop : Nat} {span : Span} {spans : List Span}
  {lexeme : Lexeme} {words : List (Lexeme × Span)}

private theorem Span.Holds.stop_eq {cs : List Char} (hholds : span.Holds source cs) :
    span.stop = span.start + utf8Length cs := by
  obtain ⟨before, after, -, hstart, hstop⟩ := hholds
  rw [hstop, utf8Length_append, hstart]

private theorem Span.Holds.start_le {cs : List Char} (hholds : span.Holds source cs) :
    span.start ≤ span.stop := by
  rw [hholds.stop_eq]
  exact Nat.le_add_right _ _

private theorem IsGap.le (hgap : IsGap source start stop) : start ≤ stop := by
  obtain ⟨gap, hholds, -⟩ := hgap
  exact hholds.start_le

/-- No span begins before the place where the gaps begin. -/
private theorem GapsBetween.le_start (hgaps : GapsBetween source front spans)
    (hspans : ∀ span ∈ spans, span.start ≤ span.stop) : ∀ span ∈ spans, front ≤ span.start := by
  induction spans generalizing front with
  | nil => simp
  | cons first spans ih =>
      obtain ⟨hgap, hrest⟩ := hgaps
      obtain ⟨hfirst, hspans⟩ := List.forall_mem_cons.mp hspans
      rw [List.forall_mem_cons]
      refine ⟨hgap.le, fun span hmem => ?_⟩
      exact hgap.le.trans (hfirst.trans (ih hrest hspans span hmem))

private theorem IsSplit.start_le (hsplit : IsSplit source front words) :
    ∀ word ∈ words, word.2.start ≤ word.2.stop := by
  obtain ⟨inner, rfl, hinner⟩ := hsplit.ends
  intro word hmem
  rcases List.mem_append.mp hmem with hmem | hmem
  · exact (hinner word hmem).holds.start_le
  · rw [List.mem_singleton.mp hmem]

/-- At the end of a text there is only the end of input, behind a gap. -/
private theorem isSplit_endOfInput (hgap : IsGap source front source.utf8ByteSize) :
    IsSplit source front [(.endOfInput, ⟨source.utf8ByteSize, source.utf8ByteSize⟩)] :=
  ⟨List.pairwise_singleton _ _, ⟨hgap, trivial⟩, [], rfl, by simp⟩

/-- One more word, behind a gap. -/
private theorem IsSplit.cons (hsplit : IsSplit source span.stop words)
    (hgap : IsGap source front span.start) (hword : IsWordAt source lexeme span) :
    IsSplit source front ((lexeme, span) :: words) := by
  have hbehind : ∀ word ∈ words, span.stop ≤ word.2.start := by
    intro word hmem
    refine hsplit.gaps.le_start (fun other hother => ?_) _ (List.mem_map_of_mem hmem)
    obtain ⟨next, hnext, rfl⟩ := List.mem_map.mp hother
    exact hsplit.start_le next hnext
  obtain ⟨inner, rfl, hinner⟩ := hsplit.ends
  exact ⟨List.pairwise_cons.mpr ⟨hbehind, hsplit.ordered⟩, ⟨hgap, hsplit.gaps⟩,
    (lexeme, span) :: inner, rfl, List.forall_mem_cons.mpr ⟨hword, hinner⟩⟩

/-- A split is the end of input behind a gap, or begins with a word behind a gap. -/
private theorem IsSplit.cases (hsplit : IsSplit source front words) :
    words = [(.endOfInput, ⟨source.utf8ByteSize, source.utf8ByteSize⟩)] ∧
        IsGap source front source.utf8ByteSize ∨
      ∃ lexeme span others, words = (lexeme, span) :: others ∧ IsWordAt source lexeme span ∧
        IsGap source front span.start ∧ IsSplit source span.stop others := by
  obtain ⟨hordered, hgaps, inner, rfl, hinner⟩ := hsplit
  cases inner with
  | nil => exact Or.inl ⟨rfl, hgaps.1⟩
  | cons word inner =>
      obtain ⟨lexeme, span⟩ := word
      obtain ⟨hword, hinner⟩ := List.forall_mem_cons.mp hinner
      exact Or.inr ⟨lexeme, span, _, rfl, hword, hgaps.1, (List.pairwise_cons.mp hordered).2,
        hgaps.2, inner, rfl, hinner⟩

end

/-! ## The tokens split a text -/

namespace Cursor

variable {source : String} {cursor : Cursor} {lexeme : Lexeme} {span : Span}

private theorem StandsIn.offset_endToken (hstands : cursor.StandsIn source) :
    cursor.offset + utf8Length cursor.rest = source.utf8ByteSize := by
  obtain ⟨passed, hsource, hoffset⟩ := hstands
  rw [← utf8Length_toList, hsource, utf8Length_append, ← hoffset]

private theorem StandsIn.span_endToken (hstands : cursor.StandsIn source) :
    cursor.endToken.span = ⟨source.utf8ByteSize, source.utf8ByteSize⟩ := by
  rw [← hstands.offset_endToken]
  rfl

/-- In front of the next token there is white space only. -/
private theorem StandsIn.isGap_next (hstands : cursor.StandsIn source) :
    IsGap source cursor.offset cursor.next.1.span.start := by
  refine ⟨cursor.rest.takeWhile isBlank, hstands.holds_iff.mpr ⟨List.takeWhile_prefix _, rfl⟩, ?_⟩
  exact fun c hc => List.mem_takeWhile_imp hc

/-- The next token is a word. -/
private theorem StandsIn.isWordAt_next (hstands : cursor.StandsIn source)
    (hend : cursor.next.1.lexeme ≠ .endOfInput) :
    IsWordAt source cursor.next.1.lexeme cursor.next.1.span where
  ne_endOfInput := hend
  holds := hstands.pastBlanks.holds_iff.mpr ⟨⟨cursor.next.2.rest, text_append_next⟩, rfl⟩
  ne_empty := by simpa using (lexical_next hend).text_ne_nil
  not_blank := (lexical_next hend).isBlank_eq_false
  classified := (lexical_next hend).classify?_text
  maximal := by
    intro next hholds
    obtain ⟨⟨after, hafter⟩, -⟩ := hstands.next.holds_iff.mp hholds
    have hbefore := hend
    rw [Ne, next_lexeme_eq_endOfInput_iff] at hbefore
    obtain ⟨c, cs, hcs⟩ := List.exists_cons_of_ne_nil hbefore
    have hread : (Lexeme.read cursor.pastBlanks.rest).2 = [next] ++ after := hafter.symm
    rw [hcs] at hread
    have hmaximal := Lexeme.not_growsBy_read c cs next (by rw [hread]; rfl)
    rwa [← hcs] at hmaximal

/-- Behind the last token there is white space only. -/
private theorem StandsIn.isGap_end (hstands : cursor.StandsIn source)
    (hend : cursor.next.1.lexeme = .endOfInput) :
    IsGap source cursor.offset source.utf8ByteSize := by
  refine ⟨cursor.rest, hstands.holds_iff.mpr ⟨List.prefix_rfl, hstands.offset_endToken.symm⟩, ?_⟩
  exact List.dropWhile_eq_nil_iff.mp (next_lexeme_eq_endOfInput_iff.mp hend)

/-- Where nothing but white space is left, the next token is the end of input. -/
private theorem StandsIn.end_of_isGap (hstands : cursor.StandsIn source)
    (hgap : IsGap source cursor.offset source.utf8ByteSize) :
    cursor.next.1.lexeme = .endOfInput := by
  obtain ⟨gap, hholds, hblank⟩ := hgap
  obtain ⟨⟨after, hafter⟩, hlength⟩ := hstands.holds_iff.mp hholds
  have hsame : utf8Length gap = utf8Length cursor.rest := by
    have hsize := hstands.offset_endToken
    omega
  obtain ⟨rfl, -⟩ := append_inj_of_utf8Length (hafter.trans (List.append_nil _).symm) hsame
  exact next_lexeme_eq_endOfInput_iff.mpr (List.dropWhile_eq_nil_iff.mpr hblank)

/-- Blanks are passed up to the word that stands behind a gap, and no further. -/
private theorem StandsIn.offset_pastBlanks_of_isGap (hstands : cursor.StandsIn source)
    (hgap : IsGap source cursor.offset span.start) (hword : IsWordAt source lexeme span) :
    cursor.pastBlanks.offset = span.start := by
  obtain ⟨gap, hholds, hblank⟩ := hgap
  obtain ⟨⟨behind, hbehind⟩, hstart⟩ := hstands.holds_iff.mp hholds
  have hthere : (cursor.past gap behind).StandsIn source := hstands.past hbehind.symm
  have hoffset : (cursor.past gap behind).offset = span.start := hstart.symm
  have hheld : Span.Holds source ⟨(cursor.past gap behind).offset, span.stop⟩
      lexeme.text.toList := by
    rw [hoffset]
    exact hword.holds
  obtain ⟨⟨after, hafter⟩, -⟩ := hthere.holds_iff.mp hheld
  have hsplit : lexeme.text.toList ++ after = behind := hafter
  -- The gap is all of the blanks, since the word does not begin with one.
  have hhead : ∀ c ∈ behind.head?, isBlank c = false := by
    intro c hc
    rw [← hsplit, List.head?_append_of_ne_nil _ (by simpa using hword.ne_empty)] at hc
    exact hword.not_blank c (List.mem_of_mem_head? hc)
  rw [Cursor.pastBlanks, ← hbehind, takeWhile_append_of_all hblank hhead,
    dropWhile_append_of_all hblank hhead]
  exact hoffset

/-- Where a word stands, it is what is read. -/
private theorem StandsIn.read_of_isWordAt (hstands : cursor.StandsIn source)
    (hword : IsWordAt source lexeme span) (hoffset : cursor.offset = span.start) :
    (Lexeme.read cursor.rest).1 = lexeme := by
  have hheld : Span.Holds source ⟨cursor.offset, span.stop⟩ lexeme.text.toList := by
    rw [hoffset]
    exact hword.holds
  obtain ⟨⟨after, hafter⟩, hstop⟩ := hstands.holds_iff.mp hheld
  have hmaximal : ∀ c ∈ after.head?, ¬ Lexeme.GrowsBy lexeme.text c := by
    intro c hc
    obtain ⟨more, rfl⟩ := List.head?_eq_some_iff.mp hc
    have hbehind := hstands.past hafter.symm
    have hoffset' : (cursor.past lexeme.text.toList (c :: more)).offset = span.stop := hstop.symm
    refine hword.maximal c ?_
    rw [← hoffset']
    exact hbehind.holds_iff.mpr ⟨⟨more, rfl⟩, by simp⟩
  rw [← hafter, Lexeme.read_of_classify? hword.classified hmaximal]

/-- What is read behind a gap is a word that stands there. -/
private theorem StandsIn.next_of_isWordAt (hstands : cursor.StandsIn source)
    (hgap : IsGap source cursor.offset span.start) (hword : IsWordAt source lexeme span) :
    cursor.next.1.lexeme = lexeme ∧ cursor.next.1.span = span := by
  have hplace : cursor.next.1.offset = span.start := hstands.offset_pastBlanks_of_isGap hgap hword
  have hlexeme : cursor.next.1.lexeme = lexeme := hstands.pastBlanks.read_of_isWordAt hword hplace
  refine ⟨hlexeme, ?_⟩
  rw [Token.span, hlexeme, hplace, ← hword.holds.stop_eq]

private theorem StandsIn.isSplit_tokenize (hstands : cursor.StandsIn source) :
    IsSplit source cursor.offset
      (cursor.tokenize.map fun token => (token.lexeme, token.span)) := by
  induction cursor using along with
  | stop cursor hend =>
      rw [tokenize_of_end hend, List.map_singleton, hstands.span_endToken]
      exact isSplit_endOfInput (hstands.isGap_end hend)
  | turn cursor hend ih =>
      rw [tokenize_of_not_end hend, List.map_cons]
      exact (ih hstands.next).cons hstands.isGap_next (hstands.isWordAt_next hend)

private theorem StandsIn.eq_of_isSplit (hstands : cursor.StandsIn source)
    {words : List (Lexeme × Span)} (hsplit : IsSplit source cursor.offset words) :
    words = cursor.tokenize.map fun token => (token.lexeme, token.span) := by
  induction cursor using along generalizing words with
  | stop cursor hend =>
      rcases hsplit.cases with ⟨rfl, -⟩ | ⟨lexeme, span, others, rfl, hword, hgap, -⟩
      · rw [tokenize_of_end hend, List.map_singleton, hstands.span_endToken]
        rfl
      · obtain ⟨hlexeme, -⟩ := hstands.next_of_isWordAt hgap hword
        exact absurd (hlexeme.symm.trans hend) hword.ne_endOfInput
  | turn cursor hend ih =>
      rcases hsplit.cases with ⟨rfl, hgap⟩ | ⟨lexeme, span, others, rfl, hword, hgap, hrest⟩
      · exact absurd (hstands.end_of_isGap hgap) hend
      · -- The first word is the token that is read, and the others split what is behind it.
        obtain ⟨rfl, rfl⟩ := hstands.next_of_isWordAt hgap hword
        rw [tokenize_of_not_end hend, List.map_cons, ← ih hstands.next hrest]

end Cursor

/-- There is one way to split a text into words, and the tokens are that one. -/
theorem isSplit_iff_eq_tokenize (source : String) (words : List (Lexeme × Span)) :
    IsSplit source 0 words ↔
      words = (Cursor.start source).tokenize.map fun token => (token.lexeme, token.span) := by
  have hstands := Cursor.standsIn_start source
  constructor
  · exact hstands.eq_of_isSplit
  · rintro rfl
    exact hstands.isSplit_tokenize

/-- A pair of signs goes before a sign, from left to right; a sign that is no word by itself is one
with an equals sign behind it only. -/
example : (Cursor.start "a1===!b!=").tokenize.map (fun token => (token.lexeme, token.span)) =
    [(.ident "a", ⟨0, 1⟩), (.number "1", ⟨1, 2⟩), (.relation .eq, ⟨2, 4⟩),
      (.assign .plain, ⟨4, 5⟩), (.unknown '!', ⟨5, 6⟩), (.ident "b", ⟨6, 7⟩),
      (.relation .ne, ⟨7, 9⟩), (.endOfInput, ⟨9, 9⟩)] := by decide +kernel

end LoopLang
