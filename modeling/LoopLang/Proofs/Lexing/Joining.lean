import LoopLang.Proofs.Lexing.Texts

/-!
# Lexemes written one behind the other

White space continues no lexeme, so it ends every one of them, also a lone exclamation mark or a
character outside the language.  The texts of some lexemes, with white space between each two of
them and any white space around them, are therefore read as just these lexemes
(`lexemesOf_joinedBy`): where the lines break and how far the words are apart makes no difference to
what is read (`Cursor.tokenize_joinedBy`).
-/

namespace LoopLang

/-- Texts one behind the other, with separators between them.  Separators that are left over are not
used, and where there are too few, the texts touch. -/
def joinedBy : List String → List String → String
  | [], _ => ""
  | [text], _ => text
  | text :: next :: texts, [] => text ++ joinedBy (next :: texts) []
  | text :: next :: texts, separator :: separators =>
    text ++ separator ++ joinedBy (next :: texts) separators

/-- A text of nothing but white space. -/
def IsGapText (text : String) : Prop := ∀ c ∈ text.toList, isBlank c = true

instance (text : String) : Decidable (IsGapText text) :=
  List.decidableBAll (fun c => isBlank c = true) text.toList

/-! ## White space ends lexemes -/

private theorem endsLexeme_of_isBlank {c : Char} (hblank : isBlank c = true) (rest : List Char) :
    EndsLexeme (c :: rest) := by
  intro d hd
  obtain rfl : c = d := by simpa using hd
  refine ⟨Bool.eq_false_iff.mpr fun halpha => ?_, Bool.eq_false_iff.mpr fun hdigit => ?_, ?_⟩
  · simp [isBlank_eq_false (Or.inl halpha)] at hblank
  · simp [isBlank_eq_false (Or.inr hdigit)] at hblank
  · rintro rfl
    exact absurd hblank (by decide)

private theorem endsLexeme_blanks {blanks : List Char} (hblanks : ∀ c ∈ blanks, isBlank c = true) :
    EndsLexeme blanks := by
  cases blanks with
  | nil => simp [EndsLexeme]
  | cons c blanks => exact endsLexeme_of_isBlank (hblanks c List.mem_cons_self) blanks

private theorem endsLexeme_blanks_append {blanks : List Char} (hne : blanks ≠ [])
    (hblanks : ∀ c ∈ blanks, isBlank c = true) (rest : List Char) :
    EndsLexeme (blanks ++ rest) := by
  obtain ⟨c, blanks, rfl⟩ := List.exists_cons_of_ne_nil hne
  exact endsLexeme_of_isBlank (hblanks c List.mem_cons_self) (blanks ++ rest)

/-! ## Reading what was joined -/

private theorem lexemesOf_eq_nil {blanks : List Char} (hblanks : ∀ c ∈ blanks, isBlank c = true) :
    lexemesOf blanks = [] := by
  rw [← List.append_nil blanks, lexemesOf_blanks hblanks, lexemesOf_nil]

/-- Lexemes that stand apart are read as they are. -/
theorem lexemesOf_joinedBy {lexemes : List Lexeme} (hlexical : ∀ lexeme ∈ lexemes, lexeme.Lexical)
    {separators : List String} (hcount : lexemes.length ≤ separators.length + 1)
    (hseparators : ∀ separator ∈ separators, separator ≠ "" ∧ IsGapText separator)
    {trailing : String} (htrailing : IsGapText trailing) :
    lexemesOf (joinedBy (lexemes.map Lexeme.text) separators ++ trailing).toList = lexemes := by
  induction lexemes generalizing separators with
  | nil =>
      rw [List.map_nil, joinedBy, String.empty_append]
      exact lexemesOf_eq_nil htrailing
  | cons lexeme lexemes ih =>
      obtain ⟨hfirst, hlexemes⟩ := List.forall_mem_cons.mp hlexical
      cases lexemes with
      | nil =>
          -- The last text has only what trails behind it.
          rw [List.map_singleton, joinedBy, String.toList_append,
            lexemesOf_append hfirst (endsLexeme_blanks htrailing), lexemesOf_eq_nil htrailing]
      | cons next lexemes =>
          obtain ⟨separator, separators, rfl⟩ :=
            List.exists_cons_of_length_pos (l := separators) (by simp at hcount; omega)
          obtain ⟨⟨hne, hblank⟩, hseparators⟩ := List.forall_mem_cons.mp hseparators
          have hrest := ih hlexemes (by simpa using hcount) hseparators
          rw [List.map_cons, List.map_cons, joinedBy, String.append_assoc, String.append_assoc,
            String.toList_append, String.toList_append,
            lexemesOf_append hfirst (endsLexeme_blanks_append (by simpa using hne) hblank _),
            lexemesOf_blanks hblank, ← List.map_cons, hrest]

/-- A lexeme by itself is read as it is. -/
theorem Lexeme.Lexical.lexemesOf_eq_singleton {lexeme : Lexeme} (hlexical : lexeme.Lexical) :
    lexemesOf lexeme.text.toList = [lexeme] := by
  have hread := lexemesOf_append hlexical (show EndsLexeme [] by simp [EndsLexeme])
  rwa [List.append_nil, lexemesOf_nil] at hread

namespace Cursor

private theorem map_lexeme_tokenize (text : String) :
    (start text).tokenize.map Token.lexeme = lexemesOf text.toList ++ [.endOfInput] := by
  rw [tokenize, List.map_append, map_lexeme_tokens, List.map_singleton]
  rfl

/-- The texts of the tokens of a source, with white space between each two of them and any white
space in front and behind, have the lexemes of the source again; the end of input has no text and
needs none.  Each of the texts alone has its own lexeme and nothing else. -/
theorem tokenize_joinedBy (source : String) :
    (∀ (leading trailing : String) (separators : List String),
        IsGapText leading → IsGapText trailing →
        (∀ separator ∈ separators, separator ≠ "" ∧ IsGapText separator) →
        (start source).tokens.length ≤ separators.length + 1 →
        (start (leading ++ joinedBy ((start source).tokens.map fun token => token.lexeme.text)
            separators ++ trailing)).tokenize.map Token.lexeme =
          (start source).tokenize.map Token.lexeme) ∧
      ∀ token ∈ (start source).tokens,
        (start token.lexeme.text).tokenize.map Token.lexeme = [token.lexeme, .endOfInput] := by
  have hlexical := lexical_of_mem_tokens (start source)
  refine ⟨?joined, ?alone⟩
  case joined =>
    intro leading trailing separators hleading htrailing hseparators hcount
    have htexts : ((start source).tokens.map fun token => token.lexeme.text) =
        ((start source).tokens.map Token.lexeme).map Lexeme.text := by
      rw [List.map_map]
      rfl
    have hread : lexemesOf (joinedBy (((start source).tokens.map Token.lexeme).map Lexeme.text)
        separators ++ trailing).toList = (start source).tokens.map Token.lexeme :=
      lexemesOf_joinedBy (by simpa using hlexical) (by simpa using hcount) hseparators htrailing
    rw [map_lexeme_tokenize, map_lexeme_tokenize, htexts, String.append_assoc,
      String.toList_append, lexemesOf_blanks hleading, hread, map_lexeme_tokens]
    rfl
  case alone =>
    intro token hmem
    rw [map_lexeme_tokenize, (hlexical token hmem).lexemesOf_eq_singleton]
    rfl

/-- Signs that touch in the source stand on lines of their own. -/
theorem tokenize_joinedBy_signs :
    (start (" " ++ joinedBy ["!", "ü", "<=", "x"] ["\n", "\t\x0b", "\r\n"] ++ "\n")).tokenize.map
        Token.lexeme =
      (start "!ü<=x").tokenize.map Token.lexeme ∧
    (start "!").tokenize.map Token.lexeme = [.unknown '!', .endOfInput] :=
  ⟨(tokenize_joinedBy "!ü<=x").1 " " "\n" ["\n", "\t\x0b", "\r\n"] (by decide) (by decide)
      (by decide) (by decide +kernel),
    (tokenize_joinedBy "!ü<=x").2 ⟨.unknown '!', 0, .first⟩ (by decide +kernel)⟩

end Cursor

end LoopLang
