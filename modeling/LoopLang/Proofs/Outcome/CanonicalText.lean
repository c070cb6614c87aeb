import LoopLang.Proofs.Outcome.RoundTrip

/-!
# The canonical text among all texts of a program

Many texts denote the same program.  What a correct text has more than the canonical one is layout
and pairs of parentheses that change nothing, so that no other text has fewer pairs or nests less
deep, and the canonical text has none to spare (`parse_text_fewest`).

That pairs are lost, and nothing else, is a fact about sentences (`IsStatement.losesPairs`).  The
rest follows from it, since a text with a parenthesis less than the canonical one has a character
less of that kind.
-/

namespace LoopLang

open Grammar

/-- A text that denotes a program up to locations, where parentheses may nest as deep as it
needs. -/
def IsTextOf (p : Program) (text : String) : Prop :=
  ∃ limit, (parse text limit).diagnostics = [] ∧ (parse text limit).program.bare = p.bare

variable {p : Program} {source text : String} {limit : Nat}

/-! ## Canonical lexemes -/

/-- The canonical text of what a parse returns has the canonical lexemes. -/
theorem lexemesOf_text_parse (source : String) (limit : Nat) :
    lexemesOf (parse source limit).program.text.toList = (parse source limit).program.lexemes :=
  lexemesOf_text _ (printable_parse source limit).lexical

/-- A correct text loses pairs of parentheses on the way to the canonical text, and nothing else. -/
theorem losesPairs_text (hclean : (parse source limit).diagnostics = []) :
    LosesPairs (lexemesOf source.toList)
      (lexemesOf (parse source limit).program.text.toList) := by
  obtain ⟨hprogram, -⟩ := isValid_iff.mp (isValid_of_diagnostics_eq_nil hclean)
  have hloses := hprogram.losesPairs fun _ _ => IsStatement.losesPairs
  rw [Cursor.map_lexeme_tokens] at hloses
  rw [lexemesOf_text_parse]
  exact hloses

/-- The parentheses of a correct text nest as deep as those of the canonical text, or deeper. -/
theorem nesting_text_le (hclean : (parse source limit).diagnostics = []) :
    nesting (lexemesOf (parse source limit).program.text.toList) ≤
      nesting (lexemesOf source.toList) := by
  obtain ⟨hderived, -, -⟩ := isValid_of_diagnostics_eq_nil hclean
  -- With as much room as its own parentheses take, the text is still a sentence.
  have hnests : NestsWithin (nesting ((Cursor.start source).tokens.map Token.lexeme)) 0
      (Cursor.start source).tokens := nestsWithin_iff.mpr (Nat.le_refl _)
  have hroom := isProgram_iff.mpr ⟨hderived, hnests⟩
  have hle := nesting_lexemes_le (printable_parse source limit).lists_names
    (hroom.forall_mem fun _ _ => IsStatement.depth_le)
  rwa [Cursor.map_lexeme_tokens, ← lexemesOf_text_parse source limit] at hle

/-! ## Texts of one program -/

/-- No text of a program has fewer pairs of parentheses than the canonical one, nor do its
parentheses nest less deep. -/
theorem IsTextOf.text_le (htext : IsTextOf p text) :
    pairCount (lexemesOf p.text.toList) ≤ pairCount (lexemesOf text.toList) ∧
      nesting (lexemesOf p.text.toList) ≤ nesting (lexemesOf text.toList) := by
  obtain ⟨limit, hclean, hbare⟩ := htext
  rw [← Program.text_eq_of_bare_eq hbare]
  exact ⟨(losesPairs_text hclean).pairCount_le, nesting_text_le hclean⟩

/-- A text with fewer opening parentheses than the canonical one is no text of the program. -/
theorem not_isTextOf_of_count_lt (hlt : text.toList.count '(' < p.text.toList.count '(') :
    ¬ IsTextOf p text := by
  intro htext
  have hle := htext.text_le.1
  rw [pairCount, pairCount, count_openParen_lexemesOf, count_openParen_lexemesOf] at hle
  exact absurd hle (Nat.not_le.mpr hlt)

/-- The canonical text of a program is one of its texts.  Its lexemes are those of any correct text
less some pairs of parentheses, which may be none.  So it has the fewest pairs of all texts of the
program, and its parentheses nest least deep; and without an opening parenthesis of it, and a
closing one behind that, it is no text of the program any more. -/
theorem parse_text_fewest (hclean : (parse source limit).diagnostics = []) :
    IsTextOf (parse source limit).program (parse source limit).program.text ∧
    LosesPairs (lexemesOf source.toList) (lexemesOf (parse source limit).program.text.toList) ∧
    (∀ text, IsTextOf (parse source limit).program text →
      pairCount (lexemesOf (parse source limit).program.text.toList) ≤
          pairCount (lexemesOf text.toList) ∧
        nesting (lexemesOf (parse source limit).program.text.toList) ≤
          nesting (lexemesOf text.toList)) ∧
    ∀ front inner back,
      (parse source limit).program.text.toList = front ++ '(' :: (inner ++ ')' :: back) →
      ¬ IsTextOf (parse source limit).program (String.ofList (front ++ (inner ++ back))) := by
  refine ⟨⟨limit, parse_text_of_printable (printable_parse source limit)⟩, losesPairs_text hclean,
    fun text htext => htext.text_le, ?_⟩
  intro front inner back hsplit
  apply not_isTextOf_of_count_lt
  rw [hsplit, String.toList_ofList]
  simp [List.count_append]

/-- Two of the three pairs of a text change nothing, and without the third the text denotes another
program. -/
theorem parse_text_fewest_product :
    (parse "x = ((a + 1)) * (b ^ c);" 2).diagnostics = [] ∧
    LosesPairs (lexemesOf "x = ((a + 1)) * (b ^ c);".toList)
      (lexemesOf "x = (a + 1) * b ^ c;\n".toList) ∧
    ¬ IsTextOf (parse "x = ((a + 1)) * (b ^ c);" 2).program "x = a + 1 * b ^ c;\n" := by
  have hclean : (parse "x = ((a + 1)) * (b ^ c);" 2).diagnostics = [] := by decide +kernel
  have htext : (parse "x = ((a + 1)) * (b ^ c);" 2).program.text = "x = (a + 1) * b ^ c;\n" := by
    decide +kernel
  obtain ⟨-, hloses, -, hneeded⟩ := parse_text_fewest hclean
  rw [htext] at hloses hneeded
  exact ⟨hclean, hloses, hneeded "x = ".toList "a + 1".toList " * b ^ c;\n".toList (by decide)⟩

end LoopLang
