import LoopLang.Cursor
import LoopLang.Proofs.Lexing.Spelling

/-!
# The tokens of a text

Each token takes a character or more, so the tokens of a text are its first token and the tokens
behind it (`Cursor.tokens_eq`), and what holds of all of them is an induction along the text
(`Cursor.along`).  They are lexical, they stand one behind the other, and the end of input stands
behind all of them.
-/

namespace LoopLang

/-! ## Texts of lexemes -/

theorem Lexeme.Lexical.text_ne_nil {lexeme : Lexeme} (hlexical : lexeme.Lexical) :
    lexeme.text.toList ≠ [] := by
  cases lexeme, hlexical using Lexical.cases with
  | ident name hname => simpa [Lexeme.text] using hname.1
  | number digits hdigits => simpa [Lexeme.text] using hdigits.1
  | fixed lexeme _ hmem =>
      have hall : ∀ lexeme ∈ fixed, lexeme.text.toList ≠ [] := by decide
      exact hall lexeme hmem
  | unknown found _ => simp [Lexeme.text]

theorem utf8Length_pos {cs : List Char} (hcs : cs ≠ []) : 0 < utf8Length cs := by
  obtain ⟨c, cs, rfl⟩ := List.exists_cons_of_ne_nil hcs
  have hsize : 0 < c.utf8Size := c.utf8Size_pos
  rw [utf8Length_cons]
  omega

namespace Cursor

variable {cursor : Cursor}

/-! ## One token -/

theorem next_fst : cursor.next.1 =
    ⟨(Lexeme.read cursor.pastBlanks.rest).1, cursor.pastBlanks.offset,
      cursor.pastBlanks.location⟩ := rfl

theorem next_snd : cursor.next.2 =
    cursor.pastBlanks.past cursor.next.1.lexeme.text.toList
      (Lexeme.read cursor.pastBlanks.rest).2 := rfl

theorem takeWhile_append_pastBlanks :
    cursor.rest.takeWhile isBlank ++ cursor.pastBlanks.rest = cursor.rest :=
  List.takeWhile_append_dropWhile

theorem text_append_next : cursor.next.1.lexeme.text.toList ++ cursor.next.2.rest =
    cursor.pastBlanks.rest :=
  Lexeme.text_read _

private theorem isBlank_of_pastBlanks {c : Char} {rest : List Char}
    (hrest : cursor.pastBlanks.rest = c :: rest) : isBlank c = false := by
  have hdrop : cursor.rest.dropWhile isBlank = c :: rest := hrest
  have hne : cursor.rest.dropWhile isBlank ≠ [] := by simp [hdrop]
  have hhead := List.head_dropWhile_not isBlank hne
  simpa [hdrop] using hhead

theorem next_lexeme_eq_endOfInput_iff :
    cursor.next.1.lexeme = .endOfInput ↔ cursor.pastBlanks.rest = [] := by
  rw [next_fst]
  cases hrest : cursor.pastBlanks.rest with
  | nil => simp
  | cons c rest =>
      simpa using (Lexeme.lexical_read (isBlank_of_pastBlanks hrest) rest).ne_endOfInput

theorem lexical_next (hend : cursor.next.1.lexeme ≠ .endOfInput) :
    cursor.next.1.lexeme.Lexical := by
  rw [Ne, next_lexeme_eq_endOfInput_iff] at hend
  obtain ⟨c, rest, hrest⟩ := List.exists_cons_of_ne_nil hend
  rw [next_fst, hrest]
  exact Lexeme.lexical_read (isBlank_of_pastBlanks hrest) rest

/-- Behind a token there is less to read. -/
theorem length_next_lt (hend : cursor.next.1.lexeme ≠ .endOfInput) :
    cursor.next.2.rest.length < cursor.rest.length := by
  have hblanks : cursor.pastBlanks.rest.length ≤ cursor.rest.length :=
    List.length_dropWhile_le _ _
  have htext := congrArg List.length (@text_append_next cursor)
  have hpos := List.length_pos_iff.mpr (lexical_next hend).text_ne_nil
  rw [List.length_append] at htext
  omega

/-- A token lies between the cursor and the cursor behind it. -/
private theorem offset_le_next : cursor.offset ≤ cursor.next.1.offset := by
  rw [next_fst]
  exact Nat.le_add_right _ _

private theorem offset_next_snd : cursor.next.2.offset = cursor.next.1.span.stop := rfl

/-- The end of the text stays where it is when tokens are passed. -/
theorem toEnd_next : cursor.next.2.toEnd = cursor.toEnd := by
  have hrest : cursor.rest = cursor.rest.takeWhile isBlank ++
      (cursor.next.1.lexeme.text.toList ++ cursor.next.2.rest) := by
    rw [text_append_next, takeWhile_append_pastBlanks]
  have hoffset : cursor.next.2.toEnd.offset = cursor.toEnd.offset := by
    simp only [toEnd, past]
    rw [congrArg utf8Length hrest]
    simp only [utf8Length_append, next_snd, pastBlanks, past]
    omega
  have hlocation : cursor.next.2.toEnd.location = cursor.toEnd.location := by
    simp only [toEnd, past]
    rw [congrArg cursor.location.afterAll hrest]
    simp only [Location.afterAll_append, next_snd, pastBlanks, past]
  exact (Cursor.mk.injEq ..).mpr ⟨rfl, hoffset, hlocation⟩

/-- The end of input stays where it is when tokens are passed. -/
theorem endToken_next : cursor.next.2.endToken = cursor.endToken := by
  rw [endToken, endToken, toEnd_next]

/-- At the end of the text the next token is the end of input, and what is behind it is the end of
the text, also where there is white space left. -/
theorem next_of_end (hend : cursor.next.1.lexeme = .endOfInput) :
    cursor.next = (cursor.endToken, cursor.toEnd) := by
  rw [next_lexeme_eq_endOfInput_iff] at hend
  have hblanks : cursor.rest.takeWhile isBlank = cursor.rest := by
    rw [← List.append_nil (cursor.rest.takeWhile isBlank), ← hend, takeWhile_append_pastBlanks]
  have hpast : cursor.pastBlanks = cursor.toEnd := by
    have hdrop : cursor.rest.dropWhile isBlank = [] := hend
    rw [pastBlanks, hblanks, hdrop, toEnd]
  rw [next, hpast]
  rfl

/-! ## All tokens -/

/-- Any two budgets that are long enough give the same tokens. -/
theorem tokensWithin_eq_of_le (budget : List Char) :
    ∀ (other : List Char) (cursor : Cursor), cursor.rest.length ≤ budget.length →
      cursor.rest.length ≤ other.length →
      tokensWithin budget cursor = tokensWithin other cursor := by
  induction budget with
  | nil =>
      intro other cursor hbudget hother
      have hrest : cursor.rest = [] := List.eq_nil_of_length_eq_zero (Nat.le_zero.mp hbudget)
      have hend : cursor.next.1.lexeme = .endOfInput := by
        rw [next_lexeme_eq_endOfInput_iff, pastBlanks, hrest]
        rfl
      cases other with
      | nil => rfl
      | cons c other => simp [tokensWithin, hend]
  | cons b budget ih =>
      intro other cursor hbudget hother
      cases other with
      | nil =>
          have hrest : cursor.rest = [] := List.eq_nil_of_length_eq_zero (Nat.le_zero.mp hother)
          have hend : cursor.next.1.lexeme = .endOfInput := by
            rw [next_lexeme_eq_endOfInput_iff, pastBlanks, hrest]
            rfl
          simp [tokensWithin, hend]
      | cons c other =>
          simp only [tokensWithin]
          by_cases hend : cursor.next.1.lexeme = .endOfInput
          · rw [if_pos hend, if_pos hend]
          -- A token takes a character at least, so what is left of both budgets is enough.
          · have hlt := length_next_lt hend
            simp only [List.length_cons] at hbudget hother
            rw [if_neg hend, if_neg hend, ih other cursor.next.2 (by omega) (by omega)]

/-- The tokens of a text are the first one and those behind it. -/
theorem tokens_eq (cursor : Cursor) :
    cursor.tokens =
      if cursor.next.1.lexeme = .endOfInput then []
      else cursor.next.1 :: cursor.next.2.tokens := by
  have hraise : cursor.tokens = tokensWithin (' ' :: cursor.rest) cursor :=
    tokensWithin_eq_of_le _ _ _ le_rfl (by simp)
  rw [hraise, tokensWithin]
  by_cases hend : cursor.next.1.lexeme = .endOfInput
  · simp [hend]
  · have hlt := length_next_lt hend
    simp only [hend, if_false]
    rw [tokens, tokensWithin_eq_of_le _ cursor.next.2.rest _ (by omega) le_rfl]

/-- What holds at the end of a text, and in front of a token if it holds behind it, holds
everywhere. -/
theorem along {motive : Cursor → Prop}
    (stop : ∀ cursor : Cursor, cursor.next.1.lexeme = .endOfInput → motive cursor)
    (turn : ∀ cursor : Cursor, cursor.next.1.lexeme ≠ .endOfInput → motive cursor.next.2 →
      motive cursor) (cursor : Cursor) : motive cursor := by
  induction hlength : cursor.rest.length using Nat.strong_induction_on generalizing cursor with
  | _ length ih =>
  by_cases hend : cursor.next.1.lexeme = .endOfInput
  · exact stop cursor hend
  · exact turn cursor hend (ih _ (hlength ▸ length_next_lt hend) _ rfl)

theorem tokenize_of_end (hend : cursor.next.1.lexeme = .endOfInput) :
    cursor.tokenize = [cursor.endToken] := by
  rw [tokenize, tokens_eq, if_pos hend, List.nil_append]

theorem tokenize_of_not_end (hend : cursor.next.1.lexeme ≠ .endOfInput) :
    cursor.tokenize = cursor.next.1 :: cursor.next.2.tokenize := by
  rw [tokenize, tokens_eq, if_neg hend, tokenize, endToken_next, List.cons_append]

theorem lexical_of_mem_tokens (cursor : Cursor) :
    ∀ token ∈ cursor.tokens, token.lexeme.Lexical := by
  induction cursor using along with
  | stop cursor hend =>
      rw [tokens_eq, if_pos hend]
      simp
  | turn cursor hend ih =>
      rw [tokens_eq, if_neg hend]
      intro token hmem
      rcases List.mem_cons.mp hmem with rfl | hmem
      · exact lexical_next hend
      · exact ih token hmem

/-! ## The order of tokens -/

/-- A way to say where cursors and tokens stand: no token stands before the cursor that reads it,
and the cursor behind a token stands further on. -/
structure Orders {α : Type} [Preorder α] (front : Cursor → α) (place : Token → α) : Prop where
  le_next : ∀ cursor : Cursor, front cursor ≤ place cursor.next.1
  le_endToken : ∀ cursor : Cursor, front cursor ≤ place cursor.endToken
  lt_next_snd : ∀ cursor : Cursor, cursor.next.1.lexeme ≠ .endOfInput →
    place cursor.next.1 < front cursor.next.2

section

variable {α : Type} [Preorder α] {front : Cursor → α} {place : Token → α}

private theorem Orders.le_of_mem_tokenize (horders : Orders front place) (cursor : Cursor) :
    ∀ token ∈ cursor.tokenize, front cursor ≤ place token := by
  induction cursor using along with
  | stop cursor hend =>
      rw [tokenize_of_end hend]
      simpa using horders.le_endToken cursor
  | turn cursor hend ih =>
      rw [tokenize_of_not_end hend]
      intro token hmem
      have hfirst := horders.le_next cursor
      rcases List.mem_cons.mp hmem with rfl | hmem
      · exact hfirst
      · exact hfirst.trans ((horders.lt_next_snd cursor hend).le.trans (ih token hmem))

/-- Every token stands behind those before it. -/
theorem Orders.pairwise_lt (horders : Orders front place) (cursor : Cursor) :
    cursor.tokenize.Pairwise fun before token => place before < place token := by
  induction cursor using along with
  | stop cursor hend =>
      rw [tokenize_of_end hend]
      exact List.pairwise_singleton _ _
  | turn cursor hend ih =>
      rw [tokenize_of_not_end hend, List.pairwise_cons]
      refine ⟨fun token hmem => ?_, ih⟩
      have hrest := horders.le_of_mem_tokenize cursor.next.2 token hmem
      exact (horders.lt_next_snd cursor hend).trans_le hrest

end

private theorem orders_offset : Orders Cursor.offset Token.offset where
  le_next := fun _ => offset_le_next
  le_endToken := fun _ => Nat.le_add_right _ _
  lt_next_snd := by
    intro cursor hend
    have hpos := utf8Length_pos (lexical_next hend).text_ne_nil
    rw [offset_next_snd, Token.span]
    dsimp only
    omega

/-- Every token starts behind those before it. -/
theorem pairwise_offset_lt (cursor : Cursor) :
    cursor.tokenize.Pairwise fun before token => before.offset < token.offset :=
  orders_offset.pairwise_lt cursor

end Cursor

end LoopLang
