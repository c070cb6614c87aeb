import LoopLang.Proofs.Lexing.Tokens

/-!
# Texts on lines of their own

No lexeme goes on behind a line break.  So the tokens of a text in front of another one, with a line
break between the two, are the tokens of the first text and behind them those of the second, moved
down by the lines that the first one takes (`Cursor.tokens_append_line`).
-/

namespace LoopLang

/-! ## Moving down -/

/-- The location so many lines further down. -/
def Location.down (lines : Nat) (location : Location) : Location :=
  ⟨location.line + lines, location.column⟩

/-- The token so many bytes and lines further down. -/
def Token.down (bytes lines : Nat) (token : Token) : Token :=
  ⟨token.lexeme, token.offset + bytes, token.location.down lines⟩

/-- The cursor so many bytes and lines further down, in front of the same text. -/
def Cursor.down (bytes lines : Nat) (cursor : Cursor) : Cursor :=
  ⟨cursor.rest, cursor.offset + bytes, cursor.location.down lines⟩

namespace Location

private theorem down_after (lines : Nat) (location : Location) (c : Char) :
    (location.down lines).after c = (location.after c).down lines := by
  unfold after down
  split
  · simp [Nat.add_right_comm]
  · rfl

private theorem down_afterAll (lines : Nat) (location : Location) (cs : List Char) :
    (location.down lines).afterAll cs = (location.afterAll cs).down lines := by
  induction cs generalizing location with
  | nil => rfl
  | cons c cs ih => rw [afterAll_cons, afterAll_cons, down_after, ih]

/-- Only line breaks lead to another line. -/
theorem line_afterAll (location : Location) (cs : List Char) :
    (location.afterAll cs).line = location.line + cs.count '\n' := by
  induction cs generalizing location with
  | nil => rfl
  | cons c cs ih =>
      rw [afterAll_cons, ih]
      by_cases hc : c = '\n'
      · subst hc
        simp only [after_newline, List.count_cons_self]
        omega
      · rw [after_of_ne hc, List.count_cons_of_ne hc]

end Location

namespace Cursor

variable {cursor : Cursor}

private theorem past_down (bytes lines : Nat) (passed rest : List Char) :
    (cursor.down bytes lines).past passed rest = (cursor.past passed rest).down bytes lines := by
  simp only [past, down, Location.down_afterAll, Nat.add_right_comm]

private theorem next_down (bytes lines : Nat) :
    (cursor.down bytes lines).next =
      (cursor.next.1.down bytes lines, cursor.next.2.down bytes lines) := by
  have hblanks : (cursor.down bytes lines).pastBlanks = cursor.pastBlanks.down bytes lines :=
    past_down bytes lines _ _
  rw [next, hblanks, next]
  simp only [past_down]
  rfl

/-- The tokens of a text further down are the same tokens further down. -/
theorem tokens_down (bytes lines : Nat) (cursor : Cursor) :
    (cursor.down bytes lines).tokens = cursor.tokens.map (Token.down bytes lines) := by
  induction cursor using along with
  | stop cursor hend =>
      have hother : (cursor.down bytes lines).next.1.lexeme = .endOfInput := by
        rw [next_down]
        exact hend
      rw [tokens_eq, if_pos hother, tokens_eq cursor, if_pos hend, List.map_nil]
  | turn cursor hend ih =>
      have hother : (cursor.down bytes lines).next.1.lexeme ≠ .endOfInput := by
        rw [next_down]
        exact hend
      rw [tokens_eq, if_neg hother, tokens_eq cursor, if_neg hend, List.map_cons, next_down, ih]

end Cursor

/-! ## Line breaks end lexemes -/

namespace Lexeme

variable {rest : List Char}

/-- A run of characters that are not line breaks goes on no further than its line. -/
private theorem takeWhile_line {p : Char → Bool} (hp : p '\n' = false) (cs : List Char) :
    (cs ++ '\n' :: rest).takeWhile p = cs.takeWhile p ∧
      (cs ++ '\n' :: rest).dropWhile p = cs.dropWhile p ++ '\n' :: rest := by
  induction cs with
  | nil => simp [hp]
  | cons c cs ih => cases hc : p c <;> simp [hc, ih]

private theorem readSign_line (c : Char) (cs : List Char) :
    readSign c (cs ++ '\n' :: rest) = ((readSign c cs).1, (readSign c cs).2 ++ '\n' :: rest) := by
  unfold readSign
  rcases cs with _ | ⟨d, cs⟩
  · cases withEquals? c <;> simp
  · by_cases hd : d = '='
    · subst hd
      cases withEquals? c <;> simp
    · cases withEquals? c <;> simp [hd]

/-- A lexeme is read as if the text ended with the line. -/
private theorem read_line {cs : List Char} (hcs : cs ≠ []) :
    read (cs ++ '\n' :: rest) = ((read cs).1, (read cs).2 ++ '\n' :: rest) := by
  obtain ⟨c, cs, rfl⟩ := List.exists_cons_of_ne_nil hcs
  rw [List.cons_append, read, read]
  split
  · rw [(takeWhile_line (by decide) cs).1, (takeWhile_line (by decide) cs).2]
  · split
    · rw [(takeWhile_line (by decide) cs).1, (takeWhile_line (by decide) cs).2]
    · exact readSign_line c cs

end Lexeme

namespace Cursor

variable {cursor : Cursor} {rest : List Char}

/-- The cursor with another line behind its text. -/
def withLine (cursor : Cursor) (rest : List Char) : Cursor :=
  { cursor with rest := cursor.rest ++ '\n' :: rest }

/-- The cursor behind its text and a line break. -/
def nextLine (cursor : Cursor) (rest : List Char) : Cursor :=
  cursor.past (cursor.rest ++ ['\n']) rest

/-- White space in front of a cursor makes no difference to its tokens. -/
private theorem tokens_of_pastBlanks_eq {other : Cursor}
    (hblanks : cursor.pastBlanks = other.pastBlanks) :
    cursor.tokens = other.tokens := by
  have hnext : cursor.next = other.next := by rw [next, next, hblanks]
  rw [tokens_eq, tokens_eq other, hnext]

theorem past_past (passed more rest others : List Char) :
    (cursor.past passed others).past more rest = cursor.past (passed ++ more) rest := by
  simp only [past, utf8Length_append, Location.afterAll_append, Nat.add_assoc]

/-- At the end of a line the next line is read. -/
private theorem tokens_withLine_of_blank (hblank : cursor.pastBlanks.rest = []) :
    (cursor.withLine rest).tokens = (cursor.nextLine rest).tokens := by
  have hall : ∀ c ∈ cursor.rest, isBlank c := by
    have hdrop : cursor.rest.dropWhile isBlank = [] := hblank
    simpa [List.dropWhile_eq_nil_iff] using hdrop
  have hline : ∀ c ∈ cursor.rest ++ ['\n'], isBlank c := by
    simpa [or_imp, forall_and] using ⟨hall, rfl⟩
  apply tokens_of_pastBlanks_eq
  have hrest : (cursor.withLine rest).rest = (cursor.rest ++ ['\n']) ++ rest := by simp [withLine]
  rw [pastBlanks, hrest, List.takeWhile_append_of_pos hline, List.dropWhile_append_of_pos hline,
    pastBlanks, nextLine, past_past]
  rfl

/-- Before the end of a line the next line makes no difference. -/
private theorem next_withLine (hblank : cursor.pastBlanks.rest ≠ []) :
    (cursor.withLine rest).next = (cursor.next.1, cursor.next.2.withLine rest) := by
  have hdrop : (cursor.rest ++ '\n' :: rest).dropWhile isBlank =
      cursor.rest.dropWhile isBlank ++ '\n' :: rest := by
    have hne : cursor.rest.dropWhile isBlank ≠ [] := hblank
    rw [List.dropWhile_append, if_neg (by rwa [List.isEmpty_iff])]
  have htake : (cursor.rest ++ '\n' :: rest).takeWhile isBlank = cursor.rest.takeWhile isBlank := by
    have heq := @List.takeWhile_append_dropWhile _ isBlank (cursor.rest ++ '\n' :: rest)
    rw [hdrop, ← List.append_assoc, List.append_cancel_right_eq] at heq
    exact List.append_cancel_right
      (heq.trans (@List.takeWhile_append_dropWhile _ isBlank cursor.rest).symm)
  have hblanks : (cursor.withLine rest).pastBlanks = cursor.pastBlanks.withLine rest := by
    simp only [pastBlanks, withLine, hdrop, htake]
    rfl
  have hread : Lexeme.read (cursor.pastBlanks.withLine rest).rest =
      ((Lexeme.read cursor.pastBlanks.rest).1,
        (Lexeme.read cursor.pastBlanks.rest).2 ++ '\n' :: rest) := Lexeme.read_line hblank
  rw [next, hblanks, next]
  simp only [hread]
  rfl

/-- What a cursor passes with its next token are white space and the text of the token. -/
theorem next_snd_eq_past : cursor.next.2 =
    cursor.past (cursor.rest.takeWhile isBlank ++ cursor.next.1.lexeme.text.toList)
      cursor.next.2.rest :=
  past_past _ _ _ _

theorem blanks_append_text_append_next :
    (cursor.rest.takeWhile isBlank ++ cursor.next.1.lexeme.text.toList) ++ cursor.next.2.rest =
      cursor.rest := by
  rw [List.append_assoc, text_append_next, takeWhile_append_pastBlanks]

/-- Behind a token the line ends where it did. -/
private theorem nextLine_next : cursor.next.2.nextLine rest = cursor.nextLine rest := by
  calc cursor.next.2.nextLine rest
      = (cursor.past (cursor.rest.takeWhile isBlank ++ cursor.next.1.lexeme.text.toList)
          cursor.next.2.rest).past (cursor.next.2.rest ++ ['\n']) rest := by
        rw [← next_snd_eq_past, nextLine]
    _ = cursor.nextLine rest := by
        rw [past_past, ← List.append_assoc, blanks_append_text_append_next, nextLine]

/-- The tokens of two texts with a line break between them. -/
theorem tokens_withLine (cursor : Cursor) (rest : List Char) :
    (cursor.withLine rest).tokens = cursor.tokens ++ (cursor.nextLine rest).tokens := by
  induction cursor using along with
  | stop cursor hend =>
      rw [tokens_eq cursor, if_pos hend, List.nil_append]
      exact tokens_withLine_of_blank (next_lexeme_eq_endOfInput_iff.mp hend)
  | turn cursor hend ih =>
      have hblank : cursor.pastBlanks.rest ≠ [] := by rwa [Ne, ← next_lexeme_eq_endOfInput_iff]
      have hnext := @next_withLine cursor rest hblank
      have hother : (cursor.withLine rest).next.1.lexeme ≠ .endOfInput := by rwa [hnext]
      rw [tokens_eq, if_neg hother, tokens_eq cursor, if_neg hend, hnext, ih, nextLine_next,
        List.cons_append]

end Cursor

/-! ## Two texts -/

/-- A token on the first line, behind nothing but characters of one byte. -/
def Token.onFirstLine (lexeme : Lexeme) (column : Nat) : Token := ⟨lexeme, column - 1, ⟨1, column⟩⟩

/-- How many lines a text and the line break behind it take. -/
def lineCount (text : String) : Nat := text.toList.count '\n' + 1

/-- Behind a text and a line break another one begins, so many bytes and lines further down. -/
private theorem Cursor.nextLine_start (text rest : String) :
    (start text).nextLine rest.toList =
      (start rest).down (utf8Length text.toList + 1) (lineCount text) := by
  have hline := Location.line_afterAll .first text.toList
  have hsize : ('\n').utf8Size = 1 := rfl
  simp only [nextLine, past, start, down, utf8Length_append, utf8Length_cons, utf8Length_nil,
    hsize, Location.afterAll_append, Location.afterAll_cons, Location.after_newline,
    Location.afterAll_nil, hline, lineCount, Location.down]
  simp [Location.first, Nat.add_assoc]

/-- The tokens of a text and of another one on the lines below. -/
theorem Cursor.tokens_append_line (text rest : String) :
    (start (text ++ "\n" ++ rest)).tokens = (start text).tokens ++
      (start rest).tokens.map (Token.down (utf8Length text.toList + 1) (lineCount text)) := by
  have hstart : start (text ++ "\n" ++ rest) = (start text).withLine rest.toList := by
    simp [start, withLine]
  rw [hstart, tokens_withLine, nextLine_start, tokens_down]

/-- Both texts end where the one on the lines below does. -/
theorem Cursor.endToken_append_line (text rest : String) :
    (start (text ++ "\n" ++ rest)).endToken =
      (start rest).endToken.down (utf8Length text.toList + 1) (lineCount text) := by
  have hstart :
      (start (text ++ "\n" ++ rest)).toEnd = ((start text).nextLine rest.toList).toEnd := by
    have hnext : ((start text).nextLine rest.toList).toEnd =
        (start text).past (((start text).rest ++ ['\n']) ++ rest.toList) [] := past_past _ _ _ _
    rw [hnext]
    simp [start, toEnd, past]
  have hdown : ((start rest).down (utf8Length text.toList + 1) (lineCount text)).toEnd =
      (start rest).toEnd.down (utf8Length text.toList + 1) (lineCount text) := past_down _ _ _ _
  rw [endToken, hstart, nextLine_start, hdown]
  rfl

end LoopLang
