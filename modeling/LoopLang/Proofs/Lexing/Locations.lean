import LoopLang.Proofs.Lexing.Lines
import LoopLang.Proofs.Lexing.Places
import LoopLang.Proofs.Lexing.UniqueSplit
import Mathlib.Data.List.DropRight
import Mathlib.Data.List.Nodup

/-!
# Locations and the text before them

A cursor counts lines and columns character by character.  What it has counted can be said of the
text behind it as a whole: the line is one more than the line feeds of that text, and the column is
one more than the characters behind the last of them (`Location.afterAll_first`).  Carriage returns,
tabs and characters of several bytes are characters like any other.

Every token stands behind some of the characters in front of the cursor, where these lead
(`Cursor.exists_past_of_mem_tokenize`), so its location is known from the text up to the byte at
which it starts, and no two tokens share one (`Cursor.location_tokenize`).
-/

namespace LoopLang

/-- What stands in a text behind its last line feed, or all of it if there is none. -/
def lastLine (cs : List Char) : List Char := cs.rtakeWhile (· ≠ '\n')

private theorem lastLine_concat_newline (cs : List Char) : lastLine (cs ++ ['\n']) = [] := by
  simp [lastLine]

private theorem lastLine_concat_of_ne {c : Char} (hc : c ≠ '\n') (cs : List Char) :
    lastLine (cs ++ [c]) = lastLine cs ++ [c] := by
  rw [lastLine, lastLine, List.rtakeWhile_concat_pos _ _ _ (by simpa using hc)]

/-- Where the characters from the beginning of a text lead. -/
theorem Location.afterAll_first (cs : List Char) :
    Location.first.afterAll cs = ⟨1 + cs.count '\n', 1 + (lastLine cs).length⟩ := by
  induction cs using List.reverseRecOn with
  | nil => rfl
  | append_singleton cs c ih =>
      rw [afterAll_append, ih, afterAll_cons, afterAll_nil, List.count_append]
      by_cases hc : c = '\n'
      · subst hc
        rw [after_newline, lastLine_concat_newline]
        rfl
      · rw [after_of_ne hc, lastLine_concat_of_ne hc, List.length_append,
          List.count_singleton, if_neg (by simpa using hc)]
        rfl

namespace Cursor

variable {source : String}

/-- Every token stands behind some of the characters in front of a cursor. -/
theorem exists_past_of_mem_tokenize (cursor : Cursor) :
    ∀ token ∈ cursor.tokenize, ∃ before after, cursor.rest = before ++ after ∧
      token.offset = (cursor.past before after).offset ∧
      token.location = (cursor.past before after).location := by
  induction cursor using along with
  | stop cursor hend =>
      rw [tokenize_of_end hend]
      intro token hmem
      obtain rfl := List.mem_singleton.mp hmem
      exact ⟨cursor.rest, [], (List.append_nil _).symm, rfl, rfl⟩
  | turn cursor hend ih =>
      rw [tokenize_of_not_end hend]
      intro token hmem
      rcases List.mem_cons.mp hmem with rfl | hmem
      · exact ⟨_, _, takeWhile_append_pastBlanks.symm, rfl, rfl⟩
      · obtain ⟨before, after, hrest, hoffset, hlocation⟩ := ih token hmem
        have hpast : cursor.next.2.past before after =
            cursor.past ((cursor.rest.takeWhile isBlank ++ cursor.next.1.lexeme.text.toList) ++
              before) after := by
          rw [← past_past _ _ _ cursor.next.2.rest, ← next_snd_eq_past]
        rw [hpast] at hoffset hlocation
        refine ⟨_, after, ?_, hoffset, hlocation⟩
        rw [List.append_assoc, ← hrest, blanks_append_text_append_next]

/-- A token of a text, and the text before it. -/
private theorem exists_holds_of_mem_tokenize {token : Token}
    (hmem : token ∈ (start source).tokenize) :
    ∃ before, Span.Holds source ⟨0, token.span.start⟩ before ∧
      token.location = Location.first.afterAll before := by
  obtain ⟨before, after, hrest, hoffset, hlocation⟩ :=
    exists_past_of_mem_tokenize (start source) token hmem
  refine ⟨before, ⟨[], after, hrest, rfl, ?_⟩, hlocation⟩
  exact hoffset.trans (Nat.zero_add _)

/-- The location of every token of a text is exact, the end of input included: its line is one more
than the line feeds before the token, and its column one more than the characters between the last
of these, or the beginning of the text, and the token.  From token to token locations increase, line
first, and no two tokens share one. -/
theorem location_tokenize (source : String) :
    (∀ token ∈ (start source).tokenize, ∃ before,
        Span.Holds source ⟨0, token.span.start⟩ before ∧
          token.location.line = 1 + before.count '\n' ∧
          token.location.column = 1 + (lastLine before).length) ∧
      ((start source).tokenize.Pairwise fun token next =>
        token.location.line < next.location.line ∨
          token.location.line = next.location.line ∧
            token.location.column < next.location.column) ∧
      ∀ token ∈ (start source).tokenize, ∀ other ∈ (start source).tokenize,
        token.location.line = other.location.line →
          token.location.column = other.location.column → token = other := by
  have hincreasing := pairwise_location_lt (start source)
  refine ⟨?exact, hincreasing.imp Location.lt_iff.mp, ?unique⟩
  case exact =>
    intro token hmem
    obtain ⟨before, hholds, hlocation⟩ := exists_holds_of_mem_tokenize hmem
    rw [Location.afterAll_first] at hlocation
    refine ⟨before, hholds, ?_, ?_⟩
    · rw [hlocation]
    · rw [hlocation]
  case unique =>
    intro token htoken other hother hline hcolumn
    have hplaces : ((start source).tokenize.map Token.location).Nodup :=
      List.pairwise_map.mpr (hincreasing.imp fun hlt => hlt.ne)
    apply List.inj_on_of_nodup_map hplaces htoken hother
    exact (Location.mk.injEq ..).mpr ⟨hline, hcolumn⟩

/-- A tab, a carriage return and a letter of two bytes take one column each. -/
theorem location_tokenize_line_feed :
    (∃ before, Span.Holds "a\tü;\r\n x" ⟨0, 8⟩ before ∧
      2 = 1 + before.count '\n' ∧ 2 = 1 + (lastLine before).length) ∧
    ∃ before, Span.Holds "a\tü;\r\n x" ⟨0, 4⟩ before ∧
      1 = 1 + before.count '\n' ∧ 4 = 1 + (lastLine before).length :=
  ⟨(location_tokenize "a\tü;\r\n x").1 ⟨.ident "x", 8, ⟨2, 2⟩⟩ (by decide +kernel),
    (location_tokenize "a\tü;\r\n x").1 ⟨.mark .semicolon, 4, ⟨1, 4⟩⟩ (by decide +kernel)⟩

end Cursor

end LoopLang
