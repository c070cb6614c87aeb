import LoopLang.Proofs.Lexing.Texts
import LoopLang.Tree.Sexpr

/-!
# Reading s-expressions back

The text of an s-expression says which s-expression it is, as long as its atoms can be told from
each other and from parentheses: they are not empty, and hold neither parentheses nor spaces
(`Sexpr.Plain.eq_of_text_eq`).

The argument reads an s-expression off the front of a longer text.  An atom ends where a space, a
closing parenthesis or the end of the text comes, which is what follows an item of a list; a list
ends at its own closing parenthesis, since no item begins with one.
-/

namespace LoopLang

namespace Sexpr

/-! ## The characters of a text -/

mutual

/-- The characters an s-expression is written with. -/
def chars : Sexpr → List Char
  | atom word => word.toList
  | list items => '(' :: (rowChars items ++ [')'])

/-- The characters of the items of a list, a space between each two. -/
def rowChars : List Sexpr → List Char
  | [] => []
  | item :: items => item.chars ++ furtherChars items

/-- The characters of further items of a list, a space before each. -/
def furtherChars : List Sexpr → List Char
  | [] => []
  | item :: items => ' ' :: (item.chars ++ furtherChars items)

end

mutual

private theorem toList_writeBehind (sexpr : Sexpr) (text : String) :
    (sexpr.writeBehind text).toList = text.toList ++ sexpr.chars := by
  cases sexpr with
  | atom word => simp [writeBehind, chars]
  | list items => simp [writeBehind, chars, toList_writeItems items]

private theorem toList_writeItems (items : List Sexpr) (text : String) :
    (writeItems items text).toList = text.toList ++ rowChars items := by
  cases items with
  | nil => simp [writeItems, rowChars]
  | cons item items =>
      simp [writeItems, rowChars, toList_writeFurther items, toList_writeBehind item]

private theorem toList_writeFurther (items : List Sexpr) (text : String) :
    (writeFurther items text).toList = text.toList ++ furtherChars items := by
  cases items with
  | nil => simp [writeFurther, furtherChars]
  | cons item items =>
      simp [writeFurther, furtherChars, toList_writeFurther items, toList_writeBehind item]

end

private theorem toList_text (sexpr : Sexpr) : sexpr.text.toList = sexpr.chars := by
  rw [text, toList_writeBehind]
  rfl

/-! ## Atoms that can be told apart -/

/-- Whether a character can stand in an atom, not between the items of a list or around them. -/
def inAtom (c : Char) : Bool := c != ' ' && c != '(' && c != ')'

/-- A word that can be read back as one atom. -/
def IsAtom (word : String) : Prop := word ≠ "" ∧ ∀ c ∈ word.toList, inAtom c = true

instance : DecidablePred IsAtom := fun word =>
  decidable_of_iff (word ≠ "" ∧ word.toList.all inAtom = true) (by simp [IsAtom])

/-- An s-expression whose atoms can all be read back. -/
inductive Plain : Sexpr → Prop where
  | atom {word : String} (hword : IsAtom word) : Plain (.atom word)
  | list {items : List Sexpr} (hitems : ∀ item ∈ items, item.Plain) : Plain (.list items)

@[simp] theorem plain_atom {word : String} : (atom word).Plain ↔ IsAtom word :=
  ⟨fun | .atom hword => hword, .atom⟩

@[simp] theorem plain_list {items : List Sexpr} :
    (list items).Plain ↔ ∀ item ∈ items, item.Plain :=
  ⟨fun | .list hitems => hitems, .list⟩

/-! ## Reading off the front -/

/-- A text that can follow an atom: nothing at its front would continue one. -/
def EndsAtom (rest : List Char) : Prop := ∀ c ∈ rest.head?, inAtom c = false

private theorem endsAtom_further (items : List Sexpr) (rest : List Char) :
    EndsAtom (furtherChars items ++ ')' :: rest) := by
  cases items <;>
    · rintro c ⟨⟩
      rfl

private theorem IsAtom.exists_cons {word : String} (hword : IsAtom word) :
    ∃ c cs, word.toList = c :: cs ∧ inAtom c = true := by
  obtain ⟨c, cs, hcs⟩ := exists_cons_toList hword.1
  exact ⟨c, cs, hcs, hword.2 c (by rw [hcs]; exact List.mem_cons_self)⟩

/-- An atom does not begin as a list does. -/
private theorem IsAtom.chars_ne_list {word : String} (hword : IsAtom word) (items : List Sexpr)
    (rest behind : List Char) : (atom word).chars ++ rest ≠ (list items).chars ++ behind := by
  obtain ⟨c, cs, hcs, hc⟩ := hword.exists_cons
  rw [chars, hcs, chars, List.cons_append, List.cons_append]
  intro hsame
  rw [(List.cons.inj hsame).1] at hc
  exact absurd hc (by decide)

/-- No item of a list begins as the end of the list does. -/
private theorem Plain.chars_ne_closing {sexpr : Sexpr} (hplain : sexpr.Plain)
    (rest behind : List Char) :
    sexpr.chars ++ rest ≠ ')' :: behind := by
  cases hplain with
  | atom hword =>
      obtain ⟨c, cs, hcs, hc⟩ := hword.exists_cons
      rw [chars, hcs, List.cons_append]
      intro hsame
      rw [(List.cons.inj hsame).1] at hc
      exact absurd hc (by decide)
  | list hitems => simp [chars]

/-- An s-expression is known from a text that it stands in front of, and so is the rest of the
text. -/
def IsReadOff (sexpr : Sexpr) : Prop :=
  ∀ {other : Sexpr} {rest behind : List Char}, other.Plain → EndsAtom rest → EndsAtom behind →
    sexpr.chars ++ rest = other.chars ++ behind → sexpr = other ∧ rest = behind

/-- Further items are read off one by one, up to the end of their list. -/
private theorem further_append_inj {items others : List Sexpr} {rest behind : List Char}
    (hitems : ∀ item ∈ items, item.IsReadOff) (hothers : ∀ other ∈ others, other.Plain)
    (hsame : furtherChars items ++ ')' :: rest = furtherChars others ++ ')' :: behind) :
    items = others ∧ rest = behind := by
  induction items generalizing others with
  | nil =>
      cases others with
      | nil => simpa [furtherChars] using hsame
      | cons other others => simp [furtherChars] at hsame
  | cons item items ih =>
      rw [List.forall_mem_cons] at hitems
      cases others with
      | nil => simp [furtherChars] at hsame
      | cons other others =>
          rw [List.forall_mem_cons] at hothers
          simp only [furtherChars, List.cons_append, List.append_assoc, List.cons.injEq,
            true_and] at hsame
          obtain ⟨hitem, hfurther⟩ := hitems.1 hothers.1 (endsAtom_further items rest)
            (endsAtom_further others behind) hsame
          obtain ⟨hrow, hrest⟩ := ih hitems.2 hothers.2 hfurther
          exact ⟨by rw [hitem, hrow], hrest⟩

private theorem row_append_inj {items others : List Sexpr} {rest behind : List Char}
    (hplain : ∀ item ∈ items, item.Plain) (hitems : ∀ item ∈ items, item.IsReadOff)
    (hothers : ∀ other ∈ others, other.Plain)
    (hsame : rowChars items ++ ')' :: rest = rowChars others ++ ')' :: behind) :
    items = others ∧ rest = behind := by
  cases items with
  | nil =>
      cases others with
      | nil => simpa [rowChars] using hsame
      | cons other others =>
          rw [List.forall_mem_cons] at hothers
          rw [rowChars, rowChars, List.nil_append, List.append_assoc] at hsame
          -- One row ends where the other one has an item, and no item begins with `)`.
          exact absurd hsame.symm (hothers.1.chars_ne_closing _ _)
  | cons item items =>
      rw [List.forall_mem_cons] at hplain hitems
      cases others with
      | nil =>
          rw [rowChars, rowChars, List.nil_append, List.append_assoc] at hsame
          exact absurd hsame (hplain.1.chars_ne_closing _ _)
      | cons other others =>
          rw [List.forall_mem_cons] at hothers
          rw [rowChars, rowChars, List.append_assoc, List.append_assoc] at hsame
          obtain ⟨hitem, hfurther⟩ := hitems.1 hothers.1 (endsAtom_further items rest)
            (endsAtom_further others behind) hsame
          obtain ⟨hrow, hrest⟩ := further_append_inj hitems.2 hothers.2 hfurther
          exact ⟨by rw [hitem, hrow], hrest⟩

private theorem Plain.isReadOff {sexpr : Sexpr} (hplain : sexpr.Plain) : sexpr.IsReadOff := by
  induction hplain with
  | atom hword =>
      intro other rest behind hother hrest hbehind hsame
      cases hother with
      | atom hother =>
          obtain ⟨hchars, hend⟩ := append_inj_of_all hword.2 hother.2 hrest hbehind hsame
          exact ⟨by rw [String.toList_inj.mp hchars], hend⟩
      | list hothers => exact absurd hsame (hword.chars_ne_list _ rest behind)
  | list hitems ih =>
      intro other rest behind hother hrest hbehind hsame
      cases hother with
      | atom hother => exact absurd hsame.symm (hother.chars_ne_list _ behind rest)
      | list hothers =>
          rw [chars, chars, List.cons_append, List.cons_append, List.cons.injEq, List.append_assoc,
            List.append_assoc] at hsame
          obtain ⟨hrow, hend⟩ := row_append_inj hitems ih hothers hsame.2
          exact ⟨by rw [hrow], hend⟩

/-- S-expressions with plain atoms and the same text are the same. -/
theorem Plain.eq_of_text_eq {sexpr other : Sexpr} (hplain : sexpr.Plain) (hother : other.Plain)
    (htext : sexpr.text = other.text) : sexpr = other := by
  have hend : EndsAtom [] := by rintro c ⟨⟩
  have hchars : sexpr.chars ++ [] = other.chars ++ [] := by
    rw [← toList_text, ← toList_text, htext]
  exact (hplain.isReadOff hother hend hend hchars).1

end Sexpr

end LoopLang
