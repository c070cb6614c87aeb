import LoopLang.Proofs.Outcome.PrintedTrees
import LoopLang.Proofs.Outcome.TreePlaces
import LoopLang.Proofs.Tree.Shapes

/-!
# What the two renderings tell apart

A program is written out in two ways, as its canonical text and as an s-expression.  Either one
tells well-formed programs apart exactly if they differ in more than locations
(`renderings_faithful`), and all that a parse returns is well formed.

The two go back to the program by different ways.  The canonical text is a valid text that denotes
the program, and a text denotes at most one program.  An s-expression has no grammar to go back by:
its text is divided into atoms and lists first (`Sexpr.Plain.eq_of_text_eq`), and then each list is
known by the word that it begins with (`Program.bare_eq_of_sexpr`).
-/

namespace LoopLang

open Grammar

/-- The canonical text of a well-formed program is parsed to the program, up to locations, where
there is room for its parentheses. -/
theorem Program.WellFormed.bare_parse_text {p : Program} (hformed : p.WellFormed) :
    (parse p.text (nesting (lexemesOf p.text.toList))).program.bare = p.bare := by
  obtain ⟨q, hbare, hvalid⟩ :=
    exists_isValid_text hformed.allLexical hformed.listsNames hformed.distinctNames
  rw [(parse_of_isValid (hvalid _ (Nat.le_refl _))).2, hbare]

private theorem Program.WellFormed.text_eq_iff {p q : Program} (hp : p.WellFormed)
    (hq : q.WellFormed) :
    p.text = q.text ↔ p.bare = q.bare := by
  refine ⟨fun hsame => ?_, Program.text_eq_of_bare_eq⟩
  rw [← hp.bare_parse_text, hsame, hq.bare_parse_text]

private theorem Program.WellFormed.text_sexpr_eq_iff {p q : Program} (hp : p.WellFormed)
    (hq : q.WellFormed) : p.sexpr.text = q.sexpr.text ↔ p.bare = q.bare := by
  constructor
  · intro hsame
    exact Program.bare_eq_of_sexpr hp hq
      ((Program.plain_sexpr hp).eq_of_text_eq (Program.plain_sexpr hq) hsame)
  · intro hbare
    rw [Program.sexpr_eq_of_bare_eq hbare]

/-- Well-formed programs are equal up to locations if and only if their s-expressions read the same,
and if and only if their canonical texts do.  The programs that a parse returns are well formed. -/
theorem renderings_faithful :
    (∀ p q : Program, p.WellFormed → q.WellFormed →
      (p.sexpr.text = q.sexpr.text ↔ p.bare = q.bare) ∧ (p.text = q.text ↔ p.bare = q.bare)) ∧
    ∀ (source : String) (limit : Nat), (parse source limit).program.WellFormed :=
  ⟨fun _ _ hp hq => ⟨hp.text_sexpr_eq_iff hq, hp.text_eq_iff hq⟩, wellFormed_parse⟩

/-- Parentheses that matter show in both renderings, and those that do not show in neither. -/
theorem renderings_faithful_parentheses :
    let grouped := (parse "x = (a + b) * c;" 1).program
    let other := (parse "x = a + (b * c);" 1).program
    let plain := (parse "x = a + b * c;" 1).program
    (grouped.sexpr.text ≠ other.sexpr.text ∧ grouped.text ≠ other.text) ∧
      other ≠ plain ∧ other.sexpr.text = plain.sexpr.text ∧ other.text = plain.text := by
  intro grouped other plain
  have hgrouped : grouped.WellFormed := renderings_faithful.2 _ _
  have hother : other.WellFormed := renderings_faithful.2 _ _
  have hplain : plain.WellFormed := renderings_faithful.2 _ _
  have hdiffer : grouped.bare ≠ other.bare := by decide +kernel
  have hsame : other.bare = plain.bare := by decide +kernel
  obtain ⟨hsexpr, htext⟩ := renderings_faithful.1 grouped other hgrouped hother
  obtain ⟨hsexpr', htext'⟩ := renderings_faithful.1 other plain hother hplain
  exact ⟨⟨fun h => hdiffer (hsexpr.mp h), fun h => hdiffer (htext.mp h)⟩, by decide +kernel,
    hsexpr'.mpr hsame, htext'.mpr hsame⟩

end LoopLang
