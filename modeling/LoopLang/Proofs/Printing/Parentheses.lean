import LoopLang.Proofs.Grammar.Nesting
import Mathlib.Logic.Relation

/-!
# Pairs of parentheses

Which parentheses of a text belong together is a matter of its lexemes alone.  `LosesPair` takes one
opening parenthesis and the closing one that belongs to it out of a list of lexemes, and leaves
everything else as it is; `LosesPairs` takes out any number of pairs, one after the other.  With
each pair there is one opening parenthesis less (`LosesPairs.pairCount_le`).

How deep parentheses nest is a number, `nesting`.  It says the same as the limit of the grammar
(`nestsWithin_iff`).
-/

namespace LoopLang

open Grammar

/-! ## Parentheses that match -/

/-- Lexemes whose parentheses match. -/
inductive IsMatched : List Lexeme → Prop where
  | nil : IsMatched []
  | other {lexeme : Lexeme} {rest : List Lexeme} (hopen : lexeme ≠ .mark .openParen)
      (hclose : lexeme ≠ .mark .closeParen) (hrest : IsMatched rest) : IsMatched (lexeme :: rest)
  | pair {inner rest : List Lexeme} (hinner : IsMatched inner) (hrest : IsMatched rest) :
      IsMatched (.mark .openParen :: (inner ++ .mark .closeParen :: rest))

theorem IsMatched.append {first second : List Lexeme} (hfirst : IsMatched first)
    (hsecond : IsMatched second) : IsMatched (first ++ second) := by
  induction hfirst with
  | nil => exact hsecond
  | other hopen hclose _ ih => exact .other hopen hclose ih
  | @pair inner rest hinner _ _ ih =>
      have hpair := IsMatched.pair hinner ih
      simpa using hpair

/-- The parentheses of a sentence match. -/
theorem isMatched_of_bracketed {tokens : List Token} (hbracketed : Bracketed tokens) :
    IsMatched (tokens.map Token.lexeme) := by
  induction hbracketed with
  | nil => exact .nil
  | cons hplain _ ih => exact .other hplain.1 hplain.2.1 ih
  | nested hopening _ hclosing ih =>
      have hpair := IsMatched.pair ih .nil
      simpa [hopening, hclosing] using hpair
  | append _ _ ihfirst ihsecond =>
      rw [List.map_append]
      exact ihfirst.append ihsecond

/-! ## Taking pairs away -/

/-- One list of lexemes is another one without two parentheses that belong together. -/
inductive LosesPair : List Lexeme → List Lexeme → Prop where
  | mk {front inner back : List Lexeme} (hinner : IsMatched inner) :
      LosesPair (front ++ .mark .openParen :: (inner ++ .mark .closeParen :: back))
        (front ++ (inner ++ back))

/-- One list of lexemes is another one without any number of pairs of parentheses. -/
abbrev LosesPairs : List Lexeme → List Lexeme → Prop := Relation.ReflTransGen LosesPair

section

variable {first second third fourth : List Lexeme}

private theorem LosesPair.append_left (hloses : LosesPair first second) (before : List Lexeme) :
    LosesPair (before ++ first) (before ++ second) := by
  obtain ⟨hinner⟩ := hloses
  rw [← List.append_assoc, ← List.append_assoc]
  exact .mk hinner

private theorem LosesPair.append_right (hloses : LosesPair first second) (behind : List Lexeme) :
    LosesPair (first ++ behind) (second ++ behind) := by
  obtain ⟨hinner⟩ := hloses
  simp only [List.append_assoc, List.cons_append]
  exact .mk hinner

theorem LosesPairs.append (hfront : LosesPairs first second) (hback : LosesPairs third fourth) :
    LosesPairs (first ++ third) (second ++ fourth) :=
  (hfront.lift (· ++ third) fun _ _ hloses => hloses.append_right third).trans
    (hback.lift (second ++ ·) fun _ _ hloses => hloses.append_left second)

theorem LosesPairs.cons (hloses : LosesPairs first second) (lexeme : Lexeme) :
    LosesPairs (lexeme :: first) (lexeme :: second) := by
  have hfirst : LosesPairs [lexeme] [lexeme] := .refl
  exact hfirst.append hloses

/-- The outermost pair is taken away. -/
theorem losesPairs_unwrap {inner : List Lexeme} (hinner : IsMatched inner) :
    LosesPairs (.mark .openParen :: (inner ++ [.mark .closeParen])) inner := by
  have hloses : LosesPair ([] ++ .mark .openParen :: (inner ++ [.mark .closeParen]))
      ([] ++ (inner ++ [])) := .mk hinner
  rw [List.append_nil] at hloses
  exact .single hloses

private theorem LosesPair.sublist (hloses : LosesPair first second) : second.Sublist first := by
  obtain ⟨-⟩ := hloses
  exact (((List.Sublist.refl _).append (List.sublist_cons_self _ _)).cons _).append_left _

theorem LosesPairs.sublist (hloses : LosesPairs first second) : second.Sublist first := by
  induction hloses with
  | refl => exact List.Sublist.refl _
  | tail _ hpair ih => exact hpair.sublist.trans ih

end

/-! ## Counting parentheses -/

/-- How many pairs of parentheses there are, where parentheses match. -/
def pairCount (lexemes : List Lexeme) : Nat := lexemes.count (.mark .openParen)

theorem LosesPairs.pairCount_le {first second : List Lexeme} (hloses : LosesPairs first second) :
    pairCount second ≤ pairCount first :=
  hloses.sublist.count_le _

/-- How deep the deepest parenthesis of some lexemes stands, when `depth` parentheses are open in
front of them. -/
def nestingFrom : Nat → List Lexeme → Nat
  | _, [] => 0
  | depth, lexeme :: rest =>
    if lexeme = .mark .openParen then max (depth + 1) (nestingFrom (depth + 1) rest)
    else if lexeme = .mark .closeParen then nestingFrom (depth - 1) rest
    else nestingFrom depth rest

/-- How deep parentheses nest. -/
def nesting (lexemes : List Lexeme) : Nat := nestingFrom 0 lexemes

private theorem nestsWithin_iff_nestingFrom {limit depth : Nat} {tokens : List Token} :
    NestsWithin limit depth tokens ↔ nestingFrom depth (tokens.map Token.lexeme) ≤ limit := by
  induction tokens generalizing depth with
  | nil => simp [nestingFrom]
  | cons token tokens ih =>
      rw [NestsWithin, List.map_cons, nestingFrom]
      split
      · rw [ih, Nat.max_le, Nat.succ_le_iff]
      · split
        · exact ih
        · exact ih

/-- The limit of the grammar is one for the depth of parentheses. -/
theorem nestsWithin_iff {limit : Nat} {tokens : List Token} :
    NestsWithin limit 0 tokens ↔ nesting (tokens.map Token.lexeme) ≤ limit :=
  nestsWithin_iff_nestingFrom

end LoopLang
