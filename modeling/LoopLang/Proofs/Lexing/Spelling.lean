import LoopLang.Cursor
import Mathlib.Algebra.Order.BigOperators.Group.List
import Mathlib.Algebra.Order.Group.Nat
import Mathlib.Data.List.TakeWhile

/-!
# How names and numbers are spelled

A name is a run of letters that is not reserved, and a numeral is a run of digits.  Every lexeme
that is read from a text obeys this (`Lexeme.lexical_read`), and no finite list of names uses up
all of them (`exists_isName_not_mem`).
-/

namespace LoopLang

/-- A run of letters, not empty and not reserved. -/
def IsName (text : String) : Prop :=
  text ≠ "" ∧ (∀ c ∈ text.toList, c.isAlpha) ∧ Lexeme.reserved? text = none

/-- A run of digits, not empty. -/
def IsNumeral (text : String) : Prop :=
  text ≠ "" ∧ ∀ c ∈ text.toList, c.isDigit

instance : DecidablePred IsName := fun text =>
  decidable_of_iff (text ≠ "" ∧ text.toList.all Char.isAlpha = true ∧
    Lexeme.reserved? text = none) (by simp [IsName])

instance : DecidablePred IsNumeral := fun text =>
  decidable_of_iff (text ≠ "" ∧ text.toList.all Char.isDigit = true) (by simp [IsNumeral])

/-- A character that is no lexeme of the language by itself, nor begins one. -/
def IsStray (c : Char) : Prop :=
  Lexeme.ofSign c = .unknown c ∧ c.isAlpha = false ∧ c.isDigit = false ∧ isBlank c = false

/-- Whether a lexeme is one that a text can hold: its name or number is spelled as such, and it is
not the end of the text. -/
def Lexeme.Lexical : Lexeme → Prop
  | ident name => IsName name
  | number digits => IsNumeral digits
  | unknown found => IsStray found
  | endOfInput => False
  | _ => True

namespace Lexeme

theorem Lexical.ne_endOfInput {lexeme : Lexeme} (hlexical : lexeme.Lexical) :
    lexeme ≠ .endOfInput := by
  rintro rfl
  exact hlexical

@[simp] theorem lexical_ident {name : String} : (ident name).Lexical ↔ IsName name := Iff.rfl

@[simp] theorem lexical_number {digits : String} :
    (number digits).Lexical ↔ IsNumeral digits := Iff.rfl

@[simp] theorem lexical_keyword (word : Keyword) : (keyword word).Lexical := trivial

@[simp] theorem lexical_assign (op : AssignOp) : (assign op).Lexical := trivial

@[simp] theorem lexical_relation (op : RelOp) : (relation op).Lexical := trivial

@[simp] theorem lexical_mark (m : Mark) : (mark m).Lexical := trivial

/-- The lexemes that are spelled in one way only. -/
def fixed : List Lexeme :=
  reserved ++ ArithOp.all.map arith ++ AssignOp.all.map assign ++ RelOp.all.map relation ++
    [.openParen, .closeParen, .semicolon, .comma, .colon].map mark

/-- A lexeme of a text is a name, a number or a stray character, or one of the few that are spelled
in one way only. -/
theorem Lexical.cases {motive : (lexeme : Lexeme) → lexeme.Lexical → Prop}
    (ident : ∀ (name : String) (hname : IsName name), motive (ident name) hname)
    (number : ∀ (digits : String) (hdigits : IsNumeral digits), motive (number digits) hdigits)
    (fixed : ∀ (lexeme : Lexeme) (hlexical : lexeme.Lexical), lexeme ∈ fixed →
      motive lexeme hlexical)
    (unknown : ∀ (found : Char) (hfound : IsStray found), motive (unknown found) hfound)
    (lexeme : Lexeme) (hlexical : lexeme.Lexical) : motive lexeme hlexical := by
  cases lexeme with
  | ident name => exact ident name hlexical
  | number digits => exact number digits hlexical
  | keyword word => exact fixed _ hlexical (by cases word <;> decide)
  | arith op => exact fixed _ hlexical (by cases op <;> decide)
  | assign op =>
      exact fixed _ hlexical (by rcases op with _ | op <;> [decide; (cases op <;> decide)])
  | relation op => exact fixed _ hlexical (by cases op <;> decide)
  | connective op => exact fixed _ hlexical (by cases op <;> decide)
  | mark m => exact fixed _ hlexical (by cases m <;> decide)
  | unknown found => exact unknown found hlexical
  | endOfInput => exact absurd hlexical id

/-! ## What is read is lexical -/

private theorem lexical_of_mem_reserved {lexeme : Lexeme} (hmem : lexeme ∈ reserved) :
    lexeme.Lexical := by
  simp only [reserved, List.mem_append, List.mem_map] at hmem
  rcases hmem with ⟨word, -, rfl⟩ | ⟨op, -, rfl⟩ <;> trivial

private theorem lexical_ofWord {word : String} (hword : word ≠ "")
    (halpha : ∀ c ∈ word.toList, c.isAlpha) :
    (ofWord word).Lexical := by
  unfold ofWord
  cases hreserved : reserved? word with
  | none => exact ⟨hword, halpha, hreserved⟩
  | some lexeme => exact lexical_of_mem_reserved (List.mem_of_find?_eq_some hreserved)

private theorem ofSign_eq_unknown {c found : Char} (hsign : ofSign c = unknown found) :
    found = c := by
  unfold ofSign at hsign
  split at hsign <;> simp_all

private theorem lexical_ofSign {c : Char} (halpha : c.isAlpha = false) (hdigit : c.isDigit = false)
    (hblank : isBlank c = false) : (ofSign c).Lexical := by
  cases hsign : ofSign c with
  | unknown found =>
      obtain rfl := ofSign_eq_unknown hsign
      exact ⟨hsign, halpha, hdigit, hblank⟩
  | ident | number | endOfInput =>
      unfold ofSign at hsign
      split at hsign <;> simp at hsign
  | _ => trivial

private theorem lexical_of_withEquals {c : Char} {lexeme : Lexeme}
    (hlexeme : withEquals? c = some lexeme) : lexeme.Lexical := by
  unfold withEquals? at hlexeme
  split at hlexeme <;> simp only [Option.some.injEq, reduceCtorEq] at hlexeme <;>
    (subst hlexeme; trivial)

private theorem lexical_readSign {c : Char} (halpha : c.isAlpha = false)
    (hdigit : c.isDigit = false) (hblank : isBlank c = false) (rest : List Char) :
    (readSign c rest).1.Lexical := by
  unfold readSign
  split
  · rename_i lexeme behind hlexeme
    exact lexical_of_withEquals hlexeme
  · exact lexical_ofSign halpha hdigit hblank

private theorem all_cons_takeWhile {p : Char → Bool} {c : Char} (hc : p c) (rest : List Char) :
    ∀ d ∈ c :: rest.takeWhile p, p d := by
  intro d hd
  rcases List.mem_cons.mp hd with rfl | hd
  · exact hc
  · exact List.mem_takeWhile_imp hd

/-- Whatever is read from a text that is not empty can stand in a text. -/
theorem lexical_read {c : Char} (hblank : isBlank c = false) (rest : List Char) :
    (read (c :: rest)).1.Lexical := by
  unfold read
  dsimp only
  split
  · rename_i halpha
    exact lexical_ofWord (by simp) (by simpa using all_cons_takeWhile halpha rest)
  · rename_i halpha
    split
    · rename_i hdigit
      exact ⟨by simp, by simpa using all_cons_takeWhile hdigit rest⟩
    · rename_i hdigit
      exact lexical_readSign (Bool.eq_false_iff.mpr halpha) (Bool.eq_false_iff.mpr hdigit) hblank
        rest

end Lexeme

/-! ## There are names enough -/

private theorem reserved?_replicate (count : Nat) :
    Lexeme.reserved? (String.ofList (List.replicate (count + 1) 'x')) = none := by
  simp only [Lexeme.reserved?, List.find?_eq_none, beq_iff_eq]
  intro lexeme hmem htext
  have hlist : lexeme.text.toList = 'x' :: List.replicate count 'x' := by
    rw [htext, String.toList_ofList, List.replicate_succ]
  have hhead : ∀ other ∈ Lexeme.reserved, other.text.toList.head? ≠ some 'x' := by decide
  exact hhead lexeme hmem (by rw [hlist]; rfl)

private theorem isName_replicate (count : Nat) :
    IsName (String.ofList (List.replicate (count + 1) 'x')) := by
  refine ⟨by simp [List.replicate_succ], ?_, reserved?_replicate count⟩
  intro c hc
  rw [String.toList_ofList] at hc
  rw [(List.mem_replicate.mp hc).2]
  rfl

/-- A name that is longer than all names of a list is not in the list. -/
theorem exists_isName_not_mem (names : List String) : ∃ name, IsName name ∧ name ∉ names := by
  let total := (names.map fun name => name.toList.length).sum
  refine ⟨_, isName_replicate total, fun hmem => ?_⟩
  have hle : (String.ofList (List.replicate (total + 1) 'x')).toList.length ≤ total :=
    List.le_sum_of_mem (List.mem_map_of_mem (f := fun name => name.toList.length) hmem)
  rw [String.toList_ofList, List.length_replicate] at hle
  omega

end LoopLang
