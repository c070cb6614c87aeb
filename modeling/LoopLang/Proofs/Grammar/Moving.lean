import LoopLang.Proofs.Grammar.Derivation
import LoopLang.Proofs.Tree.Relocation

/-!
# Sentences at other places

The grammar looks at nothing of a token but its lexeme, and hands its location on to the tree.  So a
sentence that is moved to another place is a sentence there, and denotes the moved tree
(`Grammar.IsProgram.moved`).
-/

namespace LoopLang

/-- A function on tokens that moves their locations, and keeps their lexemes. -/
structure Moves (place : Location → Location) (move : Token → Token) : Prop where
  lexeme_eq : ∀ token, (move token).lexeme = token.lexeme
  location_eq : ∀ token, (move token).location = place token.location

namespace Grammar

variable {room : Nat} {tokens : List Token} {place : Location → Location} {move : Token → Token}

private theorem IsExpr.moved {level : Option Precedence} {e : Expr} (hmoves : Moves place move)
    (hexpr : IsExpr room level tokens e) :
    IsExpr room level (tokens.map move) (e.relocate place) := by
  induction hexpr with
  | ident htoken =>
      rw [Expr.relocate, ← hmoves.location_eq]
      exact .ident (by rwa [hmoves.lexeme_eq])
  | number htoken =>
      rw [Expr.relocate, ← hmoves.location_eq]
      exact .number (by rwa [hmoves.lexeme_eq])
  | parenthesized hopening _ hclosing ih =>
      rw [List.map_cons, List.map_append]
      exact .parenthesized (by rwa [hmoves.lexeme_eq]) ih (by rwa [hmoves.lexeme_eq])
  | single _ ih => exact .single ih
  | binary _ hsign hlevel _ ihleft ihright =>
      rw [List.map_append, List.map_cons, Expr.relocate, ← hmoves.location_eq]
      exact .binary ihleft (by rwa [hmoves.lexeme_eq]) hlevel ihright

private theorem IsComparison.moved {c : Comparison} (hmoves : Moves place move)
    (hcomparison : IsComparison room tokens c) :
    IsComparison room (tokens.map move) (c.relocate place) := by
  obtain ⟨hleft, hsign, hright⟩ := hcomparison
  rw [List.map_append, List.map_cons, Comparison.relocate, ← Expr.location_relocate place]
  exact .mk (hleft.moved hmoves) (by rwa [hmoves.lexeme_eq]) (hright.moved hmoves)

private theorem IsConditions.moved {cs : Conditions} (hmoves : Moves place move)
    (hconditions : IsConditions room tokens cs) :
    IsConditions room (tokens.map move) (cs.relocate place) := by
  induction hconditions with
  | single htokens => exact .single (htokens.moved hmoves)
  | combined _ hword hright ih =>
      rw [List.map_append, List.map_cons, Conditions.relocate, ← hmoves.location_eq]
      exact .combined ih (by rwa [hmoves.lexeme_eq]) (hright.moved hmoves)

private theorem IsSequence.moved {α : Type} {P : List Token → α → Prop} {f : α → α} {as : List α}
    (hmove : ∀ tokens a, P tokens a → P (tokens.map move) (f a))
    (hsequence : IsSequence P tokens as) :
    IsSequence P (tokens.map move) (as.map f) := by
  induction hsequence with
  | nil => exact .nil
  | cons hfirst _ ih =>
      rw [List.map_append]
      exact .cons (hmove _ _ hfirst) ih

private theorem IsOptional.moved {α : Type} {P : List Token → α → Prop} {f : α → α} {a : Option α}
    (hmove : ∀ tokens a, P tokens a → P (tokens.map move) (f a))
    (hoptional : IsOptional P tokens a) :
    IsOptional P (tokens.map move) (a.map f) := by
  cases hoptional with
  | none => exact .none
  | some htokens => exact .some (hmove _ _ htokens)

private theorem IsNames.moved {names : List String} (hmoves : Moves place move)
    (hnames : IsNames tokens names) : IsNames (tokens.map move) names := by
  induction hnames with
  | one htoken => exact .one (by rwa [hmoves.lexeme_eq])
  | more _ hcomma htoken ih =>
      rw [List.map_append]
      exact .more ih (by rwa [hmoves.lexeme_eq]) (by rwa [hmoves.lexeme_eq])

private theorem IsInitial.moved {e : Expr} (hmoves : Moves place move)
    (hinitial : IsInitial room tokens e) :
    IsInitial room (tokens.map move) (e.relocate place) := by
  obtain ⟨hsign, htokens⟩ := hinitial
  exact .mk (by rwa [hmoves.lexeme_eq]) (htokens.moved hmoves)

private theorem IsDeclaration.moved {d : Declaration} (hmoves : Moves place move)
    (hdeclaration : IsDeclaration room tokens d) :
    IsDeclaration room (tokens.map move) (d.relocate place) := by
  obtain ⟨hword, hnames, hinitial, hsemicolon⟩ := hdeclaration
  rw [List.map_cons, List.map_append, List.map_append, Declaration.relocate, ← hmoves.location_eq]
  exact .mk (by rwa [hmoves.lexeme_eq]) (hnames.moved hmoves)
    (hinitial.moved fun _ _ h => h.moved hmoves) (by rwa [hmoves.lexeme_eq])

private theorem IsAssignment.moved {a : Assignment} (hmoves : Moves place move)
    (hassignment : IsAssignment room tokens a) :
    IsAssignment room (tokens.map move) (a.relocate place) := by
  obtain ⟨htoken, hsign, hvalue, hsemicolon⟩ := hassignment
  rw [List.map_cons, List.map_cons, List.map_append, Assignment.relocate, ← hmoves.location_eq]
  exact .mk (by rwa [hmoves.lexeme_eq]) (by rwa [hmoves.lexeme_eq]) (hvalue.moved hmoves)
    (by rwa [hmoves.lexeme_eq])

private theorem IsBody.moved {body : List Assignment} (hmoves : Moves place move)
    (hbody : IsBody room tokens body) :
    IsBody room (tokens.map move) (body.map (Assignment.relocate place)) := by
  obtain ⟨hfirst, hsequence, hlast⟩ := hbody
  rw [List.map_cons, List.map_append]
  exact .mk (by rwa [hmoves.lexeme_eq]) (hsequence.moved fun _ _ h => h.moved hmoves)
    (by rwa [hmoves.lexeme_eq])

private theorem IsGuarded.moved {keyword : Keyword} {block : Guarded} (hmoves : Moves place move)
    (hblock : IsGuarded room keyword tokens block) :
    IsGuarded room keyword (tokens.map move) (block.relocate place) := by
  obtain ⟨hword, hconditions, hcolon, hbody⟩ := hblock
  rw [List.map_cons, List.map_append, List.map_cons, Guarded.relocate, ← hmoves.location_eq]
  exact .mk (by rwa [hmoves.lexeme_eq]) (hconditions.moved hmoves) (by rwa [hmoves.lexeme_eq])
    (hbody.moved hmoves)

private theorem IsOtherwise.moved {block : Otherwise} (hmoves : Moves place move)
    (hblock : IsOtherwise room tokens block) :
    IsOtherwise room (tokens.map move) (block.relocate place) := by
  obtain ⟨hword, hcolon, hbody⟩ := hblock
  rw [List.map_cons, List.map_cons, Otherwise.relocate, ← hmoves.location_eq]
  exact .mk (by rwa [hmoves.lexeme_eq]) (by rwa [hmoves.lexeme_eq]) (hbody.moved hmoves)

private theorem IsConditional.moved {c : Conditional} (hmoves : Moves place move)
    (hconditional : IsConditional room tokens c) :
    IsConditional room (tokens.map move) (c.relocate place) := by
  obtain ⟨hhead, helifs, hotherwise⟩ := hconditional
  rw [List.map_append, List.map_append]
  exact .mk (hhead.moved hmoves) (helifs.moved fun _ _ h => h.moved hmoves)
    (hotherwise.moved fun _ _ h => h.moved hmoves)

private theorem IsStatement.moved {s : Statement} (hmoves : Moves place move)
    (hstatement : IsStatement room tokens s) :
    IsStatement room (tokens.map move) (s.relocate place) := by
  cases hstatement with
  | declaration h => exact .declaration (h.moved hmoves)
  | assignment h => exact .assignment (h.moved hmoves)
  | conditional h => exact .conditional (h.moved hmoves)
  | loop h => exact .loop (h.moved hmoves)

/-- A program that is moved denotes the moved tree. -/
theorem IsProgram.moved {p : Program} (hmoves : Moves place move)
    (hprogram : IsProgram room tokens p) :
    IsProgram room (tokens.map move) (p.relocate place) :=
  IsSequence.moved (fun _ _ h => h.moved hmoves) hprogram

end Grammar

end LoopLang
