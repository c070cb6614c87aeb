import LoopLang.Proofs.Printing.Sexprs
import LoopLang.Proofs.Tree.Nodes
import LoopLang.Proofs.Tree.Relocation

/-!
# Trees from their s-expressions

The s-expression of a well-formed program says which program it is, up to locations
(`Program.bare_eq_of_sexpr`), and its atoms can be told apart in a text (`Program.plain_sexpr`).

Names and numbers are atoms without a mark that says which of the two they are; they differ in their
first character.  Every other node is a list that begins with a word or an operator, and no word or
operator is shared by two kinds of nodes that can stand in the same place (`Sexpr.head?`).  That is
also how the items of a conditional divide into its body, its `elif` blocks and its `else` block.
-/

namespace LoopLang

/-- Every location, forgotten. -/
abbrev Location.forget : Location → Location := fun _ => .first

/-! ## Atoms -/

section

open Sexpr

/-- A run of one kind of characters is an atom, if neither spaces nor parentheses are of the
kind. -/
private theorem isAtom_of_all {kind : Char → Bool}
    (hmarks : kind ' ' = false ∧ kind '(' = false ∧ kind ')' = false) {word : String}
    (hword : word ≠ "") (hall : ∀ c ∈ word.toList, kind c = true) : IsAtom word := by
  refine ⟨hword, fun c hc => ?_⟩
  have hkind := hall c hc
  simp only [inAtom, Bool.and_eq_true, bne_iff_ne]
  refine ⟨⟨?_, ?_⟩, ?_⟩ <;>
    · rintro rfl
      simp [hmarks] at hkind

private theorem IsName.isAtom {name : String} (hname : IsName name) : IsAtom name :=
  isAtom_of_all (by decide) hname.1 hname.2.1

private theorem IsNumeral.isAtom {digits : String} (hdigits : IsNumeral digits) : IsAtom digits :=
  isAtom_of_all (by decide) hdigits.1 hdigits.2

/-- A name begins with a letter, a number with a digit. -/
private theorem IsName.not_isNumeral {text : String} (hname : IsName text) : ¬ IsNumeral text := by
  intro hdigits
  obtain ⟨c, cs, hcs⟩ := exists_cons_toList hname.1
  have hmem : c ∈ text.toList := by rw [hcs]; exact List.mem_cons_self
  have halpha := Lexeme.isAlpha_eq_false_of_isDigit (hdigits.2 c hmem)
  exact absurd (hname.2.1 c hmem) (by simp [halpha])

private theorem ArithOp.isAtom_symbol (op : ArithOp) : IsAtom op.symbol := by cases op <;> decide

private theorem AssignOp.isAtom_symbol (op : AssignOp) : IsAtom op.symbol := by
  rcases op with _ | op <;> [decide; (cases op <;> decide)]

private theorem RelOp.isAtom_symbol (op : RelOp) : IsAtom op.symbol := by cases op <;> decide

private theorem BoolOp.isAtom_symbol (op : BoolOp) : IsAtom op.symbol := by cases op <;> decide

end

/-! ## Plain s-expressions -/

private theorem Expr.plain_sexpr {e : Expr} (hformed : (Node.expr e).WellFormed) :
    e.sexpr.Plain := by
  induction e with
  | ident name location =>
      have hname : IsName name := Node.everywhere_ident.mp hformed
      exact .atom hname.isAtom
  | number digits location =>
      have hdigits : IsNumeral digits := Node.everywhere_number.mp hformed
      exact .atom hdigits.isAtom
  | binary op left right location ihleft ihright =>
      obtain ⟨-, hleft, hright⟩ := Node.everywhere_binary.mp hformed
      simp [sexpr, op.isAtom_symbol, ihleft hleft, ihright hright]

private theorem Comparison.plain_sexpr {c : Comparison} (hformed : (Node.comparison c).WellFormed) :
    c.sexpr.Plain := by
  obtain ⟨-, hleft, hright⟩ := Node.everywhere_comparison.mp hformed
  simp [sexpr, c.op.isAtom_symbol, Expr.plain_sexpr hleft, Expr.plain_sexpr hright]

private theorem Conditions.plain_sexpr {cs : Conditions}
    (hformed : (Node.conditions cs).WellFormed) :
    cs.sexpr.Plain := by
  induction cs with
  | single c => exact Comparison.plain_sexpr (Node.everywhere_single.mp hformed).2
  | combined op left right location ih =>
      obtain ⟨-, hleft, hright⟩ := Node.everywhere_combined.mp hformed
      simp [sexpr, op.isAtom_symbol, ih hleft, Comparison.plain_sexpr hright]

private theorem Assignment.plain_sexpr {a : Assignment} (hformed : (Node.assignment a).WellFormed) :
    a.sexpr.Plain := by
  obtain ⟨htarget, hvalue⟩ := Node.everywhere_assignment.mp hformed
  have htarget : IsName a.target := htarget
  simp [sexpr, a.op.isAtom_symbol, htarget.isAtom, Expr.plain_sexpr hvalue]

private theorem Declaration.plain_sexpr {d : Declaration}
    (hformed : (Node.declaration d).WellFormed) :
    d.sexpr.Plain := by
  obtain ⟨⟨-, -, hnames⟩, hinitial⟩ := Node.everywhere_declaration.mp hformed
  have hatoms : ∀ name ∈ d.names, Sexpr.IsAtom name := fun name hmem => (hnames name hmem).isAtom
  have hvalue : ∀ e ∈ d.initial, e.sexpr.Plain := fun e he => Expr.plain_sexpr (hinitial e he)
  have hint : Sexpr.IsAtom "int" := by decide
  simpa [sexpr, hint] using ⟨hatoms, hvalue⟩

/-- The items of a guarded block are plain, if the word that begins it is. -/
private theorem Guarded.plain_sexprItems {word : String} (hword : Sexpr.IsAtom word)
    {block : Guarded} (hformed : ∀ child ∈ Node.guardedChildren block, child.WellFormed) :
    ∀ item ∈ block.sexprItems word, item.Plain := by
  obtain ⟨hconditions, hbody⟩ := Node.forall_mem_guardedChildren.mp hformed
  rw [sexprItems, List.forall_mem_cons, List.forall_mem_cons, List.forall_mem_map]
  exact ⟨.atom hword, Conditions.plain_sexpr hconditions,
    fun a hmem => Assignment.plain_sexpr (hbody a hmem)⟩

private theorem Otherwise.plain_sexpr {block : Otherwise}
    (hformed : (Node.otherwise block).WellFormed) :
    block.sexpr.Plain := by
  obtain ⟨-, hbody⟩ := Node.everywhere_otherwise.mp hformed
  rw [sexpr, Sexpr.plain_list, List.forall_mem_cons, List.forall_mem_map]
  exact ⟨.atom (by decide), fun a hmem => Assignment.plain_sexpr (hbody a hmem)⟩

private theorem Conditional.plain_sexpr {c : Conditional}
    (hformed : (Node.conditional c).WellFormed) :
    c.sexpr.Plain := by
  obtain ⟨-, hhead, helifs, hotherwise⟩ := Node.everywhere_conditional.mp hformed
  rw [sexpr, Sexpr.plain_list, List.forall_mem_append, List.forall_mem_append,
    List.forall_mem_map, List.forall_mem_map]
  refine ⟨⟨Guarded.plain_sexprItems (by decide) hhead, fun block hmem => ?_⟩,
    fun block hmem => Otherwise.plain_sexpr (hotherwise block (Option.mem_toList.mp hmem))⟩
  exact .list (Guarded.plain_sexprItems (by decide) (Node.everywhere_elif.mp (helifs block hmem)).2)

private theorem Statement.plain_sexpr {s : Statement} (hformed : s.node.WellFormed) :
    s.sexpr.Plain := by
  cases s with
  | declaration d => exact Declaration.plain_sexpr hformed
  | assignment a => exact Assignment.plain_sexpr hformed
  | conditional c => exact Conditional.plain_sexpr hformed
  | loop block =>
      exact .list (Guarded.plain_sexprItems (by decide) (Node.everywhere_loop.mp hformed).2)

/-- The atoms of a well-formed program can be told apart in a text. -/
theorem Program.plain_sexpr {p : Program} (hformed : p.WellFormed) : p.sexpr.Plain := by
  obtain ⟨-, hstatements⟩ := Node.everywhere_program.mp hformed
  rw [sexpr, Sexpr.plain_list, List.forall_mem_cons, List.forall_mem_map]
  exact ⟨.atom (by decide), fun s hmem => Statement.plain_sexpr (hstatements s hmem)⟩

/-! ## Lists that agree in a view -/

/-- Lists whose members agree in one view, where that makes them agree in another. -/
private theorem map_eq_of_map_eq {α β γ : Type} {view : α → β} {other : α → γ} {as bs : List α}
    (hviews : ∀ a ∈ as, ∀ b ∈ bs, view a = view b → other a = other b)
    (hsame : as.map view = bs.map view) : as.map other = bs.map other := by
  induction as generalizing bs with
  | nil =>
      rw [List.map_nil, eq_comm, List.map_eq_nil_iff] at hsame
      rw [hsame]
  | cons a as ih =>
      cases bs with
      | nil => simp at hsame
      | cons b bs =>
          rw [List.map_cons, List.map_cons, List.cons.injEq] at hsame
          have hrest : ∀ a ∈ as, ∀ b ∈ bs, view a = view b → other a = other b :=
            fun a ha b hb => hviews a (List.mem_cons_of_mem _ ha) b (List.mem_cons_of_mem _ hb)
          rw [List.map_cons, List.map_cons, ih hrest hsame.2,
            hviews a List.mem_cons_self b List.mem_cons_self hsame.1]

/-- The same for parts that may be missing. -/
private theorem optionMap_eq_of_map_eq {α β γ : Type} {view : α → β} {other : α → γ}
    {x y : Option α} (hviews : ∀ a ∈ x, ∀ b ∈ y, view a = view b → other a = other b)
    (hsame : x.toList.map view = y.toList.map view) : x.map other = y.map other := by
  cases x <;> cases y <;> simp_all

/-! ## Expressions and conditions from their s-expressions -/

private theorem Expr.forget_eq_of_sexpr {e f : Expr} (he : (Node.expr e).WellFormed)
    (hf : (Node.expr f).WellFormed) (hsame : e.sexpr = f.sexpr) :
    e.relocate .forget = f.relocate .forget := by
  induction e generalizing f with
  | ident name location =>
      have hname : IsName name := Node.everywhere_ident.mp he
      cases f with
      | ident name' location' => simpa [sexpr] using hsame
      | number digits location' =>
          -- A name and a number are both written as an atom, and their spelling tells them apart.
          have hdigits : IsNumeral digits := Node.everywhere_number.mp hf
          rw [← Sexpr.atom.inj hsame] at hdigits
          exact absurd hdigits hname.not_isNumeral
      | binary op left right location' => simp [sexpr] at hsame
  | number digits location =>
      have hdigits : IsNumeral digits := Node.everywhere_number.mp he
      cases f with
      | ident name location' =>
          have hname : IsName name := Node.everywhere_ident.mp hf
          rw [Sexpr.atom.inj hsame] at hdigits
          exact absurd hdigits hname.not_isNumeral
      | number digits' location' => simpa [sexpr] using hsame
      | binary op left right location' => simp [sexpr] at hsame
  | binary op left right location ihleft ihright =>
      cases f with
      | ident name location' => simp [sexpr] at hsame
      | number digits location' => simp [sexpr] at hsame
      | binary op' left' right' location' =>
          obtain ⟨-, hleft, hright⟩ := Node.everywhere_binary.mp he
          obtain ⟨-, hleft', hright'⟩ := Node.everywhere_binary.mp hf
          simp only [sexpr, Sexpr.list.injEq, List.cons.injEq, Sexpr.atom.injEq, and_true] at hsame
          obtain ⟨hop, hlefts, hrights⟩ := hsame
          rw [relocate, relocate, ArithOp.symbol_injective hop, ihleft hleft hleft' hlefts,
            ihright hright hright' hrights]

private theorem Comparison.forget_eq_of_sexpr {c d : Comparison}
    (hc : (Node.comparison c).WellFormed) (hd : (Node.comparison d).WellFormed)
    (hsame : c.sexpr = d.sexpr) :
    c.relocate .forget = d.relocate .forget := by
  obtain ⟨-, hleft, hright⟩ := Node.everywhere_comparison.mp hc
  obtain ⟨-, hleft', hright'⟩ := Node.everywhere_comparison.mp hd
  simp only [sexpr, Sexpr.list.injEq, List.cons.injEq, Sexpr.atom.injEq, and_true] at hsame
  obtain ⟨hop, hlefts, hrights⟩ := hsame
  rw [relocate, relocate, RelOp.symbol_injective hop, Expr.forget_eq_of_sexpr hleft hleft' hlefts,
    Expr.forget_eq_of_sexpr hright hright' hrights]

/-- No relation is written as a connective is. -/
private theorem RelOp.symbol_ne_symbol (op : RelOp) (connective : BoolOp) :
    op.symbol ≠ connective.symbol := by
  cases op <;> cases connective <;> decide

private theorem Conditions.forget_eq_of_sexpr {cs ds : Conditions}
    (hcs : (Node.conditions cs).WellFormed) (hds : (Node.conditions ds).WellFormed)
    (hsame : cs.sexpr = ds.sexpr) :
    cs.relocate .forget = ds.relocate .forget := by
  induction cs generalizing ds with
  | single c =>
      cases ds with
      | single d =>
          have hc := (Node.everywhere_single.mp hcs).2
          have hd := (Node.everywhere_single.mp hds).2
          exact congrArg single (Comparison.forget_eq_of_sexpr hc hd hsame)
      | combined op left right location =>
          -- A comparison and joined conditions begin with different symbols.
          simp only [sexpr, Comparison.sexpr, Sexpr.list.injEq, List.cons.injEq,
            Sexpr.atom.injEq] at hsame
          exact absurd hsame.1 (c.op.symbol_ne_symbol op)
  | combined op left right location ih =>
      cases ds with
      | single d =>
          simp only [sexpr, Comparison.sexpr, Sexpr.list.injEq, List.cons.injEq,
            Sexpr.atom.injEq] at hsame
          exact absurd hsame.1.symm (d.op.symbol_ne_symbol op)
      | combined op' left' right' location' =>
          obtain ⟨-, hleft, hright⟩ := Node.everywhere_combined.mp hcs
          obtain ⟨-, hleft', hright'⟩ := Node.everywhere_combined.mp hds
          simp only [sexpr, Sexpr.list.injEq, List.cons.injEq, Sexpr.atom.injEq, and_true] at hsame
          obtain ⟨hop, hlefts, hrights⟩ := hsame
          rw [relocate, relocate, BoolOp.symbol_injective hop, ih hleft hleft' hlefts,
            Comparison.forget_eq_of_sexpr hright hright' hrights]

/-! ## Statements from their s-expressions -/

private theorem Assignment.forget_eq_of_sexpr {a b : Assignment}
    (ha : (Node.assignment a).WellFormed) (hb : (Node.assignment b).WellFormed)
    (hsame : a.sexpr = b.sexpr) :
    a.relocate .forget = b.relocate .forget := by
  simp only [sexpr, Sexpr.list.injEq, List.cons.injEq, Sexpr.atom.injEq, and_true] at hsame
  obtain ⟨hop, htarget, hvalue⟩ := hsame
  rw [relocate, relocate, htarget, AssignOp.symbol_injective hop,
    Expr.forget_eq_of_sexpr (Node.everywhere_assignment.mp ha).2
      (Node.everywhere_assignment.mp hb).2 hvalue]

/-- Bodies with the same s-expressions are equal up to locations. -/
private theorem forget_eq_of_body {body other : List Assignment}
    (hbody : ∀ a ∈ body, (Node.assignment a).WellFormed)
    (hother : ∀ a ∈ other, (Node.assignment a).WellFormed)
    (hsame : body.map Assignment.sexpr = other.map Assignment.sexpr) :
    body.map (Assignment.relocate .forget) = other.map (Assignment.relocate .forget) :=
  map_eq_of_map_eq
    (fun a ha b hb => Assignment.forget_eq_of_sexpr (hbody a ha) (hother b hb)) hsame

private theorem Declaration.forget_eq_of_sexpr {d e : Declaration}
    (hd : (Node.declaration d).WellFormed) (he : (Node.declaration e).WellFormed)
    (hsame : d.sexpr = e.sexpr) :
    d.relocate .forget = e.relocate .forget := by
  simp only [sexpr, Sexpr.list.injEq, List.cons.injEq, true_and] at hsame
  obtain ⟨hatoms, hvalues⟩ := hsame
  have hnames : d.names = e.names :=
    List.map_injective_iff.mpr (fun _ _ => Sexpr.atom.inj) hatoms
  have hinitials := optionMap_eq_of_map_eq (fun value hvalue other hother =>
    Expr.forget_eq_of_sexpr ((Node.everywhere_declaration.mp hd).2 value hvalue)
      ((Node.everywhere_declaration.mp he).2 other hother)) hvalues
  rw [relocate, relocate, hnames, hinitials]

private theorem Guarded.forget_eq {block other : Guarded}
    (hblock : ∀ child ∈ Node.guardedChildren block, child.WellFormed)
    (hother : ∀ child ∈ Node.guardedChildren other, child.WellFormed)
    (hconditions : block.conditions.sexpr = other.conditions.sexpr)
    (hbody : block.body.map Assignment.sexpr = other.body.map Assignment.sexpr) :
    block.relocate .forget = other.relocate .forget := by
  rw [Node.forall_mem_guardedChildren] at hblock hother
  rw [relocate, relocate, Conditions.forget_eq_of_sexpr hblock.1 hother.1 hconditions,
    forget_eq_of_body hblock.2 hother.2 hbody]

private theorem Guarded.forget_eq_of_sexprItems {word : String} {block other : Guarded}
    (hblock : ∀ child ∈ Node.guardedChildren block, child.WellFormed)
    (hother : ∀ child ∈ Node.guardedChildren other, child.WellFormed)
    (hsame : block.sexprItems word = other.sexprItems word) :
    block.relocate .forget = other.relocate .forget := by
  simp only [sexprItems, List.cons.injEq, true_and] at hsame
  exact Guarded.forget_eq hblock hother hsame.1 hsame.2

private theorem Otherwise.forget_eq_of_sexpr {block other : Otherwise}
    (hblock : (Node.otherwise block).WellFormed) (hother : (Node.otherwise other).WellFormed)
    (hsame : block.sexpr = other.sexpr) : block.relocate .forget = other.relocate .forget := by
  simp only [sexpr, Sexpr.list.injEq, List.cons.injEq, true_and] at hsame
  rw [relocate, relocate, forget_eq_of_body (Node.everywhere_otherwise.mp hblock).2
    (Node.everywhere_otherwise.mp hother).2 hsame]

/-! ## The words that lists begin with -/

/-- The atom that a list begins with. -/
def Sexpr.head? : Sexpr → Option String
  | list (atom word :: _) => some word
  | _ => none

/-- No assignment operator is written as a word that begins a block or a declaration. -/
private theorem AssignOp.symbol_ne_word (op : AssignOp) :
    ∀ word ∈ ["int", "if", "elif", "else", "loopc"], op.symbol ≠ word := by
  rcases op with _ | op <;> [decide; (cases op <;> decide)]

/-- Whether an item of a conditional belongs to the body of its first block. -/
def Sexpr.inBody (item : Sexpr) : Bool :=
  item.head? != some "elif" && item.head? != some "else"

/-- Whether an item of a conditional is one of its `elif` blocks. -/
def Sexpr.isElif (item : Sexpr) : Bool := item.head? == some "elif"

private theorem Assignment.inBody_sexpr (a : Assignment) : a.sexpr.inBody = true := by
  have helif := a.op.symbol_ne_word "elif" (by decide)
  have helse := a.op.symbol_ne_word "else" (by decide)
  simp [sexpr, Sexpr.inBody, Sexpr.head?, helif, helse]

/-- The items of a conditional behind its conditions divide in one way into assignments, `elif`
blocks and an `else` block. -/
private theorem Conditional.items_inj {body body' : List Assignment} {elifs elifs' : List Guarded}
    {last last' : Option Otherwise}
    (hsame : body.map Assignment.sexpr ++
        (elifs.map Guarded.elifSexpr ++ last.toList.map Otherwise.sexpr) =
      body'.map Assignment.sexpr ++
        (elifs'.map Guarded.elifSexpr ++ last'.toList.map Otherwise.sexpr)) :
    body.map Assignment.sexpr = body'.map Assignment.sexpr ∧
      elifs.map Guarded.elifSexpr = elifs'.map Guarded.elifSexpr ∧
      last.toList.map Otherwise.sexpr = last'.toList.map Otherwise.sexpr := by
  have hbody (body : List Assignment) : ∀ item ∈ body.map Assignment.sexpr, item.inBody = true :=
    List.forall_mem_map.mpr fun a _ => a.inBody_sexpr
  have helifs (elifs : List Guarded) : ∀ item ∈ elifs.map Guarded.elifSexpr, item.isElif = true :=
    List.forall_mem_map.mpr fun _ _ => rfl
  have hlast (last : Option Otherwise) :
      ∀ item ∈ (last.toList.map Otherwise.sexpr).head?, item.isElif = false := by
    cases last <;> simp [Otherwise.sexpr, Sexpr.isElif, Sexpr.head?]
  have hblocks (elifs : List Guarded) (last : Option Otherwise) :
      ∀ item ∈ (elifs.map Guarded.elifSexpr ++ last.toList.map Otherwise.sexpr).head?,
        item.inBody = false := by
    cases elifs <;> cases last <;>
      simp [Guarded.elifSexpr, Guarded.sexprItems, Otherwise.sexpr, Sexpr.inBody, Sexpr.head?]
  obtain ⟨hassignments, hbehind⟩ := append_inj_of_all (hbody body) (hbody body')
    (hblocks elifs last) (hblocks elifs' last') hsame
  exact ⟨hassignments,
    append_inj_of_all (helifs elifs) (helifs elifs') (hlast last) (hlast last') hbehind⟩

private theorem Conditional.forget_eq_of_sexpr {c d : Conditional}
    (hc : (Node.conditional c).WellFormed) (hd : (Node.conditional d).WellFormed)
    (hsame : c.sexpr = d.sexpr) :
    c.relocate .forget = d.relocate .forget := by
  obtain ⟨-, hhead, helifs, hotherwise⟩ := Node.everywhere_conditional.mp hc
  obtain ⟨-, hhead', helifs', hotherwise'⟩ := Node.everywhere_conditional.mp hd
  simp only [sexpr, Guarded.sexprItems, Sexpr.list.injEq, List.cons_append, List.cons.injEq,
    true_and, List.append_assoc] at hsame
  obtain ⟨hconditions, hitems⟩ := hsame
  obtain ⟨hbody, hblocks, hlast⟩ := Conditional.items_inj hitems
  have hheads := Guarded.forget_eq hhead hhead' hconditions hbody
  have hmiddle : c.elifs.map (Guarded.relocate .forget) =
      d.elifs.map (Guarded.relocate .forget) := by
    refine map_eq_of_map_eq (fun block hblock other hother hsame => ?_) hblocks
    exact Guarded.forget_eq_of_sexprItems (Node.everywhere_elif.mp (helifs block hblock)).2
      (Node.everywhere_elif.mp (helifs' other hother)).2 (Sexpr.list.inj hsame)
  have hends := optionMap_eq_of_map_eq (fun block hblock other hother =>
    Otherwise.forget_eq_of_sexpr (hotherwise block hblock) (hotherwise' other hother)) hlast
  rw [relocate, relocate, hheads, hmiddle, hends]

/-! ## Programs from their s-expressions -/

/-- The word or the operator that the s-expression of a statement begins with. -/
def Statement.opening : Statement → String
  | declaration _ => "int"
  | assignment a => a.op.symbol
  | conditional _ => "if"
  | loop _ => "loopc"

private theorem Statement.head?_sexpr (s : Statement) : s.sexpr.head? = some s.opening := by
  cases s <;> rfl

private theorem Statement.forget_eq_of_sexpr {s t : Statement} (hs : s.node.WellFormed)
    (ht : t.node.WellFormed) (hsame : s.sexpr = t.sexpr) :
    s.relocate .forget = t.relocate .forget := by
  have hopening : s.opening = t.opening := by
    rw [← Option.some_inj, ← head?_sexpr, ← head?_sexpr, hsame]
  -- Statements of different kinds begin with different words.
  cases s with
  | declaration d =>
      cases t with
      | declaration e => exact congrArg declaration (Declaration.forget_eq_of_sexpr hs ht hsame)
      | assignment a => exact absurd hopening.symm (a.op.symbol_ne_word "int" (by decide))
      | conditional _ => simp [opening] at hopening
      | loop _ => simp [opening] at hopening
  | assignment a =>
      cases t with
      | declaration _ => exact absurd hopening (a.op.symbol_ne_word "int" (by decide))
      | assignment b => exact congrArg assignment (Assignment.forget_eq_of_sexpr hs ht hsame)
      | conditional _ => exact absurd hopening (a.op.symbol_ne_word "if" (by decide))
      | loop _ => exact absurd hopening (a.op.symbol_ne_word "loopc" (by decide))
  | conditional c =>
      cases t with
      | declaration _ => simp [opening] at hopening
      | assignment a => exact absurd hopening.symm (a.op.symbol_ne_word "if" (by decide))
      | conditional d => exact congrArg conditional (Conditional.forget_eq_of_sexpr hs ht hsame)
      | loop _ => simp [opening] at hopening
  | loop block =>
      cases t with
      | declaration _ => simp [opening] at hopening
      | assignment a => exact absurd hopening.symm (a.op.symbol_ne_word "loopc" (by decide))
      | conditional _ => simp [opening] at hopening
      | loop other =>
          exact congrArg loop (Guarded.forget_eq_of_sexprItems (Node.everywhere_loop.mp hs).2
            (Node.everywhere_loop.mp ht).2 (Sexpr.list.inj hsame))

/-- Well-formed programs with the same s-expression are equal up to locations. -/
theorem Program.bare_eq_of_sexpr {p q : Program} (hp : p.WellFormed) (hq : q.WellFormed)
    (hsame : p.sexpr = q.sexpr) : p.bare = q.bare := by
  obtain ⟨-, hstatements⟩ := Node.everywhere_program.mp hp
  obtain ⟨-, hothers⟩ := Node.everywhere_program.mp hq
  simp only [sexpr, Sexpr.list.injEq, List.cons.injEq, true_and] at hsame
  exact congrArg Program.mk (map_eq_of_map_eq
    (fun s hs t ht => Statement.forget_eq_of_sexpr (hstatements s hs) (hothers t ht)) hsame)

end LoopLang
