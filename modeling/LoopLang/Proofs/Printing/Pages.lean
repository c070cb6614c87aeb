import LoopLang.Proofs.Lexing.Texts
import LoopLang.Proofs.Printing.Lexemes

/-!
# What is written on a page

The canonical text of a tree has the canonical lexemes of the tree (`lexemesOf_text`).  A page
`Spells` lexemes if they are what stands on it in front of any text that does not continue the last
of them, and it `SpellsApart` if this last lexeme is ended already.  Laying out a part of a tree
appends the lexemes of the part, and what is behind them on the page depends on the part: an
expression does not end its last lexeme, and a statement does.
-/

namespace LoopLang

namespace Page

variable {page : Page} {lexemes : List Lexeme}

/-- What is on the page is these lexemes, in front of a text that does not continue them. -/
def Spells (page : Page) (lexemes : List Lexeme) : Prop :=
  ∀ rest, EndsLexeme rest → lexemesOf (page.text.toList ++ rest) = lexemes ++ lexemesOf rest

/-- What is on the page is these lexemes, whatever the text behind it. -/
def SpellsApart (page : Page) (lexemes : List Lexeme) : Prop :=
  ∀ rest, lexemesOf (page.text.toList ++ rest) = lexemes ++ lexemesOf rest

private theorem SpellsApart.spells (hpage : page.SpellsApart lexemes) : page.Spells lexemes :=
  fun rest _ => hpage rest

private theorem spellsApart_blank : Page.blank.SpellsApart [] := by
  intro rest
  simp [blank]

theorem write_append (page : Page) (first second : String) :
    page.write (first ++ second) = (page.write first).write second := by
  simp [write, String.append_assoc]

/-! ## Writing a lexeme -/

private theorem SpellsApart.write_lexeme (hpage : page.SpellsApart lexemes) {lexeme : Lexeme}
    (hlexical : lexeme.Lexical) : (page.write lexeme.text).Spells (lexemes ++ [lexeme]) := by
  intro rest hrest
  calc lexemesOf ((page.write lexeme.text).text.toList ++ rest)
      = lexemesOf (page.text.toList ++ (lexeme.text.toList ++ rest)) := by simp
    _ = lexemes ++ lexemesOf (lexeme.text.toList ++ rest) := hpage _
    _ = lexemes ++ [lexeme] ++ lexemesOf rest := by simp [lexemesOf_append hlexical hrest]

private theorem SpellsApart.write_mark (hpage : page.SpellsApart lexemes) (m : Mark) :
    (page.write m.text).SpellsApart (lexemes ++ [.mark m]) := by
  intro rest
  calc lexemesOf ((page.write m.text).text.toList ++ rest)
      = lexemesOf (page.text.toList ++ ((Lexeme.mark m).text.toList ++ rest)) := by
        simp [Lexeme.text]
    _ = lexemes ++ lexemesOf ((Lexeme.mark m).text.toList ++ rest) := hpage _
    _ = lexemes ++ [.mark m] ++ lexemesOf rest := by simp [lexemesOf_mark]

/-- A mark that continues no lexeme ends the one in front of it. -/
private theorem Spells.write_mark (hpage : page.Spells lexemes) {m : Mark}
    (hmark : m ∈ [.closeParen, .semicolon, .comma]) :
    (page.write m.text).SpellsApart (lexemes ++ [.mark m]) := by
  intro rest
  have hends : EndsLexeme ((Lexeme.mark m).text.toList ++ rest) := by
    simp only [List.mem_cons, List.not_mem_nil, or_false] at hmark
    rcases hmark with rfl | rfl | rfl <;> exact endsLexeme_cons (by decide) rest
  calc lexemesOf ((page.write m.text).text.toList ++ rest)
      = lexemesOf (page.text.toList ++ ((Lexeme.mark m).text.toList ++ rest)) := by
        simp [Lexeme.text]
    _ = lexemes ++ lexemesOf ((Lexeme.mark m).text.toList ++ rest) := hpage _ hends
    _ = lexemes ++ [.mark m] ++ lexemesOf rest := by simp [lexemesOf_mark]

/-! ## Writing white space -/

private theorem Spells.write_space (hpage : page.Spells lexemes) :
    (page.write " ").SpellsApart lexemes := by
  intro rest
  calc lexemesOf ((page.write " ").text.toList ++ rest)
      = lexemesOf (page.text.toList ++ (' ' :: rest)) := by simp
    _ = lexemes ++ lexemesOf (' ' :: rest) := hpage _ (endsLexeme_cons (by decide) rest)
    _ = lexemes ++ lexemesOf rest := by rw [lexemesOf_blank (by decide)]

private theorem Spells.write_newline (hpage : page.Spells lexemes) :
    (page.write "\n").SpellsApart lexemes := by
  intro rest
  calc lexemesOf ((page.write "\n").text.toList ++ rest)
      = lexemesOf (page.text.toList ++ ('\n' :: rest)) := by simp
    _ = lexemes ++ lexemesOf ('\n' :: rest) := hpage _ (endsLexeme_cons (by decide) rest)
    _ = lexemes ++ lexemesOf rest := by rw [lexemesOf_blank (by decide)]

private theorem isBlank_indentation (level : Nat) :
    ∀ c ∈ (indentation level).toList, isBlank c = true := by
  induction level with
  | zero => simp [indentation]
  | succ level ih =>
      intro c hc
      rw [indentation, String.toList_append, List.mem_append] at hc
      rcases hc with hc | hc
      · exact ih c hc
      · have hspaces : "    ".toList.all isBlank = true := by decide
        exact List.all_eq_true.mp hspaces c hc

private theorem SpellsApart.startLine (hpage : page.SpellsApart lexemes) :
    page.startLine.SpellsApart lexemes := by
  intro rest
  calc lexemesOf (page.startLine.text.toList ++ rest)
      = lexemesOf (page.text.toList ++ ((indentation page.indent).toList ++ rest)) := by
        simp [Page.startLine]
    _ = lexemes ++ lexemesOf ((indentation page.indent).toList ++ rest) := hpage _
    _ = lexemes ++ lexemesOf rest := by rw [lexemesOf_blanks (isBlank_indentation _)]

/-- The text of one page written on another. -/
private theorem SpellsApart.write_page (hpage : page.SpellsApart lexemes) {other : Page}
    {more : List Lexeme} (hother : other.Spells more) :
    (page.write other.text).Spells (lexemes ++ more) := by
  intro rest hrest
  calc lexemesOf ((page.write other.text).text.toList ++ rest)
      = lexemesOf (page.text.toList ++ (other.text.toList ++ rest)) := by simp
    _ = lexemes ++ lexemesOf (other.text.toList ++ rest) := hpage _
    _ = lexemes ++ more ++ lexemesOf rest := by rw [hother rest hrest, List.append_assoc]

/-- A lexeme with white space on both sides of it, as operators are written. -/
private theorem Spells.write_spaced (hpage : page.Spells lexemes) {lexeme : Lexeme}
    (hlexical : lexeme.Lexical) :
    (((page.write " ").write lexeme.text).write " ").SpellsApart (lexemes ++ [lexeme]) :=
  (hpage.write_space.write_lexeme hlexical).write_space

private theorem Spells.write_semicolon (hpage : page.Spells lexemes) :
    (page.write ";\n").SpellsApart (lexemes ++ [.mark .semicolon]) := by
  have htext : page.write ";\n" = (page.write Mark.semicolon.text).write "\n" :=
    page.write_append ";" "\n"
  rw [htext]
  have hmark := hpage.write_mark (m := .semicolon) (by decide)
  exact hmark.spells.write_newline

private theorem Spells.write_begin (hpage : page.Spells lexemes) :
    (page.write " : begin\n").SpellsApart (lexemes ++ [.mark .colon, .keyword .beginWord]) := by
  have htext : " : begin\n" = " " ++ Mark.colon.text ++ " " ++ (Lexeme.keyword .beginWord).text ++
      "\n" := by decide
  have hcolon := (hpage.write_space.write_mark .colon).spells
  have hbegin := (hcolon.write_space.write_lexeme (Lexeme.lexical_keyword .beginWord)).write_newline
  rw [htext, write_append, write_append, write_append, write_append]
  simpa using hbegin

private theorem SpellsApart.write_end (hpage : page.SpellsApart lexemes) :
    (page.write "end\n").SpellsApart (lexemes ++ [.keyword .endWord]) := by
  have htext : "end\n" = (Lexeme.keyword .endWord).text ++ "\n" := by decide
  rw [htext, write_append]
  exact (hpage.write_lexeme (Lexeme.lexical_keyword .endWord)).write_newline

private theorem SpellsApart.write_int (hpage : page.SpellsApart lexemes) :
    (page.write "int ").SpellsApart (lexemes ++ [.keyword .intWord]) := by
  have htext : "int " = (Lexeme.keyword .intWord).text ++ " " := by decide
  rw [htext, write_append]
  exact (hpage.write_lexeme (Lexeme.lexical_keyword .intWord)).write_space

private theorem Spells.write_equals (hpage : page.Spells lexemes) :
    (page.write " = ").SpellsApart (lexemes ++ [.assign .plain]) := by
  have htext : " = " = " " ++ (Lexeme.assign .plain).text ++ " " := by decide
  rw [htext, write_append, write_append]
  exact hpage.write_spaced (Lexeme.lexical_assign .plain)

/-- A part of a line in parentheses, where they are needed. -/
private theorem SpellsApart.parenthesize (hpage : page.SpellsApart lexemes) {part : Page → Page}
    {inner : List Lexeme}
    (hpart : ∀ {page : Page} {lexemes : List Lexeme}, page.SpellsApart lexemes →
      (part page).Spells (lexemes ++ inner)) (needed : Bool) :
    (page.parenthesize needed part).Spells (lexemes ++ inParens needed inner) := by
  unfold Page.parenthesize inParens
  split
  · have hopen : (page.write "(").SpellsApart (lexemes ++ [.mark .openParen]) :=
      hpage.write_mark .openParen
    have hclose := (hpart hopen).write_mark (m := .closeParen) (by decide)
    simpa [Mark.text] using hclose.spells
  · exact hpart hpage

end Page

/-! ## Expressions and conditions -/

/-- All lexemes are such as a text can hold. -/
def AllLexical (lexemes : List Lexeme) : Prop := ∀ lexeme ∈ lexemes, lexeme.Lexical

theorem allLexical_append {first second : List Lexeme} :
    AllLexical (first ++ second) ↔ AllLexical first ∧ AllLexical second := by
  simp [AllLexical, or_imp, forall_and]

theorem allLexical_cons {lexeme : Lexeme} {lexemes : List Lexeme} :
    AllLexical (lexeme :: lexemes) ↔ lexeme.Lexical ∧ AllLexical lexemes := by
  simp [AllLexical]

theorem allLexical_flatMap {α : Type} {f : α → List Lexeme} {as : List α} :
    AllLexical (as.flatMap f) ↔ ∀ a ∈ as, AllLexical (f a) := by
  simp only [AllLexical, List.mem_flatMap]
  grind

theorem allLexical_inParens {needed : Bool} {lexemes : List Lexeme} :
    AllLexical (inParens needed lexemes) ↔ AllLexical lexemes := by
  unfold inParens
  split
  · rw [allLexical_cons, allLexical_append, allLexical_cons]
    simp [AllLexical]
  · exact Iff.rfl

variable {page : Page} {lexemes : List Lexeme}

private theorem spells_expr (e : Expr) (hlexical : AllLexical e.lexemes)
    (hpage : page.SpellsApart lexemes) : (e.layOut page).Spells (lexemes ++ e.lexemes) := by
  induction e generalizing page lexemes with
  | ident name location =>
      have hname : (Lexeme.ident name).Lexical := hlexical _ List.mem_cons_self
      simpa [Expr.layOut, Expr.lexemes, Lexeme.text] using hpage.write_lexeme hname
  | number digits location =>
      have hdigits : (Lexeme.number digits).Lexical := hlexical _ List.mem_cons_self
      simpa [Expr.layOut, Expr.lexemes, Lexeme.text] using hpage.write_lexeme hdigits
  | binary op left right location ihleft ihright =>
      rw [Expr.lexemes, allLexical_append, allLexical_cons] at hlexical
      obtain ⟨hleft, hsign, hright⟩ := hlexical
      have hfirst := hpage.parenthesize (ihleft (allLexical_inParens.mp hleft))
        (left.needsParens op.precedence .left)
      have hspaced := hfirst.write_spaced hsign
      have hsecond := hspaced.parenthesize (ihright (allLexical_inParens.mp hright))
        (right.needsParens op.precedence .right)
      simpa [Expr.lexemes, Expr.layOut, Lexeme.text] using hsecond

private theorem spells_comparison (c : Comparison) (hlexical : AllLexical c.lexemes)
    (hpage : page.SpellsApart lexemes) : (c.layOut page).Spells (lexemes ++ c.lexemes) := by
  rw [Comparison.lexemes, allLexical_append, allLexical_cons] at hlexical
  obtain ⟨hleft, hsign, hright⟩ := hlexical
  have hfirst := spells_expr c.left hleft hpage
  have hsecond := spells_expr c.right hright (hfirst.write_spaced hsign)
  simpa [Comparison.lexemes, Comparison.layOut, Lexeme.text] using hsecond

private theorem spells_conditions (cs : Conditions) (hlexical : AllLexical cs.lexemes)
    (hpage : page.SpellsApart lexemes) : (cs.layOut page).Spells (lexemes ++ cs.lexemes) := by
  induction cs generalizing page lexemes with
  | single c => exact spells_comparison c hlexical hpage
  | combined op left right location ih =>
      rw [Conditions.lexemes, allLexical_append, allLexical_cons] at hlexical
      obtain ⟨hleft, hword, hright⟩ := hlexical
      have hfirst := ih hleft hpage
      have hsecond := spells_comparison right hright (hfirst.write_spaced hword)
      simpa [Conditions.lexemes, Conditions.layOut, Lexeme.text] using hsecond

/-! ## Statements -/

private theorem spells_assignment (a : Assignment) (hlexical : AllLexical a.lexemes)
    (hpage : page.SpellsApart lexemes) :
    (a.layOut page).SpellsApart (lexemes ++ a.lexemes) := by
  rw [Assignment.lexemes, allLexical_cons, allLexical_cons, allLexical_append] at hlexical
  obtain ⟨htarget, hsign, hvalue, -⟩ := hlexical
  have hfirst := hpage.startLine.write_lexeme htarget
  have hsecond := spells_expr a.value hvalue (hfirst.write_spaced hsign)
  simpa [Assignment.lexemes, Assignment.layOut, Lexeme.text] using hsecond.write_semicolon

private theorem spells_names (names : List String) (hlexical : AllLexical (nameLexemes names))
    (hpage : page.SpellsApart lexemes) :
    (page.write (", ".intercalate names)).Spells (lexemes ++ nameLexemes names) := by
  induction names generalizing page lexemes with
  | nil => simpa [nameLexemes, Page.write] using hpage.spells
  | cons name names ih =>
      cases names with
      | nil =>
          have hfirst := hpage.write_lexeme (hlexical _ List.mem_cons_self)
          simpa [nameLexemes, Lexeme.text] using hfirst
      | cons second names =>
          have hcons : nameLexemes (name :: second :: names) =
              .ident name :: .mark .comma :: nameLexemes (second :: names) := rfl
          rw [hcons, allLexical_cons, allLexical_cons] at hlexical
          obtain ⟨hname, -, hrest⟩ := hlexical
          have htext : page.write (", ".intercalate (name :: second :: names)) =
              (((page.write name).write ",").write " ").write
                (", ".intercalate (second :: names)) := by
            have hcomma : ", " = "," ++ " " := by decide
            rw [String.intercalate_cons_cons, hcomma, ← Page.write_append, ← Page.write_append,
              ← Page.write_append, String.append_assoc, String.append_assoc]
          -- The comma ends the name, so that what is written next stands apart from it.
          have hcomma : ((page.write name).write ",").SpellsApart
              (lexemes ++ [.ident name] ++ [.mark .comma]) :=
            (hpage.write_lexeme hname).write_mark (m := .comma) (by decide)
          rw [htext, hcons]
          simpa using ih hrest hcomma.spells.write_space

private theorem spells_declaration (d : Declaration) (hlexical : AllLexical d.lexemes)
    (hpage : page.SpellsApart lexemes) :
    (d.layOut page).SpellsApart (lexemes ++ d.lexemes) := by
  rw [Declaration.lexemes, allLexical_cons, allLexical_append, allLexical_append] at hlexical
  obtain ⟨-, hnames, hinitial, -⟩ := hlexical
  have hfirst := spells_names d.names hnames hpage.startLine.write_int
  cases hvalue : d.initial with
  | none =>
      simpa [Declaration.layOut, Declaration.lexemes, hvalue, initialLexemes] using
        hfirst.write_semicolon
  | some e =>
      rw [hvalue, initialLexemes, allLexical_cons] at hinitial
      have hsecond := spells_expr e hinitial.2 hfirst.write_equals
      simpa [Declaration.layOut, Declaration.lexemes, hvalue, initialLexemes] using
        hsecond.write_semicolon

/-! ## Blocks and programs -/

/-- What a list of parts spells, where each part ends its last lexeme. -/
private theorem spells_foldl {α : Type} {layOut : Page → α → Page} {f : α → List Lexeme}
    {as : List α}
    (hone : ∀ a ∈ as, ∀ {page : Page} {lexemes : List Lexeme}, page.SpellsApart lexemes →
      (layOut page a).SpellsApart (lexemes ++ f a)) (hpage : page.SpellsApart lexemes) :
    (as.foldl layOut page).SpellsApart (lexemes ++ as.flatMap f) := by
  induction as generalizing page lexemes with
  | nil => simpa using hpage
  | cons a as ih =>
      have hfirst := hone a List.mem_cons_self hpage
      have hrest := ih (fun b hmem => hone b (List.mem_cons_of_mem _ hmem)) hfirst
      simpa using hrest

/-- A header, and the body behind it. -/
private theorem spells_block {header : Page} {more : List Lexeme} {body : List Assignment}
    (hheader : header.Spells more) (hlexical : AllLexical (bodyLexemes body))
    (hpage : page.SpellsApart lexemes) :
    (page.block header.text body).SpellsApart (lexemes ++ (more ++ bodyLexemes body)) := by
  rw [bodyLexemes, allLexical_cons, allLexical_cons, allLexical_append,
    allLexical_flatMap] at hlexical
  obtain ⟨-, -, hbody, -⟩ := hlexical
  have hopened := (hpage.startLine.write_page hheader).write_begin
  have hdeeper : ((page.startLine.write header.text).write " : begin\n").deeper.SpellsApart
      (lexemes ++ more ++ [.mark .colon, .keyword .beginWord]) := hopened
  have hitems := spells_foldl
    (fun a hmem {page} {lexemes} hpage => spells_assignment a (hbody a hmem) hpage) hdeeper
  have hshallower : (body.foldl (fun page a => a.layOut page)
      ((page.startLine.write header.text).write " : begin\n").deeper).shallower.SpellsApart
        (lexemes ++ more ++ [.mark .colon, .keyword .beginWord] ++
          body.flatMap Assignment.lexemes) := hitems
  have hclosed := hshallower.startLine.write_end
  simpa [Page.block, bodyLexemes] using hclosed

private theorem spells_guarded {word : String} {keyword : Keyword} (hword : word = keyword.text)
    (block : Guarded) (hlexical : AllLexical (block.lexemes keyword))
    (hpage : page.SpellsApart lexemes) :
    (block.layOut word page).SpellsApart (lexemes ++ block.lexemes keyword) := by
  rw [Guarded.lexemes, allLexical_cons, allLexical_append] at hlexical
  obtain ⟨hkeyword, hconditions, hbody⟩ := hlexical
  have hfirst := (Page.spellsApart_blank.write_lexeme hkeyword).write_space
  have hheader := hfirst.write_page (spells_conditions block.conditions hconditions
    Page.spellsApart_blank)
  have hblock := spells_block hheader hbody hpage
  have htext : (((Page.blank.write (Lexeme.keyword keyword).text).write " ").write
      (block.conditions.layOut .blank).text).text = word ++ " " ++ block.conditions.text := by
    simp [Page.blank, Lexeme.text, hword, Conditions.text]
  rw [htext] at hblock
  simpa [Guarded.layOut, Guarded.lexemes] using hblock

private theorem spells_otherwise (block : Otherwise) (hlexical : AllLexical block.lexemes)
    (hpage : page.SpellsApart lexemes) :
    (block.layOut page).SpellsApart (lexemes ++ block.lexemes) := by
  rw [Otherwise.lexemes, allLexical_cons] at hlexical
  have hheader := Page.spellsApart_blank.write_lexeme hlexical.1
  have hblock := spells_block hheader hlexical.2 hpage
  have htext : (Page.blank.write (Lexeme.keyword .elseWord).text).text = "else" := by decide
  rw [htext] at hblock
  simpa [Otherwise.layOut, Otherwise.lexemes] using hblock

private theorem spells_conditional (c : Conditional) (hlexical : AllLexical c.lexemes)
    (hpage : page.SpellsApart lexemes) :
    (c.layOut page).SpellsApart (lexemes ++ c.lexemes) := by
  rw [Conditional.lexemes, allLexical_append, allLexical_append, allLexical_flatMap] at hlexical
  obtain ⟨hhead, helifs, hotherwise⟩ := hlexical
  have hif : "if" = Keyword.ifWord.text := rfl
  have helif : "elif" = Keyword.elifWord.text := rfl
  have hfirst := spells_guarded hif c.head hhead hpage
  have hone : ∀ block ∈ c.elifs, ∀ {page : Page} {lexemes : List Lexeme},
      page.SpellsApart lexemes →
      (block.layOut "elif" page).SpellsApart (lexemes ++ block.lexemes .elifWord) :=
    fun block hmem {_ _} hpage => spells_guarded helif block (helifs block hmem) hpage
  have hsecond := spells_foldl hone hfirst
  cases hlast : c.otherwise with
  | none => simpa [Conditional.layOut, Conditional.lexemes, hlast] using hsecond
  | some block =>
      rw [hlast] at hotherwise
      have hthird := spells_otherwise block hotherwise hsecond
      simpa [Conditional.layOut, Conditional.lexemes, hlast] using hthird

private theorem spells_statement (s : Statement) (hlexical : AllLexical s.lexemes)
    (hpage : page.SpellsApart lexemes) :
    (s.layOut page).SpellsApart (lexemes ++ s.lexemes) := by
  cases s with
  | declaration d => exact spells_declaration d hlexical hpage
  | assignment a => exact spells_assignment a hlexical hpage
  | conditional c => exact spells_conditional c hlexical hpage
  | loop block =>
      have hloop : "loopc" = Keyword.loopWord.text := rfl
      exact spells_guarded hloop block hlexical hpage

/-- The canonical text of a program has its canonical lexemes. -/
theorem lexemesOf_text (p : Program) (hlexical : AllLexical p.lexemes) :
    lexemesOf p.text.toList = p.lexemes := by
  have hone : ∀ s ∈ p.statements, ∀ {page : Page} {lexemes : List Lexeme},
      page.SpellsApart lexemes → (s.layOut page).SpellsApart (lexemes ++ s.lexemes) :=
    fun s hmem {_ _} hpage => spells_statement s (allLexical_flatMap.mp hlexical s hmem) hpage
  have hpage := spells_foldl hone Page.spellsApart_blank
  have htext := hpage []
  rw [List.append_nil, List.nil_append, lexemesOf_nil, List.append_nil] at htext
  exact htext

end LoopLang
