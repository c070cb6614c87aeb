import LoopLang.Proofs.Printing.Pages

/-!
# Laying out only appends

Whatever stands on a page, laying out a node appends a text of the node's own and leaves the
indentation as it was (`layOut_appends`).  The text may depend on the indentation the node is begun
at, as that of a body does, and on nothing else; that of an expression or of conditions does not
depend on it either, so the header of a block may be laid out on a page of its own.

A part of a layout `Writes` a text if this is what it does, the text given for each indentation.
All parts are built from writing a fixed text, starting a line and going one level deeper, one part
behind the other, and each of these keeps the property.
-/

namespace LoopLang

namespace Page

variable {part first second : Page → Page} {text before behind : Nat → String}

/-- The part appends the text for the page's indentation, and does nothing else. -/
def Writes (part : Page → Page) (text : Nat → String) : Prop :=
  ∀ page : Page, part page = page.write (text page.indent)

/-- What a part leaves on a page with nothing on it, at a level of indentation. -/
def textAt (part : Page → Page) (level : Nat) : String := (part ⟨"", level⟩).text

/-- There is no other text that a part could write than the one it writes on an empty page. -/
private theorem Writes.eq_textAt (hpart : Writes part text) : text = textAt part := by
  funext level
  simp [textAt, hpart ⟨"", level⟩]

private theorem Writes.writes_textAt (hpart : Writes part text) : Writes part (textAt part) := by
  rw [← hpart.eq_textAt]
  exact hpart

/-! ## What the parts are built from -/

private theorem writes_write (fixed : String) :
    Writes (fun page => page.write fixed) fun _ => fixed :=
  fun _ => rfl

private theorem writes_startLine : Writes startLine indentation := fun _ => rfl

private theorem write_empty (page : Page) : page.write "" = page := by
  simp [write]

private theorem writes_id : Writes (fun page => page) fun _ => "" :=
  fun page => page.write_empty.symm

/-- The second part is begun at the indentation that the first one was begun at. -/
private theorem Writes.andThen (hfirst : Writes first before) (hsecond : Writes second behind) :
    Writes (fun page => second (first page)) fun level => before level ++ behind level := by
  intro page
  calc second (first page)
      = second (page.write (before page.indent)) := by rw [hfirst page]
    _ = (page.write (before page.indent)).write (behind page.indent) := hsecond _
    _ = page.write (before page.indent ++ behind page.indent) := (write_append page _ _).symm

private theorem Writes.write (hpart : Writes part text) (fixed : String) :
    Writes (fun page => (part page).write fixed) fun level => text level ++ fixed :=
  hpart.andThen (writes_write fixed)

private theorem Writes.indented (hpart : Writes part text) :
    Writes (fun page => (part page.deeper).shallower) fun level => text (level + 1) := by
  intro page
  exact congrArg shallower (hpart page.deeper)

private theorem Writes.parenthesize (hpart : Writes part text) (needed : Bool) :
    Writes (Page.parenthesize needed part) fun level =>
      if needed then "(" ++ text level ++ ")" else text level := by
  cases needed with
  | false => exact hpart
  | true => exact ((writes_write "(").andThen hpart).write ")"

/-- Parts one behind the other write their texts one behind the other. -/
private theorem writes_foldl {α : Type} {part : α → Page → Page} {text : α → Nat → String}
    {items : List α} (hparts : ∀ item ∈ items, Writes (part item) (text item)) :
    Writes (fun page => items.foldl (fun page item => part item page) page)
      fun level => String.join (items.map fun item => text item level) := by
  induction items with
  | nil => exact writes_id
  | cons item items ih =>
    have hfirst := hparts item List.mem_cons_self
    have hrest := ih fun other hmem => hparts other (List.mem_cons_of_mem item hmem)
    simpa only [List.foldl_cons, List.map_cons, String.join_cons] using hfirst.andThen hrest

end Page

open Page (Writes textAt)

/-! ## Parts of a line -/

/-- An expression writes the same text at every indentation. -/
private theorem Expr.writes_layOut (e : Expr) : ∃ text : String, Writes e.layOut fun _ => text := by
  induction e with
  | ident name _ => exact ⟨name, Page.writes_write name⟩
  | number digits _ => exact ⟨digits, Page.writes_write digits⟩
  | binary op left right _ ihleft ihright =>
    obtain ⟨leftText, hleft⟩ := ihleft
    obtain ⟨rightText, hright⟩ := ihright
    have hfront := (hleft.parenthesize (left.needsParens op.precedence .left)).write " "
    exact ⟨_, ((hfront.write op.symbol).write " ").andThen
      (hright.parenthesize (right.needsParens op.precedence .right))⟩

private theorem Comparison.writes_layOut (c : Comparison) :
    ∃ text : String, Writes c.layOut fun _ => text := by
  obtain ⟨leftText, hleft⟩ := c.left.writes_layOut
  obtain ⟨rightText, hright⟩ := c.right.writes_layOut
  exact ⟨_, (((hleft.write " ").write c.op.symbol).write " ").andThen hright⟩

private theorem Conditions.writes_layOut (c : Conditions) :
    ∃ text : String, Writes c.layOut fun _ => text := by
  induction c with
  | single c => exact c.writes_layOut
  | combined op left right _ ih =>
    obtain ⟨leftText, hleft⟩ := ih
    obtain ⟨rightText, hright⟩ := right.writes_layOut
    exact ⟨_, (((hleft.write " ").write op.symbol).write " ").andThen hright⟩

/-- On any page conditions write the text they have on a page of their own. -/
private theorem Conditions.layOut_eq_write (c : Conditions) (page : Page) :
    c.layOut page = page.write c.text := by
  obtain ⟨text, htext⟩ := c.writes_layOut
  have hown : text = c.text := congrFun htext.eq_textAt 0
  rw [htext page, hown]

/-! ## Lines -/

private theorem Assignment.writes_layOut (a : Assignment) : Writes a.layOut (textAt a.layOut) := by
  obtain ⟨valueText, hvalue⟩ := a.value.writes_layOut
  have hfront := ((Page.writes_startLine.write a.target).write " ").write a.op.symbol
  exact (((hfront.write " ").andThen hvalue).write ";\n").writes_textAt

private theorem Declaration.writes_layOut (d : Declaration) :
    Writes d.layOut (textAt d.layOut) := by
  have hfront := (Page.writes_startLine.write "int ").write (", ".intercalate d.names)
  obtain ⟨names, initial, location⟩ := d
  cases initial with
  | none => exact (hfront.write ";\n").writes_textAt
  | some initial =>
    obtain ⟨valueText, hvalue⟩ := initial.writes_layOut
    exact (((hfront.write " = ").andThen hvalue).write ";\n").writes_textAt

/-- A block writes its header and its end at its own indentation, and the texts that the assignments
of its body have one level deeper. -/
private theorem Page.writes_block (header : String) (body : List Assignment) :
    Writes (Page.block header body) fun level =>
      indentation level ++ header ++ " : begin\n"
        ++ String.join (body.map fun a => textAt a.layOut (level + 1))
        ++ indentation level ++ "end\n" := by
  have hopening := (writes_startLine.write header).write " : begin\n"
  have hbody := Writes.indented (writes_foldl fun a (_ : a ∈ body) => a.writes_layOut)
  exact ((hopening.andThen hbody).andThen writes_startLine).write "end\n"

private theorem Guarded.writes_layOut (word : String) (block : Guarded) :
    Writes (block.layOut word) (textAt (block.layOut word)) :=
  (Page.writes_block _ block.body).writes_textAt

private theorem Otherwise.writes_layOut (block : Otherwise) :
    Writes block.layOut (textAt block.layOut) :=
  (Page.writes_block "else" block.body).writes_textAt

private theorem Conditional.writes_layOut (c : Conditional) :
    Writes c.layOut (textAt c.layOut) := by
  obtain ⟨head, elifs, otherwise⟩ := c
  have helifs := Page.writes_foldl fun block (_ : block ∈ elifs) => block.writes_layOut "elif"
  have hguarded := (head.writes_layOut "if").andThen helifs
  cases otherwise with
  | none => exact hguarded.writes_textAt
  | some block => exact (hguarded.andThen block.writes_layOut).writes_textAt

private theorem Statement.writes_layOut (s : Statement) : Writes s.layOut (textAt s.layOut) := by
  cases s with
  | declaration d => exact d.writes_layOut
  | assignment a => exact a.writes_layOut
  | conditional c => exact c.writes_layOut
  | loop block => exact block.writes_layOut "loopc"

private theorem Program.writes_layOut (p : Program) : Writes p.layOut (textAt p.layOut) :=
  (Page.writes_foldl fun s (_ : s ∈ p.statements) => s.writes_layOut).writes_textAt

/-! ## Nodes -/

private theorem Node.writes_layOut (node : Node) : Writes node.layOut (textAt node.layOut) := by
  cases node with
  | program p => exact p.writes_layOut
  | declaration d => exact d.writes_layOut
  | assignment a => exact a.writes_layOut
  | conditional c => exact c.writes_layOut
  | elif block => exact block.writes_layOut "elif"
  | otherwise block => exact block.writes_layOut
  | loop block => exact block.writes_layOut "loopc"
  | conditions c => exact c.writes_layOut.choose_spec.writes_textAt
  | comparison c => exact c.writes_layOut.choose_spec.writes_textAt
  | expr e => exact e.writes_layOut.choose_spec.writes_textAt

private theorem Page.writes_add (nodes : List Node) :
    Writes (fun page => page.add nodes) fun level =>
      String.join (nodes.map fun node => textAt node.layOut level) :=
  writes_foldl fun node (_ : node ∈ nodes) => node.writes_layOut

/-- Nodes laid out one behind the other append, whatever stands on the page, the texts that each of
them has on an empty page of the same indentation, and the indentation is then the one before.  On a
new page this is the text of each node by itself.  The conditions in the header of a block, laid out
on a page of their own, are what they would have been in place. -/
theorem layOut_appends :
    (∀ (page : Page) (node : Node),
      node.layOut page = page.write (textAt node.layOut page.indent)) ∧
    (∀ (page : Page) (nodes : List Node),
      page.add nodes =
        page.write (String.join (nodes.map fun node => textAt node.layOut page.indent))) ∧
    (∀ nodes : List Node,
      Page.blank.add nodes = ⟨String.join (nodes.map Node.text), Page.blank.indent⟩) ∧
    (∀ (page : Page) (c : Conditions), (Node.conditions c).layOut page = page.write c.text) := by
  refine ⟨fun page node => node.writes_layOut page, fun page nodes => Page.writes_add nodes page,
    fun nodes => ?_, fun page c => c.layOut_eq_write page⟩
  calc Page.blank.add nodes
      = Page.blank.write (String.join (nodes.map Node.text)) := Page.writes_add nodes .blank
    _ = ⟨String.join (nodes.map Node.text), Page.blank.indent⟩ := by simp [Page.write, Page.blank]

end LoopLang
