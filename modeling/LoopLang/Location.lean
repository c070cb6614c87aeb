/-!
# Places in a source text

A `Location` is a place as a person counts it: a line and a column, both from one.  A `Span` is a
place as a tool counts it: the bytes of the UTF-8 text from `start` up to, and not including,
`stop`.
-/

namespace LoopLang

/-! ## Lines and columns -/

/-- A line and a column of a source text. -/
structure Location where
  line : Nat
  column : Nat
deriving DecidableEq

namespace Location

/-- The location of the first character of every text. -/
def first : Location := ⟨1, 1⟩

/-- The location that follows a character: only a line feed starts a new line, and every other
character, whatever its width in bytes, takes one column. -/
def after (location : Location) (c : Char) : Location :=
  if c = '\n' then ⟨location.line + 1, 1⟩ else ⟨location.line, location.column + 1⟩

@[simp] theorem after_newline (location : Location) :
    location.after '\n' = ⟨location.line + 1, 1⟩ := rfl

theorem after_of_ne {location : Location} {c : Char} (hc : c ≠ '\n') :
    location.after c = ⟨location.line, location.column + 1⟩ := by
  simp [after, hc]

/-- The location that follows a run of characters. -/
def afterAll (location : Location) (cs : List Char) : Location :=
  cs.foldl after location

@[simp] theorem afterAll_nil (location : Location) : location.afterAll [] = location := rfl

@[simp] theorem afterAll_cons (location : Location) (c : Char) (cs : List Char) :
    location.afterAll (c :: cs) = (location.after c).afterAll cs := rfl

@[simp] theorem afterAll_append (location : Location) (cs ds : List Char) :
    location.afterAll (cs ++ ds) = (location.afterAll cs).afterAll ds := by
  simp [afterAll]

/-- A location as messages show it, `line:column`. -/
def text (location : Location) : String :=
  toString location.line ++ ":" ++ toString location.column

end Location

/-! ## Byte ranges -/

/-- The bytes from `start` up to `stop`. -/
structure Span where
  start : Nat
  stop : Nat
deriving DecidableEq

namespace Span

/-- How many bytes the span covers. -/
def length (span : Span) : Nat := span.stop - span.start

/-- Whether the span covers no byte at all. -/
def isEmpty (span : Span) : Bool := span.start == span.stop

end Span

/-- How many bytes a run of characters takes in UTF-8. -/
def utf8Length : List Char → Nat
  | [] => 0
  | c :: cs => c.utf8Size + utf8Length cs

@[simp] theorem utf8Length_nil : utf8Length [] = 0 := rfl

@[simp] theorem utf8Length_cons (c : Char) (cs : List Char) :
    utf8Length (c :: cs) = c.utf8Size + utf8Length cs := rfl

@[simp] theorem utf8Length_append (cs ds : List Char) :
    utf8Length (cs ++ ds) = utf8Length cs + utf8Length ds := by
  induction cs with
  | nil => simp
  | cons c cs ih => simp [ih, Nat.add_assoc]

end LoopLang
