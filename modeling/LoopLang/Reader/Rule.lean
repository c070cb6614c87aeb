import LoopLang.Reader.Basic

/-!
# Rules

A `Rule` reads a part of a program.  It moves the reader, and either yields what it read or fails;
a rule that fails has reported why.  Rules follow one another in `do` blocks, which stop at the
first failure.

All repetition goes through `Rule.repeatWhile`.  It goes on as long as the current token asks for
it, and at most as often as there are tokens in front of the reader.
-/

namespace LoopLang

/-- Something to read: it takes a reader on, and yields a value or fails. -/
def Rule (α : Type) : Type := Reader → Option α × Reader

namespace Rule

variable {α β ω : Type}

instance : Monad Rule where
  pure a := fun reader => (some a, reader)
  bind rule next := fun reader =>
    match rule reader with
    | (some a, reader) => next a reader
    | (none, reader) => (none, reader)

@[simp] theorem pure_apply (a : α) (reader : Reader) :
    (pure a : Rule α) reader = (some a, reader) := rfl

theorem bind_apply (rule : Rule α) (next : α → Rule β) (reader : Reader) :
    (rule >>= next) reader =
      match rule reader with
      | (some a, reader) => next a reader
      | (none, reader) => (none, reader) := rfl

instance : LawfulMonad Rule := LawfulMonad.mk' _
  (by
    intro α rule
    funext reader
    simp only [Functor.map]
    rcases rule reader with ⟨_ | _, _⟩ <;> rfl)
  (fun _ _ => rfl)
  (by
    intro α β γ rule next after
    funext reader
    simp only [bind_apply]
    rcases rule reader with ⟨_ | _, _⟩ <;> rfl)

/-! ## Single steps -/

/-- The current token, which stays current. -/
def current : Rule Token := fun reader => (some reader.current, reader)

/-- The lexeme of the current token. -/
def lexeme : Rule Lexeme := fun reader => (some reader.current.lexeme, reader)

/-- Passes the current token and yields it. -/
def advance : Rule Token := fun reader => (some reader.current, reader.advance)

/-- Fails, with a complaint that something is wanted at the current token. -/
def fail (wanted : Wanted) : Rule α := fun reader => (none, reader.complain wanted)

/-- Passes a token with a given lexeme, or complains. -/
def expect (lexeme : Lexeme) (wanted : Wanted) : Rule Token := do
  if (← Rule.lexeme) = lexeme then advance else fail wanted

/-- Passes a token with a given lexeme, if it is there, and says whether it was. -/
def skip (lexeme : Lexeme) : Rule Bool := do
  if (← Rule.lexeme) = lexeme then
    let _ ← advance
    pure true
  else
    pure false

/-- Leaves an event in the log. -/
def note (event : Event) : Rule Unit := fun reader => (some (), reader.record event)

/-- Yields the value there is, or fails. -/
def ofOption (value : Option α) : Rule α := fun reader => (value, reader)

/-! ## Rules from rules -/

/-- The rule, read inside a construct and as many levels of parentheses deeper as the construct
adds.  Both are left whether the rule fails or not. -/
def inside (opening : Opening) (rule : Rule α) : Rule α := fun reader =>
  match rule ((reader.descendInto opening.construct).enter opening) with
  | (value, reader) => (value, reader.leave.ascendFrom opening.construct)

/-- The rule, followed by `recovery` where it fails. -/
def recoveringBy (rule : Rule α) (recovery : Reader → Reader) : Rule α := fun reader =>
  match rule reader with
  | (some a, reader) => (some a, reader)
  | (none, reader) => (none, recovery reader)

/-- The rule, whose failure is a value like any other. -/
def attempt (rule : Rule α) : Rule (Option α) := fun reader =>
  match rule reader with
  | (value, reader) => (some value, reader)

/-! ## Repetition -/

/-- Repeats a step on a value, at most as many times as `budget` is long. -/
def repeatWithin (select : Lexeme → Option ω) (step : ω → α → Rule α) :
    List Token → α → Rule α
  | [], a => pure a
  | _ :: budget, a => do
    match select (← lexeme) with
    | some choice => repeatWithin select step budget (← step choice a)
    | none => pure a

/-- Repeats a step on a value while `select` makes something of the current lexeme.  A step that
passes a token or more never runs out of budget, since there is one turn for every token. -/
def repeatWhile (select : Lexeme → Option ω) (step : ω → α → Rule α) (a : α) : Rule α :=
  fun reader => repeatWithin select step reader.ahead a reader

/-- Reads a rule again and again while the current lexeme asks for it, and yields what became of
each attempt, in order. -/
def attemptWhile (more : Lexeme → Bool) (rule : Rule α) : Rule (List (Option α)) := do
  let outcomes ← repeatWhile (fun lexeme => if more lexeme then some () else none)
    (fun _ outcomes => do return (← attempt rule) :: outcomes) []
  return outcomes.reverse

end Rule

end LoopLang
