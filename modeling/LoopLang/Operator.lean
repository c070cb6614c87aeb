/-!
# Operators

The four classes of operators: arithmetic, assignment, relation, and the connectives that join
comparisons.  Each operator knows its `symbol`, the text it is written with, and each class can be
read back from a symbol with `ofSymbol?`.  Arithmetic operators also have a `Precedence`.
-/

namespace LoopLang

/-! ## Precedence -/

/-- How tightly an arithmetic operator binds, loosest first. -/
inductive Precedence where
  | additive
  | multiplicative
  | power
deriving DecidableEq

namespace Precedence

/-- The place of a level in the order of binding. -/
def rank : Precedence → Nat
  | additive => 0
  | multiplicative => 1
  | power => 2

instance : LT Precedence := ⟨fun first second => first.rank < second.rank⟩

instance : LE Precedence := ⟨fun first second => first.rank ≤ second.rank⟩

instance (first second : Precedence) : Decidable (first < second) :=
  inferInstanceAs (Decidable (first.rank < second.rank))

instance (first second : Precedence) : Decidable (first ≤ second) :=
  inferInstanceAs (Decidable (first.rank ≤ second.rank))

/-- The order of two levels. -/
instance : Ord Precedence := ⟨fun first second => compare first.rank second.rank⟩

end Precedence

/-! ## Arithmetic -/

/-- The arithmetic operators. -/
inductive ArithOp where
  | add
  | sub
  | mul
  | div
  | mod
  | pow
deriving DecidableEq

namespace ArithOp

/-- Every arithmetic operator. -/
def all : List ArithOp := [add, sub, mul, div, mod, pow]

/-- The text an arithmetic operator is written with. -/
def symbol : ArithOp → String
  | add => "+"
  | sub => "-"
  | mul => "*"
  | div => "/"
  | mod => "%"
  | pow => "^"

/-- How tightly an arithmetic operator binds. -/
def precedence : ArithOp → Precedence
  | add | sub => .additive
  | mul | div | mod => .multiplicative
  | pow => .power

/-- The arithmetic operator written with a text. -/
def ofSymbol? (text : String) : Option ArithOp := all.find? (·.symbol == text)

theorem ofSymbol?_symbol (op : ArithOp) : ofSymbol? op.symbol = some op := by
  cases op <;> decide

theorem symbol_injective {first second : ArithOp} (h : first.symbol = second.symbol) :
    first = second := by
  have hread := congrArg ofSymbol? h
  rwa [ofSymbol?_symbol, ofSymbol?_symbol, Option.some.injEq] at hread

end ArithOp

/-! ## Assignment -/

/-- The assignment operators: plain, or compound with an arithmetic operator. -/
inductive AssignOp where
  | plain
  | compound (op : ArithOp)
deriving DecidableEq

namespace AssignOp

/-- Every assignment operator. -/
def all : List AssignOp := plain :: ArithOp.all.map compound

/-- The text an assignment operator is written with. -/
def symbol : AssignOp → String
  | plain => "="
  | compound op => op.symbol ++ "="

/-- The assignment operator written with a text. -/
def ofSymbol? (text : String) : Option AssignOp := all.find? (·.symbol == text)

theorem ofSymbol?_symbol (op : AssignOp) : ofSymbol? op.symbol = some op := by
  cases op with
  | plain => decide
  | compound op => cases op <;> decide

theorem symbol_injective {first second : AssignOp} (h : first.symbol = second.symbol) :
    first = second := by
  have hread := congrArg ofSymbol? h
  rwa [ofSymbol?_symbol, ofSymbol?_symbol, Option.some.injEq] at hread

end AssignOp

/-! ## Relations -/

/-- The operators that compare two expressions. -/
inductive RelOp where
  | eq
  | ne
  | lt
  | le
  | gt
  | ge
deriving DecidableEq

namespace RelOp

/-- Every relation. -/
def all : List RelOp := [eq, ne, lt, le, gt, ge]

/-- The text a relation is written with. -/
def symbol : RelOp → String
  | eq => "=="
  | ne => "!="
  | lt => "<"
  | le => "<="
  | gt => ">"
  | ge => ">="

/-- The relation written with a text. -/
def ofSymbol? (text : String) : Option RelOp := all.find? (·.symbol == text)

theorem ofSymbol?_symbol (op : RelOp) : ofSymbol? op.symbol = some op := by
  cases op <;> decide

theorem symbol_injective {first second : RelOp} (h : first.symbol = second.symbol) :
    first = second := by
  have hread := congrArg ofSymbol? h
  rwa [ofSymbol?_symbol, ofSymbol?_symbol, Option.some.injEq] at hread

end RelOp

/-! ## Connectives -/

/-- The connectives that join comparisons. -/
inductive BoolOp where
  | and
  | or
deriving DecidableEq

namespace BoolOp

/-- Every connective. -/
def all : List BoolOp := [and, or]

/-- The word a connective is written with. -/
def symbol : BoolOp → String
  | and => "and"
  | or => "or"

/-- The connective written with a text. -/
def ofSymbol? (text : String) : Option BoolOp := all.find? (·.symbol == text)

theorem ofSymbol?_symbol (op : BoolOp) : ofSymbol? op.symbol = some op := by
  cases op <;> decide

theorem symbol_injective {first second : BoolOp} (h : first.symbol = second.symbol) :
    first = second := by
  have hread := congrArg ofSymbol? h
  rwa [ofSymbol?_symbol, ofSymbol?_symbol, Option.some.injEq] at hread

end BoolOp

end LoopLang
