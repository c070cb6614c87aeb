import LoopLang.Reader.Formula

/-!
# Reading declarations and assignments

    declaration ::= "int" name ("," name)* ("=" expression)? ";"
    assignment  ::= name assignOp expression ";"

The names of a declaration are all different: a name that is there already is reported as soon as
it is met.
-/

namespace LoopLang

namespace Rule

/-! ## Declarations -/

/-- Fails at the current token, a name that this declaration has already. -/
def alreadyDeclared (name : String) : Rule (List String) := fun reader =>
  (none, { reader.report reader.current (.duplicate name) with reported := true })

/-- One more name of a declaration, behind the names it has so far. -/
def declaredName (names : List String) : Rule (List String) := do
  match ← lexeme with
  | .ident name =>
    if name ∈ names then alreadyDeclared name
    else
      let _ ← advance
      return names ++ [name]
  | _ => fail .variableName

/-- The names of a declaration, with commas between them. -/
def declaredNames : Rule (List String) := do
  let first ← declaredName []
  repeatWhile (fun lexeme => if lexeme = .mark .comma then some () else none)
    (fun _ names => do
      let _ ← advance
      declaredName names) first

/-- The initial value of a declaration, if an equals sign announces one. -/
def initialValue : Rule (Option Expr) := do
  if ← skip (.assign .plain) then
    return some (← expression)
  else
    return none

/-- A declaration; the current token is `int`. -/
def declaration : Rule Declaration := do
  let word ← advance
  inside ⟨.declaration, word.location⟩ do
    let names ← declaredNames
    let initial ← initialValue
    let _ ← expect (.mark .semicolon) .semicolonAfterDeclaration
    return { names, initial, location := word.location }

/-! ## Assignments -/

/-- Passes an assignment operator and yields it, or complains. -/
def assignOp : Rule AssignOp := do
  match ← lexeme with
  | .assign op =>
    let _ ← advance
    return op
  | _ => fail .assignmentOperator

/-- An assignment; the current token is the name that is assigned to. -/
def assignment (target : String) : Rule Assignment := do
  let name ← advance
  inside ⟨.assignment, name.location⟩ do
    let op ← assignOp
    let value ← expression
    let _ ← expect (.mark .semicolon) .semicolonAfterAssignment
    return { target, op, value, location := name.location }

end Rule

end LoopLang
