import LoopLang.Token
import LoopLang.Tree

/-!
# The grammar of the language

Each judgment of this file says that a list of tokens is a sentence of one kind, and which tree
the sentence denotes:

    program     ::= statement*
    statement   ::= declaration | assignment | conditional | loop
    declaration ::= "int" name ("," name)* ("=" expression)? ";"
    assignment  ::= name assignOp expression ";"
    conditional ::= "if" guarded ("elif" guarded)* ("else" ":" body)?
    loop        ::= "loopc" guarded
    guarded     ::= conditions ":" body
    body        ::= "begin" assignment* "end"
    conditions  ::= comparison (("and" | "or") comparison)*
    comparison  ::= expression relation expression
    expression  ::= term (("+" | "-") term)*
    term        ::= factor (("*" | "/" | "%") factor)*
    factor      ::= operand ("^" operand)*
    operand     ::= name | number | "(" expression ")"

The judgments know nothing of a reader.  A rule looks at nothing of a token but its lexeme; the
locations of tokens only go into the tree.  Repetitions with a separator are written as left
recursion, which is how their trees are built: to the left.

The number `room` says how many levels of parentheses an expression has room for: a parenthesis
with `n` others around it needs room `n + 1`.  A sentence in the plain sense is one for some `room`.
-/

namespace LoopLang

/-- The level of what stands between the operators of a level; between those of the highest level
there are single operands, which have no level. -/
def Precedence.tighter : Precedence → Option Precedence
  | additive => some multiplicative
  | multiplicative => some power
  | power => none

/-- What holds of single operands, and of a level if it holds of what stands between the operators
of the level, holds of every level. -/
theorem Precedence.induction {P : Option Precedence → Prop} (operand : P none)
    (layer : ∀ level : Precedence, P level.tighter → P (some level)) (level : Option Precedence) :
    P level := by
  have hpower := layer .power operand
  have hmultiplicative := layer .multiplicative hpower
  rcases level with _ | _ | _ | _
  · exact operand
  · exact layer .additive hmultiplicative
  · exact hmultiplicative
  · exact hpower

namespace Grammar

/-! ## Expressions -/

/-- The sentences of one layer of expressions: of a chain of operators of a level and all tighter
ones, or, without a level, of a single operand. -/
inductive IsExpr : Nat → Option Precedence → List Token → Expr → Prop where
  | ident {room : Nat} {token : Token} {name : String} (htoken : token.lexeme = .ident name) :
      IsExpr room none [token] (.ident name token.location)
  | number {room : Nat} {token : Token} {digits : String} (htoken : token.lexeme = .number digits) :
      IsExpr room none [token] (.number digits token.location)
  | parenthesized {room : Nat} {opening closing : Token} {inner : List Token} {e : Expr}
      (hopening : opening.lexeme = .mark .openParen)
      (hinner : IsExpr room (some .additive) inner e)
      (hclosing : closing.lexeme = .mark .closeParen) :
      IsExpr (room + 1) none (opening :: (inner ++ [closing])) e
  | single {room : Nat} {level : Precedence} {tokens : List Token} {e : Expr}
      (htokens : IsExpr room level.tighter tokens e) : IsExpr room (some level) tokens e
  | binary {room : Nat} {level : Precedence} {left right : List Token} {sign : Token}
      {op : ArithOp} {e f : Expr}
      (hleft : IsExpr room (some level) left e)
      (hsign : sign.lexeme = .arith op) (hlevel : op.precedence = level)
      (hright : IsExpr room level.tighter right f) :
      IsExpr room (some level) (left ++ sign :: right) (.binary op e f sign.location)

/-! ## Conditions -/

/-- `expression relation expression` -/
inductive IsComparison (room : Nat) : List Token → Comparison → Prop where
  | mk {left right : List Token} {sign : Token} {op : RelOp} {e f : Expr}
      (hleft : IsExpr room (some .additive) left e) (hsign : sign.lexeme = .relation op)
      (hright : IsExpr room (some .additive) right f) :
      IsComparison room (left ++ sign :: right) ⟨op, e, f, e.location⟩

/-- `comparison (("and" | "or") comparison)*` -/
inductive IsConditions (room : Nat) : List Token → Conditions → Prop where
  | single {tokens : List Token} {c : Comparison} (htokens : IsComparison room tokens c) :
      IsConditions room tokens (.single c)
  | combined {left right : List Token} {word : Token} {op : BoolOp} {cs : Conditions}
      {c : Comparison} (hleft : IsConditions room left cs) (hword : word.lexeme = .connective op)
      (hright : IsComparison room right c) :
      IsConditions room (left ++ word :: right) (.combined op cs c word.location)

/-! ## Repetition and choice -/

/-- Sentences one after the other, which denote a list. -/
inductive IsSequence {α : Type} (P : List Token → α → Prop) : List Token → List α → Prop where
  | nil : IsSequence P [] []
  | cons {first rest : List Token} {a : α} {as : List α} (hfirst : P first a)
      (hrest : IsSequence P rest as) : IsSequence P (first ++ rest) (a :: as)

/-- A sentence that may be missing. -/
inductive IsOptional {α : Type} (P : List Token → α → Prop) : List Token → Option α → Prop where
  | none : IsOptional P [] none
  | some {tokens : List Token} {a : α} (htokens : P tokens a) : IsOptional P tokens (some a)

/-! ## Declarations and assignments -/

/-- `name ("," name)*` -/
inductive IsNames : List Token → List String → Prop where
  | one {token : Token} {name : String} (htoken : token.lexeme = .ident name) :
      IsNames [token] [name]
  | more {tokens : List Token} {names : List String} {comma token : Token} {name : String}
      (htokens : IsNames tokens names) (hcomma : comma.lexeme = .mark .comma)
      (htoken : token.lexeme = .ident name) : IsNames (tokens ++ [comma, token]) (names ++ [name])

/-- `"=" expression` -/
inductive IsInitial (room : Nat) : List Token → Expr → Prop where
  | mk {sign : Token} {tokens : List Token} {e : Expr} (hsign : sign.lexeme = .assign .plain)
      (htokens : IsExpr room (some .additive) tokens e) : IsInitial room (sign :: tokens) e

/-- `"int" name ("," name)* ("=" expression)? ";"` -/
inductive IsDeclaration (room : Nat) : List Token → Declaration → Prop where
  | mk {word semicolon : Token} {front back : List Token} {names : List String}
      {initial : Option Expr} (hword : word.lexeme = .keyword .intWord)
      (hnames : IsNames front names) (hinitial : IsOptional (IsInitial room) back initial)
      (hsemicolon : semicolon.lexeme = .mark .semicolon) :
      IsDeclaration room (word :: (front ++ (back ++ [semicolon]))) ⟨names, initial, word.location⟩

/-- `name assignOp expression ";"` -/
inductive IsAssignment (room : Nat) : List Token → Assignment → Prop where
  | mk {token sign semicolon : Token} {value : List Token} {target : String} {op : AssignOp}
      {e : Expr} (htoken : token.lexeme = .ident target) (hsign : sign.lexeme = .assign op)
      (hvalue : IsExpr room (some .additive) value e)
      (hsemicolon : semicolon.lexeme = .mark .semicolon) :
      IsAssignment room (token :: sign :: (value ++ [semicolon])) ⟨target, op, e, token.location⟩

/-! ## Blocks -/

/-- `"begin" assignment* "end"` -/
inductive IsBody (room : Nat) : List Token → List Assignment → Prop where
  | mk {first last : Token} {tokens : List Token} {body : List Assignment}
      (hfirst : first.lexeme = .keyword .beginWord)
      (htokens : IsSequence (IsAssignment room) tokens body)
      (hlast : last.lexeme = .keyword .endWord) : IsBody room (first :: (tokens ++ [last])) body

/-- A word, `conditions ":" body` -/
inductive IsGuarded (room : Nat) (keyword : Keyword) : List Token → Guarded → Prop where
  | mk {word colon : Token} {front back : List Token} {conditions : Conditions}
      {body : List Assignment} (hword : word.lexeme = .keyword keyword)
      (hconditions : IsConditions room front conditions) (hcolon : colon.lexeme = .mark .colon)
      (hbody : IsBody room back body) :
      IsGuarded room keyword (word :: (front ++ colon :: back)) ⟨conditions, body, word.location⟩

/-- `"else" ":" body` -/
inductive IsOtherwise (room : Nat) : List Token → Otherwise → Prop where
  | mk {word colon : Token} {tokens : List Token} {body : List Assignment}
      (hword : word.lexeme = .keyword .elseWord) (hcolon : colon.lexeme = .mark .colon)
      (hbody : IsBody room tokens body) :
      IsOtherwise room (word :: colon :: tokens) ⟨body, word.location⟩

/-- `"if" guarded ("elif" guarded)* ("else" ":" body)?` -/
inductive IsConditional (room : Nat) : List Token → Conditional → Prop where
  | mk {front middle back : List Token} {head : Guarded} {elifs : List Guarded}
      {otherwise : Option Otherwise} (hhead : IsGuarded room .ifWord front head)
      (helifs : IsSequence (IsGuarded room .elifWord) middle elifs)
      (hotherwise : IsOptional (IsOtherwise room) back otherwise) :
      IsConditional room (front ++ (middle ++ back)) ⟨head, elifs, otherwise⟩

/-! ## Programs -/

/-- `declaration | assignment | conditional | loop` -/
inductive IsStatement (room : Nat) : List Token → Statement → Prop where
  | declaration {tokens : List Token} {d : Declaration} (htokens : IsDeclaration room tokens d) :
      IsStatement room tokens (.declaration d)
  | assignment {tokens : List Token} {a : Assignment} (htokens : IsAssignment room tokens a) :
      IsStatement room tokens (.assignment a)
  | conditional {tokens : List Token} {c : Conditional} (htokens : IsConditional room tokens c) :
      IsStatement room tokens (.conditional c)
  | loop {tokens : List Token} {block : Guarded} (htokens : IsGuarded room .loopWord tokens block) :
      IsStatement room tokens (.loop block)

/-- `statement*` -/
def IsProgram (room : Nat) (tokens : List Token) (p : Program) : Prop :=
  IsSequence (IsStatement room) tokens p.statements

end Grammar

/-! ## What the grammar leaves open -/

/-- Whether a declaration, if the statement is one, lists distinct names. -/
def Statement.DistinctNames : Statement → Prop
  | declaration d => d.names.Nodup
  | _ => True

/-- Whether every declaration of a program lists distinct names. -/
def Program.DistinctNames (p : Program) : Prop := ∀ s ∈ p.statements, s.DistinctNames

end LoopLang
