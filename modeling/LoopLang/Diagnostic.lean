import LoopLang.Location

/-!
# Diagnostics

A `Diagnostic` is one problem found in a source text: its cause, and where it is.  The texts a
person sees are functions of it: the message, and for tools a code, a label for the marked bytes
and sometimes a hint.  A `Failure` bundles all diagnostics of a text with the text itself.
-/

namespace LoopLang

/-- What is wrong at some place of a source text. -/
inductive Cause where
  /-- A character that belongs to no word of the language. -/
  | strayCharacter (found : Char)
  /-- A token stands where something else is wanted. -/
  | unexpected (expected found : String)
  /-- The text ends inside a construct that began at `openedAt`. -/
  | unterminated (construct : String) (openedAt : Location) (expected : String)
  /-- A name is declared twice in one declaration. -/
  | duplicate (name : String)
  /-- A parenthesis opens one level more than the limit allows. -/
  | tooDeep (limit : Nat)
deriving DecidableEq

namespace Cause

/-- What is wrong, in a sentence. -/
def message : Cause → String
  | strayCharacter found => "unrecognized character '" ++ found.toString ++ "'"
  | unexpected expected found => "expected " ++ expected ++ ", found " ++ found
  | unterminated construct openedAt expected =>
    "unterminated " ++ construct ++ " opened at " ++ openedAt.text ++ ": expected " ++ expected ++
      " before end of input"
  | duplicate name => "variable '" ++ name ++ "' appears twice in one declaration"
  | tooDeep limit => "parentheses nested deeper than " ++ toString limit ++ " levels"

/-- The name by which tools know the kind of problem. -/
def code : Cause → String
  | strayCharacter _ => "loopc::lex_error"
  | unexpected _ _ => "loopc::unexpected_token"
  | unterminated _ _ _ => "loopc::unterminated_block"
  | duplicate _ => "loopc::duplicate_variable"
  | tooDeep _ => "loopc::nesting_too_deep"

/-- What helps against the problem, where something general can be said. -/
def help? : Cause → Option String
  | unterminated _ _ _ => some "blocks close with 'end' and statements with ';'"
  | _ => none

/-- What is written at the marked bytes. -/
def label : Cause → String
  | strayCharacter _ => "not part of the language"
  | unexpected expected _ => "expected " ++ expected
  | unterminated _ _ _ => "input ends here"
  | duplicate _ => "already declared here"
  | tooDeep _ => "nesting limit exceeded"

end Cause

/-- A problem and its place. -/
structure Diagnostic where
  cause : Cause
  location : Location
  span : Span
deriving DecidableEq

/-- A diagnostic as a line of text: its location, then what is wrong. -/
def Diagnostic.message (diagnostic : Diagnostic) : String :=
  diagnostic.location.text ++ ": " ++ diagnostic.cause.message

/-- The diagnostics of a source text that is not a correct program. -/
structure Failure where
  source : String
  diagnostics : List Diagnostic
deriving DecidableEq

namespace Failure

/-- A failure in a sentence. -/
def message (failure : Failure) : String :=
  "parsing failed with " ++ toString failure.diagnostics.length ++ " error(s)"

/-- The name by which tools know a failure. -/
def code : String := "loopc::parse_failed"

end Failure

end LoopLang
