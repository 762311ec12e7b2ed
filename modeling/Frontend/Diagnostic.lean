import Frontend.Token

/-!
# Diagnostics

What can be wrong with a source, and how it is told.

* `Diagnostic`: the causes; `Diagnostic.message`: the text of each;
* `Diagnostic.name`, `Diagnostic.category`, `Diagnostic.tip?`: its name, the stage it comes from and
  the advice that goes with it;
* `Diagnostic.display`: all of this on two lines.
-/

namespace Frontend

/-- Something wrong with a source. -/
inductive Diagnostic where
  /-- A token of a certain kind had to come next, and another one did. -/
  | unexpected (expected got : Kind)
  /-- A token of this kind stands where an expression has to start, and starts none. -/
  | noOperand (kind : Kind)
  /-- A numeral is out of range. -/
  | outOfRange (numeral : String)
  deriving DecidableEq, Repr, Inhabited

/-- The stage that a diagnostic comes from. -/
inductive Category where
  | lexical
  | structural
  | expression
  deriving DecidableEq, Repr, Inhabited

/-- The name of a category. -/
def Category.name : Category → String
  | lexical => "Lexical"
  | structural => "Syntax"
  | expression => "Expression"

namespace Diagnostic

/-- The text of a diagnostic. -/
def message : Diagnostic → String
  | unexpected expected got =>
    "expected next token to be " ++ expected.text ++ ", got " ++ got.text ++ " instead"
  | noOperand kind => "no prefix parse function for " ++ kind.text ++ " found"
  | outOfRange numeral => "could not parse " ++ numeral ++ " as integer"

/-- The name of a diagnostic. A character outside the language has one of its own. -/
def name : Diagnostic → String
  | unexpected _ _ => "UnexpectedToken"
  | noOperand .illegal => "UnrecognisedToken"
  | noOperand _ => "MissingPrefixHandler"
  | outOfRange _ => "NumberParseError"

/-- The stage that a diagnostic comes from. -/
def category : Diagnostic → Category
  | unexpected _ _ => .structural
  | noOperand .illegal => .lexical
  | noOperand _ => .expression
  | outOfRange _ => .expression

/-- The advice that goes with a diagnostic. -/
def tip? : Diagnostic → Option String
  | unexpected .assign _ => some "a let binding needs `=` after its name"
  | unexpected .identifier got => some ("`" ++ got.text ++ "` cannot be used as a binding name")
  | unexpected _ _ => none
  | noOperand .illegal => some "the source contains a character outside the language"
  | noOperand kind => some ("an expression cannot start with `" ++ kind.text ++ "`")
  | outOfRange numeral =>
    some ("Invalid number: `" ++ numeral ++ "`, is it above the integer limit?")

/-- The advice as text, empty if there is none. -/
def tip (d : Diagnostic) : String := d.tip?.getD ""

/-- A diagnostic as it is shown: name and advice, and the message indented below them. -/
def display (d : Diagnostic) : String :=
  let advice := match d.tip? with
    | none => ""
    | some tip => " (" ++ tip ++ ")"
  "Error: " ++ d.name ++ advice ++ "\n  " ++ d.message

end Diagnostic

end Frontend
