import Frontend.Tree.Expr

/-!
# Statements and programs

* `Statement`: bindings, returns and expressions; parts that could not be read are absent;
* `Program`: statements in order;
* `Statement.render`, `Program.render`: their rendering as source text.
-/

namespace Frontend

/-- A statement. -/
inductive Statement where
  /-- The binding of a name to a value. -/
  | binding (token : Token) (name : Option Identifier) (value : Option Expr)
  /-- The return of a value. -/
  | returning (token : Token) (value : Option Expr)
  /-- An expression, with the first token of the statement. -/
  | expression (token : Token) (value : Option Expr)
  deriving DecidableEq, Repr, Inhabited

namespace Statement

/-- The token that opens a statement. -/
def token : Statement → Token
  | binding t _ _ => t
  | returning t _ => t
  | expression t _ => t

/-- An absent part leaves nothing in the text. -/
def renderPart : Option Expr → String
  | some e => e.render
  | none => ""

/-- A statement as source text. -/
def render : Statement → String
  | binding t name value =>
    t.literal ++ " " ++ (name.map Identifier.value).getD "" ++ " = " ++ renderPart value ++ ";"
  | returning t value => t.literal ++ " " ++ renderPart value ++ ";"
  | expression _ value => renderPart value

end Statement

/-- A program: its statements in order. -/
structure Program where
  statements : List Statement
  deriving DecidableEq, Repr, Inhabited

namespace Program

/-- The literal of the token that opens the program, empty for the empty program. -/
def literal (p : Program) : String :=
  match p.statements with
  | [] => ""
  | s :: _ => s.token.literal

/-- A program as source text: its statements one after the other, with nothing between them. -/
def render (p : Program) : String :=
  String.join (p.statements.map Statement.render)

end Program

end Frontend
