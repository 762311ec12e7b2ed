import Frontend.Tree.Form

/-!
# Expressions

Expression trees, their checked construction and their rendering as source text.

* `Identifier`, `Expr`: the trees; every node keeps the token at its head;
* `Identifier.ofToken`, `Expr.ofInteger`, `Expr.ofUnary`, `Expr.ofBinary`: nodes whose token has
  been checked;
* `Expr.render`: an expression as source text, with parentheses around every operation.
-/

namespace Frontend

/-- A name, as an expression or as the name that a binding introduces. -/
structure Identifier where
  token : Token
  value : String
  deriving DecidableEq, Repr, Inhabited

/-- The identifier that a token spells. -/
def Identifier.ofToken (t : Token) : Except Misfit Identifier := do
  Form.identifier.check t
  return ⟨t, t.literal⟩

/-- An expression. -/
inductive Expr where
  | identifier (name : Identifier)
  /-- An integer literal. It has no value if the literal is out of range. -/
  | integer (token : Token) (value : Option Int)
  /-- A unary operator in front of its operand. -/
  | unary (token : Token) (operator : String) (right : Expr)
  /-- A binary operator between its operands. -/
  | binary (token : Token) (operator : String) (left right : Expr)
  deriving DecidableEq, Repr, Inhabited

namespace Expr

/-- The integer literal of a token, with the given value. -/
def ofInteger (t : Token) (value : Option Int) : Except Misfit Expr := do
  Form.integer.check t
  return integer t value

/-- The unary operator of a token, applied. -/
def ofUnary (t : Token) (right : Expr) : Except Misfit Expr := do
  Form.unary.check t
  return unary t t.literal right

/-- The binary operator of a token, applied. -/
def ofBinary (t : Token) (left right : Expr) : Except Misfit Expr := do
  Form.binary.check t
  return binary t t.literal left right

/-- The token at the head of an expression. -/
def token : Expr → Token
  | identifier name => name.token
  | integer t _ => t
  | unary t _ _ => t
  | binary t _ _ _ => t

/-- An expression as source text. -/
def render : Expr → String
  | identifier name => name.value
  | integer t _ => t.literal
  | unary _ op right => "(" ++ op ++ right.render ++ ")"
  | binary _ op left right => "(" ++ left.render ++ " " ++ op ++ " " ++ right.render ++ ")"

end Expr

end Frontend
