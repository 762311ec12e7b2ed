import Frontend.Tree.Program

/-!
# Drafts of trees

A draft describes a tree whose tokens have not been checked. Building it checks every token, and the
first misfit ends the building.

* `ExprDraft`, `StatementDraft`: the drafts; a name or an operator that a draft does not give is the
  literal of its token;
* `ExprDraft.build`: operands are built before the node above them;
* `StatementDraft.build`: the token of a statement is checked before its parts are built;
* `Program.build`: a program from the drafts of its statements, in order.
-/

namespace Frontend

/-- The draft of an identifier. -/
structure IdentifierDraft where
  token : Token
  value : Option String
  deriving DecidableEq, Repr, Inhabited

/-- The draft of an expression. -/
inductive ExprDraft where
  | identifier (name : IdentifierDraft)
  | integer (token : Token) (value : Option Int)
  | unary (token : Token) (operator : Option String) (right : ExprDraft)
  | binary (token : Token) (operator : Option String) (left right : ExprDraft)
  deriving DecidableEq, Repr, Inhabited

/-- The draft of a statement. -/
inductive StatementDraft where
  | binding (token : Token) (name : Option IdentifierDraft) (value : Option ExprDraft)
  | returning (token : Token) (value : Option ExprDraft)
  | expression (token : Token) (value : Option ExprDraft)
  deriving DecidableEq, Repr, Inhabited

/-- Builds an identifier. -/
def IdentifierDraft.build (d : IdentifierDraft) : Except Misfit Identifier := do
  let name ← Identifier.ofToken d.token
  return { name with value := d.value.getD name.value }

/-- Builds an expression, operands first and from left to right. -/
def ExprDraft.build : ExprDraft → Except Misfit Expr
  | identifier name => return .identifier (← name.build)
  | integer t value => Expr.ofInteger t value
  | unary t operator right => do
    let right ← right.build
    Form.unary.check t
    return .unary t (operator.getD t.literal) right
  | binary t operator left right => do
    let left ← left.build
    let right ← right.build
    Form.binary.check t
    return .binary t (operator.getD t.literal) left right

/-- Builds a part that may be absent. -/
def ExprDraft.buildPart : Option ExprDraft → Except Misfit (Option Expr)
  | none => return none
  | some d => return some (← d.build)

/-- Builds a statement: the token is checked first, then come the name and the value. -/
def StatementDraft.build : StatementDraft → Except Misfit Statement
  | binding t name value => do
    Form.binding.check t
    let name ← match name with
      | none => pure none
      | some d => some <$> d.build
    return .binding t name (← ExprDraft.buildPart value)
  | returning t value => do
    Form.returning.check t
    return .returning t (← ExprDraft.buildPart value)
  | expression t value => return .expression t (← ExprDraft.buildPart value)

/-- Builds a program, statement by statement. -/
def Program.build (drafts : List StatementDraft) : Except Misfit Program := do
  return ⟨← drafts.mapM StatementDraft.build⟩

end Frontend
