import Frontend.Parser.Basic

/-!
# Reading expressions

An expression is an operand, continued by every operator that binds tighter than the precedence at
which the expression was asked for. The rules for the parts take the reader of nested expressions
as an argument, so that each of them can be read and reasoned about alone.

* `ParseM.identifier`, `ParseM.integer`, `ParseM.unaryWith`, `ParseM.groupWith`,
  `ParseM.binaryWith`: the rules at the current token;
* `ParseM.operandWith`: the rule that the grammar has for the current token;
* `ParseM.tailWith`: the operators that follow an operand;
* `ParseM.exprWithin`: expressions up to a depth of nesting; `ParseM.expr`: expressions.
-/

namespace Frontend

namespace ParseM

/-- The current token as an identifier. -/
def identifier : ParseM Expr := do
  return .identifier (← checked (Identifier.ofToken (← get).current))

/-- The current token as an integer literal. A numeral out of range is reported, and has no
value. -/
def integer : ParseM Expr := do
  let t := (← get).current
  let value := Numeral.read? t.literal.toList
  let e ← checked (Expr.ofInteger t (value.map Int.ofNat))
  if value.isNone then report (.outOfRange t.literal)
  return e

section With

variable (nested : Precedence → ParseM Expr)

/-- The current token as a unary operator, with the operand behind it. -/
def unaryWith : ParseM Expr := do
  let t := (← get).current
  advance
  let right ← nested .unary
  checked (Expr.ofUnary t right)

/-- The expression between the current token and a closing parenthesis. -/
def groupWith : ParseM Expr := do
  advance
  let e ← nested .lowest
  require .closeParen
  return e

/-- The current token as a binary operator between `left` and the operand behind it. The operand is
asked for at the operator's own precedence, so that operators of equal precedence group to the
left. -/
def binaryWith (left : Expr) : ParseM Expr := do
  let p ← get
  advance
  let right ← nested p.currentPower
  checked (Expr.ofBinary p.current left right)

/-- Applies a rule for operands at the current token. -/
def applyOperand : OperandRule → ParseM Expr
  | .identifier => identifier
  | .integer => integer
  | .unary => unaryWith nested
  | .group => groupWith nested

/-- Applies a rule for operators at the current token, after the expression `left`. -/
def applyOperator (left : Expr) : OperatorRule → ParseM Expr
  | .binary => binaryWith nested left

/-- The operand that starts at the current token. -/
def operandWith : ParseM Expr := do
  let p ← get
  match p.grammar.operand p.current.kind with
  | some r => applyOperand nested r
  | none =>
    report (.noOperand p.current.kind)
    throw .absent

/-- The expression `left` with at most `n - 1` operators that follow it and bind tighter than
`q`. -/
def tailWith : Nat → Precedence → Expr → ParseM Expr
  | 0, _, _ => throw .endless
  | n + 1, q, left => do
    let p ← get
    if p.continues q then
      match p.grammar.operator p.peek.kind with
      | some r =>
        advance
        let left ← applyOperator nested left r
        tailWith n q left
      | none => return left
    else
      return left

end With

/-- The expression at the current token, of operators that bind tighter than `q`, with nested
expressions less than `n` deep and less than `n` operators in a row. -/
def exprWithin : Nat → Precedence → ParseM Expr
  | 0, _ => throw .endless
  | n + 1, q => do
    let left ← operandWith (exprWithin n)
    tailWith (exprWithin n) n q left

/-- The expression at the current token, of operators that bind tighter than `q`. Every operator
and every nested expression has a token of its own, so the unread tokens bound the depth. -/
def expr (q : Precedence) : ParseM Expr := do
  exprWithin ((← get).unread + 1) q

/-- The current token as a unary operator, with the operand behind it. -/
def unary : ParseM Expr := unaryWith expr

/-- The expression between the current token and a closing parenthesis. -/
def group : ParseM Expr := groupWith expr

/-- The current token as a binary operator between `left` and the operand behind it. -/
def binary (left : Expr) : ParseM Expr := binaryWith expr left

/-! ## The outcomes of the rules -/

section Run

variable (nested : Precedence → ParseM Expr)

theorem unaryWith_run (p : Parser) :
    (unaryWith nested).run p =
      Outcome.andThen ((nested .unary).run p.advance) fun right q =>
        (checked (Expr.ofUnary p.current right)).run q := by
  simp only [unaryWith, bind_run, get_run, advance_run, andThen_ok]

theorem binaryWith_run (left : Expr) (p : Parser) :
    (binaryWith nested left).run p =
      Outcome.andThen ((nested p.currentPower).run p.advance) fun right q =>
        (checked (Expr.ofBinary p.current left right)).run q := by
  simp only [binaryWith, bind_run, get_run, advance_run, andThen_ok]

theorem groupWith_run (p : Parser) :
    (groupWith nested).run p =
      Outcome.andThen ((nested .lowest).run p.advance) fun e q =>
        if q.peek.kind = .closeParen then .ok e q.advance
        else .error .absent (q.report (.unexpected .closeParen q.peek.kind)) := by
  simp only [groupWith, bind_run, advance_run, andThen_ok]
  congr 1
  funext e q
  rw [require_run]
  split <;> rfl

theorem operandWith_run (p : Parser) :
    (operandWith nested).run p = match p.grammar.operand p.current.kind with
      | some r => (applyOperand nested r).run p
      | none => .error .absent (p.report (.noOperand p.current.kind)) := by
  rw [operandWith, bind_run, get_run, andThen_ok]
  cases p.grammar.operand p.current.kind <;> rfl

theorem tailWith_run (n : Nat) (q : Precedence) (left : Expr) (p : Parser) :
    (tailWith nested (n + 1) q left).run p =
      if p.continues q then
        match p.grammar.operator p.peek.kind with
        | some r =>
          Outcome.andThen ((applyOperator nested left r).run p.advance) fun left p =>
            (tailWith nested n q left).run p
        | none => .ok left p
      else .ok left p := by
  rw [tailWith, bind_run, get_run, andThen_ok]
  split
  · cases p.grammar.operator p.peek.kind with
    | some r => simp only [bind_run, advance_run, andThen_ok]
    | none => rfl
  · rfl

end Run

theorem exprWithin_run (n : Nat) (q : Precedence) (p : Parser) :
    (exprWithin (n + 1) q).run p =
      Outcome.andThen ((operandWith (exprWithin n)).run p) fun left p =>
        (tailWith (exprWithin n) n q left).run p := by
  rw [exprWithin, bind_run]

theorem expr_run (q : Precedence) (p : Parser) :
    (expr q).run p = (exprWithin (p.unread + 1) q).run p := rfl

end ParseM

end Frontend
