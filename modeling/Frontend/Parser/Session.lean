import Frontend.Parser.Program
import Frontend.Tree.Draft

/-!
# Sessions

A session is one parser and the commands that it is given one after the other.

* `Command`: everything that can be asked of a parser; `Reply`: the answers;
* `Parser.perform`: the answer to a command, and the parser after it. A command that stops early
  leaves the parser at the point where it stopped, and the session goes on from there;
* `Parser.performAll`: the parser after a list of commands.
-/

namespace Frontend

/-- Something that can be asked of a parser. -/
inductive Command where
  /-- Do nothing. -/
  | look
  | advance
  | restoreGrammar
  | peekIs (kind : Kind)
  | expect (kind : Kind)
  | hasOperand (kind : Kind)
  | hasOperator (kind : Kind)
  /-- Tell the binding powers of the current token and of the next one. -/
  | powers
  | report (diagnostic : Diagnostic)
  | messages
  | diagnostics
  | registerOperand (kind : Kind) (rule : OperandRule)
  | registerOperator (kind : Kind) (power : Precedence) (rule : OperatorRule)
  /-- Apply the operand rule of a kind at the current token, of whatever kind that is. -/
  | applyOperand (kind : Kind)
  /-- Apply the operator rule of a kind at the current token, after the expression `left`. -/
  | applyOperator (kind : Kind) (left : ExprDraft)
  | expr (precedence : Precedence)
  | identifier
  | integer
  | unary
  | group
  | binary (left : ExprDraft)
  | statement
  | binding
  | returning
  | expressionStatement
  | program
  deriving DecidableEq, Repr, Inhabited

/-- The answer to a command. -/
inductive Reply where
  /-- The command was carried out, and there is nothing to tell. -/
  | done
  | flag (value : Bool)
  | powers (current peek : Precedence)
  | messages (messages : List String)
  | diagnostics (diagnostics : List Diagnostic)
  | expr (expr : Expr)
  | statement (statement : Statement)
  | program (program : Program)
  /-- The grammar has no rule for the kind. -/
  | noRule
  /-- The command stopped early. -/
  | stopped (reason : Stop)
  deriving DecidableEq, Repr, Inhabited

namespace Parser

/-- The answer of a computation. -/
def answer {α : Type} (p : Parser) (x : ParseM α) (reply : α → Reply) : Reply × Parser :=
  match x.run p with
  | .ok a p => (reply a, p)
  | .error e p => (.stopped e, p)

/-- Carries out a command. -/
def perform (p : Parser) : Command → Reply × Parser
  | .look => (.done, p)
  | .advance => (.done, p.advance)
  | .restoreGrammar => (.done, p.restoreGrammar)
  | .peekIs k => (.flag (p.peek.is k), p)
  | .expect k => p.answer (ParseM.expect k) .flag
  | .hasOperand k => (.flag (p.grammar.operand k).isSome, p)
  | .hasOperator k => (.flag (p.grammar.operator k).isSome, p)
  | .powers => (.powers p.currentPower p.peekPower, p)
  | .report d => (.done, p.report d)
  | .messages => (.messages p.messages, p)
  | .diagnostics => (.diagnostics p.diagnostics.toList, p)
  | .registerOperand k r => (.done, p.registerOperand k r)
  | .registerOperator k q r => (.done, p.registerOperator k q r)
  | .applyOperand k =>
    match p.grammar.operand k with
    | some r => p.answer (ParseM.applyOperand ParseM.expr r) .expr
    | none => (.noRule, p)
  | .applyOperator k left =>
    match p.grammar.operator k with
    | some r =>
      p.answer (do ParseM.applyOperator ParseM.expr (← ParseM.checked left.build) r) .expr
    | none => (.noRule, p)
  | .expr q => p.answer (ParseM.expr q) .expr
  | .identifier => p.answer ParseM.identifier .expr
  | .integer => p.answer ParseM.integer .expr
  | .unary => p.answer ParseM.unary .expr
  | .group => p.answer ParseM.group .expr
  | .binary left => p.answer (do ParseM.binary (← ParseM.checked left.build)) .expr
  | .statement => p.answer ParseM.statement .statement
  | .binding => p.answer ParseM.binding .statement
  | .returning => p.answer ParseM.returning .statement
  | .expressionStatement => p.answer ParseM.expressionStatement .statement
  | .program => p.answer ParseM.program .program

/-- The parser after a list of commands. -/
def performAll (p : Parser) (cs : List Command) : Parser :=
  cs.foldl (fun p c => (p.perform c).2) p

end Parser

end Frontend
