import Frontend.Precedence
import Frontend.Token.Kind

/-!
# Grammars of expressions

Which token starts an expression, which one continues it, and how tightly.

* `OperandRule`, `OperatorRule`: the ways to read on at a token;
* `Grammar`: three tables by kind, for operands, operators and binding powers;
* `Grammar.withOperand`, `Grammar.withOperator`: a grammar with one entry more;
* `Grammar.withStandard`, `Grammar.standard`: the entries of the language.
-/

namespace Frontend

/-- How to read an expression that starts at a token. The tables of a grammar hold these rules and no
others, and so these are all that a session can register. -/
inductive OperandRule where
  /-- The token is an identifier. -/
  | identifier
  /-- The token is an integer literal. -/
  | integer
  /-- The token is an operator, and its operand follows. -/
  | unary
  /-- The token opens a group, and an expression with the closing parenthesis follows. -/
  | group
  deriving DecidableEq, Repr, Inhabited

/-- How to read on at a token that follows an expression. This is the only rule that a session can
register for that. -/
inductive OperatorRule where
  /-- The token is an operator, and its right operand follows. -/
  | binary
  deriving DecidableEq, Repr, Inhabited

/-- The tables of a grammar. A kind without an entry has none of the role. -/
structure Grammar where
  /-- The rule for an expression that starts with the kind. -/
  operand : Kind → Option OperandRule
  /-- The rule for the kind after an expression. -/
  operator : Kind → Option OperatorRule
  /-- The binding power of the kind after an expression. -/
  power : Kind → Option Precedence

namespace Grammar

/-- The grammar without entries. -/
def empty : Grammar := ⟨fun _ => none, fun _ => none, fun _ => none⟩

/-- The grammar in which `k` starts expressions by rule `r`. -/
def withOperand (g : Grammar) (k : Kind) (r : OperandRule) : Grammar :=
  { g with operand := fun l => if l = k then some r else g.operand l }

/-- The grammar in which `k` continues expressions by rule `r`, with binding power `p`. -/
def withOperator (g : Grammar) (k : Kind) (p : Precedence) (r : OperatorRule) : Grammar :=
  { g with
    operator := fun l => if l = k then some r else g.operator l
    power := fun l => if l = k then some p else g.power l }

/-- The binary operators of the language with their binding powers. -/
def standardOperators : List (Kind × Precedence) :=
  [(.equal, .equality), (.notEqual, .equality), (.less, .comparison), (.greater, .comparison),
    (.plus, .sum), (.minus, .sum), (.star, .product), (.slash, .product)]

/-- The tokens that start expressions of the language. -/
def standardOperands : List (Kind × OperandRule) :=
  [(.identifier, .identifier), (.integer, .integer), (.bang, .unary), (.minus, .unary),
    (.openParen, .group)]

/-- The grammar with the entries of the language. All other entries stay. -/
def withStandard (g : Grammar) : Grammar :=
  let g := standardOperators.foldl (fun g e => g.withOperator e.1 e.2 .binary) g
  standardOperands.foldl (fun g e => g.withOperand e.1 e.2) g

/-- The grammar of the language. -/
def standard : Grammar := empty.withStandard

/-- The kinds that start an expression. -/
def operandKinds (g : Grammar) : List Kind := Kind.all.filter fun k => (g.operand k).isSome

/-- The kinds that continue an expression. -/
def operatorKinds (g : Grammar) : List Kind := Kind.all.filter fun k => (g.operator k).isSome

/-- The binding power of a kind. A kind without one binds loosest. -/
def powerOf (g : Grammar) (k : Kind) : Precedence := (g.power k).getD .lowest

end Grammar

end Frontend
