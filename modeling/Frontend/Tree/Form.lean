import Frontend.Token
import Frontend.Text.Quoted

/-!
# The forms of tree nodes

Every form of node but the expression statement admits only some kinds of token at its head.

* `Form`: the forms with such a demand; `Form.kinds`: the kinds that a form admits;
* `binaryOperators`: the kinds of the binary operators;
* `Misfit`: a form with a token that it does not admit; `Form.check` finds it.
-/

namespace Frontend

/-- The kinds of the binary operators. -/
def binaryOperators : List Kind :=
  [.plus, .minus, .star, .slash, .less, .greater, .equal, .notEqual]

/-- The kinds of the unary operators. -/
def unaryOperators : List Kind :=
  [.bang, .minus]

/-- A form of tree node whose token is restricted. -/
inductive Form where
  | identifier
  | integer
  | unary
  | binary
  | binding
  | returning
  deriving DecidableEq, Repr, Inhabited

/-- A token at the head of a node of a form that does not admit it. -/
structure Misfit where
  form : Form
  token : Token
  deriving DecidableEq, Repr, Inhabited

namespace Form

/-- The name of a form in messages. -/
def name : Form → String
  | identifier => "Identifier"
  | integer => "IntegerLiteral"
  | unary => "PrefixExpression"
  | binary => "InfixExpression"
  | binding => "LetStatement"
  | returning => "ReturnStatement"

/-- The kinds of token that may stand at the head of a node of the form. -/
def kinds : Form → List Kind
  | identifier => [.identifier]
  | integer => [.integer]
  | unary => unaryOperators
  | binary => binaryOperators
  | binding => [.letWord]
  | returning => [.returnWord]

/-- Demands that the form admits the token. -/
def check (f : Form) (t : Token) : Except Misfit Unit :=
  if t.kind ∈ f.kinds then .ok () else .error ⟨f, t⟩

theorem check_of_mem {f : Form} {t : Token} (h : t.kind ∈ f.kinds) : f.check t = .ok () :=
  if_pos h

theorem check_of_not_mem {f : Form} {t : Token} (h : t.kind ∉ f.kinds) :
    f.check t = .error ⟨f, t⟩ :=
  if_neg h

end Form

/-- The text of a misfit. -/
def Misfit.message (m : Misfit) : String :=
  m.form.name ++ " cannot be built from a " ++ m.token.kind.text ++ " token (" ++
    Text.quote m.token.literal ++ ")"

end Frontend
