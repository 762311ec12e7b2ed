import Frontend.Token.Kind

/-!
# Tokens

A token is a kind with the text that it stands for, its literal.
-/

namespace Frontend

/-- A lexical unit: its kind and its literal. -/
structure Token where
  kind : Kind
  literal : String
  deriving DecidableEq, Repr, Inhabited

namespace Token

/-- The token after the last one. -/
def eof : Token := ⟨.eof, ""⟩

/-- The token of a kind, with the text of the kind as its literal. -/
def ofKind (k : Kind) : Token := ⟨k, k.text⟩

/-- Whether the token is of kind `k`. -/
def is (t : Token) (k : Kind) : Bool := t.kind == k

/-- Whether the token is of one of the kinds `ks`. -/
def isOneOf (t : Token) (ks : List Kind) : Bool := ks.contains t.kind

/-- One line that shows kind and literal. -/
def display (t : Token) : String :=
  "Token ( kind: " ++ t.kind.text ++ ", literal: " ++ t.literal ++ " )"

@[simp] theorem eof_kind : eof.kind = .eof := rfl
@[simp] theorem eof_literal : eof.literal = "" := rfl
@[simp] theorem is_iff {t : Token} {k : Kind} : t.is k = true ↔ t.kind = k := by simp [is]
@[simp] theorem isOneOf_iff {t : Token} {ks : List Kind} : t.isOneOf ks = true ↔ t.kind ∈ ks := by
  simp [isOneOf]

end Token

end Frontend
