import Frontend.Event
import Frontend.Grammar
import Frontend.Numeral
import Frontend.Scanner

/-!
# The parser's state

A parser looks at two tokens of its source, the current one and the one after it.

* `Parser`: grammar, scanner, window, diagnostics and log; `Parser.ofScanner`: its start;
* `Parser.advance`, `Parser.report`: the two ways in which reading changes it;
* `Parser.registerOperand`, `Parser.registerOperator`, `Parser.restoreGrammar`: changes of the
  grammar;
* `Parser.unread`: a bound on the tokens that are left, which no advance exceeds;
* `ParseM`: computations with a parser that may stop early; a stop leaves the parser as it is at
  that point;
* `Outcome`, `ParseM.bind_run`, …: what each computation does to the parser, as equations.
-/

namespace Frontend

/-- The state of a parser. -/
structure Parser where
  grammar : Grammar
  scanner : Scanner
  /-- The token being looked at. -/
  current : Token
  /-- The token after it. -/
  peek : Token
  /-- What is wrong with the source, in the order of discovery. -/
  diagnostics : Array Diagnostic
  /-- What happened so far. -/
  log : Array Event

namespace Parser

/-- The parser one token further on: the window moves, and one token is scanned. -/
def advance (p : Parser) : Parser :=
  let (t, s) := p.scanner.next
  let log := match Event.ofToken? t with
    | some e => p.log.push e
    | none => p.log
  { p with scanner := s, current := p.peek, peek := t, log := log }

/-- The parser with a diagnostic recorded. -/
def report (p : Parser) (d : Diagnostic) : Parser :=
  { p with diagnostics := p.diagnostics.push d, log := p.log.push (.reported d) }

/-- The parser of the standard grammar on the tokens of a scanner, its window on the first two. -/
def ofScanner (s : Scanner) : Parser :=
  let p : Parser := ⟨.standard, s, .eof, .eof, #[], #[]⟩
  p.advance.advance

/-- The parser at the start of a source. -/
def ofString (source : String) : Parser := ofScanner (.ofString source)

/-- Lets `k` start expressions by rule `r`. -/
def registerOperand (p : Parser) (k : Kind) (r : OperandRule) : Parser :=
  { p with grammar := p.grammar.withOperand k r }

/-- Lets `k` continue expressions by rule `r`, with binding power `q`. -/
def registerOperator (p : Parser) (k : Kind) (q : Precedence) (r : OperatorRule) : Parser :=
  { p with grammar := p.grammar.withOperator k q r }

/-- Registers the entries of the language again. All other entries stay. -/
def restoreGrammar (p : Parser) : Parser :=
  { p with grammar := p.grammar.withStandard }

/-- The binding power of the current token. -/
def currentPower (p : Parser) : Precedence := p.grammar.powerOf p.current.kind

/-- The binding power of the token after it. -/
def peekPower (p : Parser) : Precedence := p.grammar.powerOf p.peek.kind

/-- Whether the next token may continue an expression that was asked for at precedence `q`: no
statement goes on behind a semicolon or behind the last token, and the operator has to bind
tighter than `q`. -/
def continues (p : Parser) (q : Precedence) : Bool :=
  !p.peek.isOneOf [.semicolon, .eof] && decide (q < p.peekPower)

/-- The texts of the diagnostics. -/
def messages (p : Parser) : List String := p.diagnostics.toList.map Diagnostic.message

/-! ## How much is left -/

/-- One for a token, nothing for the end of the source. -/
def weight (t : Token) : Nat := if t.kind = .eof then 0 else 1

/-- A bound on the number of tokens from the current one to the end of the source. -/
def unread (p : Parser) : Nat :=
  p.scanner.rest.length + weight p.peek + weight p.current

/-- An advance leaves at least one token less, unless the current token is the last one. -/
theorem unread_advance_le (p : Parser) : p.advance.unread + weight p.current ≤ p.unread := by
  change p.scanner.next.2.rest.length + weight p.scanner.next.1 + weight p.peek + weight p.current ≤
    p.scanner.rest.length + weight p.peek + weight p.current
  have hle := p.scanner.next_rest_length_le
  have hlt := p.scanner.next_rest_lt
  unfold weight
  by_cases h : p.scanner.next.1.kind = .eof
  · rw [if_pos h]; omega
  · have := hlt h; rw [if_neg h]; omega

end Parser

/-! ## Computations that may stop early -/

/-- Why a computation stops without a result. -/
inductive Stop where
  /-- The source is wrong at this point, and a diagnostic says how. -/
  | absent
  /-- A rule was applied to a token that the node does not admit. -/
  | misfit (misfit : Misfit)
  /-- A rule was applied again and again at the end of the source. -/
  | endless
  deriving DecidableEq, Repr, Inhabited

/-- A computation with a parser. -/
abbrev ParseM := EStateM Stop Parser

/-- How a computation ends: with a result or a reason to stop, and with the parser at that point. -/
abbrev Outcome (α : Type) := EStateM.Result Stop Parser α

/-- The outcome of going on with `f` after a result. A stop is final. -/
def Outcome.andThen {α β : Type} (o : Outcome α) (f : α → Parser → Outcome β) : Outcome β :=
  match o with
  | .ok a p => f a p
  | .error e p => .error e p

namespace ParseM

/-- Moves the window one token on. -/
def advance : ParseM Unit := modify Parser.advance

/-- Records a diagnostic. -/
def report (d : Diagnostic) : ParseM Unit := modify (·.report d)

/-- Moves on to the next token if it is of kind `k`. Otherwise records that another token came, and
stays. -/
def expect (k : Kind) : ParseM Bool := do
  let p ← get
  if p.peek.is k then
    advance
    return true
  else
    report (.unexpected k p.peek.kind)
    return false

/-- Moves on to the next token, which has to be of kind `k`. -/
def require (k : Kind) : ParseM Unit := do
  unless ← expect k do throw .absent

/-- A checked construction. -/
def checked {α : Type} (x : Except Misfit α) : ParseM α :=
  match x with
  | .ok a => pure a
  | .error m => throw (.misfit m)

/-- The result of a computation, if the source has one at this point. -/
def optional {α : Type} (x : ParseM α) : ParseM (Option α) := fun p =>
  match x.run p with
  | .ok a p => .ok (some a) p
  | .error .absent p => .ok none p
  | .error e p => .error e p

/-! ## The outcomes of the computations -/

section Run

variable {α β : Type}

theorem bind_run (x : ParseM α) (f : α → ParseM β) (p : Parser) :
    (x >>= f).run p = Outcome.andThen (x.run p) fun a q => (f a).run q := by
  simp only [bind, EStateM.bind, EStateM.run, Outcome.andThen]
  cases x p <;> rfl

theorem pure_run (a : α) (p : Parser) : (pure a : ParseM α).run p = .ok a p := rfl

theorem get_run (p : Parser) : (get : ParseM Parser).run p = .ok p p := rfl

@[simp] theorem andThen_ok (a : α) (p : Parser) (f : α → Parser → Outcome β) :
    Outcome.andThen (.ok a p) f = f a p := rfl

@[simp] theorem andThen_error (e : Stop) (p : Parser) (f : α → Parser → Outcome β) :
    Outcome.andThen (.error e p) f = .error e p := rfl

theorem advance_run (p : Parser) : advance.run p = .ok () p.advance := rfl

theorem expect_run (k : Kind) (p : Parser) :
    (expect k).run p = if p.peek.kind = k then .ok true p.advance
      else .ok false (p.report (.unexpected k p.peek.kind)) := by
  rw [expect, bind_run, get_run, andThen_ok]
  by_cases h : p.peek.kind = k
  · rw [if_pos (Token.is_iff.mpr h), if_pos h]; rfl
  · rw [if_neg (mt Token.is_iff.mp h), if_neg h]; rfl

theorem require_run (k : Kind) (p : Parser) :
    (require k).run p = if p.peek.kind = k then .ok () p.advance
      else .error .absent (p.report (.unexpected k p.peek.kind)) := by
  rw [require, bind_run, expect_run]
  by_cases h : p.peek.kind = k
  · rw [if_pos h, if_pos h]; rfl
  · rw [if_neg h, if_neg h]; rfl

theorem optional_run (x : ParseM α) (p : Parser) :
    (optional x).run p = match x.run p with
      | .ok a q => .ok (some a) q
      | .error .absent q => .ok none q
      | .error e q => .error e q := rfl

end Run

end ParseM

end Frontend
