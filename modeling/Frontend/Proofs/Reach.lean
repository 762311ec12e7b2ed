import Frontend.Parser.Program

/-!
# What reading can do to a parser

Whatever is read, the window moves on and diagnostics are recorded, and nothing else happens to the
state. Facts about a parser and a later one are proved once, for these two steps.

* `Parser.Reaches`: the parsers that advances and reports lead to;
* `Token.faults`, `Parser.settle`: what is wrong with a token, and recording it;
* `ParseM.Moves`: computations that do nothing but advance and report;
* **`ParseM.moves_expr`**: reading an expression is one, for every grammar;
* `Parser.beyond`: a bound on the tokens behind the current one;
* `ParseM.Consumes`, **`ParseM.consumes_exprWithin`**: an expression has at least one token.
-/

namespace Frontend

namespace Parser

/-- The parsers that a parser can become by advances and reports. -/
inductive Reaches : Parser → Parser → Prop
  | refl (p : Parser) : Reaches p p
  | advance {p q : Parser} : Reaches p q → Reaches p q.advance
  | report {p q : Parser} (d : Diagnostic) : Reaches p q → Reaches p (q.report d)

theorem Reaches.trans {p q r : Parser} (h₁ : p.Reaches q) (h₂ : q.Reaches r) : p.Reaches r := by
  induction h₂ with
  | refl => exact h₁
  | advance _ ih => exact ih.advance
  | report d _ ih => exact ih.report d

@[simp] theorem advance_grammar (p : Parser) : p.advance.grammar = p.grammar := rfl
@[simp] theorem advance_current (p : Parser) : p.advance.current = p.peek := rfl
@[simp] theorem advance_diagnostics (p : Parser) : p.advance.diagnostics = p.diagnostics := rfl
@[simp] theorem report_diagnostics (p : Parser) (d : Diagnostic) :
    (p.report d).diagnostics = p.diagnostics.push d := rfl

/-! ## What is left -/

/-- A bound on the number of tokens behind the current one. -/
def beyond (p : Parser) : Nat := p.scanner.rest.length + weight p.peek

theorem unread_eq_beyond_add (p : Parser) : p.unread = p.beyond + weight p.current := rfl

theorem beyond_le_unread (p : Parser) : p.beyond ≤ p.unread := by
  rw [unread_eq_beyond_add]
  exact Nat.le_add_right _ _

theorem advance_unread_le_beyond (p : Parser) : p.advance.unread ≤ p.beyond := by
  have := p.unread_advance_le
  rw [unread_eq_beyond_add p] at this
  omega

theorem advance_beyond_le (p : Parser) : p.advance.beyond ≤ p.beyond :=
  Nat.le_trans p.advance.beyond_le_unread p.advance_unread_le_beyond

theorem weight_of_ne_eof {t : Token} (h : t.kind ≠ .eof) : weight t = 1 := if_neg h

theorem beyond_lt_unread {p : Parser} (h : p.current.kind ≠ .eof) : p.beyond < p.unread := by
  rw [unread_eq_beyond_add, weight_of_ne_eof h]
  exact Nat.lt_succ_self _

theorem advance_unread_lt {p : Parser} (h : p.current.kind ≠ .eof) :
    p.advance.unread < p.unread :=
  Nat.lt_of_le_of_lt p.advance_unread_le_beyond (beyond_lt_unread h)

end Parser

/-! ## Numerals out of range -/

/-- The integer that a token spells, if it is in range. -/
def Token.value? (t : Token) : Option Int := (Numeral.read? t.literal.toList).map Int.ofNat

/-- What is wrong with a token wherever it stands: a numeral may be out of range. -/
def Token.faults (t : Token) : List Diagnostic :=
  if t.kind = .integer ∧ t.value? = none then [.outOfRange t.literal] else []

theorem Token.faults_of_ne {t : Token} (h : t.kind ≠ .integer) : t.faults = [] :=
  if_neg fun h' => h h'.1

namespace Parser

/-- The parser with the faults of the current token recorded. -/
def settle (p : Parser) : Parser := p.current.faults.foldl report p

section Settle

variable (p : Parser)

theorem settle_eq_report {p : Parser} (hk : p.current.kind = .integer)
    (hv : p.current.value? = none) : p.settle = p.report (.outOfRange p.current.literal) := by
  rw [settle, Token.faults, if_pos ⟨hk, hv⟩]
  rfl

theorem settle_eq_self {p : Parser}
    (h : ¬ (p.current.kind = .integer ∧ p.current.value? = none)) : p.settle = p := by
  rw [settle, Token.faults, if_neg h]
  rfl

theorem settle_of_ne {p : Parser} (h : p.current.kind ≠ .integer) : p.settle = p :=
  settle_eq_self fun hi => h hi.1

theorem settle_cases : p.settle = p ∨ p.settle = p.report (.outOfRange p.current.literal) := by
  by_cases h : p.current.kind = .integer ∧ p.current.value? = none
  · exact .inr (settle_eq_report h.1 h.2)
  · exact .inl (settle_eq_self h)

theorem reaches_settle : p.Reaches p.settle := by
  rcases p.settle_cases with h | h <;> rw [h]
  · exact .refl p
  · exact (Reaches.refl p).report _

@[simp] theorem settle_grammar : p.settle.grammar = p.grammar := by
  rcases p.settle_cases with h | h <;> rw [h]; rfl

@[simp] theorem settle_current : p.settle.current = p.current := by
  rcases p.settle_cases with h | h <;> rw [h]; rfl

@[simp] theorem settle_peek : p.settle.peek = p.peek := by
  rcases p.settle_cases with h | h <;> rw [h]; rfl

@[simp] theorem settle_scanner : p.settle.scanner = p.scanner := by
  rcases p.settle_cases with h | h <;> rw [h]; rfl

theorem settle_diagnostics :
    p.settle.diagnostics.toList = p.diagnostics.toList ++ p.current.faults := by
  rw [settle, Token.faults]
  split <;> simp

end Settle

section Reaches

variable {p q : Parser}

theorem Reaches.grammar_eq (h : p.Reaches q) : q.grammar = p.grammar := by
  induction h with
  | refl => rfl
  | advance _ ih => exact ih
  | report _ _ ih => exact ih

theorem Reaches.beyond_le (h : p.Reaches q) : q.beyond ≤ p.beyond := by
  induction h with
  | refl => exact Nat.le_refl _
  | @advance q _ ih => exact Nat.le_trans q.advance_beyond_le ih
  | report _ _ ih => exact ih

theorem Reaches.unread_le (h : p.Reaches q) : q.unread ≤ p.unread := by
  induction h with
  | refl => exact Nat.le_refl _
  | @advance q _ ih =>
    have := q.unread_advance_le
    omega
  | report _ _ ih => exact ih

end Reaches

end Parser

/-- The parser at the end of a computation, however it ends. -/
def Outcome.parser {α : Type} : Outcome α → Parser
  | .ok _ p => p
  | .error _ p => p

namespace ParseM

/-! ## The rules at a single token -/

theorem identifier_run (p : Parser) :
    identifier.run p = if p.current.kind = .identifier
      then .ok (.identifier ⟨p.current, p.current.literal⟩) p
      else .error (.misfit ⟨.identifier, p.current⟩) p := by
  have h : identifier.run p = Outcome.andThen
      ((checked (Identifier.ofToken p.current)).run p) fun name q => .ok (.identifier name) q := by
    simp only [identifier, bind_run, get_run, andThen_ok, pure_run]
  rw [h, Identifier.ofToken]
  split
  · next hk => rw [Form.check_of_mem (by simpa [Form.kinds] using hk)]; rfl
  · next hk => rw [Form.check_of_not_mem (by simpa [Form.kinds] using hk)]; rfl

theorem integer_run (p : Parser) :
    integer.run p = if p.current.kind = .integer
      then .ok (.integer p.current p.current.value?) p.settle
      else .error (.misfit ⟨.integer, p.current⟩) p := by
  rw [integer, bind_run, get_run, andThen_ok]
  split
  · next hk =>
    rw [bind_run, Expr.ofInteger, Form.check_of_mem (by simpa [Form.kinds] using hk)]
    show EStateM.run (if (Numeral.read? p.current.literal.toList).isNone = true then _ else _) p = _
    cases hv : Numeral.read? p.current.literal.toList with
    | none =>
      have hn : p.current.value? = none := by rw [Token.value?, hv]; rfl
      rw [if_pos Option.isNone_none, Parser.settle_eq_report hk hn, hn]
      rfl
    | some n =>
      rw [if_neg (by simp), Parser.settle_eq_self (by simp [Token.value?, hv]), Token.value?, hv]
      rfl
  · next hk =>
    rw [bind_run, Expr.ofInteger, Form.check_of_not_mem (by simpa [Form.kinds] using hk)]
    rfl

/-! ## Computations that only advance and report -/

/-- A computation that does nothing to the parser but advance and report. -/
def Moves {α : Type} (x : ParseM α) : Prop := ∀ p : Parser, p.Reaches (Outcome.parser (x.run p))

section Moves

variable {α β : Type}

theorem Moves.reaches {x : ParseM α} (hx : Moves x) {p r : Parser} {a : α}
    (h : x.run p = .ok a r) : p.Reaches r := by
  have hp := hx p
  rw [h] at hp
  exact hp

theorem Moves.bind {x : ParseM α} {f : α → ParseM β} (hx : Moves x) (hf : ∀ a, Moves (f a)) :
    Moves (x >>= f) := by
  intro p
  rw [bind_run]
  have h := hx p
  cases hr : x.run p with
  | ok a q => rw [hr] at h; exact h.trans (hf a q)
  | error e q => rw [hr] at h; exact h

theorem moves_pure (a : α) : Moves (pure a) := fun p => .refl p
theorem moves_throw (e : Stop) : Moves (throw e : ParseM α) := fun p => .refl p
theorem moves_get : Moves get := fun p => .refl p
theorem moves_advance : Moves advance := fun p => (Parser.Reaches.refl p).advance
theorem moves_report (d : Diagnostic) : Moves (report d) :=
  fun p => (Parser.Reaches.refl p).report d

theorem moves_checked (x : Except Misfit α) : Moves (checked x) := by
  cases x with
  | ok a => exact moves_pure a
  | error m => exact moves_throw (.misfit m)

theorem moves_expect (k : Kind) : Moves (expect k) := by
  intro p
  rw [expect_run]
  split
  · exact moves_advance p
  · exact moves_report _ p

theorem moves_require (k : Kind) : Moves (require k) := by
  refine (moves_expect k).bind fun b => ?_
  cases b with
  | true => exact moves_pure ()
  | false => exact moves_throw .absent

theorem moves_identifier : Moves identifier :=
  moves_get.bind fun _ => (moves_checked _).bind fun _ => moves_pure _

theorem moves_integer : Moves integer := by
  intro p
  rw [integer_run]
  split
  · exact p.reaches_settle
  · exact .refl p

variable {nested : Precedence → ParseM Expr} (h : ∀ q, Moves (nested q))
include h

theorem moves_applyOperand (r : OperandRule) : Moves (applyOperand nested r) := by
  cases r with
  | identifier => exact moves_identifier
  | integer => exact moves_integer
  | unary =>
    exact moves_get.bind fun _ => moves_advance.bind fun _ => (h _).bind fun _ => moves_checked _
  | group =>
    exact moves_advance.bind fun _ => (h _).bind fun e => (moves_require _).bind fun _ =>
      moves_pure e

theorem moves_operandWith : Moves (operandWith nested) := by
  refine moves_get.bind fun p => ?_
  cases p.grammar.operand p.current.kind with
  | some r => exact moves_applyOperand h r
  | none => exact (moves_report _).bind fun _ => moves_throw _

theorem moves_applyOperator (left : Expr) (r : OperatorRule) :
    Moves (applyOperator nested left r) := by
  cases r with
  | binary =>
    exact moves_get.bind fun _ => moves_advance.bind fun _ => (h _).bind fun _ => moves_checked _

theorem moves_tailWith (n : Nat) (q : Precedence) (left : Expr) :
    Moves (tailWith nested n q left) := by
  induction n generalizing left with
  | zero => exact moves_throw _
  | succ n ih =>
    refine moves_get.bind fun p => ?_
    split
    · split
      · exact moves_advance.bind fun _ => (moves_applyOperator h left _).bind fun left' => ih left'
      · exact moves_pure left
    · exact moves_pure left

end Moves

theorem moves_exprWithin (n : Nat) (q : Precedence) : Moves (exprWithin n q) := by
  induction n generalizing q with
  | zero => exact moves_throw _
  | succ n ih => exact (moves_operandWith ih).bind fun left => moves_tailWith ih n q left

/-- **Reading an expression does nothing but advance and report.** -/
theorem moves_expr (q : Precedence) : Moves (expr q) :=
  moves_get.bind fun _ => moves_exprWithin _ q

/-! ## Expressions have tokens -/

/-- A computation that yields a result only over at least one token. -/
def Consumes {α : Type} (x : ParseM α) : Prop :=
  ∀ (p : Parser) (a : α) (q : Parser), x.run p = .ok a q → q.beyond < p.unread

theorem andThen_eq_ok {α β : Type} {o : Outcome α} {f : α → Parser → Outcome β} {b : β}
    {q : Parser} : Outcome.andThen o f = .ok b q ↔ ∃ a r, o = .ok a r ∧ f a r = .ok b q := by
  cases o with
  | ok a r =>
    constructor
    · intro h
      exact ⟨a, r, rfl, h⟩
    · rintro ⟨a', r', h, h'⟩
      cases h
      exact h'
  | error e r =>
    constructor
    · intro h
      exact nomatch h
    · rintro ⟨a, r', h, _⟩
      exact nomatch h

section Consumes

variable {nested : Precedence → ParseM Expr} (h : ∀ q, Consumes (nested q))
include h

theorem consumes_applyOperand (r : OperandRule) : Consumes (applyOperand nested r) := by
  intro p e q he
  cases r with
  | identifier =>
    change identifier.run p = _ at he
    rw [identifier_run] at he
    split at he
    · next hk =>
      cases he
      exact Parser.beyond_lt_unread (by simp [hk])
    · cases he
  | integer =>
    change integer.run p = _ at he
    rw [integer_run] at he
    split at he
    · next hk =>
      cases he
      exact Nat.lt_of_le_of_lt p.reaches_settle.beyond_le (Parser.beyond_lt_unread (by simp [hk]))
    · cases he
  | unary =>
    change (unaryWith nested).run p = _ at he
    rw [unaryWith_run, andThen_eq_ok] at he
    obtain ⟨right, r, hr, hc⟩ := he
    have hlt := h _ _ _ _ hr
    have hle := ((moves_checked _).reaches hc).beyond_le
    have := p.advance_unread_le_beyond
    have := p.beyond_le_unread
    omega
  | group =>
    change (groupWith nested).run p = _ at he
    rw [groupWith_run, andThen_eq_ok] at he
    obtain ⟨e', r, hr, hc⟩ := he
    have hlt := h _ _ _ _ hr
    have := p.advance_unread_le_beyond
    have := p.beyond_le_unread
    split at hc
    · cases hc
      have := r.advance_beyond_le
      omega
    · cases hc

theorem consumes_operandWith : Consumes (operandWith nested) := by
  intro p e q he
  rw [operandWith_run] at he
  split at he
  · exact consumes_applyOperand h _ p e q he
  · cases he

end Consumes

theorem consumes_exprWithin (n : Nat) (q : Precedence) : Consumes (exprWithin n q) := by
  induction n generalizing q with
  | zero =>
    intro p e r he
    cases he
  | succ n ih =>
    intro p e r he
    rw [exprWithin_run, andThen_eq_ok] at he
    obtain ⟨left, s, hs, ht⟩ := he
    have hlt := consumes_operandWith ih p left s hs
    have hle := ((moves_tailWith (moves_exprWithin n) n q left).reaches ht).beyond_le
    exact Nat.lt_of_le_of_lt hle hlt

end ParseM

end Frontend
