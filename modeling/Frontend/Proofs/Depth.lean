import Frontend.Proofs.Reach

/-!
# Expressions without a bound on their depth

The bounds on depth and on the number of operators are never met, as long as the grammar has no
rule that reads on behind the last token. The reader of expressions then satisfies the equations
that its definition would have without bounds.

* `Grammar.EndsAtEof`: no rule reads on behind the last token;
* `Parser.Later`: the parsers that at least one token lies before;
* `ParseM.exprWith`: an expression with any reader of nested expressions;
* **`ParseM.exprWith_congr`**: nested expressions are asked for later in the source only;
* **`ParseM.exprWithin_eq`**: any two bounds that cover the unread tokens agree;
* `ParseM.operand`, `ParseM.tail`: the two halves of an expression, without bounds;
* **`ParseM.expr_eq`**, **`ParseM.tail_eq`**: the equations;
* `ParseM.Applies`: one operator is applied; **`ParseM.expr_induction`**: induction on the reading of
  an expression, with later expressions and the rest of the operators taken for granted.
-/

namespace Frontend

/-- At the last token the grammar has no rule that reads on. -/
structure Grammar.EndsAtEof (g : Grammar) : Prop where
  unary : g.operand .eof ≠ some .unary
  group : g.operand .eof ≠ some .group

namespace Parser

/-- The parser `q` is later in the source than `p`: a token other than the last one was passed. -/
def Later (p q : Parser) : Prop := ∃ r, p.Reaches r ∧ r.current.kind ≠ .eof ∧ q = r.advance

variable {p q r : Parser}

theorem later_advance (h : p.current.kind ≠ .eof) : p.Later p.advance := ⟨p, .refl p, h, rfl⟩

theorem Later.of_reaches (h : q.Later r) (hp : p.Reaches q) : p.Later r := by
  obtain ⟨s, hs, hk, rfl⟩ := h
  exact ⟨s, hp.trans hs, hk, rfl⟩

theorem Later.reaches (h : p.Later q) : p.Reaches q := by
  obtain ⟨s, hs, -, rfl⟩ := h
  exact hs.advance

theorem Later.grammar_eq (h : p.Later q) : q.grammar = p.grammar := h.reaches.grammar_eq

theorem Later.unread_lt (h : p.Later q) : q.unread < p.unread := by
  obtain ⟨s, hs, hk, rfl⟩ := h
  exact Nat.lt_of_lt_of_le (advance_unread_lt hk) hs.unread_le

end Parser

namespace ParseM

open Frontend.Parser

/-- Two readers that agree on all parsers later in the source than `p`. -/
def AgreeAfter (p : Parser) (x y : Precedence → ParseM Expr) : Prop :=
  ∀ q r, p.Later r → (x q).run r = (y q).run r

theorem AgreeAfter.mono {p q : Parser} {x y : Precedence → ParseM Expr} (h : AgreeAfter p x y)
    (hpq : p.Reaches q) : AgreeAfter q x y :=
  fun c r hr => h c r (hr.of_reaches hpq)

section Congr

variable {x y : Precedence → ParseM Expr}

/-- A rule for operands asks for nested expressions one token further on only. -/
theorem applyOperand_congr_advance {p : Parser} (h : ∀ q, (x q).run p.advance = (y q).run p.advance)
    (r : OperandRule) : (applyOperand x r).run p = (applyOperand y r).run p := by
  cases r with
  | identifier => rfl
  | integer => rfl
  | unary =>
    show (unaryWith x).run p = (unaryWith y).run p
    rw [unaryWith_run, unaryWith_run, h]
  | group =>
    show (groupWith x).run p = (groupWith y).run p
    rw [groupWith_run, groupWith_run, h]

/-- A rule for operators does so, too. -/
theorem applyOperator_congr_advance {p : Parser}
    (h : ∀ q, (x q).run p.advance = (y q).run p.advance) (left : Expr) (r : OperatorRule) :
    (applyOperator x left r).run p = (applyOperator y left r).run p := by
  cases r with
  | binary =>
    show (binaryWith x left).run p = (binaryWith y left).run p
    rw [binaryWith_run, binaryWith_run, h]

theorem operandWith_congr_advance {p : Parser}
    (h : ∀ q, (x q).run p.advance = (y q).run p.advance) :
    (operandWith x).run p = (operandWith y).run p := by
  rw [operandWith_run, operandWith_run]
  cases p.grammar.operand p.current.kind with
  | none => rfl
  | some r => exact applyOperand_congr_advance h r

theorem operandWith_congr {p : Parser} (hg : p.grammar.EndsAtEof) (h : AgreeAfter p x y) :
    (operandWith x).run p = (operandWith y).run p := by
  rw [operandWith_run, operandWith_run]
  cases hr : p.grammar.operand p.current.kind with
  | none => rfl
  | some r =>
    cases r with
    | identifier => rfl
    | integer => rfl
    | unary =>
      have hk : p.current.kind ≠ .eof := fun e => hg.unary (e ▸ hr)
      exact applyOperand_congr_advance (fun q => h q p.advance (later_advance hk)) .unary
    | group =>
      have hk : p.current.kind ≠ .eof := fun e => hg.group (e ▸ hr)
      exact applyOperand_congr_advance (fun q => h q p.advance (later_advance hk)) .group

theorem applyOperator_congr {p : Parser} (h : AgreeAfter p x y) (hk : p.current.kind ≠ .eof)
    (left : Expr) (r : OperatorRule) :
    (applyOperator x left r).run p = (applyOperator y left r).run p :=
  applyOperator_congr_advance (fun q => h q p.advance (later_advance hk)) left r

/-- An operator and its operand leave fewer tokens behind the window. -/
theorem applyOperator_beyond_lt (hx : ∀ q, Moves (x q)) {p r : Parser}
    (hk : p.current.kind ≠ .eof) {left e : Expr} {rule : OperatorRule}
    (h : (applyOperator x left rule).run p = .ok e r) : r.beyond < p.unread :=
  Nat.lt_of_le_of_lt ((moves_applyOperator hx left rule).reaches h).beyond_le (beyond_lt_unread hk)

theorem continues_peek_ne_eof {p : Parser} {q : Precedence} (h : p.continues q = true) :
    p.peek.kind ≠ .eof := by
  intro he
  simp [continues, Token.isOneOf, he] at h

theorem tailWith_congr (hx : ∀ q, Moves (x q)) (m n : Nat) (q : Precedence) (left : Expr)
    (p : Parser) (hm : p.beyond < m) (hn : p.beyond < n) (h : AgreeAfter p x y) :
    (tailWith x m q left).run p = (tailWith y n q left).run p := by
  induction m generalizing n left p with
  | zero => exact absurd hm (Nat.not_lt_zero _)
  | succ m ih =>
    obtain ⟨n, rfl⟩ : ∃ n', n = n' + 1 := ⟨n - 1, by omega⟩
    rw [tailWith_run, tailWith_run]
    split
    · next hc =>
      cases p.grammar.operator p.peek.kind with
      | none => rfl
      | some rule =>
        have hk : p.advance.current.kind ≠ .eof := continues_peek_ne_eof hc
        have hle := p.advance_unread_le_beyond
        have hp : p.Reaches p.advance := (Reaches.refl p).advance
        dsimp only
        rw [← applyOperator_congr (h.mono hp) hk left rule]
        cases hr : (applyOperator x left rule).run p.advance with
        | error e r => rfl
        | ok left' r =>
          have hlt := applyOperator_beyond_lt hx hk hr
          have hr' := (moves_applyOperator hx left rule).reaches hr
          exact ih n left' r (by omega) (by omega) (h.mono (hp.trans hr'))
    · rfl

end Congr

/-! ## The body of an expression -/

/-- An operand with at most `n - 1` operators that follow it, where nested expressions are read by
`nested`. -/
def exprWith (nested : Precedence → ParseM Expr) (n : Nat) (q : Precedence) : ParseM Expr := do
  let left ← operandWith nested
  tailWith nested n q left

theorem exprWith_run (nested : Precedence → ParseM Expr) (n : Nat) (q : Precedence) (p : Parser) :
    (exprWith nested n q).run p = Outcome.andThen ((operandWith nested).run p) fun left r =>
      (tailWith nested n q left).run r := by
  rw [exprWith, bind_run]

theorem exprWithin_succ (n : Nat) (q : Precedence) :
    exprWithin (n + 1) q = exprWith (exprWithin n) n q := rfl

/-- **Nested expressions are asked for later in the source only**, and bounds on the number of
operators that cover the unread tokens agree. -/
theorem exprWith_congr {x y : Precedence → ParseM Expr} (hx : ∀ q, Moves (x q))
    (hc : ∀ q, Consumes (x q)) {p : Parser} (hg : p.grammar.EndsAtEof) {m n : Nat}
    (hm : p.unread ≤ m) (hn : p.unread ≤ n) (h : AgreeAfter p x y) (q : Precedence) :
    (exprWith x m q).run p = (exprWith y n q).run p := by
  rw [exprWith_run, exprWith_run, ← operandWith_congr hg h]
  cases ho : (operandWith x).run p with
  | error e r => rfl
  | ok left r =>
    have hlt := consumes_operandWith hc p left r ho
    have hr := (moves_operandWith hx).reaches ho
    exact tailWith_congr hx m n q left r (by omega) (by omega) (h.mono hr)

/-- **Bounds that cover the unread tokens agree.** -/
theorem exprWithin_eq {p : Parser} (hg : p.grammar.EndsAtEof) {m n : Nat} (hm : p.unread < m)
    (hn : p.unread < n) (q : Precedence) : (exprWithin m q).run p = (exprWithin n q).run p := by
  induction m generalizing n q p with
  | zero => exact absurd hm (Nat.not_lt_zero _)
  | succ m ih =>
    obtain ⟨n, rfl⟩ : ∃ n', n = n' + 1 := ⟨n - 1, by omega⟩
    rw [exprWithin_succ, exprWithin_succ]
    refine exprWith_congr (moves_exprWithin m) (consumes_exprWithin m) hg (by omega) (by omega)
      (fun c r hr => ?_) q
    have hlt := hr.unread_lt
    exact ih (hr.grammar_eq ▸ hg) (by omega) (by omega) c

/-! ## The equations without bounds -/

/-- The operand at the current token. -/
def operand : ParseM Expr := operandWith expr

/-- The expression `left` with all operators that follow it and bind tighter than `q`. -/
def tail (q : Precedence) (left : Expr) : ParseM Expr := fun p =>
  (tailWith expr (p.beyond + 1) q left).run p

theorem moves_operand : Moves operand := moves_operandWith moves_expr

theorem consumes_expr (q : Precedence) : Consumes (expr q) := fun p => consumes_exprWithin _ q p

theorem agreeAfter_expr {p : Parser} (hg : p.grammar.EndsAtEof) {n : Nat} (hn : p.unread ≤ n) :
    AgreeAfter p (exprWithin n) expr := by
  intro q r hr
  have hlt := hr.unread_lt
  rw [expr_run]
  exact exprWithin_eq (hr.grammar_eq ▸ hg) (by omega) (Nat.lt_succ_self _) q

/-- An expression is its own body, whatever the bound on its operators that covers the unread
tokens. -/
theorem expr_eq_exprWith {p : Parser} (hg : p.grammar.EndsAtEof) {n : Nat} (hn : p.unread ≤ n)
    (q : Precedence) : (expr q).run p = (exprWith expr n q).run p := by
  rw [expr_run, exprWithin_succ]
  exact exprWith_congr (moves_exprWithin _) (consumes_exprWithin _) hg (Nat.le_refl _) hn
    (agreeAfter_expr hg (Nat.le_refl _)) q

/-- **An expression is an operand with the operators that follow it.** -/
theorem expr_eq {p : Parser} (hg : p.grammar.EndsAtEof) (q : Precedence) :
    (expr q).run p = Outcome.andThen (operand.run p) fun left r => (tail q left).run r := by
  rw [expr_eq_exprWith hg (Nat.le_refl _), exprWith_run, operand]
  cases ho : (operandWith expr).run p with
  | error e r => rfl
  | ok left r =>
    have hlt := consumes_operandWith consumes_expr p left r ho
    exact tailWith_congr moves_expr _ _ q left r hlt (Nat.lt_succ_self _) fun _ _ _ => rfl

/-- **Every operator that binds tight enough is applied, and the rest follows it.** -/
theorem tail_eq (q : Precedence) (left : Expr) (p : Parser) :
    (tail q left).run p = if p.continues q then
        match p.grammar.operator p.peek.kind with
        | some rule =>
          Outcome.andThen ((applyOperator expr left rule).run p.advance) fun left' r =>
            (tail q left').run r
        | none => .ok left p
      else .ok left p := by
  have h : (tail q left).run p = (tailWith expr (p.beyond + 1) q left).run p := rfl
  rw [h, tailWith_run]
  split
  · next hc =>
    cases p.grammar.operator p.peek.kind with
    | none => rfl
    | some rule =>
      dsimp only
      cases hr : (applyOperator expr left rule).run p.advance with
      | error e r => rfl
      | ok left' r =>
        have hlt := applyOperator_beyond_lt (p := p.advance) moves_expr (continues_peek_ne_eof hc)
          hr
        have hle := p.advance_unread_le_beyond
        exact tailWith_congr moves_expr _ _ q left' r (by omega) (Nat.lt_succ_self _)
          fun _ _ _ => rfl
  · rfl

/-! ## Induction -/

/-- In an expression that was asked for at `c`, the operator behind `p` is applied to `left`, which
yields `left'` and leads to `r`. -/
structure Applies (c : Precedence) (left : Expr) (p : Parser) (left' : Expr) (r : Parser) :
    Prop where
  continues_eq : p.continues c = true
  run : ∃ rule, p.grammar.operator p.peek.kind = some rule ∧
    (applyOperator expr left rule).run p.advance = .ok left' r

section Applies

variable {c : Precedence} {left left' : Expr} {p r : Parser}

/-- The operand of an operator that goes on is later in the source. -/
theorem later_of_continues (h : p.continues c = true) : p.Later p.advance.advance :=
  (later_advance (p := p.advance) (continues_peek_ne_eof h)).of_reaches (Reaches.refl p).advance

theorem Applies.reaches (h : Applies c left p left' r) : p.Reaches r := by
  obtain ⟨rule, -, hrun⟩ := h.run
  exact (Reaches.refl p).advance.trans ((moves_applyOperator moves_expr left rule).reaches hrun)

theorem Applies.beyond_lt (h : Applies c left p left' r) : r.beyond < p.beyond := by
  obtain ⟨rule, -, hrun⟩ := h.run
  have hlt := applyOperator_beyond_lt (p := p.advance) moves_expr
    (continues_peek_ne_eof h.continues_eq) hrun
  exact Nat.lt_of_lt_of_le hlt p.advance_unread_le_beyond

end Applies

section Induction

variable {g : Grammar} {P : Precedence → Parser → Prop} {Q : Precedence → Expr → Parser → Prop}
  (htail : ∀ c left p, p.grammar = g → (∀ d r, p.Later r → P d r) →
    (∀ left' r, Applies c left p left' r → Q c left' r) → Q c left p)
include htail

/-- Induction on the operators that follow an expression. -/
theorem tail_induction (c : Precedence) (left : Expr) {p : Parser} (hp : p.grammar = g)
    (ih : ∀ d r, p.Later r → P d r) : Q c left p := by
  refine htail c left p hp ih fun left' r h => ?_
  have hlt := h.beyond_lt
  exact tail_induction c left' (h.reaches.grammar_eq.trans hp) fun d s hs =>
    ih d s (hs.of_reaches h.reaches)
termination_by p.beyond

/-- **Induction on the reading of an expression.** Let `P` be about expressions and `Q` about the
operators that follow one, both under the grammar `g`. For either, all expressions later in the
source may be taken for granted, and so may the operators that follow the operand or the next
operator. -/
theorem expr_induction (hexpr : ∀ c p, p.grammar = g → (∀ d r, p.Later r → P d r) →
      (∀ left r, operand.run p = .ok left r → Q c left r) → P c p)
    (c : Precedence) {p : Parser} (hp : p.grammar = g) : P c p := by
  have ih : ∀ d r, p.Later r → P d r := fun d r hr => by
    have hlt := hr.unread_lt
    exact expr_induction hexpr d (hr.grammar_eq.trans hp)
  refine hexpr c p hp ih fun left r hrun => ?_
  have hr := moves_operand.reaches hrun
  exact tail_induction htail c left (hr.grammar_eq.trans hp) fun d s hs => ih d s (hs.of_reaches hr)
termination_by p.unread

end Induction

end ParseM

end Frontend
