import Frontend.Proofs.Window

/-!
# Expressions end where no operator goes on

Whatever is registered, a kind has a rule for operators exactly if it has a binding power. So the loop
over operators never meets one that binds tight enough and has no rule, and an expression takes every
operator that it may take.

* `Grammar.IsPaired`: the same kinds have a rule for operators and a binding power;
  **`Parser.performAll_isPaired`**: no command changes that;
* `ParseM.exprOr`: expressions with anything else in place of the end at an operator without a rule;
  **`ParseM.exprOr_eq`**: it makes no difference;
* **`ParseM.expr_ends_before`**, `ParseM.applyOperator_ends_before`: where expressions and operators
  end;
* **`expressions_take_every_operator`**: all of this after any commands.
-/

namespace Frontend

/-! ## Rules and binding powers -/

namespace Grammar

/-- The kinds that have a rule for operators are those that have a binding power. -/
def IsPaired (g : Grammar) : Prop := ∀ k, (g.operator k).isSome ↔ (g.power k).isSome

variable {g : Grammar}

theorem isPaired_empty : empty.IsPaired := fun _ => Iff.rfl

theorem IsPaired.withOperand (h : g.IsPaired) (k : Kind) (r : OperandRule) :
    (g.withOperand k r).IsPaired := h

theorem IsPaired.withOperator (h : g.IsPaired) (k : Kind) (q : Precedence) (r : OperatorRule) :
    (g.withOperator k q r).IsPaired := by
  intro l
  by_cases hl : l = k
  · simp [Grammar.withOperator, hl]
  · simpa [Grammar.withOperator, hl] using h l

theorem IsPaired.withStandard (h : g.IsPaired) : g.withStandard.IsPaired := by
  have hoperators := List.foldlRecOn standardOperators
    (fun (g : Grammar) e => g.withOperator e.1 e.2 .binary) h fun _ hg e _ =>
      hg.withOperator e.1 e.2 .binary
  exact List.foldlRecOn standardOperands (fun (g : Grammar) e => g.withOperand e.1 e.2) hoperators
    fun _ hg e _ => hg.withOperand e.1 e.2

theorem isPaired_standard : standard.IsPaired := isPaired_empty.withStandard

/-- A kind that binds tighter than some precedence has a rule. -/
theorem IsPaired.exists_operator (h : g.IsPaired) {k : Kind} {q : Precedence}
    (hq : q < g.powerOf k) : ∃ r, g.operator k = some r := by
  refine Option.isSome_iff_exists.mp ((h k).mpr ?_)
  rw [powerOf] at hq
  cases hk : g.power k with
  | none =>
    rw [hk] at hq
    exact absurd hq (Nat.not_lt_zero _)
  | some c => rfl

end Grammar

namespace Parser

variable {p : Parser}

/-- **No command separates rules and binding powers.** -/
theorem perform_isPaired (hp : p.grammar.IsPaired) (c : Command) :
    (p.perform c).2.grammar.IsPaired := by
  by_cases hc : c.Registers
  · cases c with
    | restoreGrammar => exact hp.withStandard
    | registerOperand k r => exact hp.withOperand k r
    | registerOperator k q r => exact hp.withOperator k q r
    | _ => exact hc.elim
  · rw [p.grammar_perform hc]
    exact hp

theorem performAll_isPaired (hp : p.grammar.IsPaired) (cs : List Command) :
    (p.performAll cs).grammar.IsPaired := by
  induction cs generalizing p with
  | nil => exact hp
  | cons c cs ih => exact ih (perform_isPaired hp c)

/-- Where the loop over operators goes on there is a rule for it. -/
theorem exists_operator_of_continues (hp : p.grammar.IsPaired) {q : Precedence}
    (h : p.continues q = true) : ∃ r, p.grammar.operator p.peek.kind = some r := by
  simp only [continues, Bool.and_eq_true, decide_eq_true_eq] at h
  exact hp.exists_operator h.2

/-- Where the loop ends no statement goes on, or the next token does not bind tight enough. -/
theorem continues_eq_false_iff {q : Precedence} :
    p.continues q = false ↔ p.peek.kind ∈ [.semicolon, .eof] ∨ p.peekPower ≤ q := by
  rw [continues, Bool.and_eq_false_iff, Bool.not_eq_false', Token.isOneOf_iff,
    decide_eq_false_iff_not, Precedence.not_lt]

end Parser

/-! ## The loop over operators -/

namespace ParseM

open Frontend.Parser

/-- The operators that follow `left`, with `early` in place of the end at an operator without a
rule. -/
def tailOr (early : Expr → ParseM Expr) (nested : Precedence → ParseM Expr) :
    Nat → Precedence → Expr → ParseM Expr
  | 0, _, _ => throw .endless
  | n + 1, q, left => do
    let p ← get
    if p.continues q then
      match p.grammar.operator p.peek.kind with
      | some r =>
        advance
        let left ← applyOperator nested left r
        tailOr early nested n q left
      | none => early left
    else
      return left

/-- The expression at the current token, nested less than `n` deep, with `early` in place of every
end at an operator without a rule. -/
def exprOrWithin (early : Expr → ParseM Expr) : Nat → Precedence → ParseM Expr
  | 0, _ => throw .endless
  | n + 1, q => do
    let left ← operandWith (exprOrWithin early n)
    tailOr early (exprOrWithin early n) n q left

/-- The expression at the current token, with `early` in place of every end at an operator without a
rule. -/
def exprOr (early : Expr → ParseM Expr) (q : Precedence) : ParseM Expr := do
  exprOrWithin early ((← get).unread + 1) q

theorem tailOr_run (early : Expr → ParseM Expr) (nested : Precedence → ParseM Expr) (n : Nat)
    (q : Precedence) (left : Expr) (p : Parser) :
    (tailOr early nested (n + 1) q left).run p =
      if p.continues q then
        match p.grammar.operator p.peek.kind with
        | some r =>
          Outcome.andThen ((applyOperator nested left r).run p.advance) fun left p =>
            (tailOr early nested n q left).run p
        | none => (early left).run p
      else .ok left p := by
  rw [tailOr, bind_run, get_run, andThen_ok]
  split
  · cases p.grammar.operator p.peek.kind with
    | some r => simp only [bind_run, advance_run, andThen_ok]
    | none => rfl
  · rfl

theorem tailOr_pure (nested : Precedence → ParseM Expr) (n : Nat) (q : Precedence) :
    tailOr pure nested n q = tailWith nested n q := by
  induction n with
  | zero => rfl
  | succ n ih =>
    funext left p
    show (tailOr pure nested (n + 1) q left).run p = (tailWith nested (n + 1) q left).run p
    rw [tailOr_run, tailWith_run, ih]
    cases p.grammar.operator p.peek.kind <;> rfl

theorem exprOrWithin_pure (n : Nat) : exprOrWithin pure n = exprWithin n := by
  induction n with
  | zero => rfl
  | succ n ih =>
    funext q
    simp only [exprOrWithin, exprWithin, ih, tailOr_pure]

/-- With the end itself in that place, these are the expressions as they are read. -/
theorem exprOr_pure : exprOr pure = expr := by
  funext q
  simp only [exprOr, expr, exprOrWithin_pure]

/-- Two readers that agree on all parsers with the grammar `g`. -/
def AgreeUnder (g : Grammar) (x y : Precedence → ParseM Expr) : Prop :=
  ∀ q (r : Parser), r.grammar = g → (x q).run r = (y q).run r

/-- **An operator without a rule is never met**, so that it does not matter what would be done there.
The induction over the operators needs readers that agree wherever the grammar is the same, since the
window moves on. -/
theorem tailOr_eq {early : Expr → ParseM Expr} {x y : Precedence → ParseM Expr}
    (hx : ∀ q, Moves (x q)) {p : Parser} (hg : p.grammar.IsPaired)
    (h : AgreeUnder p.grammar y x) (n : Nat) (q : Precedence) (left : Expr) :
    (tailOr early y n q left).run p = (tailWith x n q left).run p := by
  induction n generalizing left p with
  | zero => rfl
  | succ n ih =>
    rw [tailOr_run, tailWith_run]
    split
    · next hc =>
      obtain ⟨rule, hr⟩ := exists_operator_of_continues hg hc
      rw [hr]
      dsimp only
      rw [applyOperator_congr_advance fun c => h c p.advance.advance rfl]
      cases ho : (applyOperator x left rule).run p.advance with
      | error e r => rfl
      | ok left' r =>
        have hgr : r.grammar = p.grammar :=
          ((moves_applyOperator hx left rule).reaches ho).grammar_eq
        exact ih (hgr ▸ hg) (hgr ▸ h) left'
    · rfl

theorem exprOrWithin_eq (early : Expr → ParseM Expr) {p : Parser} (hg : p.grammar.IsPaired)
    (n : Nat) (q : Precedence) : (exprOrWithin early n q).run p = (exprWithin n q).run p := by
  induction n generalizing p q with
  | zero => rfl
  | succ n ih =>
    have h : AgreeUnder p.grammar (exprOrWithin early n) (exprWithin n) := fun c r hr =>
      ih (hr ▸ hg) c
    rw [exprOrWithin, bind_run, exprWithin_run, operandWith_congr_advance fun c => h c p.advance rfl]
    cases ho : (operandWith (exprWithin n)).run p with
    | error e r => rfl
    | ok left r =>
      have hgr := ((moves_operandWith (moves_exprWithin n)).reaches ho).grammar_eq
      exact tailOr_eq (moves_exprWithin n) (hgr ▸ hg) (hgr ▸ h) n q left

/-- **Whatever is put in place of the early end, the same is read.** -/
theorem exprOr_eq (early : Expr → ParseM Expr) {p : Parser} (hg : p.grammar.IsPaired)
    (q : Precedence) : (exprOr early q).run p = (expr q).run p := by
  rw [exprOr, bind_run, get_run, andThen_ok, exprOrWithin_eq early hg, expr_run]

/-! ## Where expressions end -/

/-- The loop ends where it may not go on. -/
theorem tailWith_ends {nested : Precedence → ParseM Expr} (h : ∀ q, Moves (nested q))
    {p r : Parser} (hg : p.grammar.IsPaired) {n : Nat} {q : Precedence} {left e : Expr}
    (hrun : (tailWith nested n q left).run p = .ok e r) : r.continues q = false := by
  induction n generalizing left p with
  | zero => exact nomatch hrun
  | succ n ih =>
    rw [tailWith_run] at hrun
    split at hrun
    · next hc =>
      obtain ⟨rule, hr⟩ := exists_operator_of_continues hg hc
      rw [hr] at hrun
      obtain ⟨left', s, hs, hrun⟩ := andThen_eq_ok.mp hrun
      have hgr : s.grammar = p.grammar :=
        ((moves_applyOperator h left rule).reaches hs).grammar_eq
      exact ih (hgr ▸ hg) hrun
    · next hc =>
      cases hrun
      exact Bool.eq_false_iff.mpr hc

theorem exprWithin_ends {p r : Parser} (hg : p.grammar.IsPaired) {n : Nat} {q : Precedence}
    {e : Expr} (hrun : (exprWithin n q).run p = .ok e r) : r.continues q = false := by
  cases n with
  | zero => exact nomatch hrun
  | succ n =>
    rw [exprWithin_run] at hrun
    obtain ⟨left, s, hs, hrun⟩ := andThen_eq_ok.mp hrun
    have hgr := ((moves_operandWith (moves_exprWithin n)).reaches hs).grammar_eq
    exact tailWith_ends (moves_exprWithin n) (hgr ▸ hg) hrun

/-- **An expression ends in front of a token that binds no tighter** than the precedence that it was
asked for at, or where a statement ends. -/
theorem expr_ends_before {p r : Parser} (hg : p.grammar.IsPaired) {q : Precedence} {e : Expr}
    (hrun : (expr q).run p = .ok e r) : r.peek.kind ∈ [.semicolon, .eof] ∨ r.peekPower ≤ q := by
  rw [expr_run] at hrun
  exact continues_eq_false_iff.mp (exprWithin_ends hg hrun)

/-- An operator ends where its operand does. -/
theorem applyOperator_ends_before {p r : Parser} (hg : p.grammar.IsPaired) {left e : Expr}
    {rule : OperatorRule} (hrun : (applyOperator expr left rule).run p = .ok e r) :
    r.peek.kind ∈ [.semicolon, .eof] ∨ r.peekPower ≤ p.currentPower := by
  have hr := parser_applyOperator left rule p
  rw [hrun] at hr
  cases hx : (expr p.currentPower).run p.advance with
  | ok right s =>
    rw [hx] at hr
    obtain rfl : r = s := hr
    exact expr_ends_before (p := p.advance) hg hx
  | error x s =>
    -- without its operand the operator has no result
    cases rule with
    | binary =>
      change (binaryWith expr left).run p = _ at hrun
      rw [binaryWith_run, hx] at hrun
      exact nomatch hrun

end ParseM

/-- **Expressions take every operator.** After any commands, those that stop early included, the
kinds with a rule for operators are those with a binding power. So wherever a parser with this
grammar asks for an expression, nested or not, it would read the same whatever it did at an operator
that binds tight enough and has no rule. If the expression is there, a semicolon or the last token is
next, or a token that binds no tighter than the precedence that was asked for. The same is true of an
operator that is applied after any expression, which leaves the grammar as it is. -/
theorem expressions_take_every_operator (s : Scanner) (cs : List Command) :
    let g := ((Parser.ofScanner s).performAll cs).grammar
    (∀ k, (g.operator k).isSome ↔ (g.power k).isSome) ∧
    ∀ p : Parser, p.grammar = g →
      (∀ early q, (ParseM.exprOr early q).run p = (ParseM.expr q).run p) ∧
      (∀ q e r, (ParseM.expr q).run p = .ok e r →
        r.peek.kind ∈ [.semicolon, .eof] ∨ r.peekPower ≤ q) ∧
      ∀ left rule,
        (∀ early, (ParseM.applyOperator (ParseM.exprOr early) left rule).run p =
          (ParseM.applyOperator ParseM.expr left rule).run p) ∧
        (Outcome.parser ((ParseM.applyOperator ParseM.expr left rule).run p)).grammar = g ∧
        ∀ e r, (ParseM.applyOperator ParseM.expr left rule).run p = .ok e r →
          r.peek.kind ∈ [.semicolon, .eof] ∨ r.peekPower ≤ p.currentPower := by
  intro g
  have hg : g.IsPaired := Parser.performAll_isPaired Grammar.isPaired_standard cs
  refine ⟨hg, fun p hp => ?_⟩
  have hpg : p.grammar.IsPaired := hp ▸ hg
  refine ⟨fun early q => ParseM.exprOr_eq early hpg q,
    fun q e r hrun => ParseM.expr_ends_before hpg hrun, fun left rule => ⟨fun early => ?_, ?_, ?_⟩⟩
  · exact ParseM.applyOperator_congr_advance
      (fun q => ParseM.exprOr_eq early (p := p.advance) hpg q) left rule
  · exact (ParseM.moves_applyOperator ParseM.moves_expr left rule p).grammar_eq.trans hp
  · exact fun e r hrun => ParseM.applyOperator_ends_before hpg hrun

/-- A semicolon that is registered to bind tightest is left over, also after a binding that stopped
at a token that is no `let`. -/
theorem expressions_take_every_operator_before_semicolon :
    let cs : List Command := [.registerOperator .semicolon .call .binary, .binding]
    let s : Scanner := .ofString "a * b; c"
    let p := (Parser.ofScanner s).performAll cs
    (((Parser.ofScanner s).performAll cs.dropLast).perform .binding).1 =
        .stopped (.misfit ⟨.binding, ⟨.identifier, "a"⟩⟩) ∧
      (ParseM.exprOr (fun _ => throw .endless) .lowest).run p = (ParseM.expr .lowest).run p ∧
      ∃ e r, (ParseM.expr .lowest).run p = .ok e r ∧ e.render = "(a * b)" ∧
        (r.peek.kind ∈ [.semicolon, .eof] ∨ r.peekPower ≤ .lowest) := by
  intro cs s p
  obtain ⟨-, hall⟩ := expressions_take_every_operator s cs
  obtain ⟨hsame, hend, -⟩ := hall p rfl
  have hrender : (match (p.perform (.expr .lowest)).1 with
      | .expr e => e.render
      | _ => "") = "(a * b)" := by decide +kernel
  refine ⟨by decide +kernel, hsame _ _, ?_⟩
  rw [Parser.perform, Parser.answer] at hrender
  cases hrun : (ParseM.expr .lowest).run p with
  | ok e r =>
    rw [hrun] at hrender
    exact ⟨e, r, rfl, hrender, hend _ _ _ hrun⟩
  | error e r =>
    rw [hrun] at hrender
    exact absurd (show "" = "(a * b)" from hrender) (by decide)

end Frontend
