import Frontend.Proofs.Window

/-!
# Reading always ends

No reading goes on for ever, wherever it starts and whatever rules are registered, as long as none
reads on behind the last token. Each nested expression is asked for with fewer tokens left than the
one around it, and each turn of the loop over statements has a token of its own.

* `ParseM.guarded`, `ParseM.exprDescending`: expressions that stop where a nested one is asked for
  with as many tokens left as before; **`ParseM.exprDescending_eq`**: they never do;
* `ParseM.Loop`: the turns of the loop over statements, counted, with the one in which it may stop;
  **`ParseM.loop_iff`**: in terms of its turns; **`ParseM.exists_loop`**: there are at most as many as
  tokens;
* **`Parser.perform_ne_endless`**: every command comes to an end;
* **`reading_ends`**: all of this after any commands;
* **`ParseM.exprWithin_endless`**: with a rule that reads on behind the last token, no bound suffices.
-/

namespace Frontend

namespace ParseM

open Frontend.Parser

/-! ## Nested expressions -/

/-- The reader, where less than `n` tokens are left. Elsewhere it stops as endless. -/
def guarded (n : Nat) (nested : Precedence → ParseM Expr) (q : Precedence) : ParseM Expr := do
  if (← get).tokens.length < n then nested q else throw .endless

/-- The expression at the current token, with nested expressions less than `n` deep. Each of them
has to be asked for with fewer tokens left than the one around it. -/
def exprDescending : Nat → Precedence → ParseM Expr
  | 0, _ => throw .endless
  | n + 1, q => do
    let left := (← get).tokens.length
    exprWith (guarded left (exprDescending n)) n q

theorem guarded_run {n : Nat} {p : Parser} (h : p.tokens.length < n)
    (nested : Precedence → ParseM Expr) (q : Precedence) :
    (guarded n nested q).run p = (nested q).run p := by
  rw [guarded, bind_run, get_run, andThen_ok, if_pos h]

/-- **Nested expressions are asked for with fewer and fewer tokens left.** -/
theorem exprDescending_eq {p : Parser} (hg : p.grammar.EndsAtEof) (hp : p.Aligned) {n : Nat}
    (hn : p.unread < n) (q : Precedence) : (exprDescending n q).run p = (expr q).run p := by
  induction n generalizing p q with
  | zero => exact absurd hn (Nat.not_lt_zero _)
  | succ n ih =>
    rw [exprDescending, bind_run, get_run, andThen_ok,
      expr_eq_exprWith hg (Nat.le_of_lt_succ hn)]
    refine (exprWith_congr moves_expr consumes_expr hg (by omega) (by omega)
      (fun c r hr => ?_) q).symm
    have hlt := hr.unread_lt
    rw [guarded_run (hr.tokens_length_lt hp)]
    exact (ih (hr.grammar_eq ▸ hg) (hr.reaches.aligned hp) (by omega) c).symm

/-! ## Turns of the loop over statements -/

/-- The loop over statements takes `n` turns, each of which reads one statement, and ends with the
outcome. The last turn may be one in which the reading stops. -/
inductive Loop : Parser → Nat → Outcome (List Statement) → Prop
  | done {p : Parser} (h : p.current.kind = .eof) : Loop p 0 (.ok [] p)
  | stopped {p r : Parser} {e : Stop} (hne : p.current.kind ≠ .eof)
      (h : segment.run p = .error e r) : Loop p 1 (.error e r)
  | turn {p r : Parser} {s? : Option Statement} {n : Nat} {o : Outcome (List Statement)}
      (hne : p.current.kind ≠ .eof) (h : segment.run p = .ok s? r) (hl : Loop r n o) :
      Loop p (n + 1) (Outcome.andThen o fun rest q => .ok (s?.toList ++ rest) q)

theorem Loop.of_turns {p r : Parser} {m n : Nat} {ss : List Statement}
    {o : Outcome (List Statement)} (h : Turns p m ss r) (hl : Loop r n o) :
    Loop p (m + n) (Outcome.andThen o fun rest q => .ok (ss ++ rest) q) := by
  induction h with
  | zero p =>
    rw [Nat.zero_add]
    cases o <;> exact hl
  | @succ p q r m s? ss hne hs _ ih =>
    have h := Loop.turn hne hs (ih hl)
    rw [Nat.add_right_comm]
    cases o with
    | ok rest q => simpa only [andThen_ok, List.append_assoc] using h
    | error e q => exact h

/-- **The loop takes some turns, and behind them it is at the last token or stops.** -/
theorem loop_iff {p : Parser} {n : Nat} {o : Outcome (List Statement)} : Loop p n o ↔
    (∃ ss r, Turns p n ss r ∧ r.current.kind = .eof ∧ o = .ok ss r) ∨
      ∃ m ss r e q, n = m + 1 ∧ Turns p m ss r ∧ r.current.kind ≠ .eof ∧
        segment.run r = .error e q ∧ o = .error e q := by
  constructor
  · intro h
    induction h with
    | @done p hk => exact .inl ⟨[], p, .zero p, hk, rfl⟩
    | @stopped p r e hne hs => exact .inr ⟨0, [], p, e, r, rfl, .zero p, hne, hs, rfl⟩
    | @turn p r s? n o hne hs _ ih =>
      rcases ih with ⟨ss, t, h, hk, rfl⟩ | ⟨m, ss, t, e, q, rfl, h, hk, he, rfl⟩
      · exact .inl ⟨_, t, .succ hne hs h, hk, rfl⟩
      · exact .inr ⟨m + 1, _, t, e, q, rfl, .succ hne hs h, hk, he, rfl⟩
  · rintro (⟨ss, r, h, hk, rfl⟩ | ⟨m, ss, r, e, q, rfl, h, hk, he, rfl⟩)
    · have hl := Loop.of_turns h (.done hk)
      rwa [andThen_ok, List.append_nil] at hl
    · exact Loop.of_turns h (.stopped hk he)

/-- A turn of the loop leaves fewer tokens. -/
theorem segment_tokens_length_lt {p r : Parser} {s? : Option Statement} (hp : p.Aligned)
    (hne : p.current.kind ≠ .eof) (h : segment.run p = .ok s? r) :
    r.Aligned ∧ r.tokens.length < p.tokens.length := by
  rw [segment_run, andThen_eq_ok] at h
  obtain ⟨s?, q, hq, hr⟩ := h
  cases hr
  obtain ⟨n, hn⟩ := ((moves_optional moves_statement).reaches hq).precedes.window_eq
  have hw : (turned s? q).window = (Parser.advance^[n + 1] p).window := by
    rw [Function.iterate_succ_apply', turned_window]
    exact window_advance hn
  refine ⟨hp.of_window hw, ?_⟩
  rw [tokens_congr hw, hp.tokens_iterate_advance, List.length_drop, tokens_of_ne_eof hne,
    List.length_cons]
  omega

/-- Each turn takes a token of its own. -/
theorem Turns.add_tokens_length_le {p r : Parser} {n : Nat} {ss : List Statement}
    (h : Turns p n ss r) (hp : p.Aligned) : n + r.tokens.length ≤ p.tokens.length := by
  induction h with
  | zero p => exact Nat.le_of_eq (Nat.zero_add _)
  | succ hne hs _ ih =>
    obtain ⟨hq, hlt⟩ := segment_tokens_length_lt hp hne hs
    have hle := ih hq
    omega

/-- **The loop takes at most as many turns as there are tokens.** -/
theorem exists_loop {p : Parser} (hp : p.Aligned) :
    ∃ n, n ≤ p.tokens.length ∧ Loop p n (statements.run p) := by
  obtain ⟨n, ss, r, h, hend⟩ := exists_turns p
  have hle := h.add_tokens_length_le hp
  rcases hend with hk | ⟨hk, e, q, hs⟩
  · exact ⟨n, by omega, loop_iff.mpr (.inl ⟨ss, r, h, hk, h.statements_of_eof hk⟩)⟩
  · have hpos : 0 < r.tokens.length := by
      rw [tokens_of_ne_eof hk]
      exact Nat.succ_pos _
    exact ⟨n + 1, by omega,
      loop_iff.mpr (.inr ⟨n, ss, r, e, q, rfl, h, hk, hs, h.statements_of_error hk hs⟩)⟩

/-! ## Rules and statements -/

theorem allows_ne_endless (g : Grammar) : g.Allows (· ≠ .endless) :=
  ⟨nofun, fun _ _ _ _ _ _ => nofun, fun _ _ _ _ => nofun⟩

section Ends

variable {p : Parser} (hg : p.grammar.EndsAtEof)
include hg

theorem expr_ends (q : Precedence) : StopsBy (· ≠ .endless) ((expr q).run p) :=
  expr_stopsBy hg (allows_ne_endless _) q

theorem applyOperand_ends (r : OperandRule) :
    StopsBy (· ≠ .endless) ((applyOperand expr r).run p) := by
  cases r with
  | identifier =>
    show StopsBy _ (identifier.run p)
    rw [identifier_run]
    split
    · trivial
    · exact nofun
  | integer =>
    show StopsBy _ (integer.run p)
    rw [integer_run]
    split
    · trivial
    · exact nofun
  | unary =>
    show StopsBy _ ((unaryWith expr).run p)
    rw [unaryWith_run]
    exact (expr_ends (p := p.advance) hg _).andThen fun _ _ _ => stopsBy_check (fun _ => nofun) _ _
  | group =>
    show StopsBy _ ((groupWith expr).run p)
    rw [groupWith_run]
    refine (expr_ends (p := p.advance) hg _).andThen fun _ _ _ => ?_
    split
    · trivial
    · exact nofun

theorem applyOperator_ends (left : Expr) (r : OperatorRule) :
    StopsBy (· ≠ .endless) ((applyOperator expr left r).run p) := by
  cases r with
  | binary =>
    show StopsBy _ ((binaryWith expr left).run p)
    rw [binaryWith_run]
    exact (expr_ends (p := p.advance) hg _).andThen fun _ _ _ => stopsBy_check (fun _ => nofun) _ _

/-- A statement whose token does not fit stops at once. -/
theorem binding_ends : StopsBy (· ≠ .endless) (binding.run p) := by
  by_cases hk : p.current.kind = .letWord
  · have h := statement_stopsBy hg (allows_ne_endless _)
    rwa [statement_run, hk] at h
  · rw [binding, bind_run, get_run, andThen_ok, bind_run,
      Form.check_of_not_mem (by simpa [Form.kinds] using hk)]
    exact fun h => by cases h

theorem returning_ends : StopsBy (· ≠ .endless) (returning.run p) := by
  by_cases hk : p.current.kind = .returnWord
  · have h := statement_stopsBy hg (allows_ne_endless _)
    rwa [statement_run, hk] at h
  · rw [returning, bind_run, get_run, andThen_ok, bind_run,
      Form.check_of_not_mem (by simpa [Form.kinds] using hk)]
    exact fun h => by cases h

theorem expressionStatement_ends : StopsBy (· ≠ .endless) (expressionStatement.run p) := by
  rw [expressionStatement_run]
  exact stopsBy_valueWith hg (allows_ne_endless _) _

end Ends

/-- A rule that reads on behind the last token finds it again, whatever the bound. -/
theorem exprWithin_endless {p : Parser} (hg : ¬ p.grammar.EndsAtEof) (hp : p.Aligned)
    (hk : p.current.kind = .eof) (n : Nat) (q : Precedence) :
    ∃ r, (exprWithin n q).run p = .error .endless r := by
  induction n generalizing p q with
  | zero => exact ⟨p, rfl⟩
  | succ n ih =>
    have hrule : p.grammar.operand .eof = some .unary ∨ p.grammar.operand .eof = some .group := by
      by_contra h
      rw [not_or] at h
      exact hg ⟨h.1, h.2⟩
    rw [exprWithin_run, operandWith_run, hk]
    rcases hrule with hr | hr
    · obtain ⟨r, h⟩ := ih (p := p.advance) hg hp.advance (hp.peek_of_current hk) .unary
      refine ⟨r, ?_⟩
      rw [hr]
      show Outcome.andThen ((unaryWith (exprWithin n)).run p) _ = _
      rw [unaryWith_run, h]
      rfl
    · obtain ⟨r, h⟩ := ih (p := p.advance) hg hp.advance (hp.peek_of_current hk) .lowest
      refine ⟨r, ?_⟩
      rw [hr]
      show Outcome.andThen ((groupWith (exprWithin n)).run p) _ = _
      rw [groupWith_run, h]
      rfl

end ParseM

namespace Parser

open ParseM

theorem answer_ne_endless {α : Type} {x : ParseM α} {p : Parser} {f : α → Reply}
    (h : StopsBy (· ≠ .endless) (x.run p)) (hf : ∀ a, f a ≠ .stopped .endless) :
    (p.answer x f).1 ≠ .stopped .endless := by
  rw [answer]
  cases hx : x.run p with
  | ok a q => exact hf a
  | error e q =>
    rw [hx] at h
    exact fun he => h (Reply.stopped.inj he)

/-- What follows a draft ends if it ends after every expression. -/
theorem stopsBy_after_build {p : Parser} {f : Expr → ParseM Expr}
    (h : ∀ e, StopsBy (· ≠ .endless) ((f e).run p)) (left : ExprDraft) :
    StopsBy (· ≠ .endless) ((do f (← checked left.build)).run p) := by
  rw [bind_run]
  cases left.build with
  | ok e => exact h e
  | error m => exact nofun

/-- **Every command comes to an end.** -/
theorem perform_ne_endless {p : Parser} (hg : p.grammar.EndsAtEof) (c : Command) :
    (p.perform c).1 ≠ .stopped .endless := by
  cases c with
  | look | advance | restoreGrammar | peekIs | hasOperand | hasOperator | powers | report | messages
  | diagnostics | registerOperand | registerOperator => simp [perform]
  | expect k =>
    refine answer_ne_endless ?_ fun _ => by simp
    rw [expect_run]
    split <;> trivial
  | applyOperand k =>
    rw [perform]
    cases p.grammar.operand k with
    | none => simp
    | some r => exact answer_ne_endless (applyOperand_ends hg r) fun _ => by simp
  | applyOperator k left =>
    rw [perform]
    cases p.grammar.operator k with
    | none => simp
    | some r =>
      exact answer_ne_endless (stopsBy_after_build (fun e => applyOperator_ends hg e r) left)
        fun _ => by simp
  | expr q => exact answer_ne_endless (expr_ends hg q) fun _ => by simp
  | identifier => exact answer_ne_endless (applyOperand_ends hg .identifier) fun _ => by simp
  | integer => exact answer_ne_endless (applyOperand_ends hg .integer) fun _ => by simp
  | unary => exact answer_ne_endless (applyOperand_ends hg .unary) fun _ => by simp
  | group => exact answer_ne_endless (applyOperand_ends hg .group) fun _ => by simp
  | binary left =>
    exact answer_ne_endless (stopsBy_after_build (fun e => applyOperator_ends hg e .binary) left)
      fun _ => by simp
  | statement =>
    exact answer_ne_endless (statement_stopsBy hg (allows_ne_endless _)) fun _ => by simp
  | binding => exact answer_ne_endless (binding_ends hg) fun _ => by simp
  | returning => exact answer_ne_endless (returning_ends hg) fun _ => by simp
  | expressionStatement => exact answer_ne_endless (expressionStatement_ends hg) fun _ => by simp
  | program =>
    exact answer_ne_endless
      ((program_stopsBy hg (allows_ne_endless _)).mono fun _ h => h.1) fun _ => by simp

end Parser

/-- **Reading always ends.** After any commands, as long as the grammar has no rule that reads on
behind the last token, every command comes to an end, and so does an operator after any expression.
The loop over statements reads at most one statement for each token that is left, and each nested
expression is asked for with fewer tokens left than the one around it. -/
theorem reading_ends (s : Scanner) (cs : List Command)
    (hg : ((Parser.ofScanner s).performAll cs).grammar.EndsAtEof) :
    let p := (Parser.ofScanner s).performAll cs
    (∀ c, (p.perform c).1 ≠ .stopped .endless) ∧
    (∀ left, StopsBy (· ≠ .endless) ((ParseM.binary left).run p)) ∧
    (∃ n o, n ≤ p.tokens.length ∧ ParseM.Loop p n o ∧ ParseM.program.run p =
      Outcome.andThen o fun ss q =>
        .ok ⟨ss⟩ (q.noted (.finished ss.length q.diagnostics.size))) ∧
    ∀ n q, p.unread < n → (ParseM.exprDescending n q).run p = (ParseM.expr q).run p := by
  intro p
  have hp : p.Aligned := (Parser.aligned_ofScanner s).performAll cs
  obtain ⟨n, hle, hl⟩ := ParseM.exists_loop hp
  exact ⟨Parser.perform_ne_endless hg, fun left => ParseM.applyOperator_ends hg left .binary,
    ⟨n, _, hle, hl, ParseM.program_run p⟩, fun n q hn => ParseM.exprDescending_eq hg hp hn q⟩

/-- The last token may start an expression as long as nothing is read behind it. A group that is
opened in front of it then stops the program with a misfit, which is an end, too. -/
theorem reading_ends_at_last_token :
    let cs : List Command := [.registerOperand .eof .identifier, .registerOperand .openBrace .group,
      .registerOperator .comma .call .binary, .advance]
    let p := (Parser.ofScanner (.ofString "x , 1 \x7b2) - (")).performAll cs
    p.grammar.EndsAtEof ∧ (p.perform .program).1 = .stopped (.misfit ⟨.identifier, .eof⟩) ∧
      (p.perform .group).1 ≠ .stopped .endless ∧ ∃ n o, n ≤ p.tokens.length ∧ ParseM.Loop p n o := by
  intro cs p
  have hg : p.grammar.EndsAtEof := ⟨by decide +kernel, by decide +kernel⟩
  obtain ⟨hends, -, ⟨n, o, hle, hl, -⟩, -⟩ := reading_ends (.ofString "x , 1 \x7b2) - (") cs hg
  exact ⟨hg, by decide +kernel, hends .group, n, o, hle, hl⟩

end Frontend
