import Frontend.Proofs.Layout
import Frontend.Proofs.Totality
import Mathlib.Algebra.BigOperators.Group.Finset.Basic
import Mathlib.Order.Monotone.Basic

/-!
# The window moves along the source

Whatever a parser is asked to do, and wherever that stops, its window stands on two neighbouring
tokens of the source, and never moves back.

* `tokenAt`: the tokens of a source, of which the last one is repeated for ever;
* `Scanner.behind`, **`Scanner.tokenAt_eq`**: the scanner one token further on finds them in order;
* `Parser.StandsAt`: the window with its place in the source;
* `Parser.Precedes`, `ParseM.Proceeds`: what readings do to a parser;
* `Command.Registers`: the commands that change the grammar;
* **`Parser.perform_cases`**: a command proceeds, or changes the grammar and nothing else;
* `ParseM.parser_applyOperator`, `Parser.exists_perform_binary`: it makes no difference to the parser
  which expression an operator comes after;
* **`window_moves_along_source`**: the window, the diagnostics and the grammar during a session.
-/

namespace Frontend

open Function

/-- The token of a source at place `k`, counted from zero. Behind the last token it comes again. -/
def tokenAt (source : String) (k : Nat) : Token := (tokenize source)[k]?.getD .eof

namespace Scanner

/-- The scanner one token further on. -/
def behind (s : Scanner) : Scanner := s.next.2

theorem next_eq_eof {s : Scanner} (h : s.next.1.kind = .eof) : s.next.1 = .eof := by
  unfold next at h ⊢
  dsimp only at h ⊢
  split
  · rfl
  · next c cs hr =>
    rw [hr] at h
    exact absurd h (Token.atHead_kind_ne_eof c cs)

theorem drain_behind_of_eof {s : Scanner} (h : s.next.1.kind = .eof) : s.behind.drain.1 = [] :=
  drain_eq_iff.mpr (by rw [behind, s.next_rest_of_eof h]; exact .nil rfl)

/-- Draining meets the tokens in the order in which the scanner finds them. -/
theorem getD_drain (s : Scanner) (k : Nat) :
    s.drain.1[k]?.getD .eof = (behind^[k] s).next.1 := by
  induction k generalizing s with
  | zero =>
    by_cases h : s.next.1.kind = .eof
    · simp [drain_of_eof h, next_eq_eof h]
    · simp [drain_of_ne_eof h]
  | succ k ih =>
    rw [iterate_succ_apply, ← ih]
    by_cases h : s.next.1.kind = .eof
    · simp [drain_of_eof h, drain_behind_of_eof h]
    · simp [drain_of_ne_eof h, behind]

theorem tokenAt_eq (source : String) (k : Nat) :
    tokenAt source k = (behind^[k] (ofString source)).next.1 := by
  rw [tokenAt, tokenize, ← getD_drain, List.getElem?_append]
  split
  · rfl
  · next h =>
    have hn : (ofString source).drain.1[k]? = none := List.getElem?_eq_none (by omega)
    rw [hn]
    cases k - (ofString source).drain.1.length <;> simp

end Scanner

namespace Parser

open Scanner

/-! ## Places in the source -/

/-- The window stands on the tokens at the places `k` and `k + 1`, and the scanner behind them. -/
structure StandsAt (p : Parser) (source : String) (k : Nat) : Prop where
  current_eq : p.current = tokenAt source k
  peek_eq : p.peek = tokenAt source (k + 1)
  scanner_eq : p.scanner = behind^[k + 2] (.ofString source)

theorem window_iterate_advance (s : Scanner) (k : Nat) : (advance^[k] (ofScanner s)).window =
    (behind^[k + 2] s, (behind^[k] s).next.1, (behind^[k + 1] s).next.1) := by
  induction k with
  | zero => rfl
  | succ k ih =>
    simp only [window, Prod.mk.injEq] at ih
    rw [iterate_succ_apply', iterate_succ_apply' _ (k + 2)]
    simp only [window, advance, ih, behind]

theorem standsAt_of_window {p : Parser} {source : String} {k : Nat}
    (h : p.window = (advance^[k] (ofString source)).window) : p.StandsAt source k := by
  rw [ofString, window_iterate_advance] at h
  simp only [window, Prod.mk.injEq] at h
  exact ⟨h.2.1.trans (tokenAt_eq ..).symm, h.2.2.trans (tokenAt_eq ..).symm, h.1⟩

/-! ## What readings do to a parser -/

/-- The parser `q` comes behind `p` in a reading: its window is further on, and it has recorded
more. -/
structure Precedes (p q : Parser) : Prop where
  window_eq : ∃ n, q.window = (advance^[n] p).window
  grammar_eq : q.grammar = p.grammar
  diagnostics_prefix : p.diagnostics.toList <+: q.diagnostics.toList

variable {p q r : Parser}

theorem Precedes.refl (p : Parser) : p.Precedes p := ⟨⟨0, rfl⟩, rfl, List.prefix_rfl⟩

theorem Precedes.trans (h₁ : p.Precedes q) (h₂ : q.Precedes r) : p.Precedes r where
  window_eq := by
    obtain ⟨m, hm⟩ := h₁.window_eq
    obtain ⟨n, hn⟩ := h₂.window_eq
    refine ⟨n + m, ?_⟩
    rw [hn, iterate_add_apply]
    exact iterate_advance_window hm n
  grammar_eq := h₂.grammar_eq.trans h₁.grammar_eq
  diagnostics_prefix := h₁.diagnostics_prefix.trans h₂.diagnostics_prefix

theorem precedes_advance (p : Parser) : p.Precedes p.advance := ⟨⟨1, rfl⟩, rfl, List.prefix_rfl⟩

theorem precedes_noted (p : Parser) (e : Event) : p.Precedes (p.noted e) :=
  ⟨⟨0, rfl⟩, rfl, List.prefix_rfl⟩

theorem precedes_report (p : Parser) (d : Diagnostic) : p.Precedes (p.report d) :=
  ⟨⟨0, rfl⟩, rfl, by simp⟩

theorem Reaches.precedes (h : p.Reaches q) : p.Precedes q := by
  induction h with
  | refl => exact .refl _
  | @advance q _ ih => exact ih.trans q.precedes_advance
  | @report q d _ ih => exact ih.trans (q.precedes_report d)

/-! ## What is left of the source -/

theorem Aligned.iterate_advance (hp : p.Aligned) (n : Nat) : (Parser.advance^[n] p).Aligned := by
  induction n with
  | zero => exact hp
  | succ n ih =>
    rw [iterate_succ_apply']
    exact ih.advance

theorem Aligned.of_window (hp : p.Aligned) {n : Nat} (h : q.window = (Parser.advance^[n] p).window) :
    q.Aligned := by
  have ha := hp.iterate_advance n
  simp only [window, Prod.mk.injEq] at h
  obtain ⟨hs, hc, hk⟩ := h
  exact ⟨hc ▸ hk ▸ ha.peek_of_current, hk ▸ hs ▸ ha.rest_of_peek⟩

theorem Aligned.tokens_iterate_advance (hp : p.Aligned) (n : Nat) :
    (Parser.advance^[n] p).tokens = p.tokens.drop n := by
  induction n generalizing p with
  | zero => rfl
  | succ n ih =>
    rw [iterate_succ_apply, ih hp.advance]
    by_cases hk : p.current.kind = .eof
    · simp [tokens_of_eof hk, hp.tokens_advance hk]
    · simp [tokens_of_ne_eof hk]

/-- The tokens that are left further on are the last ones of those that were left. -/
theorem Precedes.tokens_suffix (h : p.Precedes q) (hp : p.Aligned) : q.tokens <:+ p.tokens := by
  obtain ⟨n, hn⟩ := h.window_eq
  rw [tokens_congr hn, hp.tokens_iterate_advance]
  exact List.drop_suffix n p.tokens

theorem Later.tokens_length_lt (h : p.Later q) (hp : p.Aligned) :
    q.tokens.length < p.tokens.length := by
  obtain ⟨r, hr, hk, rfl⟩ := h
  have hle := (hr.precedes.tokens_suffix hp).length_le
  rw [tokens_of_ne_eof hk, List.length_cons] at hle
  exact hle

end Parser

namespace ParseM

/-- A computation at whose end, however it ends, the parser is further on. -/
def Proceeds {α : Type} (x : ParseM α) : Prop :=
  ∀ p : Parser, p.Precedes (Outcome.parser (x.run p))

theorem Moves.proceeds {α : Type} {x : ParseM α} (h : Moves x) : Proceeds x := fun p => (h p).precedes

theorem proceeds_andThen {α β : Type} {p : Parser} {o : Outcome α} {f : α → Parser → Outcome β}
    (ho : p.Precedes o.parser) (hf : ∀ a (q : Parser), q.Precedes (Outcome.parser (f a q))) :
    p.Precedes (Outcome.parser (o.andThen f)) := by
  cases o with
  | ok a q => exact ho.trans (hf a q)
  | error e q => exact ho

theorem precedes_turned (s? : Option Statement) (p : Parser) : p.Precedes (turned s? p) := by
  cases s? with
  | none => exact p.precedes_advance
  | some s => exact (p.precedes_noted _).trans (p.noted _).precedes_advance

theorem proceeds_segment : Proceeds segment := by
  intro p
  rw [segment_run]
  exact proceeds_andThen ((moves_optional moves_statement).proceeds p) precedes_turned

theorem Turns.precedes {p r : Parser} {n : Nat} {ss : List Statement} (h : Turns p n ss r) :
    p.Precedes r := by
  induction h with
  | zero p => exact .refl p
  | @succ p q r n s? ss _ hs _ ih =>
    have hpq := proceeds_segment p
    rw [hs] at hpq
    exact hpq.trans ih

theorem proceeds_program : Proceeds program := by
  intro p
  obtain ⟨n, ss, r, h, he | ⟨hne, e, q, hs⟩⟩ := exists_turns p
  · rw [h.program_run he]
    exact h.precedes.trans (r.precedes_noted _)
  · have hrq := proceeds_segment r
    rw [hs] at hrq
    rw [program_run, h.statements_of_error hne hs]
    exact h.precedes.trans hrq

/-! ## Operators after any expression -/

theorem parser_andThen_checked {α β : Type} (o : Outcome α) (f : α → Except Misfit β) :
    Outcome.parser (Outcome.andThen o fun a q => (checked (f a)).run q) = o.parser := by
  cases o with
  | error e q => rfl
  | ok a q =>
    rw [andThen_ok]
    cases f a <;> rfl

/-- An operator leaves the parser where its operand ends, whatever it comes after. -/
theorem parser_applyOperator (left : Expr) (r : OperatorRule) (p : Parser) :
    Outcome.parser ((applyOperator expr left r).run p) =
      Outcome.parser ((expr p.currentPower).run p.advance) := by
  cases r with
  | binary =>
    show Outcome.parser ((binaryWith expr left).run p) = _
    rw [binaryWith_run]
    exact parser_andThen_checked _ _

end ParseM

/-! ## Commands -/

/-- The commands that change the grammar. -/
def Command.Registers : Command → Prop
  | .restoreGrammar => True
  | .registerOperand _ _ => True
  | .registerOperator _ _ _ => True
  | _ => False

instance : DecidablePred Command.Registers
  | .restoreGrammar | .registerOperand _ _ | .registerOperator _ _ _ => .isTrue trivial
  | .look | .advance | .peekIs _ | .expect _ | .hasOperand _ | .hasOperator _ | .powers
  | .report _ | .messages | .diagnostics | .applyOperand _ | .applyOperator _ _ | .expr _
  | .identifier | .integer | .unary | .group | .binary _ | .statement | .binding | .returning
  | .expressionStatement | .program => .isFalse id

namespace Parser

open ParseM

variable {p : Parser}

theorem answer_snd {α : Type} (p : Parser) (x : ParseM α) (f : α → Reply) :
    (p.answer x f).2 = Outcome.parser (x.run p) := by
  rw [answer]
  cases x.run p <;> rfl

theorem precedes_answer {α : Type} {x : ParseM α} (h : Proceeds x) (p : Parser) (f : α → Reply) :
    p.Precedes (p.answer x f).2 := by
  rw [answer_snd]
  exact h p

/-- **A command proceeds, or it changes the grammar and nothing else.** -/
theorem perform_cases (p : Parser) (c : Command) :
    (c.Registers ∧ ∃ g, (p.perform c).2 = { p with grammar := g }) ∨
      p.Precedes (p.perform c).2 := by
  cases c with
  | restoreGrammar | registerOperand | registerOperator => exact .inl ⟨trivial, _, rfl⟩
  | look | peekIs | hasOperand | hasOperator | powers | messages | diagnostics =>
    exact .inr (.refl p)
  | advance => exact .inr p.precedes_advance
  | report d => exact .inr (p.precedes_report d)
  | expect k => exact .inr (precedes_answer (moves_expect k).proceeds p _)
  | applyOperand k =>
    rw [perform]
    cases p.grammar.operand k with
    | none => exact .inr (.refl p)
    | some r => exact .inr (precedes_answer (moves_applyOperand moves_expr r).proceeds p _)
  | applyOperator k left =>
    rw [perform]
    cases p.grammar.operator k with
    | none => exact .inr (.refl p)
    | some r =>
      have h : Moves (do applyOperator expr (← checked left.build) r) :=
        (moves_checked _).bind fun e => moves_applyOperator moves_expr e r
      exact .inr (precedes_answer h.proceeds p _)
  | expr q => exact .inr (precedes_answer (moves_expr q).proceeds p _)
  | identifier => exact .inr (precedes_answer moves_identifier.proceeds p _)
  | integer => exact .inr (precedes_answer moves_integer.proceeds p _)
  | unary => exact .inr (precedes_answer (moves_applyOperand moves_expr .unary).proceeds p _)
  | group => exact .inr (precedes_answer (moves_applyOperand moves_expr .group).proceeds p _)
  | binary left =>
    have h : Moves (do binary (← checked left.build)) :=
      (moves_checked _).bind fun e => moves_applyOperator moves_expr e .binary
    exact .inr (precedes_answer h.proceeds p _)
  | statement => exact .inr (precedes_answer moves_statement.proceeds p _)
  | binding => exact .inr (precedes_answer moves_binding.proceeds p _)
  | returning => exact .inr (precedes_answer moves_returning.proceeds p _)
  | expressionStatement => exact .inr (precedes_answer moves_expressionStatement.proceeds p _)
  | program => exact .inr (precedes_answer proceeds_program p _)

/-- **An operator after any expression leaves the parser as a command does.** -/
theorem exists_perform_binary (p : Parser) (left : Expr) (r : OperatorRule) :
    ∃ d, (p.perform (.binary d)).2 = Outcome.parser ((applyOperator expr left r).run p) := by
  -- any draft that builds will do, as the parser does not depend on the expression
  refine ⟨.identifier ⟨⟨.identifier, "a"⟩, none⟩, ?_⟩
  rw [perform, answer_snd, parser_applyOperator left r p]
  exact parser_applyOperator (.identifier ⟨⟨.identifier, "a"⟩, "a"⟩) .binary p

theorem exists_window_perform (p : Parser) (c : Command) :
    ∃ n, (p.perform c).2.window = (advance^[n] p).window := by
  rcases p.perform_cases c with ⟨-, g, h⟩ | h
  · exact ⟨0, by rw [h]; rfl⟩
  · exact h.window_eq

theorem Aligned.performAll (hp : p.Aligned) (cs : List Command) : (p.performAll cs).Aligned := by
  induction cs generalizing p with
  | nil => exact hp
  | cons c cs ih =>
    obtain ⟨n, hn⟩ := p.exists_window_perform c
    exact ih (hp.of_window hn)

theorem diagnostics_prefix_perform (p : Parser) (c : Command) :
    p.diagnostics.toList <+: (p.perform c).2.diagnostics.toList := by
  rcases p.perform_cases c with ⟨-, g, h⟩ | h
  · rw [h]
  · exact h.diagnostics_prefix

theorem grammar_perform (p : Parser) {c : Command} (hc : ¬ c.Registers) :
    (p.perform c).2.grammar = p.grammar := by
  rcases p.perform_cases c with ⟨h, -⟩ | h
  · exact absurd h hc
  · exact h.grammar_eq

theorem performAll_take_succ (p : Parser) (cs : List Command) (i : Nat) :
    p.performAll (cs.take (i + 1)) =
      cs[i]?.elim (p.performAll (cs.take i)) fun c => ((p.performAll (cs.take i)).perform c).2 := by
  rw [performAll, List.take_add_one, List.foldl_append]
  cases cs[i]? <;> rfl

end Parser

/-- **The window moves along the source.** In a session of any commands, those that stop early
included, the window always stands on two neighbouring tokens of the source, and never moves back.
Diagnostics are only added, and only registrations change the grammar. All of this holds of an operator
that is applied after any expression, too. It leaves the parser as some command does. -/
theorem window_moves_along_source (source : String) (cs : List Command) :
    let p i := (Parser.ofString source).performAll (cs.take i)
    ∃ k : Nat → Nat, k 0 = 0 ∧ Monotone k ∧ (∀ i, (p i).StandsAt source (k i)) ∧
      (∀ i, (p i).diagnostics.toList <+: (p (i + 1)).diagnostics.toList) ∧
      (∀ i, (∀ c ∈ cs[i]?, ¬ c.Registers) → (p (i + 1)).grammar = (p i).grammar) ∧
      ∀ i left rule,
        let q := Outcome.parser ((ParseM.applyOperator ParseM.expr left rule).run (p i))
        (∃ l, k i ≤ l ∧ q.StandsAt source l) ∧
          (p i).diagnostics.toList <+: q.diagnostics.toList ∧ q.grammar = (p i).grammar ∧
          ∃ d, ((p i).perform (.binary d)).2 = q := by
  intro p
  have hstep i : p (i + 1) = cs[i]?.elim (p i) fun c => ((p i).perform c).2 :=
    Parser.performAll_take_succ _ cs i
  have hmove i : ∃ n, (p (i + 1)).window = (Parser.advance^[n] (p i)).window := by
    rw [hstep]
    cases cs[i]? with
    | none => exact ⟨0, rfl⟩
    | some c => exact (p i).exists_window_perform c
  choose n hn using hmove
  -- the place after some commands is the number of advances that they made
  have hplace i : (p i).window =
      (Parser.advance^[∑ j ∈ Finset.range i, n j] (Parser.ofString source)).window := by
    induction i with
    | zero => rfl
    | succ i ih =>
      rw [hn, Finset.sum_range_succ, Nat.add_comm, iterate_add_apply]
      exact Parser.iterate_advance_window ih _
  refine ⟨fun i => ∑ j ∈ Finset.range i, n j, rfl, monotone_nat_of_le_succ fun i => ?_,
    fun i => Parser.standsAt_of_window (hplace i), fun i => ?_, fun i hi => ?_,
    fun i left rule => ?_⟩
  · rw [Finset.sum_range_succ]
    exact Nat.le_add_right _ _
  · rw [hstep]
    cases cs[i]? with
    | none => exact List.prefix_rfl
    | some c => exact (p i).diagnostics_prefix_perform c
  · rw [hstep]
    cases hc : cs[i]? with
    | none => rfl
    | some c => exact (p i).grammar_perform (hi c hc)
  · have h := (ParseM.moves_applyOperator ParseM.moves_expr left rule).proceeds (p i)
    obtain ⟨m, hm⟩ := h.window_eq
    refine ⟨⟨_, Nat.le_add_left _ m, Parser.standsAt_of_window ?_⟩, h.diagnostics_prefix,
      h.grammar_eq, (p i).exists_perform_binary left rule⟩
    rw [hm, iterate_add_apply]
    exact Parser.iterate_advance_window (hplace i) m

end Frontend
