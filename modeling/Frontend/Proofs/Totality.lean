import Frontend.Parser.Session
import Frontend.Proofs.Turns

/-!
# Readings that do not stop early

A rule that is applied to a token which its node does not admit stops the reading, and so does a rule
that reads on for ever behind the last token. Neither happens if every rule suits the kinds that it
is registered for.

* `StopsBy`, `Grammar.Allows`: the reasons for which a reading may stop in a grammar;
* **`ParseM.expr_stopsBy`**, **`ParseM.segment_stopsBy`**, **`ParseM.program_stopsBy`**: no other
  reason stops expressions, turns of the loop over statements, and programs;
* **`ParseM.exists_turns_of_allows`**: the loop over statements gets to the last token;
* `OperandRule.Suits`, `Command.IsFitting`, `Grammar.IsFitting`: rules registered for fitting kinds;
* **`program_completes`**: with such rules every source is read to its end.
-/

namespace Frontend

/-- The computation yields a result, or it stops for a reason in `E`. -/
def StopsBy {α : Type} (E : Stop → Prop) : Outcome α → Prop
  | .ok _ _ => True
  | .error e _ => E e

theorem StopsBy.andThen {α β : Type} {E : Stop → Prop} {o : Outcome α}
    {f : α → Parser → Outcome β} (h : StopsBy E o)
    (hf : ∀ a r, o = .ok a r → StopsBy E (f a r)) : StopsBy E (o.andThen f) := by
  cases o with
  | ok a r => exact hf a r rfl
  | error e r => exact h

theorem StopsBy.mono {α : Type} {E F : Stop → Prop} {o : Outcome α} (h : StopsBy E o)
    (hEF : ∀ e, E e → F e) : StopsBy F o := by
  cases o with
  | ok a r => trivial
  | error e r => exact hEF e h

/-- The form of the node that a rule builds at the token that it is applied to, if it builds one. -/
def OperandRule.form? : OperandRule → Option Form
  | .identifier => some .identifier
  | .integer => some .integer
  | .unary => some .unary
  | .group => none

/-- Every misfit that the rules of the grammar can lead to is a reason in `E`, and so is a source
that is wrong. -/
structure Grammar.Allows (g : Grammar) (E : Stop → Prop) : Prop where
  absent : E .absent
  operand : ∀ t r f, g.operand t.kind = some r → r.form? = some f → t.kind ∉ f.kinds →
    E (.misfit ⟨f, t⟩)
  operator : ∀ t r, g.operator t.kind = some r → t.kind ∉ Form.binary.kinds →
    E (.misfit ⟨.binary, t⟩)

namespace ParseM

open Frontend.Parser

variable {E : Stop → Prop}

/-! ## Expressions -/

/-- A node can only stop the reading with its own misfit. -/
theorem stopsBy_check {α : Type} {f : Form} {t : Token} (h : t.kind ∉ f.kinds → E (.misfit ⟨f, t⟩))
    (a : α) (p : Parser) : StopsBy E ((checked (do f.check t; return a)).run p) := by
  by_cases hk : t.kind ∈ f.kinds
  · rw [Form.check_of_mem hk]
    trivial
  · rw [Form.check_of_not_mem hk]
    exact h hk

theorem operand_stopsBy {p : Parser} (hg : p.grammar.EndsAtEof) (hE : p.grammar.Allows E)
    (ih : ∀ c r, p.Later r → StopsBy E ((expr c).run r)) : StopsBy E (operand.run p) := by
  rw [operand, operandWith_run]
  cases hr : p.grammar.operand p.current.kind with
  | none => exact hE.absent
  | some rule =>
    have hm := hE.operand p.current rule
    cases rule with
    | identifier =>
      show StopsBy E (identifier.run p)
      rw [identifier_run]
      split
      · trivial
      · next hk => exact hm _ hr rfl (by simpa [Form.kinds] using hk)
    | integer =>
      show StopsBy E (integer.run p)
      rw [integer_run]
      split
      · trivial
      · next hk => exact hm _ hr rfl (by simpa [Form.kinds] using hk)
    | unary =>
      have hne : p.current.kind ≠ .eof := fun e => hg.unary (e ▸ hr)
      show StopsBy E ((unaryWith expr).run p)
      rw [unaryWith_run]
      exact (ih _ p.advance (later_advance hne)).andThen fun right r _ =>
        stopsBy_check (hm _ hr rfl) _ r
    | group =>
      have hne : p.current.kind ≠ .eof := fun e => hg.group (e ▸ hr)
      show StopsBy E ((groupWith expr).run p)
      rw [groupWith_run]
      refine (ih _ p.advance (later_advance hne)).andThen fun e r _ => ?_
      split
      · trivial
      · exact hE.absent

theorem tail_stopsBy {p : Parser} (hE : p.grammar.Allows E) (q : Precedence) (left : Expr)
    (ih : ∀ c r, p.Later r → StopsBy E ((expr c).run r))
    (hrest : ∀ left' r, Applies q left p left' r → StopsBy E ((tail q left').run r)) :
    StopsBy E ((tail q left).run p) := by
  rw [tail_eq]
  split
  · next hc =>
    cases hr : p.grammar.operator p.peek.kind with
    | none => trivial
    | some rule =>
      cases rule with
      | binary =>
        have ho : StopsBy E ((applyOperator expr left .binary).run p.advance) := by
          show StopsBy E ((binaryWith expr left).run p.advance)
          rw [binaryWith_run]
          exact (ih _ p.advance.advance (later_of_continues hc)).andThen fun right r _ =>
            stopsBy_check (hE.operator p.peek _ hr) _ r
        exact ho.andThen fun left' r hrun => hrest left' r ⟨hc, _, hr, hrun⟩
  · trivial

/-- **An expression stops for no other reason.** -/
theorem expr_stopsBy {p : Parser} (hg : p.grammar.EndsAtEof) (hE : p.grammar.Allows E)
    (q : Precedence) : StopsBy E ((expr q).run p) := by
  refine expr_induction (P := fun c r => StopsBy E ((expr c).run r))
    (Q := fun c left r => StopsBy E ((tail c left).run r))
    (fun c left r hgr => tail_stopsBy (hgr ▸ hE) c left) (fun c r hgr ih htail => ?_) q rfl
  rw [expr_eq (hgr ▸ hg)]
  exact (operand_stopsBy (hgr ▸ hg) (hgr ▸ hE) ih).andThen htail

/-! ## Statements -/

/-- A part that may be absent is no reason to stop. -/
theorem stopsBy_optional {α : Type} {x : ParseM α} {p : Parser} (h : StopsBy E (x.run p)) :
    StopsBy (fun e => E e ∧ e ≠ .absent) ((optional x).run p) := by
  rw [optional_run]
  cases hx : x.run p with
  | ok a r => trivial
  | error e r =>
    rw [hx] at h
    cases e with
    | absent => trivial
    | misfit m => exact ⟨h, nofun⟩
    | endless => exact ⟨h, nofun⟩

theorem stopsBy_valueWith {p : Parser} (hg : p.grammar.EndsAtEof) (hE : p.grammar.Allows E)
    (f : Option Expr → Statement) : StopsBy E ((valueWith f).run p) := by
  have h := stopsBy_optional (expr_stopsBy hg hE .lowest)
  rw [valueWith, bind_run]
  refine StopsBy.andThen (h.mono fun _ he => he.1) fun value r _ => ?_
  rw [bind_run, skipSemicolon_run]
  trivial

theorem statement_stopsBy {p : Parser} (hg : p.grammar.EndsAtEof) (hE : p.grammar.Allows E) :
    StopsBy E (statement.run p) := by
  rw [statement_run]
  split
  · next hk =>
    rw [binding_run hk]
    split
    · split
      · have hgr : p.advance.advance.advance.grammar = p.grammar := by simp only [advance_grammar]
        exact stopsBy_valueWith (hgr.symm ▸ hg) (hgr.symm ▸ hE) _
      · exact hE.absent
    · exact hE.absent
  · next hk =>
    rw [returning_run hk]
    exact stopsBy_valueWith (p.advance_grammar.symm ▸ hg) (p.advance_grammar.symm ▸ hE) _
  · rw [expressionStatement_run]
    exact stopsBy_valueWith hg hE _

/-! ## The loop over statements -/

/-- **A turn of the loop stops for no other reason, and never because the source is wrong.** -/
theorem segment_stopsBy {p : Parser} (hg : p.grammar.EndsAtEof) (hE : p.grammar.Allows E) :
    StopsBy (fun e => E e ∧ e ≠ .absent) (segment.run p) := by
  rw [segment_run]
  exact (stopsBy_optional (statement_stopsBy hg hE)).andThen fun _ _ _ => trivial

/-- **A program stops for no other reason, and never because the source is wrong.** -/
theorem program_stopsBy {p : Parser} (hg : p.grammar.EndsAtEof) (hE : p.grammar.Allows E) :
    StopsBy (fun e => E e ∧ e ≠ .absent) (program.run p) := by
  obtain ⟨n, ss, r, h, he | ⟨hne, e, q, hs⟩⟩ := exists_turns p
  · rw [h.program_run he]
    trivial
  · have hstop := segment_stopsBy (h.grammar_eq.symm ▸ hg) (h.grammar_eq.symm ▸ hE)
    rw [hs] at hstop
    rw [program_run, h.statements_of_error hne hs]
    exact hstop

/-- If nothing but a wrong source can stop an expression, the loop takes its turns up to the last
token. -/
theorem exists_turns_of_allows {p : Parser} (hg : p.grammar.EndsAtEof)
    (hE : p.grammar.Allows (· = .absent)) :
    ∃ n ss r, Turns p n ss r ∧ r.current.kind = .eof := by
  obtain ⟨n, ss, r, h, he | ⟨-, e, q, hs⟩⟩ := exists_turns p
  · exact ⟨n, ss, r, h, he⟩
  · have hstop := segment_stopsBy (h.grammar_eq.symm ▸ hg) (h.grammar_eq.symm ▸ hE)
    rw [hs] at hstop
    exact absurd hstop.1 hstop.2

end ParseM

/-! ## Rules for fitting kinds -/

/-- The rule may be registered for the kind: the node that it builds admits the kind, and no group is
opened by the last token. -/
def OperandRule.Suits : OperandRule → Kind → Prop
  | .identifier, k => k = .identifier
  | .integer, k => k = .integer
  | .unary, k => k ∈ unaryOperators
  | .group, k => k ≠ .eof

instance (r : OperandRule) (k : Kind) : Decidable (r.Suits k) := by
  cases r <;> unfold OperandRule.Suits <;> infer_instance

/-- The command registers rules, and only for kinds that they suit. -/
def Command.IsFitting : Command → Prop
  | .restoreGrammar => True
  | .registerOperand k r => r.Suits k
  | .registerOperator k _ _ => k ∈ binaryOperators
  | _ => False

instance : DecidablePred Command.IsFitting := fun c => by
  cases c <;> unfold Command.IsFitting <;> infer_instance

namespace Grammar

/-- Every rule suits the kinds that it is registered for. -/
structure IsFitting (g : Grammar) : Prop where
  operand : ∀ k r, g.operand k = some r → r.Suits k
  operator : ∀ k r, g.operator k = some r → k ∈ binaryOperators

variable {g : Grammar}

theorem IsFitting.withOperand (h : g.IsFitting) {k : Kind} {r : OperandRule} (hk : r.Suits k) :
    (g.withOperand k r).IsFitting where
  operand l r' hl := by
    by_cases hlk : l = k
    · subst hlk
      obtain rfl : r = r' := by simpa [Grammar.withOperand] using hl
      exact hk
    · exact h.operand l r' (by simpa [Grammar.withOperand, hlk] using hl)
  operator := h.operator

theorem IsFitting.withOperator (h : g.IsFitting) {k : Kind} (hk : k ∈ binaryOperators)
    (q : Precedence) (r : OperatorRule) : (g.withOperator k q r).IsFitting where
  operand := h.operand
  operator l r' hl := by
    by_cases hlk : l = k
    · exact hlk ▸ hk
    · exact h.operator l r' (by simpa [Grammar.withOperator, hlk] using hl)

theorem IsFitting.withOperands (h : g.IsFitting) {es : List (Kind × OperandRule)}
    (hes : ∀ e ∈ es, e.2.Suits e.1) :
    (es.foldl (fun g e => g.withOperand e.1 e.2) g).IsFitting := by
  induction es generalizing g with
  | nil => exact h
  | cons e es ih =>
    obtain ⟨he, hes⟩ := List.forall_mem_cons.mp hes
    exact ih (h.withOperand he) hes

theorem IsFitting.withPowers (h : g.IsFitting) {rs : List (Kind × Precedence)}
    (hrs : ∀ r ∈ rs, r.1 ∈ binaryOperators) : (g.withPowers rs).IsFitting := by
  induction rs generalizing g with
  | nil => exact h
  | cons r rs ih =>
    obtain ⟨hr, hrs⟩ := List.forall_mem_cons.mp hrs
    exact ih (h.withOperator hr _ _) hrs

theorem IsFitting.withStandard (h : g.IsFitting) : g.withStandard.IsFitting := by
  have hpowers : (g.withPowers standardOperators).IsFitting := h.withPowers (by decide)
  exact hpowers.withOperands (by decide)

theorem isFitting_standard : standard.IsFitting :=
  IsFitting.withStandard ⟨nofun, nofun⟩

theorem IsFitting.endsAtEof (h : g.IsFitting) : g.EndsAtEof where
  unary hr := absurd (h.operand _ _ hr) (by decide)
  group hr := absurd (h.operand _ _ hr) (by decide)

/-- With fitting rules only a wrong source is a reason to stop. -/
theorem IsFitting.allows (h : g.IsFitting) : g.Allows (· = .absent) where
  absent := rfl
  operand t r f hr hf hk := by
    have hs := h.operand _ _ hr
    refine absurd ?_ hk
    cases r with
    | identifier => cases hf; exact List.mem_singleton.mpr hs
    | integer => cases hf; exact List.mem_singleton.mpr hs
    | unary => cases hf; exact hs
    | group => cases hf
  operator t r hr hk := absurd (h.operator _ _ hr) hk

end Grammar

namespace Parser

theorem perform_isFitting {p : Parser} (hp : p.grammar.IsFitting) {c : Command}
    (hc : c.IsFitting) : (p.perform c).2.grammar.IsFitting := by
  cases c with
  | restoreGrammar => exact hp.withStandard
  | registerOperand k r => exact hp.withOperand hc
  | registerOperator k q r => exact hp.withOperator hc q r
  | _ => exact hc.elim

theorem performAll_isFitting {p : Parser} (hp : p.grammar.IsFitting) {cs : List Command}
    (hcs : ∀ c ∈ cs, c.IsFitting) : (p.performAll cs).grammar.IsFitting := by
  induction cs generalizing p with
  | nil => exact hp
  | cons c cs ih =>
    obtain ⟨hc, hcs⟩ := List.forall_mem_cons.mp hcs
    exact ih (perform_isFitting hp hc) hcs

end Parser

/-- **Every source is read to its end.** Whatever rules are registered in a new parser, as long as
each suits its kind, the program is read without applying a rule to a token that its node does not
admit, and without reading on for ever. -/
theorem program_completes (s : Scanner) (cs : List Command) (h : ∀ c ∈ cs, c.IsFitting) :
    ∃ program q, ((Parser.ofScanner s).performAll cs).perform .program =
      (.program program, q) := by
  have hg : ((Parser.ofScanner s).performAll cs).grammar.IsFitting :=
    Parser.performAll_isFitting Grammar.isFitting_standard h
  have hstop := ParseM.program_stopsBy hg.endsAtEof hg.allows
  rw [Parser.perform, Parser.answer]
  cases hrun : ParseM.program.run ((Parser.ofScanner s).performAll cs) with
  | ok program q => exact ⟨program, q, rfl⟩
  | error e q =>
    rw [hrun] at hstop
    exact absurd hstop.1 hstop.2

/-- With braces for parentheses and an operator that binds tighter than every sign, a source with
several faults is read to its end. -/
theorem program_completes_with_braces :
    let cs : List Command := [.registerOperand .openBrace .group, .restoreGrammar,
      .registerOperator .less .call .binary]
    let p := (Parser.ofScanner (.ofString "-1 < \x7ba) let x = @ return (")).performAll cs
    (∀ c ∈ cs, c.IsFitting) ∧ ∃ program q, p.perform .program = (.program program, q) ∧
      program.render = "(-(1 < a))let x = ;return ;" := by
  intro cs p
  have h : ∀ c ∈ cs, c.IsFitting := by decide
  obtain ⟨program, q, hrun⟩ := program_completes (.ofString "-1 < \x7ba) let x = @ return (") cs h
  have hrender : (match (p.perform .program).1 with
      | .program program => program.render
      | _ => "") = "(-(1 < a))let x = ;return ;" := by decide +kernel
  rw [hrun] at hrender
  exact ⟨h, program, q, hrun, hrender⟩

end Frontend
