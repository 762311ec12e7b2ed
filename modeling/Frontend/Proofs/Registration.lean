import Frontend.Proofs.Locality

/-!
# Registrations are independent

What a grammar has for kinds that do not occur in a source has no influence on its reading, and
neither has what it has for a semicolon or for the last token behind an expression.

* `mem_tokenize_tokenAt`, `Parser.StandsAt.resembles`: all tokens ahead are tokens of the source;
* `Command.IsIdle`: registrations that say nothing about the tokens of a source;
* `Parser.perform_of_isIdle`, `Parser.performAll_of_isIdle`: what they leave as it is;
* **`Parser.perform_program_of_agreeAt`**, **`registrations_are_independent`**: two parsers at one
  place of a source, whose grammars treat its tokens alike.
-/

namespace Frontend

theorem mem_tokenize_tokenAt (source : String) (k : Nat) : tokenAt source k ∈ tokenize source := by
  rw [tokenAt]
  cases h : (tokenize source)[k]? with
  | none => simp [tokenize]
  | some t => exact List.mem_of_getElem? h

namespace Grammar

variable {g g₁ g₂ : Grammar} {k : Kind}

theorem AgreeAt.trans (h₁ : g.AgreeAt g₁ k) (h₂ : g₁.AgreeAt g₂ k) : g.AgreeAt g₂ k where
  operand_eq := h₂.operand_eq.trans h₁.operand_eq
  operator_eq hk := (h₂.operator_eq hk).trans (h₁.operator_eq hk)
  power_eq hk := (h₂.power_eq hk).trans (h₁.power_eq hk)

theorem agreeAt_withOperand {l : Kind} (hk : k ≠ l) (r : OperandRule) :
    g.AgreeAt (g.withOperand l r) k :=
  ⟨if_neg hk, fun _ => rfl, fun _ => rfl⟩

/-- An operator is registered for another kind, or for one that continues no expression. -/
theorem agreeAt_withOperator {l : Kind} (hl : l ∈ [.semicolon, .eof] ∨ k ≠ l) (q : Precedence)
    (r : OperatorRule) : g.AgreeAt (g.withOperator l q r) k := by
  have hne : k ∉ [.semicolon, .eof] → k ≠ l := by
    rintro hk rfl
    exact hl.elim hk fun h => h rfl
  exact ⟨rfl, fun hk => if_neg (hne hk), fun hk => if_neg (hne hk)⟩

theorem EndsAtEof.of_agreeAt (hg : g.EndsAtEof) (h : g.AgreeAt g₁ .eof) : g₁.EndsAtEof where
  unary := h.operand_eq ▸ hg.unary
  group := h.operand_eq ▸ hg.group

end Grammar

/-- The command registers a rule that does not matter for the tokens: for a kind that none of them
has, or an operator that could only follow an expression where nothing continues it. -/
def Command.IsIdle (ts : List Token) : Command → Prop
  | .registerOperand k _ => ∀ t ∈ ts, t.kind ≠ k
  | .registerOperator k _ _ => k ∈ [.semicolon, .eof] ∨ ∀ t ∈ ts, t.kind ≠ k
  | _ => False

instance (ts : List Token) : DecidablePred (Command.IsIdle ts)
  | .registerOperand k _ => inferInstanceAs (Decidable (∀ t ∈ ts, t.kind ≠ k))
  | .registerOperator k _ _ =>
    inferInstanceAs (Decidable (k ∈ [Kind.semicolon, .eof] ∨ ∀ t ∈ ts, t.kind ≠ k))
  | .look | .advance | .restoreGrammar | .peekIs _ | .expect _ | .hasOperand _ | .hasOperator _
  | .powers | .report _ | .messages | .diagnostics | .applyOperand _ | .applyOperator _ _ | .expr _
  | .identifier | .integer | .unary | .group | .binary _ | .statement | .binding | .returning
  | .expressionStatement | .program => .isFalse id

namespace Parser

variable {p q : Parser} {source : String} {k : Nat}

theorem StandsAt.withGrammar (h : p.StandsAt source k) (g : Grammar) :
    StandsAt { p with grammar := g } source k :=
  ⟨h.current_eq, h.peek_eq, h.scanner_eq⟩

theorem StandsAt.resembles (hp : p.StandsAt source k) (hq : q.StandsAt source k)
    (h : ∀ t ∈ tokenize source, p.grammar.AgreeAt q.grammar t.kind) (m : Nat) :
    Resembles m p q := by
  intro j _
  rw [hp.ahead_eq, hq.ahead_eq]
  exact ⟨rfl, h _ (mem_tokenize_tokenAt source (k + j))⟩

theorem perform_of_isIdle {ts : List Token} {c : Command} (hc : c.IsIdle ts) (p : Parser) :
    (∃ g, (p.perform c).2 = { p with grammar := g }) ∧
      ∀ t ∈ ts, p.grammar.AgreeAt (p.perform c).2.grammar t.kind := by
  cases c with
  | registerOperand l r => exact ⟨⟨_, rfl⟩, fun t ht => Grammar.agreeAt_withOperand (hc t ht) r⟩
  | registerOperator l q r =>
    exact ⟨⟨_, rfl⟩, fun t ht => Grammar.agreeAt_withOperator (hc.imp id fun h => h t ht) q r⟩
  | _ => exact hc.elim

/-- Idle registrations change the grammar only, and nothing of what it has for the tokens. -/
theorem performAll_of_isIdle {ts : List Token} {cs : List Command} (hcs : ∀ c ∈ cs, c.IsIdle ts)
    (p : Parser) : (∃ g, p.performAll cs = { p with grammar := g }) ∧
      ∀ t ∈ ts, p.grammar.AgreeAt (p.performAll cs).grammar t.kind := by
  induction cs generalizing p with
  | nil => exact ⟨⟨_, rfl⟩, fun t _ => .refl _ _⟩
  | cons c cs ih =>
    obtain ⟨hc, hcs⟩ := List.forall_mem_cons.mp hcs
    obtain ⟨⟨g, hg⟩, hagree⟩ := perform_of_isIdle hc p
    obtain ⟨⟨g', hg'⟩, hagree'⟩ := ih hcs (p.perform c).2
    refine ⟨⟨g', ?_⟩, fun t ht => (hagree t ht).trans (hagree' t ht)⟩
    show (p.perform c).2.performAll cs = _
    rw [hg', hg]

theorem answer_fst {α : Type} (p : Parser) (x : ParseM α) (reply : α → Reply) :
    (p.answer x reply).1 = match Outcome.result (x.run p) with
      | .ok a => reply a
      | .error e => .stopped e := by
  rw [answer]
  cases x.run p <;> rfl

/-- Parsers at one place of a source, whose grammars treat its tokens alike, read the same program
or stop for the same reason, and record the same. -/
theorem perform_program_of_agreeAt (hp : p.StandsAt source k) (hq : q.StandsAt source k)
    (hg : p.grammar.EndsAtEof) (h : ∀ t ∈ tokenize source, p.grammar.AgreeAt q.grammar t.kind) :
    (q.perform .program).1 = (p.perform .program).1 ∧
      ∃ ds, (p.perform .program).2.diagnostics.toList = p.diagnostics.toList ++ ds ∧
        (q.perform .program).2.diagnostics.toList = q.diagnostics.toList ++ ds := by
  have hqg : q.grammar.EndsAtEof := hg.of_agreeAt (h .eof (by simp [tokenize]))
  obtain ⟨n, ds, hd, hloc⟩ := ParseM.program_localAt hg
  obtain ⟨he, hd'⟩ := hloc q hqg (hp.resembles hq h (n + 2))
  refine ⟨?_, ds, ?_, ?_⟩
  · rw [perform, perform, answer_fst, answer_fst, he]
  · rw [perform, answer_snd, hd.diagnostics_eq]
  · rw [perform, answer_snd, hd'.diagnostics_eq]

end Parser

/-- **Registrations are independent.** Let two parsers stand at one place of a source, with grammars
that treat its tokens alike and do not read on behind the last one. Then they read the same program
or stop at the same misfit, and record the same diagnostics. So a registration changes nothing in a
source without tokens of its kind, and neither does one of a semicolon or of the last token as an
operator, however tightly it binds. -/
theorem registrations_are_independent (source : String) :
    (∀ k (p q : Parser), p.StandsAt source k → q.StandsAt source k → p.grammar.EndsAtEof →
      (∀ t ∈ tokenize source, p.grammar.AgreeAt q.grammar t.kind) →
      (q.perform .program).1 = (p.perform .program).1 ∧
      ∃ ds, (p.perform .program).2.diagnostics.toList = p.diagnostics.toList ++ ds ∧
        (q.perform .program).2.diagnostics.toList = q.diagnostics.toList ++ ds) ∧
    ∀ k (p : Parser) cs, p.StandsAt source k → p.grammar.EndsAtEof →
      (∀ c ∈ cs, c.IsIdle (tokenize source)) →
      ((p.performAll cs).perform .program).1 = (p.perform .program).1 ∧
      ((p.performAll cs).perform .program).2.diagnostics = (p.perform .program).2.diagnostics := by
  refine ⟨fun k p q hp hq => Parser.perform_program_of_agreeAt hp hq, fun k p cs hp hg hcs => ?_⟩
  obtain ⟨⟨g, hperf⟩, hagree⟩ := Parser.performAll_of_isIdle hcs p
  have hq : (p.performAll cs).StandsAt source k := hperf ▸ hp.withGrammar g
  obtain ⟨he, ds, hd, hd'⟩ := Parser.perform_program_of_agreeAt hp hq hg hagree
  refine ⟨he, Array.toList_inj.mp (hd'.trans ?_)⟩
  rw [hd, hperf]

/-- Semicolons that bind tightest leave a source as it is, and so does a brace that it does not
have. The comma that starts an identifier stops both parsers at the same misfit. -/
theorem registrations_are_independent_of_semicolon :
    let source := "a * 9223372036854775808; , b"
    let cs : List Command := [.registerOperator .semicolon .call .binary,
      .registerOperator .eof .call .binary, .registerOperand .openBrace .group,
      .registerOperator .less .product .binary]
    let p := (Parser.ofString source).perform (.registerOperand .comma .identifier) |>.2
    let q : Parser := { p with grammar := p.grammar.withOperator .greater .call .binary }
    (∀ c ∈ cs, c.IsIdle (tokenize source)) ∧
      ((p.performAll cs).perform .program).1 = .stopped (.misfit ⟨.identifier, ⟨.comma, ","⟩⟩) ∧
      ((p.performAll cs).perform .program).2.diagnostics = #[.outOfRange "9223372036854775808"] ∧
      (q.perform .program).1 = (p.perform .program).1 := by
  intro source cs p q
  have hcs : ∀ c ∈ cs, c.IsIdle (tokenize source) := by decide +kernel
  have hp : p.StandsAt source 0 := ⟨by decide +kernel, by decide +kernel, by decide +kernel⟩
  have hq : q.StandsAt source 0 := hp.withGrammar _
  have hg : p.grammar.EndsAtEof := ⟨by decide +kernel, by decide +kernel⟩
  have hkinds : ∀ t ∈ tokenize source, t.kind ≠ .greater := by decide +kernel
  obtain ⟨hmain, hidle⟩ := registrations_are_independent source
  obtain ⟨hreply, hdiag⟩ := hidle 0 p cs hp hg hcs
  obtain ⟨hreply', -⟩ := hmain 0 p q hp hq hg fun t ht =>
    Grammar.agreeAt_withOperator (.inr (hkinds t ht)) _ _
  exact ⟨hcs, hreply.trans (by decide +kernel), hdiag.trans (by decide +kernel), hreply'⟩

end Frontend
