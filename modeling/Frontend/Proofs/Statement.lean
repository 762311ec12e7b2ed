import Frontend.Proofs.Expression

/-!
# What reading a statement yields

One turn of the loop over statements reads a whole statement with the semicolon behind it, or breaks
off and leaves a statement without its value or none.

* `Grammar.IsStatement`, `Grammar.IsTerminated`: the tokens and trees of statements, without and
  with a semicolon;
* `Grammar.EndsBefore`: the tokens that do not continue a statement;
* `Statement.IsPartial`, `ParseM.Aborts`: statements without their value, and the tokens of bindings
  given up before it;
* `Parser.skipped`, `Parser.noted`: what happens behind a statement;
* `ParseM.Opens`, **`ParseM.exists_opens`**: what stands in front of the value of a statement;
* **`ParseM.segment_outcome`**: how a turn of the loop can end;
* **`ParseM.segment_of_isTerminated`**: a statement is read in one turn.
-/

namespace Frontend

/-! ## Statements -/

/-- A statement without its value. -/
def Statement.IsPartial : Statement → Prop
  | .binding _ name value => name ≠ none ∧ value = none
  | .returning _ value => value = none
  | .expression _ value => value = none

instance : DecidablePred Statement.IsPartial
  | .binding _ name value => inferInstanceAs (Decidable (name ≠ none ∧ value = none))
  | .returning _ value | .expression _ value => inferInstanceAs (Decidable (value = none))

namespace Grammar

variable (g : Grammar)

/-- The tokens of a statement without a semicolon, with its tree. -/
inductive IsStatement : List Token → Statement → Prop
  | binding {t n a : Token} {ts : List Token} {e : Expr} (ht : t.kind = .letWord)
      (hn : n.kind = .identifier) (ha : a.kind = .assign) (he : g.IsChain .lowest ts e) :
      IsStatement (t :: n :: a :: ts) (.binding t (some ⟨n, n.literal⟩) (some e))
  | returning {t : Token} {ts : List Token} {e : Expr} (ht : t.kind = .returnWord)
      (he : g.IsChain .lowest ts e) : IsStatement (t :: ts) (.returning t (some e))
  | expression {t : Token} {ts : List Token} {e : Expr} (he : g.IsChain .lowest (t :: ts) e) :
      IsStatement (t :: ts) (.expression t (some e))

/-- The tokens of a statement that may end with a semicolon, with its tree. -/
inductive IsTerminated : List Token → Statement → Prop
  | bare {ts : List Token} {s : Statement} (h : g.IsStatement ts s) : IsTerminated ts s
  | closed {ts : List Token} {c : Token} {s : Statement} (h : g.IsStatement ts s)
      (hc : c.kind = .semicolon) : IsTerminated (ts ++ [c]) s

/-- A token of kind `k` does not continue the statement with the tokens `ts`: it has its semicolon,
or it is not followed by a semicolon or a binary operator. -/
def EndsBefore (ts : List Token) (k : Kind) : Prop :=
  (∀ t ∈ ts.getLast?, t.kind ≠ .semicolon) → k ≠ .semicolon ∧ ¬ g.Binds .lowest k

/-- The kinds of token that occur in statements. -/
def statementKinds : List Kind := [.letWord, .assign, .returnWord] ++ exprKinds

variable {g} {ts : List Token} {s : Statement}

theorem IsStatement.kind_mem (h : g.IsStatement ts s) : ∀ t ∈ ts, t.kind ∈ statementKinds := by
  intro x hx
  cases h with
  | binding ht hn ha he =>
    simp only [List.mem_cons] at hx
    rcases hx with rfl | rfl | rfl | hx
    · simp [ht, statementKinds]
    · simp [hn, statementKinds, exprKinds]
    · simp [ha, statementKinds]
    · exact List.mem_append_right _ (he.kind_mem x hx)
  | returning ht he =>
    rcases List.mem_cons.mp hx with rfl | hx
    · simp [ht, statementKinds]
    · exact List.mem_append_right _ (he.kind_mem x hx)
  | expression he => exact List.mem_append_right _ (he.kind_mem x hx)

theorem IsStatement.ne_nil (h : g.IsStatement ts s) : ts ≠ [] := by
  cases h <;> exact List.cons_ne_nil _ _

theorem IsTerminated.ne_nil (h : g.IsTerminated ts s) : ts ≠ [] := by
  cases h with
  | bare h => exact h.ne_nil
  | closed _ _ => simp

theorem IsStatement.kind_ne_eof (h : g.IsStatement ts s) : ∀ t ∈ ts, t.kind ≠ .eof :=
  fun t ht => ne_of_mem_of_not_mem (h.kind_mem t ht) (by decide)

theorem IsTerminated.kind_ne_eof (h : g.IsTerminated ts s) : ∀ t ∈ ts, t.kind ≠ .eof := by
  cases h with
  | bare h => exact h.kind_ne_eof
  | closed h hc =>
    intro t ht
    rcases List.mem_append.mp ht with ht | ht
    · exact h.kind_ne_eof t ht
    · rw [List.mem_singleton.mp ht, hc]
      decide

theorem IsStatement.not_isPartial (h : g.IsStatement ts s) : ¬ s.IsPartial := by
  cases h <;> simp [Statement.IsPartial]

/-- A statement with its value is not partial. -/
theorem IsTerminated.not_isPartial (h : g.IsTerminated ts s) : ¬ s.IsPartial := by
  cases h with
  | bare h => exact h.not_isPartial
  | closed h _ => exact h.not_isPartial

theorem not_binds_semicolon (q : Precedence) : ¬ g.Binds q .semicolon := by
  rintro ⟨h, -⟩
  revert h
  decide

/-- Only a semicolon or an operator could continue a statement without a semicolon. -/
theorem IsStatement.endsBefore_iff (h : g.IsStatement ts s) {k : Kind} :
    g.EndsBefore ts k ↔ k ≠ .semicolon ∧ ¬ g.Binds .lowest k := by
  refine ⟨fun hb => hb fun t ht => ?_, fun hk _ => hk⟩
  exact ne_of_mem_of_not_mem (h.kind_mem t (List.mem_of_getLast? ht)) (by decide)

end Grammar

/-! ## Behind a statement -/

namespace Parser

/-- The parser behind the semicolon that may come next. -/
def skipped (p : Parser) : Parser := if p.peek.kind = .semicolon then p.advance else p

/-- The parser with an event in its log. -/
def noted (p : Parser) (e : Event) : Parser := { p with log := p.log.push e }

theorem skipped_of_semicolon {p : Parser} (h : p.peek.kind = .semicolon) : p.skipped = p.advance :=
  if_pos h

theorem skipped_of_ne {p : Parser} (h : p.peek.kind ≠ .semicolon) : p.skipped = p := if_neg h

@[simp] theorem noted_grammar (p : Parser) (e : Event) : (p.noted e).grammar = p.grammar := rfl
@[simp] theorem noted_diagnostics (p : Parser) (e : Event) :
    (p.noted e).diagnostics = p.diagnostics := rfl
@[simp] theorem noted_window (p : Parser) (e : Event) : (p.noted e).window = p.window := rfl

theorem reaches_skipped (p : Parser) : p.Reaches p.skipped := by
  unfold skipped
  split
  · exact (Reaches.refl p).advance
  · exact .refl p

end Parser

namespace ParseM

open Frontend.Parser Frontend.Grammar

/-! ## The parts of a statement -/

/-- The value of a statement, with the semicolon behind it. -/
def valueWith (f : Option Expr → Statement) : ParseM Statement := do
  let value ← optional (expr .lowest)
  skipSemicolon
  return f value

theorem valueWith_of_ok {f : Option Expr → Statement} {p r : Parser} {e : Expr}
    (h : (expr .lowest).run p = .ok e r) : (valueWith f).run p = .ok (f (some e)) r.skipped := by
  rw [valueWith, bind_run, optional_run, h]
  rw [andThen_ok, bind_run, skipSemicolon_run]
  rfl

theorem valueWith_of_absent {f : Option Expr → Statement} {p r : Parser}
    (h : (expr .lowest).run p = .error .absent r) :
    (valueWith f).run p = .ok (f none) r.skipped := by
  rw [valueWith, bind_run, optional_run, h]
  rw [andThen_ok, bind_run, skipSemicolon_run]
  rfl

theorem expressionStatement_run (p : Parser) :
    expressionStatement.run p = (valueWith (.expression p.current)).run p := rfl

theorem returning_run {p : Parser} (h : p.current.kind = .returnWord) :
    returning.run p = (valueWith (.returning p.current)).run p.advance := by
  rw [returning, bind_run, get_run, andThen_ok]
  dsimp only
  rw [Form.check_of_mem (f := .returning) (by simpa [Form.kinds] using h)]
  rfl

theorem binding_run {p : Parser} (h : p.current.kind = .letWord) :
    binding.run p = if p.peek.kind = .identifier then
        if p.advance.peek.kind = .assign then
          (valueWith (.binding p.current (some ⟨p.peek, p.peek.literal⟩))).run
            p.advance.advance.advance
        else .error .absent (p.advance.report (.unexpected .assign p.advance.peek.kind))
      else .error .absent (p.report (.unexpected .identifier p.peek.kind)) := by
  rw [binding, bind_run, get_run, andThen_ok]
  dsimp only
  rw [Form.check_of_mem (f := .binding) (by simpa [Form.kinds] using h), bind_run]
  show Outcome.andThen (.ok () p) _ = _
  rw [andThen_ok, bind_run, require_run]
  by_cases hn : p.peek.kind = .identifier
  · rw [if_pos hn, if_pos hn, andThen_ok, bind_run, get_run, andThen_ok, advance_current, bind_run,
      Identifier.ofToken, Form.check_of_mem (f := .identifier) (by simpa [Form.kinds] using hn)]
    show Outcome.andThen (.ok (⟨p.peek, p.peek.literal⟩ : Identifier) p.advance) _ = _
    rw [andThen_ok, bind_run, require_run]
    by_cases ha : p.advance.peek.kind = .assign
    · rw [if_pos ha, if_pos ha]
      rfl
    · rw [if_neg ha, if_neg ha]
      rfl
  · rw [if_neg hn, if_neg hn]
    rfl

/-- How reading the value of a statement can end. -/
inductive ValueOutcome (p : Parser) (f : Option Expr → Statement) : Outcome Statement → Prop
  | ok {ts : List Token} {e : Expr} {r : Parser} (h : p.Reads ts r)
      (he : p.grammar.IsChain .lowest ts e) (hr : ¬ p.grammar.Binds .lowest r.peek.kind) :
      ValueOutcome p f (.ok (f (some e)) r.skipped)
  | absent {r : Parser} (h : p.Fails r) : ValueOutcome p f (.ok (f none) r.skipped)

theorem valueWith_outcome {p : Parser} (hg : p.grammar.Ranked) (f : Option Expr → Statement) :
    ValueOutcome p f ((valueWith f).run p) := by
  have hx := expr_outcome hg .lowest
  generalize ho : (expr .lowest).run p = o at hx
  cases hx with
  | ok h he hr =>
    rw [valueWith_of_ok ho]
    exact .ok h he hr
  | absent h =>
    rw [valueWith_of_absent ho]
    exact .absent h

/-! ## The outcomes of a statement -/

/-- The tokens of a binding that is given up before its value, because the next token is not of kind
`k`. -/
inductive Aborts : List Token → Kind → Prop
  | name {t : Token} (ht : t.kind = .letWord) : Aborts [t] .identifier
  | sign {t n : Token} (ht : t.kind = .letWord) (hn : n.kind = .identifier) : Aborts [t, n] .assign

theorem Aborts.kind_ne_eof {ts : List Token} {k : Kind} (h : Aborts ts k) :
    ∀ t ∈ ts, t.kind ≠ .eof := by
  cases h with
  | name ht => simp [ht]
  | sign ht hn => simp [ht, hn]

/-- How reading a statement can end. -/
inductive StatementOutcome (p : Parser) : Outcome Statement → Prop
  | whole {ts : List Token} {s : Statement} {r : Parser} (h : p.Reads ts r)
      (hs : p.grammar.IsStatement ts s) (hr : ¬ p.grammar.Binds .lowest r.peek.kind) :
      StatementOutcome p (.ok s r.skipped)
  | valueless {s : Statement} {r : Parser} (h : p.Fails r) (hs : s.IsPartial) :
      StatementOutcome p (.ok s r.skipped)
  | dropped {ts : List Token} {k : Kind} {r : Parser} (h : p.Reads ts r) (ha : Aborts ts k)
      (hk : r.peek.kind ≠ k) :
      StatementOutcome p (.error .absent (r.report (.unexpected k r.peek.kind)))

theorem statement_run (p : Parser) : statement.run p = match p.current.kind with
    | .letWord => binding.run p
    | .returnWord => returning.run p
    | _ => expressionStatement.run p := by
  rw [statement, bind_run, get_run, andThen_ok]
  cases p.current.kind <;> rfl

/-- What stands in front of the value of a statement: the value is read at `q`, and `f` makes the
statement of it. -/
inductive Opens (p : Parser) : (Option Expr → Statement) → Parser → Prop
  | binding (hk : p.current.kind = .letWord) (hn : p.peek.kind = .identifier)
      (ha : p.advance.peek.kind = .assign) :
      Opens p (.binding p.current (some ⟨p.peek, p.peek.literal⟩)) p.advance.advance.advance
  | returning (hk : p.current.kind = .returnWord) : Opens p (.returning p.current) p.advance
  | expression (hk : p.current.kind ∉ [.letWord, .returnWord]) : Opens p (.expression p.current) p

/-- **A statement that is read has its value read behind what opens it.** -/
theorem exists_opens {p r : Parser} {s : Statement} (h : statement.run p = .ok s r) :
    ∃ f q, Opens p f q ∧ (valueWith f).run q = .ok s r := by
  rw [statement_run] at h
  split at h
  · next hk =>
    rw [binding_run hk] at h
    split at h
    · next hn =>
      split at h
      · next ha => exact ⟨_, _, .binding hk hn ha, h⟩
      · cases h
    · cases h
  · next hk =>
    rw [returning_run hk] at h
    exact ⟨_, _, .returning hk, h⟩
  · next hl hr =>
    rw [expressionStatement_run] at h
    exact ⟨_, _, .expression (by simpa using ⟨hl, hr⟩), h⟩

theorem binding_outcome {p : Parser} (hg : p.grammar.Ranked) (hk : p.current.kind = .letWord) :
    StatementOutcome p (binding.run p) := by
  have hlet : p.Reads [p.current] p := reads_current (by simp [hk])
  rw [binding_run hk]
  by_cases hn : p.peek.kind = .identifier
  · have hname : p.Reads [p.current, p.peek] p.advance :=
      hlet.append (passes_peek (by simp [hn]))
    rw [if_pos hn]
    by_cases ha : p.advance.peek.kind = .assign
    · have hsign : p.Reads [p.current, p.peek, p.advance.peek] p.advance.advance :=
        hname.append (passes_peek (by simp [ha]))
      rw [if_pos ha]
      have hgr : p.advance.advance.advance.grammar = p.grammar := by simp only [advance_grammar]
      have hv := valueWith_outcome (p := p.advance.advance.advance) (hgr.symm ▸ hg)
        (.binding p.current (some ⟨p.peek, p.peek.literal⟩))
      generalize (valueWith _).run p.advance.advance.advance = o at hv
      cases hv with
      | ok h he hr =>
        rw [hgr] at he hr
        exact .whole (hsign.append (.of_reads_advance h)) (.binding hk hn ha he) hr
      | absent h => exact .valueless (.behind hsign (by simp [hk, hn, ha]) h) ⟨by simp, rfl⟩
    · rw [if_neg ha]
      exact .dropped hname (.sign hk hn) ha
  · rw [if_neg hn]
    exact .dropped hlet (.name hk) hn

theorem returning_outcome {p : Parser} (hg : p.grammar.Ranked)
    (hk : p.current.kind = .returnWord) : StatementOutcome p (returning.run p) := by
  have hret : p.Reads [p.current] p := reads_current (by simp [hk])
  rw [returning_run hk]
  have hv := valueWith_outcome (p := p.advance) hg (.returning p.current)
  generalize (valueWith _).run p.advance = o at hv
  cases hv with
  | ok h he hr => exact .whole (hret.append (.of_reads_advance h)) (.returning hk he) hr
  | absent h => exact .valueless (.behind hret (by simp [hk]) h) rfl

theorem expressionStatement_outcome {p : Parser} (hg : p.grammar.Ranked) :
    StatementOutcome p (expressionStatement.run p) := by
  rw [expressionStatement_run]
  have hv := valueWith_outcome hg (.expression p.current)
  generalize (valueWith _).run p = o at hv
  cases hv with
  | absent h => exact .valueless h rfl
  | ok h he hr =>
    obtain ⟨us, rfl, h'⟩ := h
    exact .whole ⟨us, rfl, h'⟩ (.expression he) hr

theorem statement_outcome {p : Parser} (hg : p.grammar.Ranked) :
    StatementOutcome p (statement.run p) := by
  rw [statement_run]
  split
  · next hk => exact binding_outcome hg hk
  · next hk => exact returning_outcome hg hk
  · exact expressionStatement_outcome hg

/-! ## The outcomes of a turn of the loop -/

/-- How a turn of the loop over statements can end. -/
inductive SegmentOutcome (p : Parser) : Outcome (Option Statement) → Prop
  | whole {ts : List Token} {s : Statement} {r : Parser} (h : p.Reads ts r)
      (hs : p.grammar.IsTerminated ts s) (hr : p.grammar.EndsBefore ts r.peek.kind) :
      SegmentOutcome p (.ok (some s) (r.noted (.parsed s)).advance)
  | valueless {s : Statement} {r : Parser} (h : p.Fails r) (hs : s.IsPartial) :
      SegmentOutcome p (.ok (some s) (r.skipped.noted (.parsed s)).advance)
  | dropped {ts : List Token} {k : Kind} {r : Parser} (h : p.Reads ts r) (ha : Aborts ts k)
      (hk : r.peek.kind ≠ k) :
      SegmentOutcome p (.ok none (r.report (.unexpected k r.peek.kind)).advance)

/-- The parser at the end of a turn of the loop. -/
def turned (s? : Option Statement) (p : Parser) : Parser :=
  (s?.elim p fun s => p.noted (.parsed s)).advance

theorem segment_run (p : Parser) : segment.run p =
    Outcome.andThen ((optional statement).run p) fun s? r => .ok s? (turned s? r) := by
  rw [segment, bind_run]
  congr 1
  funext s? r
  cases s? <;> rfl

theorem segment_of_ok {p r : Parser} {s : Statement} (h : statement.run p = .ok s r) :
    segment.run p = .ok (some s) (r.noted (.parsed s)).advance := by
  rw [segment, bind_run, optional_run, h]
  rfl

theorem segment_of_absent {p r : Parser} (h : statement.run p = .error .absent r) :
    segment.run p = .ok none r.advance := by
  rw [segment, bind_run, optional_run, h]
  rfl

/-- Behind a statement comes its semicolon, or a token that does not continue it. -/
theorem isTerminated_skipped {p r : Parser} {ts : List Token} {s : Statement} (h : p.Reads ts r)
    (hs : p.grammar.IsStatement ts s) (hr : ¬ p.grammar.Binds .lowest r.peek.kind) :
    ∃ us, p.Reads us r.skipped ∧ p.grammar.IsTerminated us s ∧
      p.grammar.EndsBefore us r.skipped.peek.kind := by
  by_cases hk : r.peek.kind = .semicolon
  · rw [skipped_of_semicolon hk]
    refine ⟨ts ++ [r.peek], h.append (passes_peek (by simp [hk])),
      .closed hs hk, fun hc => ?_⟩
    exact absurd hk (hc r.peek (by simp))
  · rw [skipped_of_ne hk]
    exact ⟨ts, h, .bare hs, hs.endsBefore_iff.mpr ⟨hk, hr⟩⟩

/-- **A turn of the loop reads a whole statement or breaks off.** -/
theorem segment_outcome {p : Parser} (hg : p.grammar.Ranked) :
    SegmentOutcome p (segment.run p) := by
  have hx := statement_outcome hg
  generalize ho : statement.run p = o at hx
  cases hx with
  | whole h hs hr =>
    obtain ⟨us, hus, ht, hb⟩ := isTerminated_skipped h hs hr
    rw [segment_of_ok ho]
    exact .whole hus ht hb
  | valueless h hs =>
    rw [segment_of_ok ho]
    exact .valueless h hs
  | dropped h ha hk =>
    rw [segment_of_absent ho]
    exact .dropped h ha hk

/-! ## Statements are read -/

section Complete

variable {p r : Parser} {ts : List Token} {s : Statement} (hg : p.grammar.Ranked)
include hg

theorem valueWith_of_isChain {e : Expr} (he : p.grammar.IsChain .lowest ts e) (h : p.Reads ts r)
    (hr : ¬ p.grammar.Binds .lowest r.peek.kind) (f : Option Expr → Statement) :
    (valueWith f).run p = .ok (f (some e)) r.skipped :=
  valueWith_of_ok (expr_of_isChain hg he rfl h hr)

theorem statement_of_isStatement (hs : p.grammar.IsStatement ts s) (h : p.Reads ts r)
    (hr : ¬ p.grammar.Binds .lowest r.peek.kind) : statement.run p = .ok s r.skipped := by
  cases hs with
  | @binding t n a us e ht hn ha he =>
    have hk : p.current.kind = .letWord := h.current_eq ▸ ht
    have h₀ := h.of_cons
    rw [settle_of_ne (by simp [hk])] at h₀
    have hpn : p.peek = n := h₀.peek_eq
    have h₁ := h₀.of_cons
    rw [settle_of_ne (p := p.advance) (by simp [hpn, hn])] at h₁
    have hpa : p.advance.peek = a := h₁.peek_eq
    have h₂ := h₁.of_cons
    rw [settle_of_ne (p := p.advance.advance) (by simp [hpa, ha])]
      at h₂
    rw [statement_run, hk]
    show binding.run p = _
    rw [binding_run hk, if_pos (hpn ▸ hn), if_pos (hpa ▸ ha), h.current_eq, hpn]
    have hgr : p.advance.advance.advance.grammar = p.grammar := by simp only [advance_grammar]
    exact valueWith_of_isChain (hgr.symm ▸ hg) (hgr.symm ▸ he) (h₂.reads_advance he.ne_nil)
      (hgr.symm ▸ hr) _
  | @returning t us e ht he =>
    have hk : p.current.kind = .returnWord := h.current_eq ▸ ht
    have h₀ := h.of_cons
    rw [settle_of_ne (by simp [hk])] at h₀
    rw [statement_run, hk]
    show returning.run p = _
    rw [returning_run hk, h.current_eq]
    exact valueWith_of_isChain (p := p.advance) hg he (h₀.reads_advance he.ne_nil) hr _
  | @expression t us e he =>
    have hm := he.kind_mem t List.mem_cons_self
    rw [← h.current_eq] at hm
    have hrun : statement.run p = expressionStatement.run p := by
      rw [statement_run]
      split
      · next hk => rw [hk] at hm; exact absurd hm (by decide)
      · next hk => rw [hk] at hm; exact absurd hm (by decide)
      · rfl
    rw [hrun, expressionStatement_run, h.current_eq]
    exact valueWith_of_isChain hg he h hr _

/-- **A statement that nothing continues is read in one turn.** -/
theorem segment_of_isTerminated (hs : p.grammar.IsTerminated ts s) (h : p.Reads ts r)
    (hr : p.grammar.EndsBefore ts r.peek.kind) :
    segment.run p = .ok (some s) (r.noted (.parsed s)).advance := by
  cases hs with
  | bare hs =>
    obtain ⟨hk, hb⟩ := hs.endsBefore_iff.mp hr
    have := segment_of_ok (statement_of_isStatement hg hs h hb)
    rwa [skipped_of_ne hk] at this
  | @closed us c s hs hc =>
    obtain ⟨m, hm, hlast⟩ := h.split hs.ne_nil
    have hpeek : m.peek = c := hlast.peek_eq
    have hk : m.peek.kind = .semicolon := hpeek ▸ hc
    have hr := hlast.of_cons.eq_of_nil
    rw [settle_of_ne (p := m.advance) (by simp [hk])] at hr
    have := segment_of_ok (statement_of_isStatement hg hs hm (hk ▸ not_binds_semicolon _))
    rwa [skipped_of_semicolon hk, ← hr] at this

end Complete

end ParseM

end Frontend
