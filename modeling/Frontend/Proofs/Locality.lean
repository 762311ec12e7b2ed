import Frontend.Proofs.Window

/-!
# The parser sees only its window

Two tokens more than the window has passed, no more of the source has an influence on a reading, and
no other entry of the grammar than those for these tokens.

* `Parser.ahead`: the tokens from the current one on, the last of which is repeated for ever;
* `Grammar.AgreeAt`, `Parser.Resembles`: parsers with the same tokens ahead, and with grammars that
  treat them alike;
* `Parser.Advances`: what a reading does to the window and to the diagnostics;
* `LocalAt`: what a computation does is settled by the tokens up to the window at its end;
* **`ParseM.expr_localAt`**, **`ParseM.statement_localAt`**, **`ParseM.program_localAt`**: reading
  is local, for every grammar that ends at the last token;
* **`ParseM.Turns.exists_of_resembles`**: turns of the loop over statements;
* **`parser_sees_only_window`**: sources that start with the same tokens.
-/

namespace Frontend

open Function

/-! ## The tokens ahead -/

/-- Both grammars treat tokens of kind `k` alike. What they have for a semicolon or for the last
token behind an expression is left open. -/
structure Grammar.AgreeAt (g h : Grammar) (k : Kind) : Prop where
  operand_eq : h.operand k = g.operand k
  operator_eq : k ∉ [.semicolon, .eof] → h.operator k = g.operator k
  power_eq : k ∉ [.semicolon, .eof] → h.power k = g.power k

theorem Grammar.AgreeAt.refl (g : Grammar) (k : Kind) : g.AgreeAt g k :=
  ⟨rfl, fun _ => rfl, fun _ => rfl⟩

namespace Parser

/-- The token `j` places ahead of the current one. -/
def ahead (p : Parser) (j : Nat) : Token := (advance^[j] p).current

section Ahead

variable (p : Parser)

theorem ahead_advance (j : Nat) : p.advance.ahead j = p.ahead (j + 1) := by
  rw [ahead, ahead, iterate_succ_apply]

variable {p}

theorem ahead_of_window {q : Parser} {n : Nat} (h : q.window = (advance^[n] p).window) (j : Nat) :
    q.ahead j = p.ahead (n + j) := by
  rw [ahead, ahead, Nat.add_comm, iterate_add_apply]
  exact current_eq_of_window (iterate_advance_window h j)

theorem ahead_ofString (source : String) (j : Nat) : (ofString source).ahead j = tokenAt source j :=
  (standsAt_of_window rfl).current_eq

theorem StandsAt.window_eq {source : String} {k : Nat} (h : p.StandsAt source k) :
    p.window = (advance^[k] (ofString source)).window := by
  have hk : (advance^[k] (ofString source)).StandsAt source k := standsAt_of_window rfl
  simp only [window, h.current_eq, h.peek_eq, h.scanner_eq, hk.current_eq, hk.peek_eq,
    hk.scanner_eq]

theorem StandsAt.ahead_eq {source : String} {k : Nat} (h : p.StandsAt source k) (j : Nat) :
    p.ahead j = tokenAt source (k + j) := by
  rw [ahead_of_window h.window_eq, ahead_ofString]

/-- Behind the last token it comes again. -/
theorem Aligned.ahead_eof (hp : p.Aligned) (h : p.current.kind = .eof) (j : Nat) :
    (p.ahead j).kind = .eof := by
  induction j generalizing p with
  | zero => exact h
  | succ j ih =>
    rw [← ahead_advance]
    exact ih hp.advance (hp.peek_of_current h)

end Ahead

/-! ## Parsers with the same tokens ahead -/

/-- The first `m` tokens ahead of both parsers are the same, and their grammars treat them
alike. -/
def Resembles (m : Nat) (p q : Parser) : Prop :=
  ∀ j < m, q.ahead j = p.ahead j ∧ p.grammar.AgreeAt q.grammar (p.ahead j).kind

section Resembles

variable {p q p' q' : Parser} {m n : Nat}

theorem Resembles.refl (m : Nat) (p : Parser) : Resembles m p p := fun _ _ => ⟨rfl, .refl _ _⟩

theorem Resembles.mono (h : Resembles m p q) (hn : n ≤ m) : Resembles n p q :=
  fun j hj => h j (Nat.lt_of_lt_of_le hj hn)

theorem Resembles.current_eq (h : Resembles 2 p q) : q.current = p.current :=
  (h 0 Nat.two_pos).1

theorem Resembles.peek_eq (h : Resembles 2 p q) : q.peek = p.peek := (h 1 Nat.one_lt_two).1

theorem Resembles.agreeAt_current (h : Resembles 2 p q) :
    p.grammar.AgreeAt q.grammar p.current.kind :=
  (h 0 Nat.two_pos).2

theorem Resembles.agreeAt_peek (h : Resembles 2 p q) : p.grammar.AgreeAt q.grammar p.peek.kind :=
  (h 1 Nat.one_lt_two).2

/-- Parsers that moved on by the same number of tokens see the same, as far as they did before. -/
theorem Resembles.of_window (h : Resembles (n + m) p q) (hp : p'.window = (advance^[n] p).window)
    (hq : q'.window = (advance^[n] q).window) (hpg : p'.grammar = p.grammar)
    (hqg : q'.grammar = q.grammar) : Resembles m p' q' := by
  intro j hj
  rw [ahead_of_window hp, ahead_of_window hq, hpg, hqg]
  exact h (n + j) (Nat.add_lt_add_left hj n)

theorem Resembles.continues_eq (h : Resembles 2 p q) (c : Precedence) :
    q.continues c = p.continues c := by
  by_cases hk : p.peek.kind ∈ [.semicolon, .eof]
  · have hc : [.semicolon, .eof].contains p.peek.kind = true := List.contains_iff_mem.mpr hk
    simp only [continues, Token.isOneOf, h.peek_eq, hc, Bool.not_true, Bool.false_and]
  · rw [continues, continues, peekPower, peekPower, Grammar.powerOf, Grammar.powerOf, h.peek_eq,
      h.agreeAt_peek.power_eq hk]

theorem continues_peek_not_mem {c : Precedence} (h : p.continues c = true) :
    p.peek.kind ∉ [.semicolon, .eof] := by
  intro hk
  simp [continues, Token.isOneOf, hk] at h

end Resembles

/-! ## What a reading does -/

/-- The parser `q` comes `n` tokens behind `p` in a reading, and has recorded `ds` since. -/
structure Advances (p : Parser) (n : Nat) (ds : List Diagnostic) (q : Parser) : Prop where
  window_eq : q.window = (advance^[n] p).window
  grammar_eq : q.grammar = p.grammar
  diagnostics_eq : q.diagnostics.toList = p.diagnostics.toList ++ ds

section Advances

variable {p q r : Parser} {m n : Nat} {ds es : List Diagnostic}

theorem Advances.refl (p : Parser) : p.Advances 0 [] p := ⟨rfl, rfl, (List.append_nil _).symm⟩

theorem Advances.trans (h₁ : p.Advances m ds q) (h₂ : q.Advances n es r) :
    p.Advances (m + n) (ds ++ es) r where
  window_eq := by
    rw [h₂.window_eq, Nat.add_comm, iterate_add_apply]
    exact iterate_advance_window h₁.window_eq n
  grammar_eq := h₂.grammar_eq.trans h₁.grammar_eq
  diagnostics_eq := by rw [h₂.diagnostics_eq, h₁.diagnostics_eq, List.append_assoc]

theorem advances_advance (p : Parser) : p.Advances 1 [] p.advance :=
  ⟨rfl, rfl, (List.append_nil _).symm⟩

theorem advances_report (p : Parser) (d : Diagnostic) : p.Advances 0 [d] (p.report d) :=
  ⟨rfl, rfl, by simp⟩

theorem advances_noted (p : Parser) (e : Event) : p.Advances 0 [] (p.noted e) :=
  ⟨rfl, rfl, (List.append_nil _).symm⟩

theorem advances_settle (p : Parser) : p.Advances 0 p.current.faults p.settle :=
  ⟨p.settle_window, p.settle_grammar, p.settle_diagnostics⟩

theorem Resembles.advances {p' q' : Parser} (h : Resembles (m + n) p q) {es : List Diagnostic}
    (hp : p.Advances m ds p') (hq : q.Advances m es q') : Resembles n p' q' :=
  h.of_window hp.window_eq hq.window_eq hp.grammar_eq hq.grammar_eq

end Advances

end Parser

/-! ## Local computations -/

/-- What a computation yields, without the parser at its end. -/
def Outcome.result {α : Type} : Outcome α → Except Stop α
  | .ok a _ => .ok a
  | .error e _ => .error e

theorem Outcome.eq_ok {α : Type} {o : Outcome α} {a : α} (h : o.result = .ok a) :
    o = .ok a o.parser := by
  cases o with
  | ok b p => cases h; rfl
  | error e p => cases h

theorem Outcome.eq_error {α : Type} {o : Outcome α} {e : Stop} (h : o.result = .error e) :
    o = .error e o.parser := by
  cases o with
  | ok b p => cases h
  | error e' p => cases h; rfl

/-- What the computation does at `p` is settled by the tokens up to the window at its end: it does
the same at every parser that resembles `p` so far. -/
def LocalAt {α : Type} (f : Parser → Outcome α) (p : Parser) : Prop :=
  ∃ n ds, p.Advances n ds (f p).parser ∧ ∀ q, q.grammar.EndsAtEof → p.Resembles (n + 2) q →
    (f q).result = (f p).result ∧ q.Advances n ds (f q).parser

namespace LocalAt

open Frontend.Parser

variable {α β : Type} {f f' : Parser → Outcome α} {g : α → Parser → Outcome β} {p : Parser}

/-- A computation that takes another form in view of the window is as local in this form. -/
theorem congr (h : LocalAt f p) (hg : p.grammar.EndsAtEof)
    (he : ∀ q, q.grammar.EndsAtEof → p.Resembles 2 q → f' q = f q) : LocalAt f' p := by
  obtain ⟨n, ds, hp, hq⟩ := h
  refine ⟨n, ds, by rwa [he p hg (.refl 2 p)], fun q hqg hr => ?_⟩
  rw [he p hg (.refl 2 p), he q hqg (hr.mono (Nat.le_add_left 2 n))]
  exact hq q hqg hr

/-- What happens after a local step is local behind it. -/
theorem of_step {n : Nat} {ds : List Diagnostic} {s : Parser → Parser}
    (hs : ∀ q, p.Resembles 2 q → q.Advances n ds (s q)) (h : LocalAt f (s p)) :
    LocalAt (fun q => f (s q)) p := by
  obtain ⟨m, es, hp, hq⟩ := h
  have hsp := hs p (.refl 2 p)
  refine ⟨n + m, ds ++ es, hsp.trans hp, fun q hqg hr => ?_⟩
  have hsq := hs q (hr.mono (Nat.le_add_left 2 _))
  obtain ⟨he, hd⟩ := hq (s q) (hsq.grammar_eq.symm ▸ hqg)
    (Resembles.advances (by rwa [← Nat.add_assoc]) hsp hsq)
  exact ⟨he, hsq.trans hd⟩

theorem ok (a : α) (p : Parser) : LocalAt (.ok a) p :=
  ⟨0, [], .refl p, fun q _ _ => ⟨rfl, .refl q⟩⟩

theorem error (e : Stop) (p : Parser) : LocalAt (EStateM.Result.error (α := α) e) p :=
  ⟨0, [], .refl p, fun q _ _ => ⟨rfl, .refl q⟩⟩

theorem advance (h : LocalAt f p.advance) : LocalAt (fun q => f q.advance) p :=
  h.of_step fun q _ => q.advances_advance

theorem report (d : Diagnostic) (h : LocalAt f (p.report d)) :
    LocalAt (fun q => f (q.report d)) p :=
  h.of_step fun q _ => q.advances_report d

theorem andThen (h : LocalAt f p)
    (hg : ∀ a r, f p = .ok a r → r.grammar = p.grammar → LocalAt (g a) r) :
    LocalAt (fun q => (f q).andThen g) p := by
  obtain ⟨n, ds, hp, hq⟩ := h
  cases hf : f p with
  | error e r =>
    rw [hf] at hp hq
    refine ⟨n, ds, by dsimp only; rwa [hf], fun q hqg hr => ?_⟩
    obtain ⟨he, hd⟩ := hq q hqg hr
    dsimp only
    rw [hf, Outcome.eq_error he]
    exact ⟨rfl, hd⟩
  | ok a r =>
    rw [hf] at hp hq
    obtain ⟨m, es, hp', hq'⟩ := hg a r hf hp.grammar_eq
    refine ⟨n + m, ds ++ es, by dsimp only; rw [hf]; exact hp.trans hp', fun q hqg hr => ?_⟩
    obtain ⟨he, hd⟩ := hq q hqg (hr.mono (by omega))
    have hres : r.Resembles (m + 2) (f q).parser :=
      Resembles.advances (by rwa [← Nat.add_assoc]) hp hd
    obtain ⟨he', hd'⟩ := hq' _ (hd.grammar_eq.symm ▸ hqg) hres
    dsimp only
    rw [hf, Outcome.eq_ok he]
    exact ⟨he', hd.trans hd'⟩

theorem optional {x : ParseM α} (h : LocalAt x.run p) : LocalAt (ParseM.optional x).run p := by
  obtain ⟨n, ds, hp, hq⟩ := h
  have hparser q : Outcome.parser ((ParseM.optional x).run q) = Outcome.parser (x.run q) := by
    rw [ParseM.optional_run]
    cases x.run q with
    | ok a r => rfl
    | error e r => cases e <;> rfl
  refine ⟨n, ds, by rwa [hparser], fun q hqg hr => ?_⟩
  obtain ⟨he, hd⟩ := hq q hqg hr
  refine ⟨?_, by rwa [hparser]⟩
  rw [ParseM.optional_run, ParseM.optional_run]
  cases hx : x.run p with
  | ok a r =>
    rw [hx] at he
    rw [Outcome.eq_ok he]
    rfl
  | error e r =>
    rw [hx] at he
    rw [Outcome.eq_error he]
    cases e <;> rfl

end LocalAt

namespace ParseM

open Frontend.Parser

/-! ## Single tokens -/

theorem checked_localAt {α : Type} (x : Except Misfit α) (p : Parser) :
    LocalAt (checked x).run p := by
  cases x with
  | ok a => exact .ok a p
  | error m => exact .error (.misfit m) p

section Rules

variable {p : Parser} (hg : p.grammar.EndsAtEof)
include hg

theorem require_localAt (k : Kind) : LocalAt (require k).run p := by
  have he q (hr : p.Resembles 2 q) : (require k).run q = if p.peek.kind = k then .ok () q.advance
      else .error .absent (q.report (.unexpected k p.peek.kind)) := by
    rw [require_run, hr.peek_eq]
  by_cases hk : p.peek.kind = k
  · refine (LocalAt.advance (.ok () _)).congr hg fun q _ hr => ?_
    rw [he q hr, if_pos hk]
  · refine (LocalAt.report (.unexpected k p.peek.kind) (.error (α := Unit) .absent _)).congr hg
      fun q _ hr => ?_
    rw [he q hr, if_neg hk]

theorem skipSemicolon_localAt : LocalAt skipSemicolon.run p := by
  by_cases hk : p.peek.kind = .semicolon
  · refine (LocalAt.advance (.ok () _)).congr hg fun q _ hr => ?_
    rw [skipSemicolon_run, hr.peek_eq, if_pos hk]
  · refine (LocalAt.ok () p).congr hg fun q _ hr => ?_
    rw [skipSemicolon_run, hr.peek_eq, if_neg hk]

theorem identifier_localAt : LocalAt identifier.run p := by
  refine ((checked_localAt (Identifier.ofToken p.current) p).andThen fun name r _ _ =>
    .ok (Expr.identifier name) r).congr hg fun q _ hr => ?_
  rw [identifier, bind_run, get_run, andThen_ok, bind_run, hr.current_eq]
  rfl

theorem integer_localAt : LocalAt integer.run p := by
  by_cases hk : p.current.kind = .integer
  · have h : LocalAt (fun q => .ok (Expr.integer p.current p.current.value?) q.settle) p :=
      (LocalAt.ok _ p.settle).of_step fun q hr => hr.current_eq ▸ q.advances_settle
    refine h.congr hg fun q _ hr => ?_
    rw [integer_run, hr.current_eq, if_pos hk]
  · refine (LocalAt.error (.misfit ⟨.integer, p.current⟩) p).congr hg fun q _ hr => ?_
    rw [integer_run, hr.current_eq, if_neg hk]

/-! ## Expressions -/

theorem applyOperand_localAt (ih : ∀ c r, p.Later r → LocalAt (expr c).run r) {rule : OperandRule}
    (hrule : p.grammar.operand p.current.kind = some rule) :
    LocalAt (applyOperand expr rule).run p := by
  cases rule with
  | identifier => exact identifier_localAt hg
  | integer => exact integer_localAt hg
  | unary =>
    have hne : p.current.kind ≠ .eof := fun e => hg.unary (e ▸ hrule)
    refine (LocalAt.advance ((ih .unary _ (later_advance hne)).andThen fun right r _ _ =>
      checked_localAt (Expr.ofUnary p.current right) r)).congr hg fun q _ hr => ?_
    rw [← hr.current_eq]
    exact unaryWith_run expr q
  | group =>
    have hne : p.current.kind ≠ .eof := fun e => hg.group (e ▸ hrule)
    refine (LocalAt.advance ((ih .lowest _ (later_advance hne)).andThen fun e r _ hgr =>
      (require_localAt (hgr.symm ▸ hg) .closeParen).andThen fun _ s _ _ => .ok e s)).congr hg
        fun q _ _ => ?_
    show (groupWith expr).run q = _
    simp only [groupWith, bind_run, advance_run, andThen_ok]
    rfl

theorem operand_localAt (ih : ∀ c r, p.Later r → LocalAt (expr c).run r) : LocalAt operand.run p := by
  cases hrule : p.grammar.operand p.current.kind with
  | none =>
    refine (LocalAt.report (.noOperand p.current.kind) (.error (α := Expr) .absent _)).congr hg
      fun q _ hr => ?_
    rw [operand, operandWith_run, hr.current_eq, hr.agreeAt_current.operand_eq, hrule]
  | some rule =>
    refine (applyOperand_localAt hg ih hrule).congr hg fun q _ hr => ?_
    rw [operand, operandWith_run, hr.current_eq, hr.agreeAt_current.operand_eq, hrule]

theorem binary_localAt (ih : ∀ c r, p.Later r → LocalAt (expr c).run r)
    (hk : p.current.kind ∉ [.semicolon, .eof]) (left : Expr) : LocalAt (binary left).run p := by
  have hne : p.current.kind ≠ .eof := fun e => hk (by simp [e])
  refine (LocalAt.advance ((ih p.currentPower _ (later_advance hne)).andThen fun right r _ _ =>
    checked_localAt (Expr.ofBinary p.current left right) r)).congr hg fun q _ hr => ?_
  have hpower : q.currentPower = p.currentPower := by
    rw [currentPower, currentPower, Grammar.powerOf, Grammar.powerOf, hr.current_eq,
      hr.agreeAt_current.power_eq hk]
  rw [binary, binaryWith_run, hpower, hr.current_eq]

theorem tail_localAt (c : Precedence) (left : Expr)
    (ih : ∀ d r, p.Later r → LocalAt (expr d).run r)
    (hrest : ∀ left' r, Applies c left p left' r → LocalAt (tail c left').run r) :
    LocalAt (tail c left).run p := by
  have hstop : p.continues c = false ∨ p.grammar.operator p.peek.kind = none →
      LocalAt (tail c left).run p := by
    intro h
    refine (LocalAt.ok left p).congr hg fun q _ hr => ?_
    rw [tail_eq, hr.continues_eq]
    split
    · next hc =>
      rw [hr.peek_eq, hr.agreeAt_peek.operator_eq (continues_peek_not_mem hc)]
      rcases h with h | h
      · rw [h] at hc; cases hc
      · rw [h]
    · rfl
  cases hc : p.continues c with
  | false => exact hstop (.inl hc)
  | true =>
    have hk := continues_peek_not_mem hc
    cases hrule : p.grammar.operator p.peek.kind with
    | none => exact hstop (.inr hrule)
    | some rule =>
      cases rule with
      | binary =>
        have hb : LocalAt (binary left).run p.advance := binary_localAt (p := p.advance) hg
          (fun d r hr => ih d r (hr.of_reaches ((Reaches.refl p).advance))) hk left
        refine (LocalAt.advance (hb.andThen fun left' r hrun _ =>
          hrest left' r ⟨hc, _, hrule, hrun⟩)).congr hg fun q _ hr => ?_
        rw [tail_eq, hr.continues_eq, if_pos hc, hr.peek_eq, hr.agreeAt_peek.operator_eq hk, hrule]
        rfl

end Rules

/-- **Expressions are local.** -/
theorem expr_localAt {p : Parser} (hg : p.grammar.EndsAtEof) (c : Precedence) :
    LocalAt (expr c).run p :=
  expr_induction (P := fun d r => LocalAt (expr d).run r)
    (Q := fun d left r => LocalAt (tail d left).run r)
    (fun d left _ hgr => tail_localAt (hgr ▸ hg) d left)
    (fun d _ hgr ih htail => ((operand_localAt (hgr ▸ hg) ih).andThen fun left s hrun _ =>
      htail left s hrun).congr (hgr ▸ hg) fun _ hqg _ => expr_eq hqg d) c rfl

/-! ## Statements -/

section Statements

variable {p : Parser}

theorem binding_eq (h : p.current.kind = .letWord) : binding.run p =
    Outcome.andThen ((require .identifier).run p) fun _ q =>
      Outcome.andThen ((require .assign).run q) fun _ r =>
        (valueWith (.binding p.current (some ⟨p.peek, p.peek.literal⟩))).run r.advance := by
  rw [binding_run h, require_run]
  split
  · rw [andThen_ok, require_run]
    split <;> rfl
  · rfl

variable (hg : p.grammar.EndsAtEof)
include hg

theorem valueWith_localAt (f : Option Expr → Statement) : LocalAt (valueWith f).run p := by
  refine ((LocalAt.optional (expr_localAt hg .lowest)).andThen fun value r _ hgr =>
    (skipSemicolon_localAt (hgr.symm ▸ hg)).andThen fun _ s _ _ => .ok (f value) s).congr hg
      fun q _ _ => ?_
  rw [valueWith, bind_run]
  simp only [bind_run, pure_run]

theorem binding_localAt (hk : p.current.kind = .letWord) : LocalAt binding.run p := by
  let f := Statement.binding p.current (some ⟨p.peek, p.peek.literal⟩)
  have h : LocalAt (fun q => Outcome.andThen ((require .identifier).run q) fun _ r =>
      Outcome.andThen ((require .assign).run r) fun _ s => (valueWith f).run s.advance) p :=
    (require_localAt hg .identifier).andThen fun _ r _ hr =>
      (require_localAt (hr.symm ▸ hg) .assign).andThen fun _ s _ hs =>
        .advance (valueWith_localAt (hs.symm ▸ hr.symm ▸ hg) f)
  refine h.congr hg fun q _ hr => ?_
  rw [binding_eq (hr.current_eq ▸ hk), hr.current_eq, hr.peek_eq]

/-- **Statements are local.** -/
theorem statement_localAt : LocalAt statement.run p := by
  have he q (hr : p.Resembles 2 q) := hr.current_eq ▸ statement_run q
  by_cases hl : p.current.kind = .letWord
  · refine (binding_localAt hg hl).congr hg fun q _ hr => ?_
    rw [he q hr, hl]
  · by_cases hret : p.current.kind = .returnWord
    · refine (LocalAt.advance (valueWith_localAt (p := p.advance) hg
        (.returning p.current))).congr hg fun q _ hr => ?_
      rw [he q hr, hret, ← hr.current_eq]
      exact returning_run (hr.current_eq ▸ hret)
    · refine (valueWith_localAt hg (.expression p.current)).congr hg fun q _ hr => ?_
      rw [he q hr]
      split
      · contradiction
      · contradiction
      · rw [expressionStatement_run, hr.current_eq]

/-- A turn of the loop over statements is local. -/
theorem segment_localAt : LocalAt segment.run p := by
  refine ((statement_localAt hg).optional.andThen fun s? r _ _ => ?_).congr hg
    fun q _ _ => segment_run q
  cases s? with
  | none => exact LocalAt.advance (.ok none _)
  | some s =>
    exact (LocalAt.ok (some s) _).of_step (n := 0 + 1) fun q _ =>
      (q.advances_noted (.parsed s)).trans (q.noted (.parsed s)).advances_advance

end Statements

/-! ## The loop over statements -/

theorem statements_localAt {p : Parser} (hg : p.grammar.EndsAtEof) : LocalAt statements.run p := by
  by_cases hk : p.current.kind = .eof
  · refine (LocalAt.ok [] p).congr hg fun q _ hr => ?_
    rw [statements_eq, hr.current_eq, if_pos hk]
  · refine ((segment_localAt hg).andThen fun s? q hs hgr => ?_).congr hg fun q _ hr => by
      rw [statements_eq, hr.current_eq, if_neg hk]
    have := (segment_progress hs hk).2
    exact (statements_localAt (hgr.symm ▸ hg)).andThen fun rest r _ _ => .ok _ r
termination_by p.unread

/-- **Programs are local.** -/
theorem program_localAt {p : Parser} (hg : p.grammar.EndsAtEof) : LocalAt program.run p := by
  refine ((statements_localAt hg).andThen fun ss q _ _ => ?_).congr hg fun q _ _ => program_run q
  exact (LocalAt.ok (⟨ss⟩ : Program) _).of_step fun r _ => r.advances_noted _

/-! ## Some turns of the loop -/

/-- **Turns of the loop are local.** -/
theorem Turns.exists_of_resembles {p r : Parser} {n : Nat} {ss : List Statement}
    (h : Turns p n ss r) (hg : p.grammar.EndsAtEof) :
    ∃ m ds, p.Advances m ds r ∧ ∀ q, q.grammar.EndsAtEof → p.Resembles (m + 2) q →
      ∃ t, Turns q n ss t ∧ q.Advances m ds t := by
  induction h with
  | zero p => exact ⟨0, [], .refl p, fun q _ _ => ⟨q, .zero q, .refl q⟩⟩
  | @succ p q r n s? ss hne hs _ ih =>
    obtain ⟨m, ds, hp, hloc⟩ := segment_localAt hg
    rw [hs] at hp hloc
    obtain ⟨m', ds', hp', hloc'⟩ := ih (hp.grammar_eq.symm ▸ hg)
    refine ⟨m + m', ds ++ ds', hp.trans hp', fun p₂ hg₂ hr => ?_⟩
    obtain ⟨he, hd⟩ := hloc p₂ hg₂ (hr.mono (by omega))
    obtain ⟨t, ht, hd'⟩ := hloc' _ (hd.grammar_eq.symm ▸ hg₂)
      (Resembles.advances (by rwa [← Nat.add_assoc]) hp hd)
    have hne₂ : p₂.current.kind ≠ .eof := (hr.mono (Nat.le_add_left 2 _)).current_eq ▸ hne
    exact ⟨t, .succ hne₂ (Outcome.eq_ok he) ht, hd.trans hd'⟩

end ParseM

/-! ## Sources that start with the same tokens -/

theorem tokenAt_eq_eof {source : String} {i j : Nat} (h : (tokenAt source i).kind = .eof)
    (hij : i ≤ j) : tokenAt source j = .eof := by
  have hp : (Parser.advance^[i] (Parser.ofString source)).Aligned :=
    (Parser.aligned_ofScanner _).iterate_advance i
  have hi : (Parser.advance^[i] (Parser.ofString source)).StandsAt source i :=
    Parser.standsAt_of_window rfl
  have hj := hp.ahead_eof (hi.current_eq ▸ h) (j - i)
  rw [hi.ahead_eq, Nat.add_sub_cancel' hij, Scanner.tokenAt_eq] at hj
  rw [Scanner.tokenAt_eq]
  exact Scanner.next_eq_eof hj

namespace Parser

/-- A parser that stands at a place that it has passed stands on the last token. -/
theorem StandsAt.current_eof_of_lt {p : Parser} {source : String} {i m : Nat}
    (h : p.StandsAt source i) (hm : p.window = (advance^[m] (ofString source)).window)
    (hi : i < m) : p.current.kind = .eof := by
  have hp : (ofString source).Aligned := aligned_ofScanner _
  have hlen := congrArg List.length (tokens_congr (h.window_eq.symm.trans hm))
  rw [hp.tokens_iterate_advance, hp.tokens_iterate_advance, List.length_drop, List.length_drop]
    at hlen
  refine tokens_eq_nil_iff.mp ?_
  rw [tokens_congr h.window_eq, hp.tokens_iterate_advance]
  exact List.drop_eq_nil_of_le (by omega)

theorem ofString_grammar (source : String) : (ofString source).grammar = .standard := by
  simp only [ofString, ofScanner, advance_grammar]

theorem ofString_diagnostics (source : String) : (ofString source).diagnostics = #[] := by
  simp only [ofString, ofScanner, advance_diagnostics]

theorem endsAtEof_ofString (source : String) : (ofString source).grammar.EndsAtEof := by
  rw [ofString_grammar]
  exact Grammar.isFitting_standard.endsAtEof

theorem resembles_ofString {source₁ source₂ : String} {k : Nat}
    (h : ∀ j < k, tokenAt source₁ j = tokenAt source₂ j) :
    Resembles k (ofString source₁) (ofString source₂) := by
  intro j hj
  rw [ahead_ofString, ahead_ofString, ofString_grammar, ofString_grammar]
  exact ⟨(h j hj).symm, .refl _ _⟩

end Parser

theorem parse_program (source : String) : (parse source).program =
    match Outcome.result (ParseM.program.run (.ofString source)) with
    | .ok program => program
    | .error _ => ⟨[]⟩ := by
  rw [parse]
  cases ParseM.program.run (.ofString source) <;> rfl

theorem parse_diagnostics (source : String) : (parse source).diagnostics =
    (Outcome.parser (ParseM.program.run (.ofString source))).diagnostics.toList := by
  rw [parse]
  cases ParseM.program.run (.ofString source) <;> rfl

/-- A source yields what its tokens yield. -/
theorem parse_congr {source₁ source₂ : String} (h : tokenize source₁ = tokenize source₂) :
    (parse source₁).program = (parse source₂).program ∧
      (parse source₁).diagnostics = (parse source₂).diagnostics := by
  have ht j : tokenAt source₁ j = tokenAt source₂ j := by rw [tokenAt, tokenAt, h]
  obtain ⟨n, ds, hp, hloc⟩ := ParseM.program_localAt (Parser.endsAtEof_ofString source₁)
  obtain ⟨he, hd⟩ := hloc _ (Parser.endsAtEof_ofString source₂)
    (Parser.resembles_ofString fun j _ => ht j)
  refine ⟨by rw [parse_program, parse_program, he], ?_⟩
  rw [parse_diagnostics, parse_diagnostics, hp.diagnostics_eq, hd.diagnostics_eq,
    Parser.ofString_diagnostics, Parser.ofString_diagnostics]

/-- **The parser sees only its window.** Let the first `k` tokens of two sources be the same, and
let some turns of the loop over statements bring a parser of the first source to a place at which
its window has not passed them. Then as many turns of a parser of the second source yield the same
statements and the same diagnostics, and its window shows the same tokens. So sources with the same
tokens have the same program and the same diagnostics. -/
theorem parser_sees_only_window (source₁ source₂ : String) :
    (∀ k n ss r i, (∀ j < k, tokenAt source₁ j = tokenAt source₂ j) →
      ParseM.Turns (.ofString source₁) n ss r → r.StandsAt source₁ i → i + 2 ≤ k →
      ∃ t, ParseM.Turns (.ofString source₂) n ss t ∧
        t.diagnostics.toList = r.diagnostics.toList ∧ t.current = r.current ∧ t.peek = r.peek) ∧
    (tokenize source₁ = tokenize source₂ → (parse source₁).program = (parse source₂).program ∧
      (parse source₁).diagnostics = (parse source₂).diagnostics) := by
  refine ⟨fun k n ss r i hk ht hi hik => ?_, parse_congr⟩
  obtain ⟨m, ds, hr, hloc⟩ := ht.exists_of_resembles (Parser.endsAtEof_ofString source₁)
  -- the turns took `m` advances, more than `i` only if the last token came again
  have hm : ∀ j < m + 2, tokenAt source₁ j = tokenAt source₂ j := by
    intro j hj
    by_cases hjk : j < k
    · exact hk j hjk
    · have he := hi.current_eof_of_lt hr.window_eq (by omega)
      rw [hi.current_eq] at he
      rw [tokenAt_eq_eof he (by omega), tokenAt_eq_eof (hk i (by omega) ▸ he) (by omega)]
  have hres := Parser.resembles_ofString hm
  obtain ⟨t, htt, hd⟩ := hloc _ (Parser.endsAtEof_ofString source₂) hres
  have hw : Parser.Resembles 2 r t := hres.advances hr hd
  refine ⟨t, htt, ?_, hw.current_eq, hw.peek_eq⟩
  rw [hd.diagnostics_eq, hr.diagnostics_eq, Parser.ofString_diagnostics,
    Parser.ofString_diagnostics]

/-- A statement and a binding that is given up are read alike, whatever comes behind the next
tokens. -/
theorem parser_sees_only_window_of_binding :
    let source₁ := "-a; let 5 ) b"
    let source₂ := "-a;\nlet 5 ) + ("
    (∀ j < 6, tokenAt source₁ j = tokenAt source₂ j) ∧ tokenAt source₁ 6 ≠ tokenAt source₂ 6 ∧
      ∃ s r t, ParseM.Turns (.ofString source₁) 2 [s] r ∧ r.StandsAt source₁ 4 ∧
        ParseM.Turns (.ofString source₂) 2 [s] t ∧
        t.diagnostics.toList = [.unexpected .identifier .integer] ∧ t.peek.kind = .closeParen := by
  intro source₁ source₂
  have hk : ∀ j < 6, tokenAt source₁ j = tokenAt source₂ j := by decide +kernel
  let p := Parser.ofString source₁
  let q := Outcome.parser (ParseM.segment.run p)
  let r := Outcome.parser (ParseM.segment.run q)
  let a : Expr := .identifier ⟨⟨.identifier, "a"⟩, "a"⟩
  let s : Statement := .expression ⟨.minus, "-"⟩ (some (.unary ⟨.minus, "-"⟩ "-" a))
  have hs : ParseM.segment.run p = .ok (some s) q := Outcome.eq_ok (by decide +kernel)
  have hr : ParseM.segment.run q = .ok none r := Outcome.eq_ok (by decide +kernel)
  have ht : ParseM.Turns p 2 [s] r :=
    .succ (by decide +kernel) hs (.succ (by decide +kernel) hr (.zero r))
  have hi : r.StandsAt source₁ 4 := ⟨by decide +kernel, by decide +kernel, by decide +kernel⟩
  obtain ⟨t, htt, hd, -, hpeek⟩ :=
    (parser_sees_only_window source₁ source₂).1 6 2 [s] r 4 hk ht hi (Nat.le_refl 6)
  refine ⟨hk, by decide +kernel, s, r, t, ht, hi, htt, hd.trans ?_, hpeek ▸ ?_⟩
  · decide +kernel
  · decide +kernel

end Frontend
