import Frontend.Proofs.Reach
import Mathlib.Logic.Function.Iterate

/-!
# Passing over tokens

What a parser sees is the stream of tokens from the current one on. Reading a phrase moves the
window over its tokens one after the other, and records the numerals out of range among them.

* `Parser.StartsWith`: the stream starts with a list of tokens;
* `Parser.tokens`: the tokens up to the end of the source; `Parser.tokens_ofString`: for a new
  parser, those of the source;
* `Parser.Passes`: the parser with the window moved over the tokens behind the current one;
* `Parser.Reads`: the same for the tokens from the current one on, the last of which stays current;
* **`Parser.Reads.diagnostics_eq`**, **`Parser.Reads.window_eq`**,
  **`Parser.Reads.tokens_eq`**: what is recorded, where the window stands, and what is left.
-/

namespace Frontend

namespace Parser

/-- What a parser sees of its source. -/
def window (p : Parser) : Scanner × Token × Token := (p.scanner, p.current, p.peek)

theorem window_advance {p q : Parser} (h : p.window = q.window) :
    p.advance.window = q.advance.window := by
  simp only [window, Prod.mk.injEq] at h
  obtain ⟨hs, -, hp⟩ := h
  simp only [window, advance, hs, hp]

theorem current_eq_of_window {p q : Parser} (h : p.window = q.window) : p.current = q.current :=
  congrArg (fun w => w.2.1) h

theorem peek_eq_of_window {p q : Parser} (h : p.window = q.window) : p.peek = q.peek :=
  congrArg (fun w => w.2.2) h

@[simp] theorem settle_window (p : Parser) : p.settle.window = p.window := by
  simp [window]

@[simp] theorem report_window (p : Parser) (d : Diagnostic) : (p.report d).window = p.window := rfl

theorem iterate_advance_window {p q : Parser} (h : p.window = q.window) (n : Nat) :
    (advance^[n] p).window = (advance^[n] q).window := by
  induction n generalizing p q with
  | zero => exact h
  | succ n ih => exact ih (window_advance h)

/-! ## The stream of tokens -/

/-- The stream of tokens from the current one on starts with the given tokens. -/
def StartsWith : Parser → List Token → Prop
  | _, [] => True
  | p, t :: ts => p.current = t ∧ p.advance.StartsWith ts

instance decidableStartsWith : (p : Parser) → (ts : List Token) → Decidable (p.StartsWith ts)
  | _, [] => .isTrue trivial
  | p, _ :: ts => @instDecidableAnd _ _ _ (decidableStartsWith p.advance ts)

theorem startsWith_congr {p q : Parser} (h : p.window = q.window) (ts : List Token) :
    p.StartsWith ts ↔ q.StartsWith ts := by
  induction ts generalizing p q with
  | nil => exact Iff.rfl
  | cons t ts ih =>
    rw [StartsWith, StartsWith, current_eq_of_window h, ih (window_advance h)]

/-- The tokens from the current one to the end of the source. -/
def tokens (p : Parser) : List Token :=
  if _h : p.current.kind = .eof then [] else p.current :: p.advance.tokens
termination_by p.unread
decreasing_by exact advance_unread_lt _h

theorem tokens_of_eof {p : Parser} (h : p.current.kind = .eof) : p.tokens = [] := by
  rw [tokens, dif_pos h]

theorem tokens_of_ne_eof {p : Parser} (h : p.current.kind ≠ .eof) :
    p.tokens = p.current :: p.advance.tokens := by
  rw [tokens, dif_neg h]

theorem tokens_eq_nil_iff {p : Parser} : p.tokens = [] ↔ p.current.kind = .eof := by
  by_cases h : p.current.kind = .eof
  · simp [tokens_of_eof h, h]
  · simp [tokens_of_ne_eof h, h]

theorem tokens_congr {p q : Parser} (h : p.window = q.window) : p.tokens = q.tokens := by
  have hc := current_eq_of_window h
  by_cases hk : p.current.kind = .eof
  · rw [tokens_of_eof hk, tokens_of_eof (p := q) (hc ▸ hk)]
  · have hlt := advance_unread_lt hk
    have hq : q.current.kind ≠ .eof := hc ▸ hk
    rw [tokens_of_ne_eof hk, tokens_of_ne_eof hq, hc, tokens_congr (window_advance h)]
termination_by p.unread

/-- Two advances behind, the window stands where the scanner stood. -/
theorem tokens_advance_advance (p : Parser) : p.advance.advance.tokens = p.scanner.drain.1 := by
  rw [Scanner.drain]
  split
  · next h => exact tokens_of_eof h
  · next h =>
    have hlt := p.scanner.next_rest_lt h
    rw [tokens_of_ne_eof h]
    exact congrArg _ (tokens_advance_advance p.advance)
termination_by p.scanner.rest.length

/-- **A new parser has all tokens of the source before it.** -/
theorem tokens_ofString (source : String) :
    (ofString source).tokens ++ [Token.eof] = tokenize source := by
  rw [tokenize, ofString, ofScanner, tokens_advance_advance]

/-! ## The window at the end of the source -/

/-- Nothing follows the last token. -/
structure Aligned (p : Parser) : Prop where
  peek_of_current : p.current.kind = .eof → p.peek.kind = .eof
  rest_of_peek : p.peek.kind = .eof → p.scanner.rest = []

theorem Aligned.advance {p : Parser} (h : p.Aligned) : p.advance.Aligned where
  peek_of_current hp := by
    show p.scanner.next.1.kind = .eof
    have hr := h.rest_of_peek hp
    by_contra hne
    have := p.scanner.next_rest_lt hne
    rw [hr] at this
    exact Nat.not_lt_zero _ this
  rest_of_peek hp := p.scanner.next_rest_of_eof hp

theorem Aligned.report {p : Parser} (h : p.Aligned) (d : Diagnostic) : (p.report d).Aligned :=
  ⟨h.peek_of_current, h.rest_of_peek⟩

theorem Reaches.aligned {p q : Parser} (h : p.Reaches q) (hp : p.Aligned) : q.Aligned := by
  induction h with
  | refl => exact hp
  | advance _ ih => exact ih.advance
  | report d _ ih => exact ih.report d

theorem aligned_ofScanner (s : Scanner) : (ofScanner s).Aligned where
  peek_of_current h := by
    show s.next.2.next.1.kind = .eof
    have hr := s.next_rest_of_eof h
    by_contra hne
    have := s.next.2.next_rest_lt hne
    rw [hr] at this
    exact Nat.not_lt_zero _ this
  rest_of_peek h := s.next.2.next_rest_of_eof h

theorem Aligned.tokens_advance {p : Parser} (h : p.Aligned) (he : p.current.kind = .eof) :
    p.advance.tokens = [] :=
  tokens_of_eof (h.peek_of_current he)

/-! ## Passing over tokens -/

/-- The window of `p` moved over the tokens `ts` behind the current one, each of them settled in its
turn. -/
inductive Passes : Parser → List Token → Parser → Prop
  | refl (p : Parser) : Passes p [] p
  | cons {p q : Parser} {ts : List Token} (h : Passes p.advance.settle ts q) :
      Passes p (p.peek :: ts) q

/-- The window of `p` moved over the tokens `ts` from the current one on, the last of which stays
current. -/
def Reads (p : Parser) (ts : List Token) (q : Parser) : Prop :=
  ∃ us, ts = p.current :: us ∧ p.settle.Passes us q

section Passes

variable {p q r : Parser} {ts us : List Token}

theorem Passes.trans (h₁ : p.Passes ts q) (h₂ : q.Passes us r) : p.Passes (ts ++ us) r := by
  induction h₁ with
  | refl => exact h₂
  | cons _ ih => exact (ih h₂).cons

theorem Passes.eq_of_nil (h : p.Passes [] q) : q = p := by
  cases h
  rfl

theorem Passes.peek_eq {t : Token} (h : p.Passes (t :: ts) q) : p.peek = t := by
  cases h
  rfl

theorem Passes.of_cons {t : Token} (h : p.Passes (t :: ts) q) : p.advance.settle.Passes ts q := by
  cases h
  assumption

theorem Passes.split (h : p.Passes (ts ++ us) r) : ∃ q, p.Passes ts q ∧ q.Passes us r := by
  induction ts generalizing p with
  | nil => exact ⟨p, .refl p, h⟩
  | cons t ts ih =>
    cases h with
    | cons h =>
      obtain ⟨q, h₁, h₂⟩ := ih h
      exact ⟨q, h₁.cons, h₂⟩

theorem Passes.reaches (h : p.Passes ts q) : p.Reaches q := by
  induction h with
  | refl p => exact .refl p
  | @cons p _ _ _ ih => exact ((Reaches.refl p).advance.trans p.advance.reaches_settle).trans ih

theorem Passes.diagnostics_eq (h : p.Passes ts q) :
    q.diagnostics.toList = p.diagnostics.toList ++ ts.flatMap Token.faults := by
  induction h with
  | refl => simp
  | cons _ ih =>
    rw [ih, settle_diagnostics, List.flatMap_cons, List.append_assoc]
    rfl

theorem Passes.window_eq (h : p.Passes ts q) : q.window = (advance^[ts.length] p).window := by
  induction h with
  | refl => rfl
  | @cons p _ ts _ ih =>
    rw [ih, List.length_cons, Function.iterate_succ_apply]
    exact iterate_advance_window (settle_window _) _

theorem Passes.startsWith (h : p.Passes ts q) : p.advance.StartsWith ts := by
  induction h with
  | refl => trivial
  | @cons p _ ts _ ih =>
    exact ⟨rfl, (startsWith_congr (window_advance (settle_window _)) ts).mp ih⟩

theorem exists_passes (h : p.advance.StartsWith ts) : ∃ q, p.Passes ts q := by
  induction ts generalizing p with
  | nil => exact ⟨p, .refl p⟩
  | cons t ts ih =>
    obtain ⟨rfl, h⟩ := h
    obtain ⟨q, hq⟩ := ih (p := p.advance.settle)
      ((startsWith_congr (window_advance (settle_window _)) ts).mpr h)
    exact ⟨q, hq.cons⟩

theorem Passes.tokens_eq (h : p.Passes ts q) (hts : ∀ t ∈ ts, t.kind ≠ .eof) :
    p.advance.tokens = ts ++ q.advance.tokens := by
  induction h with
  | refl => rfl
  | @cons p _ ts _ ih =>
    have hk : p.advance.current.kind ≠ .eof := hts p.peek List.mem_cons_self
    rw [tokens_of_ne_eof hk, List.cons_append,
      ← ih fun t ht => hts t (List.mem_cons_of_mem _ ht),
      tokens_congr (window_advance (settle_window p.advance))]
    rfl

/-- A token of a kind other than numerals is passed without a trace. -/
theorem passes_peek (h : p.peek.kind ≠ .integer) : p.Passes [p.peek] p.advance := by
  have hs : p.advance.settle = p.advance := settle_of_ne h
  have hp := Passes.cons (p := p) (.refl p.advance.settle)
  rwa [hs] at hp

/-! ## Reading tokens -/

theorem Reads.ne_nil (h : p.Reads ts q) : ts ≠ [] := by
  obtain ⟨us, rfl, -⟩ := h
  exact List.cons_ne_nil _ _

theorem Reads.current_eq {t : Token} (h : p.Reads (t :: ts) q) : p.current = t := by
  obtain ⟨us, he, -⟩ := h
  exact (List.cons.inj he).1.symm

theorem Reads.of_cons {t : Token} (h : p.Reads (t :: ts) q) : p.settle.Passes ts q := by
  obtain ⟨us, he, h⟩ := h
  rwa [(List.cons.inj he).2]

theorem reads_singleton (p : Parser) : p.Reads [p.current] p.settle := ⟨[], rfl, .refl _⟩

theorem reads_current (h : p.current.kind ≠ .integer) : p.Reads [p.current] p := by
  have hp := p.reads_singleton
  rwa [settle_of_ne h] at hp

theorem Passes.of_reads_advance (h : p.advance.Reads ts q) : p.Passes ts q := by
  obtain ⟨us, rfl, h⟩ := h
  exact h.cons

theorem Passes.reads_advance (h : p.Passes ts q) (hne : ts ≠ []) : p.advance.Reads ts q := by
  cases h with
  | refl => exact absurd rfl hne
  | cons h => exact ⟨_, rfl, h⟩

theorem Reads.append (h₁ : p.Reads ts q) (h₂ : q.Passes us r) : p.Reads (ts ++ us) r := by
  obtain ⟨vs, rfl, h₁⟩ := h₁
  exact ⟨vs ++ us, rfl, h₁.trans h₂⟩

theorem Reads.split (h : p.Reads (ts ++ us) r) (hne : ts ≠ []) :
    ∃ q, p.Reads ts q ∧ q.Passes us r := by
  obtain ⟨vs, he, h⟩ := h
  cases ts with
  | nil => exact absurd rfl hne
  | cons t ts =>
    obtain ⟨rfl, rfl⟩ := List.cons.inj he
    obtain ⟨q, h₁, h₂⟩ := h.split
    exact ⟨q, ⟨ts, rfl, h₁⟩, h₂⟩

theorem Reads.reaches (h : p.Reads ts q) : p.Reaches q := by
  obtain ⟨us, -, h⟩ := h
  exact p.reaches_settle.trans h.reaches

/-- **Only numerals out of range are recorded.** -/
theorem Reads.diagnostics_eq (h : p.Reads ts q) :
    q.diagnostics.toList = p.diagnostics.toList ++ ts.flatMap Token.faults := by
  obtain ⟨us, rfl, h⟩ := h
  rw [h.diagnostics_eq, settle_diagnostics, List.flatMap_cons, List.append_assoc]

/-- **The window moves once for each token but the last.** -/
theorem Reads.window_eq (h : p.Reads ts q) : q.window = (advance^[ts.length - 1] p).window := by
  obtain ⟨us, rfl, h⟩ := h
  rw [h.window_eq]
  exact iterate_advance_window (settle_window p) _

theorem Reads.startsWith (h : p.Reads ts q) : p.StartsWith ts := by
  obtain ⟨us, rfl, h⟩ := h
  exact ⟨rfl, (startsWith_congr (window_advance (settle_window p)) us).mp h.startsWith⟩

theorem exists_reads (h : p.StartsWith ts) (hne : ts ≠ []) : ∃ q, p.Reads ts q := by
  cases ts with
  | nil => exact absurd rfl hne
  | cons t ts =>
    obtain ⟨rfl, h⟩ := h
    obtain ⟨q, hq⟩ := exists_passes (p := p.settle)
      ((startsWith_congr (window_advance (settle_window p)) ts).mpr h)
    exact ⟨q, ts, rfl, hq⟩

/-- The token behind the last one read is the next one of the stream. -/
theorem Reads.peek_eq (h : p.Reads ts q) : q.peek = (advance^[ts.length] p).current := by
  have hw := h.window_eq
  obtain ⟨us, rfl, -⟩ := h
  rw [List.length_cons, Nat.add_sub_cancel] at hw
  rw [List.length_cons, Function.iterate_succ_apply', advance_current]
  exact peek_eq_of_window hw

theorem Passes.getLast?_cons (h : p.Passes ts q) :
    (p.current :: ts).getLast? = some q.current := by
  induction h with
  | refl => rfl
  | @cons p _ ts _ ih =>
    rw [List.getLast?_cons_cons]
    rwa [settle_current] at ih

/-- The last token read is the current one. -/
theorem Reads.getLast?_eq (h : p.Reads ts q) : ts.getLast? = some q.current := by
  obtain ⟨us, rfl, h⟩ := h
  have := h.getLast?_cons
  rwa [settle_current] at this

/-- **What is left are the tokens behind those read.** -/
theorem Reads.tokens_eq (h : p.Reads ts q) (hts : ∀ t ∈ ts, t.kind ≠ .eof) :
    p.tokens = ts ++ q.advance.tokens := by
  obtain ⟨us, rfl, h⟩ := h
  rw [tokens_of_ne_eof (hts p.current List.mem_cons_self), List.cons_append,
    ← h.tokens_eq fun t ht => hts t (List.mem_cons_of_mem _ ht),
    tokens_congr (window_advance (settle_window p))]

end Passes

end Parser

end Frontend
