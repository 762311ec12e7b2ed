import Frontend.Proofs.Recovery

/-!
# Sequences of statements

A program is a sequence of statements, each of which ends before the next one begins. Where one does
not, because the next one begins with an operator, both are a single statement.

* `Grammar.IsSequence`: the tokens and trees of statements that end where the next one begins;
* **`Grammar.exists_isSequence_append`**: putting a statement in front of a sequence;
* **`segments_of_isSequence`**: a sequence is read statement by statement;
* **`parse_of_isSequence`**: what a source yields whose tokens are a sequence.
-/

namespace Frontend

/-- The kind of the first of some tokens, that of the last token of a source if there are none. -/
def headKind (ts : List Token) : Kind := (ts.head?.getD .eof).kind

@[simp] theorem headKind_cons (t : Token) (ts : List Token) : headKind (t :: ts) = t.kind := rfl

theorem headKind_append {ts : List Token} (h : ts ≠ []) (us : List Token) :
    headKind (ts ++ us) = headKind ts := by
  cases ts with
  | nil => exact absurd rfl h
  | cons t ts => rfl

namespace Grammar

variable {g : Grammar}

/-! ## Phrases put together -/

theorem standard_binds {k : Kind} (h : k ∈ binaryOperators) : standard.Binds .lowest k := by
  revert h
  cases k <;> decide

section Join

variable {q : Precedence} {ts us : List Token} {e u : Expr} {o : Token}

/-- Two chains with an operator between them are a chain. -/
theorem IsChain.join (h : g.IsChain q ts e) (ho : g.Binds q o.kind) (h' : g.IsChain q us u) :
    ∃ v, g.IsChain q (ts ++ o :: us) v := by
  cases h with
  | @intro ts e ls hts hb hl =>
    cases h' with
    | @intro us u ms hus hb' hl' =>
      refine ⟨g.chainTree e (ls ++ ⟨o, us, u⟩ :: ms), ?_⟩
      have hall : (ls ++ ⟨o, us, u⟩ :: ms).flatMap Link.all =
          ls.flatMap Link.all ++ o :: (us ++ ms.flatMap Link.all) := by
        simp [Link.all]
      rw [List.append_assoc, ← hall]
      refine .intro hts (fun l hm => ?_) fun l hm => ?_
      · rcases List.mem_append.mp hm with hm | hm
        · exact hb l hm
        · rcases List.mem_cons.mp hm with rfl | hm
          · exact ho
          · exact hb' l hm
      · rcases List.mem_append.mp hm with hm | hm
        · exact hl l hm
        · rcases List.mem_cons.mp hm with rfl | hm
          · exact hus
          · exact hl' l hm

/-- Without the unary operator at its front a chain is a chain. -/
theorem IsChain.of_unary (h : g.IsChain q (o :: us) u) (ho : o.kind ∈ unaryOperators) :
    ∃ v, g.IsChain q us v := by
  generalize hts : o :: us = ts at h
  cases h with
  | intro hu hb hl =>
    cases hu with
    | identifier ht => cases hts; rw [ht] at ho; exact absurd ho (by decide)
    | integer ht => cases hts; rw [ht] at ho; exact absurd ho (by decide)
    | group ht => cases hts; rw [ht] at ho; exact absurd ho (by decide)
    | unary _ he => cases hts; exact ⟨_, .intro he hb hl⟩

end Join

section Head

variable {q : Precedence} {ts us : List Token} {e : Expr} {s s' : Statement}

/-- The kinds of token that an expression can begin with. -/
def operandHeads : List Kind := [.identifier, .integer, .openParen] ++ unaryOperators

theorem IsOperand.headKind_mem (h : g.IsOperand ts e) : headKind ts ∈ operandHeads := by
  cases h with
  | identifier ht => simp [headKind, ht, operandHeads]
  | integer ht => simp [headKind, ht, operandHeads]
  | unary ht _ => exact List.mem_append_right _ ht
  | group ho _ _ _ _ => simp [headKind, ho, operandHeads]

theorem IsChain.headKind_mem (h : g.IsChain q ts e) : headKind ts ∈ operandHeads := by
  cases h with
  | intro hu _ _ =>
    rw [headKind_append hu.ne_nil]
    exact hu.headKind_mem

/-- Of the kinds that an operand begins with, only unary operators can continue an expression. -/
theorem mem_unaryOperators {k : Kind} (h : k ∈ operandHeads) (hk : k ∈ binaryOperators) :
    k ∈ unaryOperators := by
  revert h hk
  cases k <;> decide

/-- A statement that begins with an operator is a part of the statement in front of it. -/
theorem IsStatement.join (h : g.IsStatement ts s) (h' : g.IsStatement us s')
    (hk : g.Binds .lowest (headKind us)) : ∃ v, g.IsStatement (ts ++ us) v := by
  cases h' with
  | binding ht _ _ _ => rw [headKind_cons, ht] at hk; exact absurd hk.1 (by decide)
  | returning ht _ => rw [headKind_cons, ht] at hk; exact absurd hk.1 (by decide)
  | @expression o us u he =>
    obtain ⟨w, hw⟩ := he.of_unary (mem_unaryOperators he.headKind_mem hk.1)
    cases h with
    | binding ht hn ha hc =>
      obtain ⟨v, hv⟩ := hc.join hk hw
      exact ⟨_, .binding ht hn ha hv⟩
    | returning ht hc =>
      obtain ⟨v, hv⟩ := hc.join hk hw
      exact ⟨_, .returning ht hv⟩
    | expression hc =>
      obtain ⟨v, hv⟩ := hc.join hk hw
      exact ⟨_, .expression hv⟩

theorem IsTerminated.join (h : g.IsStatement ts s) (h' : g.IsTerminated us s')
    (hk : g.Binds .lowest (headKind us)) : ∃ v, g.IsTerminated (ts ++ us) v := by
  cases h' with
  | bare h' =>
    obtain ⟨v, hv⟩ := h.join h' hk
    exact ⟨v, .bare hv⟩
  | closed h' hc =>
    rw [headKind_append h'.ne_nil] at hk
    obtain ⟨v, hv⟩ := h.join h' hk
    exact ⟨v, List.append_assoc .. ▸ .closed hv hc⟩

theorem IsStatement.headKind_ne (h : g.IsStatement ts s) : headKind ts ≠ .semicolon := by
  cases h with
  | binding ht _ _ _ => rw [headKind_cons, ht]; decide
  | returning ht _ => rw [headKind_cons, ht]; decide
  | expression he => exact ne_of_mem_of_not_mem he.headKind_mem (by decide)

/-- No statement begins with a semicolon. -/
theorem IsTerminated.headKind_ne (h : g.IsTerminated ts s) : headKind ts ≠ .semicolon := by
  cases h with
  | bare h => exact h.headKind_ne
  | closed h _ =>
    rw [headKind_append h.ne_nil]
    exact h.headKind_ne

theorem EndsBefore.append {k : Kind} (h : g.EndsBefore us k) (hne : us ≠ []) :
    g.EndsBefore (ts ++ us) k := by
  have hlast := List.getLast?_eq_some_getLast hne
  rw [EndsBefore, List.getLast?_append, hlast, Option.some_or, ← hlast]
  exact h

end Head

/-! ## Sequences -/

variable (g) in
/-- The tokens of statements one after the other, each of which ends where the next one begins, with
their trees. -/
inductive IsSequence : List Token → List Statement → Prop
  | nil : IsSequence [] []
  | cons {ts us : List Token} {s : Statement} {ss : List Statement} (hs : g.IsTerminated ts s)
      (hb : g.EndsBefore ts (headKind us)) (h : IsSequence us ss) :
      IsSequence (ts ++ us) (s :: ss)

/-- **A statement in front of a sequence makes a sequence.** Where the statement does not end, the
first one of the sequence becomes a part of it. -/
theorem exists_isSequence_append {ts us : List Token} {s : Statement} {ss : List Statement}
    (hs : g.IsTerminated ts s) (h : g.IsSequence us ss) : ∃ vs, g.IsSequence (ts ++ us) vs := by
  by_cases hb : g.EndsBefore ts (headKind us)
  · exact ⟨_, .cons hs hb h⟩
  · cases hs with
    | closed _ hc => exact absurd (fun hn => absurd hc (hn _ (by simp))) hb
    | bare hs =>
      rw [hs.endsBefore_iff, not_and, not_not] at hb
      cases h with
      | nil => exact absurd (hb (by decide)).1 (by decide)
      | @cons us vs s' ss hs' hb' h =>
        rw [headKind_append hs'.ne_nil] at hb
        obtain ⟨v, hv⟩ := IsTerminated.join hs hs' (hb hs'.headKind_ne)
        exact ⟨v :: ss, List.append_assoc .. ▸ .cons hv (hb'.append hs'.ne_nil) h⟩

end Grammar

/-! ## Sequences are read -/

namespace Parser

theorem headKind_tokens (p : Parser) : headKind p.tokens = p.current.kind := by
  by_cases hk : p.current.kind = .eof
  · rw [tokens_of_eof hk, hk]
    rfl
  · rw [tokens_of_ne_eof hk]
    rfl

theorem startsWith_of_tokens {p : Parser} {ts us : List Token} (h : p.tokens = ts ++ us) :
    p.StartsWith ts := by
  induction ts generalizing p with
  | nil => trivial
  | cons t ts ih =>
    have hk : p.current.kind ≠ .eof := fun e => by
      rw [tokens_of_eof e] at h
      cases h
    rw [tokens_of_ne_eof hk, List.cons_append] at h
    obtain ⟨hc, h⟩ := List.cons.inj h
    exact ⟨hc, ih h⟩

/-- A statement that ends where the next one begins is read in one turn of the loop. -/
theorem Regular.exists_turn_whole {p : Parser} (hp : p.Regular) {ts us : List Token} {s : Statement}
    (hs : Grammar.standard.IsTerminated ts s) (h : p.tokens = ts ++ us)
    (hb : Grammar.standard.EndsBefore ts (headKind us)) :
    ∃ q, p.Turn ⟨ts, overlarge ts, some s⟩ q ∧ q.Regular ∧ q.tokens = us := by
  obtain ⟨r, hr⟩ := exists_reads (startsWith_of_tokens h) hs.ne_nil
  have hus : r.advance.tokens = us :=
    List.append_cancel_left ((hr.tokens_eq hs.kind_ne_eof).symm.trans h)
  have hk : headKind us = r.peek.kind := hus ▸ headKind_tokens r.advance
  have hrun := ParseM.segment_of_isTerminated hp.ranked (hp.grammar_eq.symm ▸ hs) hr
    (hp.grammar_eq.symm ▸ hk ▸ hb)
  obtain ⟨ht, hq⟩ := hp.turn_of_reads hs hr hrun
  exact ⟨_, ht, hq, List.append_cancel_left (ht.takes.tokens_eq.symm.trans h)⟩

end Parser

/-- **A sequence is read statement by statement.** -/
theorem segments_of_isSequence {p : Parser} (hp : p.Regular) {ts : List Token} {ss : List Statement}
    (h : Grammar.standard.IsSequence ts ss) (ht : p.tokens = ts) :
    ∃ segs r, Segments p segs r ∧ segs.filterMap Segment.statement? = ss ∧
      segs.flatMap Segment.diagnostics = overlarge ts := by
  induction h generalizing p with
  | nil => exact ⟨[], p, .done (Parser.tokens_eq_nil_iff.mp ht), rfl, rfl⟩
  | @cons ts us s ss hs hb _ ih =>
    obtain ⟨q, hturn, hq, hus⟩ := hp.exists_turn_whole hs ht hb
    obtain ⟨segs, r, hsegs, hss, hds⟩ := ih hq hus
    have hne : p.current.kind ≠ .eof := fun e => by
      rw [Parser.tokens_of_eof e] at ht
      exact hs.ne_nil (List.append_eq_nil_iff.mp ht.symm).1
    refine ⟨_ :: segs, r, .turn hne hturn hsegs, ?_, ?_⟩
    · rw [← hss]
      rfl
    · rw [List.flatMap_cons, hds, overlarge_append]

/-- **A source whose tokens are a sequence yields its statements**, and only numerals can be wrong
with it. -/
theorem parse_of_isSequence {source : String} {ts : List Token} {ss : List Statement}
    (h : Grammar.standard.IsSequence ts ss) (ht : tokenize source = ts ++ [Token.eof]) :
    (parse source).program.statements = ss ∧ (parse source).diagnostics = overlarge ts := by
  rw [← Parser.tokens_ofString] at ht
  obtain ⟨segs, r, hsegs, hss, hds⟩ :=
    segments_of_isSequence (Parser.regular_ofString source) h (List.append_cancel_right ht)
  obtain ⟨-, hs, hd⟩ := parse_of_segments hsegs
  exact ⟨hs.trans hss, hd.trans hds⟩

end Frontend
