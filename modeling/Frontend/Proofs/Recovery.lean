import Frontend.Proofs.Layout
import Frontend.Proofs.Turns

/-!
# Recovery from errors

Reading a source divides its tokens into segments, one for each turn of the loop over statements. A
segment is a statement, or it is broken and ends with the one diagnostic that says so.

* `Token.IsOverlarge`: the numerals out of range;
* `Segment`: the tokens of a turn of the loop, what it records and the statement that it yields;
* `Segment.IsWhole`, `Segment.IsBroken`: the two kinds of segment;
* `Parser.Regular`: the parsers of the language on the tokens of a text;
* `Segments`: the turns of the loop up to the end of the source; `Segments.turns`: as turns;
* **`exists_segments`**, **`program_of_segments`**: every source has its segments, and yields what
  they yield;
* **`parse_accounts_for_tokens`**: the segments account for all tokens and all diagnostics.
-/

namespace Frontend

/-! ## Numerals out of range -/

namespace Token

/-- The token is a numeral that is out of range. -/
def IsOverlarge (t : Token) : Prop :=
  t.kind = .integer ∧ Numeral.limit < Numeral.value t.literal.toList

instance (t : Token) : Decidable t.IsOverlarge := by unfold IsOverlarge; infer_instance

theorem value?_of_isScannable {t : Token} (ht : t.IsScannable) (hk : t.kind = .integer) :
    t.value? = if Numeral.value t.literal.toList ≤ Numeral.limit
      then some (Int.ofNat (Numeral.value t.literal.toList)) else none := by
  obtain ⟨hne, hd⟩ := (isScannable_integer_iff hk).mp ht
  rw [value?, Numeral.read?_eq hne hd]
  split <;> rfl

theorem faults_of_isScannable {t : Token} (ht : t.IsScannable) :
    t.faults = if t.IsOverlarge then [.outOfRange t.literal] else [] := by
  by_cases hk : t.kind = .integer
  · have hv : t.value? = none ↔ Numeral.limit < Numeral.value t.literal.toList := by
      rw [value?_of_isScannable ht hk]
      split
      · next h => simpa using h
      · next h => simpa using h
    simp only [faults, IsOverlarge, hk, hv]
  · rw [faults_of_ne hk, if_neg fun h => hk h.1]

end Token

/-- What is wrong with the numerals among tokens. -/
def overlarge (ts : List Token) : List Diagnostic :=
  (ts.filter fun t => t.IsOverlarge).map fun t => .outOfRange t.literal

theorem overlarge_append (ts us : List Token) :
    overlarge (ts ++ us) = overlarge ts ++ overlarge us := by
  simp [overlarge]

theorem overlarge_cons (t : Token) (ts : List Token) :
    overlarge (t :: ts) = overlarge [t] ++ overlarge ts :=
  overlarge_append [t] ts

theorem overlarge_singleton (t : Token) :
    overlarge [t] = if t.IsOverlarge then [.outOfRange t.literal] else [] := by
  by_cases h : t.IsOverlarge
  · simp [overlarge, h]
  · simp [overlarge, h]

theorem overlarge_singleton_of_ne {t : Token} (h : t.kind ≠ .integer) : overlarge [t] = [] := by
  rw [overlarge_singleton, if_neg fun ho => h ho.1]

theorem flatMap_faults {ts : List Token} (h : ∀ t ∈ ts, t.IsScannable) :
    ts.flatMap Token.faults = overlarge ts := by
  induction ts with
  | nil => rfl
  | cons t ts ih =>
    obtain ⟨ht, hts⟩ := List.forall_mem_cons.mp h
    rw [List.flatMap_cons, ih hts, overlarge_cons, overlarge_singleton,
      Token.faults_of_isScannable ht]

namespace Diagnostic

/-- The diagnostic is about a numeral out of range. -/
def IsOutOfRange : Diagnostic → Prop
  | outOfRange _ => True
  | _ => False

instance (d : Diagnostic) : Decidable d.IsOutOfRange := by
  cases d <;> unfold IsOutOfRange <;> infer_instance

end Diagnostic

theorem isOutOfRange_of_mem_faults {ts : List Token} {d : Diagnostic}
    (h : d ∈ ts.flatMap Token.faults) : d.IsOutOfRange := by
  obtain ⟨t, -, hd⟩ := List.mem_flatMap.mp h
  rw [Token.faults] at hd
  split at hd
  · rw [List.mem_singleton.mp hd]
    trivial
  · exact absurd hd List.not_mem_nil

theorem isOutOfRange_of_mem_overlarge {ts : List Token} {d : Diagnostic} (h : d ∈ overlarge ts) :
    d.IsOutOfRange := by
  obtain ⟨t, -, rfl⟩ := List.mem_map.mp h
  trivial

/-! ## Segments -/

/-- What a turn of the loop over statements reads and yields. -/
structure Segment where
  tokens : List Token
  /-- What is recorded. -/
  diagnostics : List Diagnostic
  /-- The statement that is added to the program, if there is one. -/
  statement? : Option Statement
  deriving DecidableEq, Repr, Inhabited

namespace Segment

/-- The segment is a statement of the language with its semicolon, all of whose parts are read. Only
numerals can be wrong with it. -/
structure IsWhole (s : Segment) : Prop where
  statement : ∃ st, s.statement? = some st ∧ Grammar.standard.IsTerminated s.tokens st
  diagnostics_eq : s.diagnostics = overlarge s.tokens

/-- The segment breaks off. What says so is recorded last, and only numerals are wrong before. The
statement lacks its value, or it is a binding given up before its value, which is dropped. -/
structure IsBroken (s : Segment) : Prop where
  diagnostics : ∃ ds d, s.diagnostics = ds ++ [d] ∧ (∀ x ∈ ds, x.IsOutOfRange) ∧ ¬ d.IsOutOfRange
  statement : (s.statement? = none ∧ ∃ k, ParseM.Aborts s.tokens k) ∨
    ∃ st, s.statement? = some st ∧ st.IsPartial

/-- A segment is not both. -/
theorem IsWhole.not_isBroken {s : Segment} (h : s.IsWhole) : ¬ s.IsBroken := by
  intro hb
  obtain ⟨ds, d, hd, -, hn⟩ := hb.diagnostics
  refine hn (isOutOfRange_of_mem_overlarge (?_ : d ∈ overlarge s.tokens))
  rw [← h.diagnostics_eq, hd]
  simp

/-- A diagnostic that is not about a numeral comes with a statement that is dropped or partial. -/
theorem countP_diagnostics {s : Segment} (h : s.IsWhole ∨ s.IsBroken) :
    s.diagnostics.countP (fun d => ¬ d.IsOutOfRange) =
      [s].countP (fun s => s.statement? = none) +
        s.statement?.toList.countP Statement.IsPartial := by
  rcases h with h | h
  · obtain ⟨st, hst, ht⟩ := h.statement
    rw [h.diagnostics_eq, hst]
    have h₀ : (overlarge s.tokens).countP (fun d => ¬ d.IsOutOfRange) = 0 :=
      List.countP_eq_zero.mpr fun d hd => by simpa using isOutOfRange_of_mem_overlarge hd
    rw [h₀]
    simp [hst, ht.not_isPartial]
  · obtain ⟨ds, d, hd, hds, hn⟩ := h.diagnostics
    have h₀ : ds.countP (fun d => ¬ d.IsOutOfRange) = 0 :=
      List.countP_eq_zero.mpr fun d hd => by simpa using hds d hd
    rw [hd, List.countP_append, h₀]
    rcases h.statement with ⟨hst, -⟩ | ⟨st, hst, hp⟩
    · simp [hst, hn]
    · simp [hst, hn, hp]

end Segment

namespace Parser

/-! ## The tokens of a failure -/

/-- What happened between two parsers: the tokens `ts` were taken, and `ds` was recorded. -/
structure Takes (p : Parser) (ts : List Token) (ds : List Diagnostic) (q : Parser) : Prop where
  tokens_eq : p.tokens = ts ++ q.tokens
  diagnostics_eq : q.diagnostics.toList = p.diagnostics.toList ++ ds

section Takes

variable {p q r : Parser} {ts us : List Token} {ds es : List Diagnostic}

theorem Takes.trans (h₁ : p.Takes ts ds q) (h₂ : q.Takes us es r) :
    p.Takes (ts ++ us) (ds ++ es) r where
  tokens_eq := by rw [h₁.tokens_eq, h₂.tokens_eq, List.append_assoc]
  diagnostics_eq := by rw [h₂.diagnostics_eq, h₁.diagnostics_eq, List.append_assoc]

theorem Reads.takes (h : p.Reads ts q) (hts : ∀ t ∈ ts, t.kind ≠ .eof) :
    p.Takes ts (ts.flatMap Token.faults) q.advance :=
  ⟨h.tokens_eq hts, h.diagnostics_eq⟩

theorem takes_advance (h : p.Aligned) :
    ∃ ts, p.Takes ts [] p.advance ∧ (p.current.kind ≠ .eof → ts ≠ []) := by
  by_cases hk : p.current.kind = .eof
  · refine ⟨[], ⟨?_, (List.append_nil _).symm⟩, fun hne => absurd hk hne⟩
    rw [tokens_of_eof hk, h.tokens_advance hk, List.append_nil]
  · exact ⟨[p.current], ⟨tokens_of_ne_eof hk, (List.append_nil _).symm⟩, fun _ => by simp⟩

theorem Takes.report_advance (h : p.Takes ts ds q.advance) (d : Diagnostic) :
    p.Takes ts (ds ++ [d]) (q.report d).advance where
  tokens_eq := h.tokens_eq.trans (congrArg _ (tokens_congr (window_advance rfl)))
  diagnostics_eq := by
    rw [advance_diagnostics, report_diagnostics, Array.toList_push, ← List.append_assoc]
    exact congrArg (· ++ [d]) h.diagnostics_eq

theorem Takes.noted_advance (h : p.Takes ts ds q.advance) (e : Event) :
    p.Takes ts ds (q.noted e).advance where
  tokens_eq := h.tokens_eq.trans (congrArg _ (tokens_congr (window_advance rfl)))
  diagnostics_eq := h.diagnostics_eq

/-- With a semicolon that comes next, the semicolon is taken, too. -/
theorem Takes.skipped_advance (h : p.Takes ts ds q.advance) :
    ∃ us, p.Takes (ts ++ us) ds q.skipped.advance := by
  by_cases hk : q.peek.kind = .semicolon
  · have hne : q.advance.current.kind ≠ .eof := by rw [advance_current, hk]; decide
    refine ⟨[q.peek], ?_, ?_⟩
    · rw [skipped_of_semicolon hk, h.tokens_eq, tokens_of_ne_eof hne, List.append_assoc]
      rfl
    · rw [skipped_of_semicolon hk]
      exact h.diagnostics_eq
  · rw [skipped_of_ne hk]
    exact ⟨[], by rwa [List.append_nil]⟩

end Takes

theorem Fails.reaches {p r : Parser} (h : p.Fails r) : p.Reaches r := by
  induction h with
  | noOperand _ => exact (Reaches.refl _).report _
  | unclosed h _ _ _ => exact h.reaches.report _
  | behind h _ _ ih => exact h.reaches.advance.trans ih

/-- A failure takes the tokens up to the one at which it is recorded, and is recorded once, behind
the numerals out of range. -/
theorem Fails.takes {p r : Parser} (h : p.Fails r) (hp : p.Aligned) : ∃ ts ds d,
    p.Takes ts (ds ++ [d]) r.advance ∧ (p.current.kind ≠ .eof → ts ≠ []) ∧
      (∀ x ∈ ds, x.IsOutOfRange) ∧ ¬ d.IsOutOfRange := by
  induction h with
  | @noOperand p h =>
    obtain ⟨ts, ht, hne⟩ := takes_advance hp
    exact ⟨ts, [], _, ht.report_advance _, hne, by simp, id⟩
  | @unclosed p r ts h hts _ _ =>
    exact ⟨ts, _, _, (h.takes hts).report_advance _, fun _ => h.ne_nil,
      fun x hx => isOutOfRange_of_mem_faults hx, id⟩
  | @behind p q r ts h hts hf ih =>
    obtain ⟨us, es, d, hu, -, hes, hd⟩ := ih ((h.reaches.aligned hp).advance)
    refine ⟨ts ++ us, ts.flatMap Token.faults ++ es, d, ?_, fun _ => ?_, fun x hx => ?_, hd⟩
    · rw [List.append_assoc]
      exact (h.takes hts).trans hu
    · exact List.append_ne_nil_of_left_ne_nil h.ne_nil us
    · exact (List.mem_append.mp hx).elim isOutOfRange_of_mem_faults (hes x)

/-! ## One turn of the loop -/

/-- The parsers of the language on the tokens of a text. -/
structure Regular (p : Parser) : Prop where
  grammar_eq : p.grammar = .standard
  aligned : p.Aligned
  isScannable : ∀ t ∈ p.tokens, t.IsScannable

theorem regular_ofString (source : String) : (ofString source).Regular where
  grammar_eq := rfl
  aligned := aligned_ofScanner _
  isScannable := by
    rw [ofString, ofScanner, tokens_advance_advance]
    exact (Scanner.isLayout_drain _).isScannable

section Regular

variable {p q r : Parser} {ts : List Token} {ds : List Diagnostic}

theorem Regular.ranked (h : p.Regular) : p.grammar.Ranked :=
  h.grammar_eq ▸ Grammar.ranked_standard

theorem Regular.isScannable_of_append (hp : p.Regular) {us : List Token}
    (h : p.tokens = ts ++ us) : ∀ t ∈ ts, t.IsScannable :=
  fun t ht => hp.isScannable t (h ▸ List.mem_append_left us ht)

/-- A parser that has taken tokens is as regular as before. -/
theorem Regular.advance (hp : p.Regular) (h : p.Reaches r) (ht : p.Takes ts ds r.advance) :
    r.advance.Regular where
  grammar_eq := h.advance.grammar_eq.trans hp.grammar_eq
  aligned := h.advance.aligned hp.aligned
  isScannable t hm := hp.isScannable t (by rw [ht.tokens_eq]; exact List.mem_append_right _ hm)

theorem Regular.noted_advance (h : r.advance.Regular) (e : Event) :
    (r.noted e).advance.Regular where
  grammar_eq := h.grammar_eq
  aligned := ⟨h.aligned.peek_of_current, h.aligned.rest_of_peek⟩
  isScannable := by
    rw [tokens_congr (window_advance (noted_window r e))]
    exact h.isScannable

/-- The segment is what a turn of the loop takes and yields. -/
structure Turn (p : Parser) (s : Segment) (q : Parser) : Prop where
  run : ParseM.segment.run p = .ok s.statement? q
  takes : p.Takes s.tokens s.diagnostics q
  ne_nil : s.tokens ≠ []

theorem Regular.turn_of_reads {st : Statement} (hp : p.Regular)
    (hs : Grammar.standard.IsTerminated ts st) (h : p.Reads ts r)
    (hrun : ParseM.segment.run p = .ok (some st) (r.noted (.parsed st)).advance) :
    p.Turn ⟨ts, overlarge ts, some st⟩ (r.noted (.parsed st)).advance ∧
      (r.noted (.parsed st)).advance.Regular := by
  have ht := h.takes hs.kind_ne_eof
  have hf : ts.flatMap Token.faults = overlarge ts :=
    flatMap_faults (hp.isScannable_of_append ht.tokens_eq)
  exact ⟨⟨hrun, hf ▸ ht.noted_advance _, h.ne_nil⟩, (hp.advance h.reaches ht).noted_advance _⟩

/-- **A turn of the loop has a segment, which is whole or broken.** -/
theorem exists_turn (hp : p.Regular) (hne : p.current.kind ≠ .eof) : ∃ s q, p.Turn s q ∧
    q.Regular ∧ (s.IsWhole ∨ s.IsBroken) := by
  have ho := ParseM.segment_outcome hp.ranked
  generalize hrun : ParseM.segment.run p = o at ho
  cases ho with
  | @whole ts st r h hs hr =>
    have hs' := hp.grammar_eq ▸ hs
    obtain ⟨ht, hq⟩ := hp.turn_of_reads hs' h hrun
    exact ⟨_, _, ht, hq, .inl ⟨⟨st, rfl, hs'⟩, rfl⟩⟩
  | @valueless st r h hs =>
    obtain ⟨ts, ds, d, ht, hts, hds, hd⟩ := h.takes hp.aligned
    obtain ⟨us, hu⟩ := ht.skipped_advance
    exact ⟨⟨ts ++ us, ds ++ [d], some st⟩, _,
      ⟨hrun, hu.noted_advance _, List.append_ne_nil_of_left_ne_nil (hts hne) us⟩,
      (hp.advance (h.reaches.trans r.reaches_skipped) hu).noted_advance _,
      .inr ⟨⟨ds, d, rfl, hds, hd⟩, .inr ⟨st, rfl, hs⟩⟩⟩
  | @dropped ts k r h ha hk =>
    have ht := (h.takes ha.kind_ne_eof).report_advance (.unexpected k r.peek.kind)
    exact ⟨⟨ts, ts.flatMap Token.faults ++ [.unexpected k r.peek.kind], none⟩, _,
      ⟨hrun, ht, h.ne_nil⟩, hp.advance (h.reaches.report _) ht,
      .inr ⟨⟨_, _, rfl, fun x hx => isOutOfRange_of_mem_faults hx, id⟩, .inl ⟨rfl, k, ha⟩⟩⟩

end Regular

end Parser

/-! ## The turns up to the end -/

/-- The segments of the turns of the loop from `p` to the end of the source, which is reached
at `r`. -/
inductive Segments : Parser → List Segment → Parser → Prop
  | done {p : Parser} (h : p.current.kind = .eof) : Segments p [] p
  | turn {p q r : Parser} {s : Segment} {segs : List Segment} (hne : p.current.kind ≠ .eof)
      (ht : p.Turn s q) (h : Segments q segs r) : Segments p (s :: segs) r

/-- **Every source has its segments**, and each of them is whole or broken. -/
theorem exists_segments {p : Parser} (hp : p.Regular) : ∃ segs r, Segments p segs r ∧
    ∀ s ∈ segs, s.IsWhole ∨ s.IsBroken := by
  obtain ⟨n, ss, r, h, hend⟩ := ParseM.exists_turns p
  induction h with
  | zero p =>
    rcases hend with hk | ⟨hk, e, q, hs⟩
    · exact ⟨[], p, .done hk, List.forall_mem_nil _⟩
    · -- no turn of a regular parser stops
      obtain ⟨s, q', ht, -⟩ := Parser.exists_turn hp hk
      exact nomatch ht.run.symm.trans hs
  | @succ p q r n s? ss hne hs _ ih =>
    obtain ⟨s, q', ht, hq, hall⟩ := Parser.exists_turn hp hne
    obtain ⟨-, rfl⟩ := EStateM.Result.ok.inj (ht.run.symm.trans hs)
    obtain ⟨segs, t, h, hsegs⟩ := ih hq hend
    exact ⟨s :: segs, t, .turn hne ht h, List.forall_mem_cons.mpr ⟨hall, hsegs⟩⟩

section Segments

variable {p r : Parser} {segs : List Segment}

theorem Segments.takes (h : Segments p segs r) :
    p.Takes (segs.flatMap Segment.tokens) (segs.flatMap Segment.diagnostics) r := by
  induction h with
  | done _ => exact ⟨rfl, (List.append_nil _).symm⟩
  | turn _ ht _ ih => exact ht.takes.trans ih

theorem Segments.current_eof (h : Segments p segs r) : r.current.kind = .eof := by
  induction h with
  | done h => exact h
  | turn _ _ _ ih => exact ih

theorem Segments.ne_nil (h : Segments p segs r) : ∀ s ∈ segs, s.tokens ≠ [] := by
  induction h with
  | done _ => exact List.forall_mem_nil _
  | turn _ ht _ ih => exact List.forall_mem_cons.mpr ⟨ht.ne_nil, ih⟩

/-- Segments are turns of the loop. -/
theorem Segments.turns (h : Segments p segs r) :
    ParseM.Turns p segs.length (segs.filterMap Segment.statement?) r := by
  induction h with
  | done _ => exact .zero _
  | turn hne ht _ ih =>
    rw [ParseM.filterMap_cons_toList]
    exact .succ hne ht.run ih

/-- **A source yields what its segments yield.** -/
theorem program_of_segments (h : Segments p segs r) : ∃ q, ParseM.program.run p =
    .ok ⟨segs.filterMap Segment.statement?⟩ q ∧ q.diagnostics = r.diagnostics :=
  ⟨_, h.turns.program_run h.current_eof, rfl⟩

end Segments

/-- What a source yields in terms of its segments. -/
theorem parse_of_segments {source : String} {segs : List Segment} {r : Parser}
    (h : Segments (.ofString source) segs r) :
    tokenize source = segs.flatMap Segment.tokens ++ [Token.eof] ∧
      (parse source).program.statements = segs.filterMap Segment.statement? ∧
      (parse source).diagnostics = segs.flatMap Segment.diagnostics := by
  obtain ⟨q, hrun, hd⟩ := program_of_segments h
  have ht := h.takes
  refine ⟨?_, ?_, ?_⟩
  · rw [← Parser.tokens_ofString, ht.tokens_eq, Parser.tokens_of_eof h.current_eof, List.append_nil]
  · rw [parse, hrun]
  · rw [parse, hrun]
    exact (congrArg Array.toList hd).trans ht.diagnostics_eq

theorem countP_segments {segs : List Segment} (h : ∀ s ∈ segs, s.IsWhole ∨ s.IsBroken) :
    (segs.flatMap Segment.diagnostics).countP (fun d => ¬ d.IsOutOfRange) =
      segs.countP (fun s => s.statement? = none) +
        (segs.filterMap Segment.statement?).countP Statement.IsPartial := by
  induction segs with
  | nil => rfl
  | cons s segs ih =>
    obtain ⟨hs, hss⟩ := List.forall_mem_cons.mp h
    have hc : (s :: segs).countP (fun s => s.statement? = none) =
        [s].countP (fun s => s.statement? = none) + segs.countP (fun s => s.statement? = none) := by
      rw [← List.countP_append, List.singleton_append]
    rw [List.flatMap_cons, List.countP_append, Segment.countP_diagnostics hs, ih hss,
      ParseM.filterMap_cons_toList, List.countP_append, hc]
    omega

/-- **Recovery accounts for every token and every diagnostic.** The tokens of a source are divided
into the segments of the turns of the loop over statements, none of them empty, and what is recorded
is what the segments record. Each segment is whole or broken, and not both, so that there are as
many diagnostics not about numerals as bindings that are dropped and statements that lack their
value. -/
theorem parse_accounts_for_tokens (source : String) : ∃ segs r,
    Segments (.ofString source) segs r ∧
    tokenize source = segs.flatMap Segment.tokens ++ [Token.eof] ∧
    (parse source).program.statements = segs.filterMap Segment.statement? ∧
    (parse source).diagnostics = segs.flatMap Segment.diagnostics ∧
    (∀ s ∈ segs, s.tokens ≠ [] ∧ Xor s.IsWhole s.IsBroken) ∧
    (parse source).diagnostics.countP (fun d => ¬ d.IsOutOfRange) =
      segs.countP (fun s => s.statement? = none) +
        (parse source).program.statements.countP Statement.IsPartial := by
  obtain ⟨segs, r, h, hall⟩ := exists_segments (Parser.regular_ofString source)
  obtain ⟨ht, hs, hd⟩ := parse_of_segments h
  refine ⟨segs, r, h, ht, hs, hd, fun s hm => ⟨h.ne_nil s hm, ?_⟩, ?_⟩
  · rcases hall s hm with hw | hb
    · exact .inl ⟨hw, hw.not_isBroken⟩
    · exact .inr ⟨hb, fun hw => hw.not_isBroken hb⟩
  · rw [hd, hs]
    exact countP_segments hall

end Frontend
