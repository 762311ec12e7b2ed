import Frontend.Proofs.Yield

/-!
# The integrity of programs

However wrong a source is, every statement of its program is sound and begins where its segment does,
and if nothing is wrong, then no part of any tree is absent.

* `Expr.IsComplete`, `Statement.IsComplete`: trees of which no part is absent;
* **`Expr.isComplete_iff`**: only numerals out of range leave integers without values;
* `Statement.Heads`: what the token of a statement has to do with the tokens of its segment;
* **`Parser.Regular.heads_of_turn`**: a statement carries the first token of its segment;
* **`parse_builds_sound_trees`**: all of this for the program of a source.
-/

namespace Frontend

/-! ## Complete trees -/

/-- Every integer in the tree has a value. -/
def Expr.IsComplete : Expr → Prop
  | identifier _ => True
  | integer _ value => value ≠ none
  | unary _ _ right => right.IsComplete
  | binary _ _ left right => left.IsComplete ∧ right.IsComplete

/-- The name and the value are there, and every integer in the value has its own. -/
def Statement.IsComplete : Statement → Prop
  | binding _ name value => name ≠ none ∧ ∃ e ∈ value, e.IsComplete
  | returning _ value => ∃ e ∈ value, e.IsComplete
  | expression _ value => ∃ e ∈ value, e.IsComplete

/-- **Only numerals out of range leave integers without values.** -/
theorem Expr.isComplete_iff {e : Expr} (h : e.WellFormed) :
    e.IsComplete ↔ overlarge e.yield = [] := by
  induction e with
  | identifier n =>
    have hk : n.token.kind ≠ .integer := by simp [h.1]
    simp [IsComplete, yield, overlarge_singleton_of_ne hk]
  | integer t value =>
    obtain ⟨hk, -, -, rfl⟩ := h
    simp [IsComplete, yield, overlarge_singleton, Token.IsOverlarge, hk]
  | unary t op right ih =>
    obtain ⟨hk, -, -, hr⟩ := h
    have ht : t.kind ≠ .integer := ne_of_mem_of_not_mem hk (by decide)
    rw [IsComplete, yield, overlarge_cons, overlarge_singleton_of_ne ht, List.nil_append, ih hr]
  | binary t op left right ihl ihr =>
    obtain ⟨hk, -, -, hl, hr⟩ := h
    have ht : t.kind ≠ .integer := ne_of_mem_of_not_mem hk (by decide)
    rw [IsComplete, yield, overlarge_append, overlarge_cons, overlarge_singleton_of_ne ht,
      List.nil_append, List.append_eq_nil_iff, ihl hl, ihr hr]

namespace Statement

theorem exists_isComplete {value : Option Expr} (hv : ∀ e ∈ value, e.WellFormed)
    (hn : value ≠ none) (hy : overlarge (partYield value) = []) : ∃ e ∈ value, e.IsComplete := by
  obtain ⟨e, rfl⟩ := Option.ne_none_iff_exists'.mp hn
  exact ⟨e, rfl, (Expr.isComplete_iff (hv e rfl)).mpr hy⟩

/-- A sound statement that has its value is complete if none of its numerals is out of range. -/
theorem IsSound.isComplete {s : Statement} (h : s.IsSound) (hp : ¬ s.IsPartial)
    (hy : overlarge s.yield = []) : s.IsComplete := by
  cases h with
  | @binding n value hn hv =>
    rw [yield, overlarge_append, List.append_eq_nil_iff] at hy
    have hne : value ≠ none := fun he => hp ⟨Option.some_ne_none n, he⟩
    exact ⟨Option.some_ne_none n, exists_isComplete hv hne hy.2⟩
  | returning hv =>
    rw [yield, overlarge_cons, List.append_eq_nil_iff] at hy
    exact exists_isComplete hv hp hy.2
  | expression hv => exact exists_isComplete hv hp hy

theorem overlarge_yield_of_mem {s : Statement} {ss : List Statement}
    (h : overlarge (ss.flatMap yield) = []) (hs : s ∈ ss) : overlarge s.yield = [] := by
  obtain ⟨before, behind, rfl⟩ := List.append_of_mem hs
  rw [List.flatMap_append, List.flatMap_cons, overlarge_append, overlarge_append] at h
  exact (List.append_eq_nil_iff.mp (List.append_eq_nil_iff.mp h).2).1

end Statement

/-! ## The first token of a statement -/

/-- The statement carries the first of the tokens `ts`. That of an expression statement begins no
statement of another form, and it begins an operand unless the expression is absent. -/
structure Statement.Heads (s : Statement) (ts : List Token) : Prop where
  head_eq : ts.head? = some s.token
  kind_not_mem {t : Token} {value : Option Expr} (h : s = .expression t value) :
    t.kind ∉ [.eof, .letWord, .returnWord]
  kind_mem {t : Token} {e : Expr} (h : s = .expression t (some e)) :
    t.kind ∈ Grammar.operandHeads

namespace Parser

variable {p q r : Parser} {s : Statement}

theorem token_of_opens {f : Option Expr → Statement} (h : ParseM.Opens p f q)
    (value : Option Expr) : (f value).token = p.current := by
  cases h <;> rfl

/-- Unless the value of a statement is absent, its first token begins an operand. -/
theorem Regular.mem_operandHeads_of_valueWith (hp : p.Regular) {f : Option Expr → Statement}
    (h : (ParseM.valueWith f).run p = .ok s r) :
    s = f none ∨ p.current.kind ∈ Grammar.operandHeads := by
  have hv := ParseM.valueWith_outcome hp.ranked f
  rw [h] at hv
  cases hv with
  | absent _ => exact .inl rfl
  | ok hts he _ =>
    obtain ⟨us, rfl, -⟩ := hts
    exact .inr he.headKind_mem

theorem Turn.head_tokens {g : Segment} (h : p.Turn g q) (hne : p.current.kind ≠ .eof) :
    g.tokens.head? = some p.current := by
  obtain ⟨t, ts, hts⟩ := List.exists_cons_of_ne_nil h.ne_nil
  have htokens := h.takes.tokens_eq
  rw [tokens_of_ne_eof hne, hts, List.cons_append] at htokens
  rw [hts, (List.cons.inj htokens).1, List.head?_cons]

/-- **A statement carries the first token of its segment.** -/
theorem Regular.heads_of_turn {g : Segment} (hp : p.Regular) (hne : p.current.kind ≠ .eof)
    (h : p.Turn g q) : ∀ s ∈ g.statement?, s.Heads g.tokens := by
  intro s hs
  obtain ⟨r, hr, -⟩ := h.exists_statement s hs
  obtain ⟨f, m, ho, hv⟩ := ParseM.exists_opens hr
  obtain ⟨value, rfl, -⟩ := (hp.of_opens ho).wellFormed_of_valueWith hv
  refine ⟨?_, fun he => ?_, fun he => ?_⟩
  · rw [h.head_tokens hne, token_of_opens ho]
  · cases ho with
    | binding | returning => cases he
    | expression hk =>
      cases he
      simpa [hne] using hk
  · cases ho with
    | binding | returning => cases he
    | expression hk =>
      cases he
      refine (hp.mem_operandHeads_of_valueWith hv).resolve_left fun hnone => ?_
      cases hnone

end Parser

/-! ## Programs -/

/-- **Every program is sound, and complete unless something is wrong.** Its statements come from the
segments of the source and carry the first tokens of these. All nodes carry fitting tokens, and no
identifier is spelt like a reserved word. If nothing is recorded, then no part of a statement is
absent. -/
theorem parse_builds_sound_trees (source : String) : ∃ segs r,
    Segments (.ofString source) segs r ∧
    tokenize source = segs.flatMap Segment.tokens ++ [Token.eof] ∧
    (parse source).program.statements = segs.filterMap Segment.statement? ∧
    (∀ g ∈ segs, ∀ s ∈ g.statement?, s.IsSound ∧ s.Heads g.tokens ∧
      ∀ t ∈ s.yield, t.kind = .identifier → t.literal ∉ Kind.reserved.map Prod.fst) ∧
    ((parse source).diagnostics = [] →
      ∀ s ∈ (parse source).program.statements, s.IsComplete) := by
  have hp := Parser.regular_ofString source
  obtain ⟨segs, r, h, -⟩ := exists_segments hp
  obtain ⟨ht, hs, -⟩ := parse_of_segments h
  refine ⟨segs, r, h, ht, hs, ?_, fun hd s hm => ?_⟩
  · refine h.forall_of_turn hp fun p q g hp hne hturn s hs =>
      ⟨hp.isSound_of_turn hturn s hs, hp.heads_of_turn hne hturn s hs, fun t hmem hk => ?_⟩
    have hg := (hp.yield_sublist_of_turn hturn s hs).subset hmem
    have hscan := hp.isScannable_of_append hturn.takes.tokens_eq t hg
    rw [← Kind.ofWord_eq_identifier_iff, (Token.isScannable_word hscan (.inl hk)).2.2, hk]
  · have hrange : ∀ d ∈ (parse source).diagnostics, d.IsOutOfRange := by simp [hd]
    obtain ⟨hwhole, hcontent, hover⟩ := content_tokenize hrange
    rw [← overlarge_content, hcontent, hd] at hover
    exact (isSound_of_parse source s hm).isComplete (hwhole s hm)
      (Statement.overlarge_yield_of_mem hover hm)

end Frontend
