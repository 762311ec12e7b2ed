import Frontend.Proofs.Shape

/-!
# The tokens that trees keep

A tree keeps the tokens of its statement in their order, but for parentheses, semicolons and the
signs of bindings. Which of these a source has is lost, and nothing else.

* `content`: the tokens that are not lost;
* `Expr.yield`, `Statement.yield`: the tokens in a tree, from left to right;
* **`Grammar.yield_chainTree`**: the tree of a chain keeps the order of the chain;
* **`Grammar.IsTerminated.content_eq`**: the tree of a statement keeps the content of its tokens;
* **`Parser.Regular.yield_sublist_of_turn`**: a statement of which parts are absent keeps tokens of
  its own segment;
* **`content_tokenize`**: a source in which only numerals are wrong is kept by its program;
* **`parse_keeps_tokens`**: what a program keeps of its source, right or wrong.
-/

namespace Frontend

/-! ## Content -/

/-- The kinds of token that leave no trace in a tree. -/
def scaffolding : List Kind := [.openParen, .closeParen, .semicolon, .assign]

/-- The tokens that leave a trace in a tree. -/
def content (ts : List Token) : List Token := ts.filter fun t => t.kind ∉ scaffolding

@[simp] theorem content_nil : content [] = [] := rfl

@[simp] theorem content_append (ts us : List Token) :
    content (ts ++ us) = content ts ++ content us :=
  List.filter_append ..

theorem content_cons (t : Token) (ts : List Token) : content (t :: ts) = content [t] ++ content ts :=
  content_append [t] ts

theorem content_singleton {t : Token} (h : t.kind ∉ scaffolding) : content [t] = [t] :=
  List.filter_cons_of_pos (by simpa using h)

theorem content_singleton_of_mem {t : Token} (h : t.kind ∈ scaffolding) : content [t] = [] :=
  List.filter_cons_of_neg (by simpa using h)

theorem content_sublist (ts : List Token) : (content ts).Sublist ts := List.filter_sublist

/-- Only numerals can be out of range, and all of them are kept. -/
theorem overlarge_content (ts : List Token) : overlarge (content ts) = overlarge ts := by
  rw [overlarge, content, List.filter_filter]
  congr 1
  refine List.filter_congr fun t _ => ?_
  have hk : t.IsOverlarge → t.kind ∉ scaffolding := fun h => by rw [h.1]; decide
  simpa using hk

/-! ## Yields -/

/-- The tokens in the tree, from left to right. -/
def Expr.yield : Expr → List Token
  | identifier n => [n.token]
  | integer t _ => [t]
  | unary t _ right => t :: right.yield
  | binary t _ left right => left.yield ++ t :: right.yield

namespace Statement

/-- The tokens in the value, none if it is absent. -/
def partYield (value : Option Expr) : List Token := (value.map Expr.yield).getD []

/-- The tokens in the tree, from left to right. The token of an expression statement is one of those
of its expression. -/
def yield : Statement → List Token
  | binding t name value => t :: (name.map Identifier.token).toList ++ partYield value
  | returning t value => t :: partYield value
  | expression _ value => partYield value

end Statement

namespace Grammar

variable {g : Grammar} {q : Precedence} {ts : List Token} {e : Expr} {s : Statement}

/-- The tokens in a link of a chain. -/
def linkYield (l : Link) : List Token := l.operator :: l.operand.yield

/-- **The tree of a chain keeps the order of the chain**, wherever it is split. -/
theorem yield_chainTree (left : Expr) (ls : List Link) :
    (g.chainTree left ls).yield = left.yield ++ ls.flatMap linkYield := by
  by_cases hne : ls = []
  · rw [hne, chainTree_nil, List.flatMap_nil, List.append_nil]
  · obtain ⟨before, m, behind, rfl, hb, ha⟩ := g.exists_loosest hne
    rw [chainTree_append hb ha, Expr.yield, yield_chainTree left before,
      yield_chainTree m.operand behind]
    simp [linkYield]
termination_by ls.length

theorem content_unary {t : Token} (h : t.kind ∈ unaryOperators) : content [t] = [t] := by
  refine content_singleton ?_
  revert h
  generalize t.kind = k
  cases k <;> decide

theorem content_binary {t : Token} (h : t.kind ∈ binaryOperators) : content [t] = [t] := by
  refine content_singleton ?_
  revert h
  generalize t.kind = k
  cases k <;> decide

theorem content_links {ls : List Link} (hb : ∀ l ∈ ls, g.Binds q l.operator.kind)
    (hl : ∀ l ∈ ls, content l.tokens = l.operand.yield) :
    content (ls.flatMap Link.all) = ls.flatMap linkYield := by
  induction ls with
  | nil => rfl
  | cons l ls ih =>
    obtain ⟨hb, hbs⟩ := List.forall_mem_cons.mp hb
    obtain ⟨hl, hls⟩ := List.forall_mem_cons.mp hl
    rw [List.flatMap_cons, List.flatMap_cons, content_append, ih hbs hls, Link.all, content_cons,
      content_binary hb.1, hl]
    rfl

theorem IsOperand.content_eq (h : g.IsOperand ts e) : content ts = e.yield := by
  induction h with
  | identifier ht => exact content_singleton (by rw [ht]; decide)
  | integer ht => exact content_singleton (by rw [ht]; decide)
  | unary ht _ ih =>
    rw [content_cons, content_unary ht, ih]
    rfl
  | group ho hc _ hb _ ihu ihl =>
    rw [yield_chainTree, content_append, content_cons, content_append, ihu, content_links hb ihl,
      content_singleton_of_mem (by rw [ho]; decide), content_singleton_of_mem (by rw [hc]; decide),
      List.append_nil, List.nil_append]

theorem IsChain.content_eq (h : g.IsChain q ts e) : content ts = e.yield := by
  cases h with
  | intro hu hb hl =>
    rw [yield_chainTree, content_append, hu.content_eq,
      content_links hb fun l hm => (hl l hm).content_eq]

theorem IsStatement.content_eq (h : g.IsStatement ts s) : content ts = s.yield := by
  cases h with
  | @binding t n a ts e ht hn ha he =>
    rw [content_cons, content_cons n, content_cons a, he.content_eq,
      content_singleton (by rw [ht]; decide), content_singleton (by rw [hn]; decide),
      content_singleton_of_mem (by rw [ha]; decide)]
    rfl
  | returning ht he =>
    rw [content_cons, he.content_eq, content_singleton (by rw [ht]; decide)]
    rfl
  | expression he => exact he.content_eq

/-- **The tree of a statement keeps the content of its tokens.** -/
theorem IsTerminated.content_eq (h : g.IsTerminated ts s) : content ts = s.yield := by
  cases h with
  | bare h => exact h.content_eq
  | closed h hc =>
    rw [content_append, h.content_eq, content_singleton_of_mem (by rw [hc]; decide),
      List.append_nil]

end Grammar

/-- A rendering has the tokens of the tree, in the same order. -/
theorem Statement.content_tokens {s : Statement} (h : s.WellFormed) : content s.tokens = s.yield :=
  (isTerminated_tokens h).content_eq

theorem content_flatMap_tokens {ss : List Statement} (h : ∀ s ∈ ss, s.WellFormed) :
    content (ss.flatMap Statement.tokens) = ss.flatMap Statement.yield := by
  induction ss with
  | nil => rfl
  | cons s ss ih =>
    obtain ⟨hs, hss⟩ := List.forall_mem_cons.mp h
    rw [List.flatMap_cons, List.flatMap_cons, content_append, Statement.content_tokens hs, ih hss]

/-! ## What is kept of a wrong source -/

namespace Parser

open Statement (partYield)

variable {p q r : Parser} {s : Statement}

/-- The tokens that open a statement are kept, but for the sign of a binding. -/
theorem yield_sublist_of_opens {f : Option Expr → Statement} (h : ParseM.Opens p f q) :
    ∃ ts, p.tokens = ts ++ q.tokens ∧ ∀ value us, (partYield value).Sublist us →
      (f value).yield.Sublist (ts ++ us) := by
  cases h with
  | binding hk hn ha =>
    refine ⟨[p.current, p.peek, p.advance.peek], ?_, fun value us hv => ?_⟩
    · rw [tokens_of_ne_eof (by simp [hk]), tokens_of_ne_eof (p := p.advance) (by simp [hn]),
        tokens_of_ne_eof (p := p.advance.advance) (by simp [ha])]
      rfl
    · exact ((hv.cons _).cons_cons _).cons_cons _
  | returning hk =>
    refine ⟨[p.current], ?_, fun value us hv => hv.cons_cons _⟩
    rw [tokens_of_ne_eof (by simp [hk])]
    rfl
  | expression => exact ⟨[], rfl, fun value us hv => hv⟩

/-- The value of a statement has tokens that are taken, or it is absent. -/
theorem Regular.yield_sublist_of_valueWith (hp : p.Regular) {f : Option Expr → Statement}
    (h : (ParseM.valueWith f).run p = .ok s r) : ∃ value ts, s = f value ∧
      p.tokens = ts ++ r.advance.tokens ∧ (partYield value).Sublist ts := by
  have hv := ParseM.valueWith_outcome hp.ranked f
  rw [h] at hv
  cases hv with
  | absent hf =>
    obtain ⟨ts, ds, d, ht, -⟩ := hf.takes hp.aligned
    obtain ⟨us, hu⟩ := ht.skipped_advance
    exact ⟨none, _, rfl, hu.tokens_eq, List.nil_sublist _⟩
  | @ok ts e m hts he _ =>
    obtain ⟨us, hu⟩ := (hts.takes he.kind_ne_eof).skipped_advance
    refine ⟨some e, _, rfl, hu.tokens_eq, ?_⟩
    have hcontent : partYield (some e) = content ts := he.content_eq.symm
    rw [hcontent]
    exact (content_sublist ts).trans (List.sublist_append_left ts us)

/-- **A statement keeps tokens of its segment in their order**, even if its value is absent. -/
theorem Regular.yield_sublist_of_turn {g : Segment} (hp : p.Regular) (h : p.Turn g q) :
    ∀ s ∈ g.statement?, s.yield.Sublist g.tokens := by
  intro s hs
  obtain ⟨r, hr, rfl⟩ := h.exists_statement s hs
  obtain ⟨f, m, ho, hv⟩ := ParseM.exists_opens hr
  obtain ⟨ts, ht, hopen⟩ := yield_sublist_of_opens ho
  obtain ⟨value, us, rfl, hu, hsub⟩ := (hp.of_opens ho).yield_sublist_of_valueWith hv
  have htokens : g.tokens ++ r.advance.tokens = ts ++ us ++ r.advance.tokens := by
    rw [List.append_assoc, ← hu, ← ht, h.takes.tokens_eq]
    exact congrArg _ (tokens_congr (window_advance rfl))
  rw [List.append_cancel_right htokens]
  exact hopen value us hsub

end Parser

theorem Segments.yield_sublist {p r : Parser} {segs : List Segment} (h : Segments p segs r)
    (hp : p.Regular) : ((segs.filterMap Segment.statement?).flatMap Statement.yield).Sublist
      (segs.flatMap Segment.tokens) := by
  induction h with
  | done _ => exact .slnil
  | @turn p q r g segs hne ht _ ih =>
    have hrest := ih (hp.turn hne ht)
    have hsub := hp.yield_sublist_of_turn ht
    rw [List.flatMap_cons]
    cases hs : g.statement? with
    | none =>
      rw [List.filterMap_cons_none hs]
      exact hrest.trans (List.sublist_append_right _ _)
    | some s =>
      rw [List.filterMap_cons_some hs, List.flatMap_cons]
      exact (hsub s hs).append hrest

/-! ## Programs -/

/-- A segment with which only numerals are wrong is whole. -/
theorem Segment.isWhole_of_isOutOfRange {s : Segment} (h : s.IsWhole ∨ s.IsBroken)
    (hd : ∀ d ∈ s.diagnostics, d.IsOutOfRange) : s.IsWhole := by
  refine h.resolve_right fun hb => ?_
  obtain ⟨ds, d, he, -, hn⟩ := hb.diagnostics
  exact hn (hd d (by simp [he]))

/-- A source in which only numerals are wrong has whole segments only. -/
theorem exists_whole_segments {source : String}
    (h : ∀ d ∈ (parse source).diagnostics, d.IsOutOfRange) :
    ∃ segs r, Segments (.ofString source) segs r ∧ ∀ s ∈ segs, s.IsWhole := by
  obtain ⟨segs, r, hsegs, hall⟩ := exists_segments (Parser.regular_ofString source)
  obtain ⟨-, -, hd⟩ := parse_of_segments hsegs
  refine ⟨segs, r, hsegs, fun s hm => ?_⟩
  exact Segment.isWhole_of_isOutOfRange (hall s hm) fun d hds =>
    h d (hd ▸ List.mem_flatMap.mpr ⟨s, hm, hds⟩)

theorem content_segments {segs : List Segment} (h : ∀ s ∈ segs, s.IsWhole) :
    content (segs.flatMap Segment.tokens) =
      (segs.filterMap Segment.statement?).flatMap Statement.yield := by
  induction segs with
  | nil => rfl
  | cons s segs ih =>
    obtain ⟨hs, hss⟩ := List.forall_mem_cons.mp h
    obtain ⟨st, hst, ht⟩ := hs.statement
    rw [List.flatMap_cons, content_append, ht.content_eq, ih hss,
      List.filterMap_cons_some hst, List.flatMap_cons]

theorem diagnostics_segments {segs : List Segment} (h : ∀ s ∈ segs, s.IsWhole) :
    segs.flatMap Segment.diagnostics = overlarge (segs.flatMap Segment.tokens) := by
  induction segs with
  | nil => rfl
  | cons s segs ih =>
    obtain ⟨hs, hss⟩ := List.forall_mem_cons.mp h
    rw [List.flatMap_cons, List.flatMap_cons, overlarge_append, hs.diagnostics_eq, ih hss]

/-- **A source in which only numerals are wrong is kept by its program**, but for parentheses,
semicolons and the signs of bindings. All parts of its statements are there. -/
theorem content_tokenize {source : String}
    (h : ∀ d ∈ (parse source).diagnostics, d.IsOutOfRange) :
    (∀ s ∈ (parse source).program.statements, ¬ s.IsPartial) ∧
      content (tokenize source).dropLast =
        (parse source).program.statements.flatMap Statement.yield ∧
      overlarge (tokenize source).dropLast = (parse source).diagnostics := by
  obtain ⟨segs, r, hsegs, hwhole⟩ := exists_whole_segments h
  obtain ⟨ht, hs, hd⟩ := parse_of_segments hsegs
  rw [ht, List.dropLast_concat, hs, hd]
  refine ⟨fun st hst => ?_, content_segments hwhole, (diagnostics_segments hwhole).symm⟩
  obtain ⟨s, hm, hst⟩ := List.mem_filterMap.mp hst
  obtain ⟨st', hst', ht'⟩ := (hwhole s hm).statement
  cases hst.symm.trans hst'
  exact ht'.not_isPartial

/-- **A program keeps the tokens of its source in their order.** However wrong the source, the tokens
in its program are tokens of the source in the same order. If only numerals are wrong, nothing is
left out but parentheses, semicolons, the signs of bindings and the last token. -/
theorem parse_keeps_tokens (source : String) :
    ((parse source).program.statements.flatMap Statement.yield).Sublist (tokenize source) ∧
      ((∀ d ∈ (parse source).diagnostics, d.IsOutOfRange) →
        (parse source).program.statements.flatMap Statement.yield =
          (tokenize source).filter fun t => t.kind ∉ Kind.eof :: scaffolding) := by
  have hp := Parser.regular_ofString source
  refine ⟨?_, fun hd => ?_⟩
  · obtain ⟨segs, r, h, -⟩ := exists_segments hp
    obtain ⟨ht, hs, -⟩ := parse_of_segments h
    rw [ht, hs]
    exact (h.yield_sublist hp).trans (List.sublist_append_left _ _)
  · obtain ⟨-, hcontent, -⟩ := content_tokenize hd
    rw [← hcontent, ← Parser.tokens_ofString, List.dropLast_concat, List.filter_append]
    have heof : [Token.eof].filter (fun t => t.kind ∉ Kind.eof :: scaffolding) = [] := by decide
    rw [heof, List.append_nil]
    refine List.filter_congr fun t ht => ?_
    simp [Token.kind_ne_eof (hp.isScannable t ht)]

end Frontend
