import Frontend.Proofs.RoundTrip

/-!
# The shape of the trees that reading yields

Whatever the source, the nodes of its program carry fitting tokens. Only values can be absent, and
the token of an expression statement need not be the one that its rendering begins with.

* **`Grammar.IsChain.wellFormed`**: the tree of a chain of tokens that come out of a text;
* **`Segments.forall_of_turn`**: from the turns of the loop to all segments of a source;
* **`isSound_of_parse`**: every statement of a program is sound.
-/

namespace Frontend

theorem Identifier.wellFormed {t : Token} (ht : t.IsScannable) (hk : t.kind = .identifier) :
    Identifier.WellFormed ⟨t, t.literal⟩ := by
  obtain ⟨hne, hall, hw⟩ := Token.isScannable_word ht (.inl hk)
  exact ⟨hk, hne, hall, hw.trans hk, rfl⟩

namespace Grammar

variable {g : Grammar} {q : Precedence} {ts : List Token} {e : Expr} {s : Statement}

theorem eq_ofKind_of_mem {t : Token} (ht : t.IsScannable)
    (hk : t.kind ∈ unaryOperators ∨ t.kind ∈ binaryOperators) : t = .ofKind t.kind := by
  refine Token.eq_ofKind ht ?_
  revert hk
  generalize t.kind = k
  cases k <;> decide

theorem wellFormed_chainTree {left : Expr} {ls : List Link} (hleft : left.WellFormed)
    (hb : ∀ l ∈ ls, g.Binds q l.operator.kind) (ho : ∀ l ∈ ls, l.operator.IsScannable)
    (hl : ∀ l ∈ ls, l.operand.WellFormed) : (g.chainTree left ls).WellFormed :=
  chainTree_induction hleft hl fun l hm _ _ ha hb' =>
    ⟨(hb l hm).1, eq_ofKind_of_mem (ho l hm) (.inr (hb l hm).1), rfl, ha, hb'⟩

theorem isScannable_links {ls : List Link} (h : ∀ t ∈ ls.flatMap Link.all, t.IsScannable) :
    ∀ l ∈ ls, l.operator.IsScannable ∧ ∀ t ∈ l.tokens, t.IsScannable :=
  fun l hm => List.forall_mem_cons.mp fun t ht => h t (List.mem_flatMap.mpr ⟨l, hm, ht⟩)

theorem IsOperand.wellFormed (h : g.IsOperand ts e) (hts : ∀ t ∈ ts, t.IsScannable) :
    e.WellFormed := by
  induction h with
  | identifier ht => exact Identifier.wellFormed (hts _ List.mem_cons_self) ht
  | @integer t ht =>
    have hs := hts t List.mem_cons_self
    obtain ⟨hne, hd⟩ := (Token.isScannable_integer_iff ht).mp hs
    exact ⟨ht, hne, hd, Token.value?_of_isScannable hs ht⟩
  | unary ht _ ih =>
    obtain ⟨hs, hts⟩ := List.forall_mem_cons.mp hts
    exact ⟨ht, eq_ofKind_of_mem hs (.inl ht), rfl, ih hts⟩
  | group ho hc _ hb _ ihu ihl =>
    rw [List.forall_mem_append, List.forall_mem_cons, List.forall_mem_append] at hts
    have hls := isScannable_links hts.1.2.2
    exact wellFormed_chainTree (ihu hts.1.2.1) hb (fun l hm => (hls l hm).1)
      fun l hm => ihl l hm (hls l hm).2

/-- **The tree of a chain is well-formed** if its tokens come out of a text. -/
theorem IsChain.wellFormed (h : g.IsChain q ts e) (hts : ∀ t ∈ ts, t.IsScannable) :
    e.WellFormed := by
  cases h with
  | intro hu hb hl =>
    rw [List.forall_mem_append] at hts
    have hls := isScannable_links hts.2
    exact wellFormed_chainTree (hu.wellFormed hts.1) hb (fun l hm => (hls l hm).1)
      fun l hm => (hl l hm).wellFormed (hls l hm).2

end Grammar

/-! ## Statements -/

namespace Parser

variable {p q r : Parser} {s : Statement}

theorem Regular.advance_self (hp : p.Regular) : p.advance.Regular := by
  obtain ⟨ts, ht, -⟩ := takes_advance hp.aligned
  exact hp.advance (.refl p) ht

theorem Regular.isScannable_current (hp : p.Regular) (h : p.current.kind ≠ .eof) :
    p.current.IsScannable :=
  hp.isScannable _ (by rw [tokens_of_ne_eof h]; exact List.mem_cons_self)

theorem Regular.ofKind_of_current (hp : p.Regular) {k : Kind} (hc : p.current.kind = k)
    (hk : k ∉ [.illegal, .eof, .identifier, .integer]) : p.current = .ofKind k := by
  subst hc
  exact Token.eq_ofKind (hp.isScannable_current fun he => hk (by simp [he])) hk

theorem Regular.of_opens {f : Option Expr → Statement} (hp : p.Regular)
    (h : ParseM.Opens p f q) : q.Regular := by
  cases h with
  | binding => exact hp.advance_self.advance_self.advance_self
  | returning => exact hp.advance_self
  | expression => exact hp

/-- The value of a statement is well-formed if it is there. -/
theorem Regular.wellFormed_of_valueWith (hp : p.Regular) {f : Option Expr → Statement}
    (h : (ParseM.valueWith f).run p = .ok s r) : ∃ value, s = f value ∧
      ∀ e ∈ value, e.WellFormed := by
  have hv := ParseM.valueWith_outcome hp.ranked f
  rw [h] at hv
  cases hv with
  | absent _ => exact ⟨none, rfl, nofun⟩
  | @ok ts e m hts he _ =>
    refine ⟨some e, rfl, fun e' he' => ?_⟩
    cases he'
    exact he.wellFormed (hp.isScannable_of_append (hts.tokens_eq he.kind_ne_eof))

/-- With a well-formed value or none, what is opened becomes a sound statement. -/
theorem Regular.isSound_of_opens {f : Option Expr → Statement} (hp : p.Regular)
    (h : ParseM.Opens p f q) {value : Option Expr} (hv : ∀ e ∈ value, e.WellFormed) :
    (f value).IsSound := by
  cases h with
  | binding hk hn ha =>
    have hs : p.peek.IsScannable := hp.advance_self.isScannable_current (by simp [hn])
    rw [hp.ofKind_of_current hk (by decide)]
    exact .binding (Identifier.wellFormed hs hn) hv
  | returning hk =>
    rw [hp.ofKind_of_current hk (by decide)]
    exact .returning hv
  | expression => exact .expression hv

theorem Regular.isSound_of_statement (hp : p.Regular) (h : ParseM.statement.run p = .ok s r) :
    s.IsSound := by
  obtain ⟨f, q, ho, hrun⟩ := ParseM.exists_opens h
  obtain ⟨value, rfl, hv⟩ := (hp.of_opens ho).wellFormed_of_valueWith hrun
  exact hp.isSound_of_opens ho hv

/-- Behind a turn of the loop the parser is as regular as before. -/
theorem Regular.turn {g : Segment} (hp : p.Regular) (hne : p.current.kind ≠ .eof)
    (h : p.Turn g q) : q.Regular := by
  obtain ⟨g', q', h', hq, -⟩ := exists_turn hp hne
  rw [(EStateM.Result.ok.inj (h.run.symm.trans h'.run)).2]
  exact hq

/-- The statement of a segment is what is read at its front. -/
theorem Turn.exists_statement {g : Segment} (h : p.Turn g q) : ∀ s ∈ g.statement?, ∃ r,
    ParseM.statement.run p = .ok s r ∧ q = (r.noted (.parsed s)).advance := by
  intro s hs
  have hrun := h.run
  rw [ParseM.segment_run, ParseM.andThen_eq_ok] at hrun
  obtain ⟨s?, m, hm, he⟩ := hrun
  obtain rfl : s? = some s := (EStateM.Result.ok.inj he).1.trans hs
  obtain rfl : _ = q := (EStateM.Result.ok.inj he).2
  rw [ParseM.optional_run] at hm
  split at hm
  · next s' r hr =>
    cases hm
    exact ⟨m, hr, rfl⟩
  · cases hm
  · cases hm

theorem Regular.isSound_of_turn {g : Segment} (hp : p.Regular) (h : p.Turn g q) :
    ∀ s ∈ g.statement?, s.IsSound := by
  intro s hs
  obtain ⟨r, hr, -⟩ := h.exists_statement s hs
  exact hp.isSound_of_statement hr

end Parser

section Segments

variable {p r : Parser} {segs : List Segment}

/-- What holds of the segment of every turn of the loop holds of all segments of a source. -/
theorem Segments.forall_of_turn {P : Segment → Prop} (h : Segments p segs r) (hp : p.Regular)
    (hP : ∀ (p q : Parser) (g : Segment), p.Regular → p.current.kind ≠ .eof → p.Turn g q → P g) :
    ∀ g ∈ segs, P g := by
  induction h with
  | done _ => exact List.forall_mem_nil _
  | turn hne ht _ ih =>
    exact List.forall_mem_cons.mpr ⟨hP _ _ _ hp hne ht, ih (hp.turn hne ht)⟩

theorem Segments.isSound (h : Segments p segs r) (hp : p.Regular) :
    ∀ s ∈ segs.filterMap Segment.statement?, s.IsSound := by
  intro s hs
  obtain ⟨g, hg, hgs⟩ := List.mem_filterMap.mp hs
  exact h.forall_of_turn hp (fun _ _ _ hq _ ht => hq.isSound_of_turn ht) g hg s hgs

end Segments

/-- **Every statement of a program is sound**, however wrong the source. -/
theorem isSound_of_parse (source : String) : ∀ s ∈ (parse source).program.statements, s.IsSound := by
  have hp := Parser.regular_ofString source
  obtain ⟨segs, r, h, -⟩ := exists_segments hp
  rw [(parse_of_segments h).2.1]
  exact h.isSound hp

end Frontend
