import Frontend.Proofs.Sequence

/-!
# The language

The grammar of programs on the level of token kinds. It does not say where a statement ends if the
next one begins with an operator, and it knows neither trees nor binding powers. A source is read
without complaint exactly if it belongs to the language and its numerals are in range.

* `Nonterminal`, `Derives`: the grammar;
* `Nonterminal.HasTree`: the tokens of a phrase that has a tree;
* **`derives_iff_hasTree`**: the words of the grammar are the phrases with trees;
* **`parse_diagnostics_eq_nil_iff`**: the sources that are read without complaint.
-/

namespace Frontend

/-! ## The grammar -/

/-- The nonterminals of the grammar. -/
inductive Nonterminal where
  | operand
  | expression
  /-- A statement without the semicolon behind it. -/
  | clause
  | statement
  | program
  deriving DecidableEq, Repr, Inhabited

/-- The words of the grammar. -/
inductive Derives : Nonterminal → List Kind → Prop
  | identifier : Derives .operand [.identifier]
  | integer : Derives .operand [.integer]
  | unary {k : Kind} {w : List Kind} (hk : k ∈ unaryOperators) (h : Derives .operand w) :
      Derives .operand (k :: w)
  | group {w : List Kind} (h : Derives .expression w) :
      Derives .operand (.openParen :: w ++ [.closeParen])
  | single {w : List Kind} (h : Derives .operand w) : Derives .expression w
  | binary {k : Kind} {v w : List Kind} (hv : Derives .expression v) (hk : k ∈ binaryOperators)
      (hw : Derives .operand w) : Derives .expression (v ++ k :: w)
  | binding {w : List Kind} (h : Derives .expression w) :
      Derives .clause (.letWord :: .identifier :: .assign :: w)
  | returning {w : List Kind} (h : Derives .expression w) : Derives .clause (.returnWord :: w)
  | expression {w : List Kind} (h : Derives .expression w) : Derives .clause w
  | bare {w : List Kind} (h : Derives .clause w) : Derives .statement w
  | closed {w : List Kind} (h : Derives .clause w) : Derives .statement (w ++ [.semicolon])
  | empty : Derives .program []
  | cons {v w : List Kind} (hv : Derives .statement v) (hw : Derives .program w) :
      Derives .program (v ++ w)

/-- The tokens are a phrase of the nonterminal that has a tree. -/
def Nonterminal.HasTree (ts : List Token) : Nonterminal → Prop
  | operand => ∃ e, Grammar.standard.IsOperand ts e
  | expression => ∃ e, Grammar.standard.IsChain .lowest ts e
  | clause => ∃ s, Grammar.standard.IsStatement ts s
  | statement => ∃ s, Grammar.standard.IsTerminated ts s
  | program => ∃ ss, Grammar.standard.IsSequence ts ss

open Grammar

/-! ## From trees to words -/

/-- The links of a chain extend a word of the language. -/
theorem derives_links {v : List Kind} {ls : List Link} (hv : Derives .expression v)
    (hb : ∀ l ∈ ls, l.operator.kind ∈ binaryOperators)
    (hl : ∀ l ∈ ls, Derives .operand (l.tokens.map Token.kind)) :
    Derives .expression (v ++ (ls.flatMap Link.all).map Token.kind) := by
  induction ls generalizing v with
  | nil => simpa using hv
  | cons l ls ih =>
    obtain ⟨hb, hbs⟩ := List.forall_mem_cons.mp hb
    obtain ⟨hl, hls⟩ := List.forall_mem_cons.mp hl
    simpa [Link.all] using ih (.binary hv hb hl) hbs hls

theorem derives_of_isOperand {ts : List Token} {e : Expr} (h : standard.IsOperand ts e) :
    Derives .operand (ts.map Token.kind) := by
  induction h with
  | identifier ht => simpa [ht] using .identifier
  | integer ht => simpa [ht] using .integer
  | unary ht _ ih => exact .unary ht ih
  | group ho hc _ hb _ ihu ihl =>
    have h := Derives.group (derives_links (.single ihu) (fun l hl => (hb l hl).1) ihl)
    simpa [ho, hc] using h

theorem derives_of_isChain {q : Precedence} {ts : List Token} {e : Expr}
    (h : standard.IsChain q ts e) : Derives .expression (ts.map Token.kind) := by
  cases h with
  | intro hu hb hl =>
    rw [List.map_append]
    exact derives_links (.single (derives_of_isOperand hu)) (fun l hm => (hb l hm).1)
      fun l hm => derives_of_isOperand (hl l hm)

theorem derives_of_isStatement {ts : List Token} {s : Statement} (h : standard.IsStatement ts s) :
    Derives .clause (ts.map Token.kind) := by
  cases h with
  | binding ht hn ha he => simpa [ht, hn, ha] using .binding (derives_of_isChain he)
  | returning ht he => simpa [ht] using .returning (derives_of_isChain he)
  | expression he => exact .expression (derives_of_isChain he)

theorem derives_of_isTerminated {ts : List Token} {s : Statement}
    (h : standard.IsTerminated ts s) : Derives .statement (ts.map Token.kind) := by
  cases h with
  | bare h => exact .bare (derives_of_isStatement h)
  | closed h hc => simpa [hc] using .closed (derives_of_isStatement h)

theorem derives_of_isSequence {ts : List Token} {ss : List Statement}
    (h : standard.IsSequence ts ss) : Derives .program (ts.map Token.kind) := by
  induction h with
  | nil => exact .empty
  | cons hs _ _ ih =>
    rw [List.map_append]
    exact .cons (derives_of_isTerminated hs) ih

/-! ## From words to trees -/

theorem hasTree_of_derives {n : Nonterminal} {w : List Kind} (h : Derives n w) {ts : List Token}
    (hts : ts.map Token.kind = w) : n.HasTree ts := by
  induction h generalizing ts with
  | identifier =>
    obtain ⟨t, us, rfl, ht, hu⟩ := List.map_eq_cons_iff.mp hts
    obtain rfl := List.map_eq_nil_iff.mp hu
    exact ⟨_, .identifier ht⟩
  | integer =>
    obtain ⟨t, us, rfl, ht, hu⟩ := List.map_eq_cons_iff.mp hts
    obtain rfl := List.map_eq_nil_iff.mp hu
    exact ⟨_, .integer ht⟩
  | unary hk _ ih =>
    obtain ⟨t, us, rfl, rfl, hu⟩ := List.map_eq_cons_iff.mp hts
    obtain ⟨e, he⟩ := ih hu
    exact ⟨_, .unary hk he⟩
  | group _ ih =>
    obtain ⟨us, vs, rfl, hu, hv⟩ := List.map_eq_append_iff.mp hts
    obtain ⟨o, us, rfl, ho, hu⟩ := List.map_eq_cons_iff.mp hu
    obtain ⟨c, vs, rfl, hc, hv⟩ := List.map_eq_cons_iff.mp hv
    obtain rfl := List.map_eq_nil_iff.mp hv
    obtain ⟨e, he⟩ := ih hu
    exact ⟨e, he.group ho hc⟩
  | single _ ih =>
    obtain ⟨e, he⟩ := ih hts
    exact ⟨e, he.isChain .lowest⟩
  | binary _ hk _ ihv ihw =>
    obtain ⟨us, vs, rfl, hu, hv⟩ := List.map_eq_append_iff.mp hts
    obtain ⟨o, vs, rfl, rfl, hw⟩ := List.map_eq_cons_iff.mp hv
    obtain ⟨e, he⟩ := ihv hu
    obtain ⟨u, hu⟩ := ihw hw
    exact he.join (standard_binds hk) (hu.isChain .lowest)
  | binding _ ih =>
    obtain ⟨t, us, rfl, ht, hu⟩ := List.map_eq_cons_iff.mp hts
    obtain ⟨n, us, rfl, hn, hu⟩ := List.map_eq_cons_iff.mp hu
    obtain ⟨a, us, rfl, ha, hu⟩ := List.map_eq_cons_iff.mp hu
    obtain ⟨e, he⟩ := ih hu
    exact ⟨_, .binding ht hn ha he⟩
  | returning _ ih =>
    obtain ⟨t, us, rfl, ht, hu⟩ := List.map_eq_cons_iff.mp hts
    obtain ⟨e, he⟩ := ih hu
    exact ⟨_, .returning ht he⟩
  | expression _ ih =>
    obtain ⟨e, he⟩ := ih hts
    obtain ⟨t, us, rfl⟩ := List.exists_cons_of_ne_nil he.ne_nil
    exact ⟨_, .expression he⟩
  | bare _ ih =>
    obtain ⟨s, hs⟩ := ih hts
    exact ⟨s, .bare hs⟩
  | closed _ ih =>
    obtain ⟨us, vs, rfl, hu, hv⟩ := List.map_eq_append_iff.mp hts
    obtain ⟨c, vs, rfl, hc, hv⟩ := List.map_eq_cons_iff.mp hv
    obtain rfl := List.map_eq_nil_iff.mp hv
    obtain ⟨s, hs⟩ := ih hu
    exact ⟨s, .closed hs hc⟩
  | empty =>
    obtain rfl := List.map_eq_nil_iff.mp hts
    exact ⟨[], .nil⟩
  | cons _ _ ihv ihw =>
    obtain ⟨us, vs, rfl, hu, hv⟩ := List.map_eq_append_iff.mp hts
    obtain ⟨s, hs⟩ := ihv hu
    obtain ⟨ss, hss⟩ := ihw hv
    exact exists_isSequence_append hs hss

/-- **The words of the grammar are the phrases that have trees.** -/
theorem derives_iff_hasTree {n : Nonterminal} {ts : List Token} :
    Derives n (ts.map Token.kind) ↔ n.HasTree ts := by
  constructor
  · intro h
    exact hasTree_of_derives h rfl
  · intro h
    cases n with
    | operand => obtain ⟨e, h⟩ := h; exact derives_of_isOperand h
    | expression => obtain ⟨e, h⟩ := h; exact derives_of_isChain h
    | clause => obtain ⟨s, h⟩ := h; exact derives_of_isStatement h
    | statement => obtain ⟨s, h⟩ := h; exact derives_of_isTerminated h
    | program => obtain ⟨ss, h⟩ := h; exact derives_of_isSequence h

/-! ## Sources without complaint -/

/-- Whole segments are a program of the language. -/
theorem derives_segments {segs : List Segment} (h : ∀ s ∈ segs, s.IsWhole) :
    Derives .program ((segs.flatMap Segment.tokens).map Token.kind) := by
  induction segs with
  | nil => exact .empty
  | cons s segs ih =>
    obtain ⟨hs, hss⟩ := List.forall_mem_cons.mp h
    obtain ⟨st, -, hst⟩ := hs.statement
    rw [List.flatMap_cons, List.map_append]
    exact .cons (derives_of_isTerminated hst) (ih hss)

theorem overlarge_eq_nil_iff {ts : List Token} :
    overlarge ts = [] ↔ ∀ t ∈ ts, t.kind = .integer →
      Numeral.value t.literal.toList ≤ Numeral.limit := by
  simp only [overlarge, List.map_eq_nil_iff, List.filter_eq_nil_iff, decide_eq_true_eq]
  simp only [Token.IsOverlarge, not_and, Nat.not_lt]

/-- **The language is what is read without complaint.** Reading a source reports nothing exactly if
the kinds of its tokens are a program of the grammar and each of its numerals denotes a number in
range. -/
theorem parse_diagnostics_eq_nil_iff (source : String) :
    (parse source).diagnostics = [] ↔
      Derives .program ((tokenize source).dropLast.map Token.kind) ∧
      ∀ t ∈ tokenize source, t.kind = .integer →
        Numeral.value t.literal.toList ≤ Numeral.limit := by
  have htok := Parser.tokens_ofString source
  rw [← htok, List.dropLast_concat, derives_iff_hasTree]
  have hnum : (∀ t ∈ (Parser.ofString source).tokens ++ [Token.eof], t.kind = .integer →
      Numeral.value t.literal.toList ≤ Numeral.limit) ↔
      overlarge (Parser.ofString source).tokens = [] := by
    rw [overlarge_eq_nil_iff, List.forall_mem_append]
    simp [Numeral.limit]
  rw [hnum]
  constructor
  · intro hd
    obtain ⟨segs, r, h, hall⟩ := exists_segments (Parser.regular_ofString source)
    obtain ⟨ht, -, hds⟩ := parse_of_segments h
    rw [hd, eq_comm, List.flatMap_eq_nil_iff] at hds
    have hwhole : ∀ s ∈ segs, s.IsWhole := fun s hm => by
      refine (hall s hm).resolve_right fun hb => ?_
      obtain ⟨ds, d, he, -, -⟩ := hb.diagnostics
      simp [hds s hm] at he
    rw [← htok, List.append_cancel_right_eq] at ht
    obtain ⟨ss, hss⟩ : Nonterminal.program.HasTree (Parser.ofString source).tokens :=
      derives_iff_hasTree.mp (ht ▸ derives_segments hwhole)
    exact ⟨⟨ss, hss⟩, (parse_of_isSequence hss htok.symm).2.symm.trans hd⟩
  · rintro ⟨⟨ss, h⟩, hn⟩
    obtain ⟨-, hd⟩ := parse_of_isSequence h htok.symm
    rw [hd, hn]

end Frontend
