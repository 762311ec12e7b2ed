import Frontend.Proofs.Chain
import Frontend.Proofs.Depth
import Frontend.Proofs.Passage

/-!
# What reading an expression yields

In the standard grammar, whatever the binding powers of its operators, reading an expression at `q`
yields the tree of the longest chain at `q` that the stream of tokens starts with, and is absent if
that chain breaks off.

* `Grammar.Ranked`: the standard grammar up to the binding powers of its operators;
* `Parser.Fails`: where reading breaks off, and what is recorded there;
* **`ParseM.expr_outcome`**: a result is the tree of a chain, and the only other end is a failure;
* **`ParseM.expr_of_isChain`**: the longest chain is read;
* **`ParseM.expr_eq_ok_iff`**: both together;
* **`expr_reads_longest_chain`**: the same on the stream of tokens, for any registered powers.
-/

namespace Frontend

/-! ## The standard grammar with other binding powers -/

namespace Grammar

/-- The standard grammar with any binding powers up to that of products. -/
structure Ranked (g : Grammar) : Prop where
  operand_eq : g.operand = standard.operand
  operator_eq : ∀ k, g.operator k = if k ∈ binaryOperators then some .binary else none
  power_le : ∀ k, g.powerOf k ≤ .product
  power_eq : ∀ k, k ∉ binaryOperators → g.powerOf k = .lowest

/-- The grammar with binding powers registered one after the other. -/
def withPowers (g : Grammar) (rs : List (Kind × Precedence)) : Grammar :=
  rs.foldl (fun g r => g.withOperator r.1 r.2 .binary) g

theorem ranked_standard : standard.Ranked where
  operand_eq := rfl
  operator_eq k := by cases k <;> rfl
  power_le k := by cases k <;> decide
  power_eq k := by cases k <;> decide

theorem Ranked.withOperator {g : Grammar} (h : g.Ranked) {k : Kind} {q : Precedence}
    (hk : k ∈ binaryOperators) (hq : q ≤ .product) : (g.withOperator k q .binary).Ranked where
  operand_eq := h.operand_eq
  operator_eq l := by
    by_cases hl : l = k
    · subst hl; simp [Grammar.withOperator, hk]
    · simp [Grammar.withOperator, hl, h.operator_eq]
  power_le l := by
    by_cases hl : l = k
    · subst hl; simpa [Grammar.withOperator, powerOf] using hq
    · simpa [Grammar.withOperator, hl, powerOf] using h.power_le l
  power_eq l hl := by
    have hne : l ≠ k := fun e => hl (e ▸ hk)
    simpa [Grammar.withOperator, hne, powerOf] using h.power_eq l hl

theorem Ranked.withPowers {g : Grammar} (h : g.Ranked) {rs : List (Kind × Precedence)}
    (hrs : ∀ r ∈ rs, r.1 ∈ binaryOperators ∧ r.2 ≤ .product) : (g.withPowers rs).Ranked := by
  induction rs generalizing g with
  | nil => exact h
  | cons r rs ih =>
    have hr := hrs r List.mem_cons_self
    exact ih (h.withOperator hr.1 hr.2) fun x hx => hrs x (List.mem_cons_of_mem _ hx)

/-- The kinds of token that a rule of the standard grammar is for. -/
def ruleKinds : OperandRule → List Kind
  | .identifier => [.identifier]
  | .integer => [.integer]
  | .unary => unaryOperators
  | .group => [.openParen]

theorem standard_operand_iff {k : Kind} {r : OperandRule} :
    standard.operand k = some r ↔ k ∈ ruleKinds r := by
  cases k <;> cases r <;> decide

theorem Ranked.endsAtEof {g : Grammar} (h : g.Ranked) : g.EndsAtEof :=
  ⟨by rw [h.operand_eq]; decide, by rw [h.operand_eq]; decide⟩

theorem Ranked.not_binds_unary {g : Grammar} (h : g.Ranked) (k : Kind) : ¬ g.Binds .unary k := by
  rintro ⟨-, hlt⟩
  have := h.power_le k
  simp only [Precedence.lt_iff, Precedence.le_iff, Precedence.rank] at this hlt
  omega

theorem Ranked.continues_iff {p : Parser} (h : p.grammar.Ranked) (q : Precedence) :
    p.continues q = true ↔ p.grammar.Binds q p.peek.kind := by
  simp only [Parser.continues, Bool.and_eq_true, Bool.not_eq_true', decide_eq_true_eq]
  constructor
  · rintro ⟨-, hlt⟩
    refine ⟨?_, hlt⟩
    by_contra hk
    rw [Parser.peekPower, h.power_eq _ hk] at hlt
    exact Nat.not_lt_zero _ hlt
  · rintro ⟨hk, hlt⟩
    refine ⟨?_, hlt⟩
    rw [Bool.eq_false_iff, ne_eq, Token.isOneOf_iff]
    intro hm
    revert hk hm
    cases p.peek.kind <;> decide

end Grammar

/-! ## Failure -/

namespace Parser

/-- Reading at `p` breaks off at `r`: at a token that starts no operand, or in front of one that
does not close the parenthesis that is open. Either is recorded at the end. -/
inductive Fails : Parser → Parser → Prop
  | noOperand {p : Parser} (h : p.grammar.operand p.current.kind = none) :
      Fails p (p.report (.noOperand p.current.kind))
  | unclosed {p r : Parser} {ts : List Token} (h : p.Reads ts r) (hts : ∀ t ∈ ts, t.kind ≠ .eof)
      (ho : ∃ t ∈ ts, t.kind = .openParen) (hk : r.peek.kind ≠ .closeParen) :
      Fails p (r.report (.unexpected .closeParen r.peek.kind))
  | behind {p q r : Parser} {ts : List Token} (h : p.Reads ts q) (hts : ∀ t ∈ ts, t.kind ≠ .eof)
      (hf : Fails q.advance r) : Fails p r

end Parser

namespace ParseM

open Frontend.Parser Frontend.Grammar

/-! ## The operators and their operands -/

theorem unary_run_of_mem {p : Parser} (h : p.current.kind ∈ unaryOperators) :
    (unaryWith expr).run p = Outcome.andThen ((expr .unary).run p.advance) fun right r =>
      .ok (.unary p.current p.current.literal right) r := by
  rw [unaryWith_run]
  congr 1
  funext right r
  rw [Expr.ofUnary, Form.check_of_mem (f := .unary) h]
  rfl

theorem binary_run_of_mem {p : Parser} (h : p.current.kind ∈ binaryOperators) (left : Expr) :
    (binaryWith expr left).run p = Outcome.andThen ((expr p.currentPower).run p.advance)
      fun right r => .ok (.binary p.current p.current.literal left right) r := by
  rw [binaryWith_run]
  congr 1
  funext right r
  rw [Expr.ofBinary, Form.check_of_mem (f := .binary) h]
  rfl

theorem tail_of_not_binds {p : Parser} (hg : p.grammar.Ranked) {q : Precedence}
    (h : ¬ p.grammar.Binds q p.peek.kind) (left : Expr) : (tail q left).run p = .ok left p := by
  rw [tail_eq, if_neg (mt (hg.continues_iff q).mp h)]

theorem tail_of_binds {p : Parser} (hg : p.grammar.Ranked) {q : Precedence}
    (h : p.grammar.Binds q p.peek.kind) (left : Expr) :
    (tail q left).run p = Outcome.andThen
      ((expr (p.grammar.powerOf p.peek.kind)).run p.advance.advance) fun right r =>
        (tail q (.binary p.peek p.peek.literal left right)).run r := by
  rw [tail_eq, if_pos ((hg.continues_iff q).mpr h), hg.operator_eq, if_pos h.1]
  show Outcome.andThen ((binaryWith expr left).run p.advance) _ = _
  rw [binary_run_of_mem (p := p.advance) h.1]
  show Outcome.andThen (Outcome.andThen ((expr (p.grammar.powerOf p.peek.kind)).run _) _) _ = _
  cases (expr (p.grammar.powerOf p.peek.kind)).run p.advance.advance <;> rfl

/-! ## Every result is the tree of a chain -/

/-- How reading an operand can end. -/
inductive OperandOutcome (p : Parser) : Outcome Expr → Prop
  | ok {ts : List Token} {e : Expr} {r : Parser} (h : p.Reads ts r)
      (he : p.grammar.IsOperand ts e) : OperandOutcome p (.ok e r)
  | absent {r : Parser} (h : p.Fails r) : OperandOutcome p (.error .absent r)

/-- How reading an expression at `q` can end. -/
inductive ExprOutcome (p : Parser) (q : Precedence) : Outcome Expr → Prop
  | ok {ts : List Token} {e : Expr} {r : Parser} (h : p.Reads ts r)
      (he : p.grammar.IsChain q ts e) (hr : ¬ p.grammar.Binds q r.peek.kind) :
      ExprOutcome p q (.ok e r)
  | absent {r : Parser} (h : p.Fails r) : ExprOutcome p q (.error .absent r)

/-- How reading on behind the expression `left` at `q` can end. -/
inductive TailOutcome (p : Parser) (q : Precedence) (left : Expr) : Outcome Expr → Prop
  | ok {ls : List Link} {r : Parser} (h : p.Passes (ls.flatMap Link.all) r)
      (hb : ∀ l ∈ ls, p.grammar.Binds q l.operator.kind)
      (hl : ∀ l ∈ ls, p.grammar.IsOperand l.tokens l.operand)
      (hr : ¬ p.grammar.Binds q r.peek.kind) :
      TailOutcome p q left (.ok (p.grammar.chainTree left ls) r)
  | absent {ts : List Token} {s r : Parser} (h : p.Passes ts s)
      (hts : ∀ t ∈ ts, t.kind ≠ .eof) (hf : s.advance.Fails r) :
      TailOutcome p q left (.error .absent r)

section Operand

variable {p : Parser} (hg : p.grammar.Ranked)
  (ih : ∀ c r, p.Later r → ExprOutcome r c ((expr c).run r))
include hg ih

theorem unary_outcome (hk : p.current.kind ∈ unaryOperators) :
    OperandOutcome p ((unaryWith expr).run p) := by
  have hne : p.current.kind ≠ .eof := fun e => by rw [e] at hk; revert hk; decide
  have hp : p.Reads [p.current] p := reads_current (ne_of_mem_of_not_mem hk (by decide))
  rw [unary_run_of_mem hk]
  have hx := ih .unary p.advance (later_advance hne)
  generalize (expr .unary).run p.advance = o at hx
  cases hx with
  | absent hf => exact .absent (.behind hp (by simpa using hne) hf)
  | ok h he _ =>
    -- no operator binds tighter than a unary one, so that the chain is a single operand
    cases he with
    | @intro us u ls hu hb _ =>
      obtain rfl : ls = [] := List.eq_nil_iff_forall_not_mem.mpr fun l hl =>
        hg.not_binds_unary _ (hb l hl)
      rw [List.flatMap_nil, List.append_nil] at h
      rw [chainTree_nil]
      exact .ok (hp.append (.of_reads_advance h)) (.unary hk hu)

omit hg in
theorem group_outcome (hk : p.current.kind = .openParen) :
    OperandOutcome p ((groupWith expr).run p) := by
  have hne : p.current.kind ≠ .eof := by simp [hk]
  have hp : p.Reads [p.current] p := reads_current (by simp [hk])
  rw [groupWith_run]
  have hx := ih .lowest p.advance (later_advance hne)
  generalize (expr .lowest).run p.advance = o at hx
  cases hx with
  | absent hf => exact .absent (.behind hp (by simpa using hne) hf)
  | @ok ts e r h he hr =>
    have hts : p.Reads (p.current :: ts) r := hp.append (.of_reads_advance h)
    rw [andThen_ok]
    split
    · next hc =>
      have hlast : r.Passes [r.peek] r.advance :=
        passes_peek (by simp [hc])
      exact .ok (hts.append hlast) (he.group hk hc)
    · next hc =>
      refine .absent (.unclosed hts (fun t ht => ?_) ⟨_, List.mem_cons_self, hk⟩ hc)
      rcases List.mem_cons.mp ht with rfl | ht
      · exact hne
      · exact he.kind_ne_eof t ht

theorem operand_outcome : OperandOutcome p (operand.run p) := by
  rw [operand, operandWith_run]
  cases hr : p.grammar.operand p.current.kind with
  | none => exact .absent (.noOperand hr)
  | some rule =>
    have hk := standard_operand_iff.mp (hg.operand_eq ▸ hr)
    cases rule with
    | identifier =>
      show OperandOutcome p (identifier.run p)
      have hk' : p.current.kind = .identifier := List.mem_singleton.mp hk
      rw [identifier_run, if_pos hk']
      exact .ok (reads_current (ne_of_mem_of_not_mem hk (by decide))) (.identifier hk')
    | integer =>
      show OperandOutcome p (integer.run p)
      have hk' : p.current.kind = .integer := List.mem_singleton.mp hk
      rw [integer_run, if_pos hk']
      exact .ok p.reads_singleton (.integer hk')
    | unary => exact unary_outcome hg ih hk
    | group => exact group_outcome ih (List.mem_singleton.mp hk)

end Operand

/-- The next operator with its operand and all that binds tighter is one step of the tail. -/
theorem TailOutcome.step {p r : Parser} {q : Precedence} {left u : Expr} {us : List Token}
    {ls : List Link} {o : Outcome Expr} (hb : p.grammar.Binds q p.peek.kind)
    (hp : p.Passes (p.peek :: (us ++ ls.flatMap Link.all)) r) (hu : p.grammar.IsOperand us u)
    (hbs : ∀ l ∈ ls, p.grammar.Binds (p.grammar.powerOf p.peek.kind) l.operator.kind)
    (hls : ∀ l ∈ ls, p.grammar.IsOperand l.tokens l.operand)
    (hr : ¬ p.grammar.Binds (p.grammar.powerOf p.peek.kind) r.peek.kind)
    (ho : TailOutcome r q
      (.binary p.peek p.peek.literal left (p.grammar.chainTree u ls)) o) :
    TailOutcome p q left o := by
  have hgr : r.grammar = p.grammar := hp.reaches.grammar_eq
  have hbs' : ∀ x ∈ (⟨p.peek, us, u⟩ : Link) :: ls, p.grammar.Binds q x.operator.kind := by
    intro x hx
    rcases List.mem_cons.mp hx with rfl | hx
    · exact hb
    · exact ⟨(hbs x hx).1, Nat.lt_trans hb.2 (hbs x hx).2⟩
  have hls' : ∀ x ∈ (⟨p.peek, us, u⟩ : Link) :: ls, p.grammar.IsOperand x.tokens x.operand := by
    intro x hx
    rcases List.mem_cons.mp hx with rfl | hx
    · exact hu
    · exact hls x hx
  have htree : p.grammar.chainTree left (⟨p.peek, us, u⟩ :: ls) = .binary p.peek p.peek.literal left
      (p.grammar.chainTree u ls) := chainTree_cons fun x hx => (hbs x hx).2
  rw [← htree] at ho
  cases ho with
  | absent h' hts hf =>
    refine .absent (hp.trans h') (fun t ht => ?_) hf
    rcases List.mem_append.mp ht with ht | ht
    · exact ne_eof_of_mem_exprKinds (links_kind_mem hbs' hls' t ht)
    · exact hts t ht
  | @ok ls' r' h' hb' hl' hr' =>
    rw [hgr] at hb' hl' hr' ⊢
    -- the next operator was left over, so that it binds no tighter than what is there
    have hnext : ∀ l ∈ ls'.head?, ∀ x ∈ (⟨p.peek, us, u⟩ : Link) :: ls,
        p.grammar.linkPower l ≤ p.grammar.linkPower x := by
      intro l hl x hx
      have hpeek : r.peek = l.operator := by
        cases ls' with
        | nil => cases hl
        | cons l' ls' =>
          cases hl
          exact h'.peek_eq
      have hle : p.grammar.linkPower l ≤ p.grammar.powerOf p.peek.kind := by
        refine Precedence.not_lt.mp fun hlt => hr ⟨?_, hpeek ▸ hlt⟩
        rw [hpeek]
        exact (hb' l (List.mem_of_mem_head? hl)).1
      rcases List.mem_cons.mp hx with rfl | hx
      · exact hle
      · exact Nat.le_trans hle (Nat.le_of_lt (hbs x hx).2)
    rw [chainTree_chainTree hnext]
    refine .ok ?_ (fun x hx => ?_) (fun x hx => ?_) hr'
    · rw [List.flatMap_append]
      exact hp.trans h'
    · exact (List.mem_append.mp hx).elim (hbs' x) (hb' x)
    · exact (List.mem_append.mp hx).elim (hls' x) (hl' x)

theorem tail_outcome {p : Parser} (hg : p.grammar.Ranked) (q : Precedence) (left : Expr)
    (ih : ∀ c r, p.Later r → ExprOutcome r c ((expr c).run r))
    (hrest : ∀ left' r, Applies q left p left' r → TailOutcome r q left' ((tail q left').run r)) :
    TailOutcome p q left ((tail q left).run p) := by
  by_cases hb : p.grammar.Binds q p.peek.kind
  · rw [tail_of_binds hg hb]
    have hop : p.Passes [p.peek] p.advance := passes_peek (ne_of_mem_of_not_mem hb.1 (by decide))
    have hc : p.continues q = true := (hg.continues_iff q).mpr hb
    have hx := ih (p.grammar.powerOf p.peek.kind) _ (later_of_continues hc)
    generalize hrun : (expr (p.grammar.powerOf p.peek.kind)).run p.advance.advance = o at hx
    cases hx with
    | absent hf => exact .absent hop (by simpa using continues_peek_ne_eof hc) hf
    | @ok ts e r h he hr =>
      have hp : p.Passes (p.peek :: ts) r := hop.trans (.of_reads_advance h)
      have ha : Applies q left p (.binary p.peek p.peek.literal left e) r := by
        refine ⟨hc, .binary, (hg.operator_eq _).trans (if_pos hb.1), ?_⟩
        show (binaryWith expr left).run p.advance = _
        rw [binary_run_of_mem (p := p.advance) hb.1]
        exact congrArg (Outcome.andThen · _) hrun
      cases he with
      | intro hu hbs hls => exact .step hb hp hu hbs hls hr (hrest _ r ha)
  · rw [tail_of_not_binds hg hb]
    have ht : TailOutcome p q left (.ok (p.grammar.chainTree left []) p) :=
      .ok (.refl p) (List.forall_mem_nil _)
        (List.forall_mem_nil _) hb
    rwa [chainTree_nil] at ht

/-- **An expression ends with the tree of a chain or breaks off.** -/
theorem expr_outcome {p : Parser} (hg : p.grammar.Ranked) (q : Precedence) :
    ExprOutcome p q ((expr q).run p) := by
  refine expr_induction (P := fun c r => ExprOutcome r c ((expr c).run r))
    (Q := fun c left r => TailOutcome r c left ((tail c left).run r))
    (fun c left r hgr => tail_outcome (hgr ▸ hg) c left) (fun c s hgs ih htail => ?_) q rfl
  have hs : s.grammar.Ranked := hgs ▸ hg
  rw [expr_eq hs.endsAtEof]
  have ho := operand_outcome hs ih
  generalize hrun : operand.run s = o at ho
  cases ho with
  | absent hf => exact .absent hf
  | @ok us u r h hu =>
    have hgr : r.grammar = s.grammar := h.reaches.grammar_eq
    have hus : ∀ t ∈ us, t.kind ≠ .eof := fun t ht => ne_eof_of_mem_exprKinds (hu.kind_mem t ht)
    have ht := htail u r hrun
    rw [andThen_ok]
    generalize (tail c u).run r = o at ht
    cases ht with
    | @absent ts s' r' h' hts hf =>
      exact .absent (.behind (h.append h') (List.forall_mem_append.mpr ⟨hus, hts⟩) hf)
    | @ok ls r' h' hb hl hr =>
      rw [hgr] at hb hl hr ⊢
      exact .ok (h.append h') (.intro hu hb hl) hr

/-! ## The longest chain is read -/

/-- The operand is read wherever the stream of tokens starts with its tokens. -/
def IsRead (g : Grammar) (ts : List Token) (e : Expr) : Prop :=
  ∀ p r : Parser, p.grammar = g → p.Reads ts r → operand.run p = .ok e r

section Complete

variable {g : Grammar} (hg : g.Ranked)
include hg

theorem expr_of_operand {q : Precedence} {us : List Token} {u e : Expr} {p s r : Parser}
    (hu : IsRead g us u) (hp : p.grammar = g) (h : p.Reads us s)
    (ht : (tail q u).run s = .ok e r) : (expr q).run p = .ok e r := by
  rw [expr_eq (hp ▸ hg.endsAtEof), hu p s hp h, andThen_ok, ht]

theorem tail_of_links (q : Precedence) (left : Expr) (ls : List Link)
    (hne : ∀ l ∈ ls, l.tokens ≠ []) (hl : ∀ l ∈ ls, IsRead g l.tokens l.operand)
    (hb : ∀ l ∈ ls, g.Binds q l.operator.kind) {p r : Parser} (hp : p.grammar = g)
    (h : p.Passes (ls.flatMap Link.all) r) (hr : ¬ g.Binds q r.peek.kind) :
    (tail q left).run p = .ok (g.chainTree left ls) r := by
  cases ls with
  | nil =>
    cases h
    rw [chainTree_nil, tail_of_not_binds (hp ▸ hg) (hp ▸ hr)]
  | cons l ls =>
    -- the operand of `l` takes those links with it that bind tighter than `l`
    obtain ⟨front, rest, rfl, hf, hrest⟩ := exists_tighter_front (g := g) (g.linkPower l) ls
    have hbl := hb l List.mem_cons_self
    have hmf : ∀ x ∈ front, x ∈ l :: (front ++ rest) := fun x hx => by simp [hx]
    have hmr : ∀ x ∈ rest, x ∈ l :: (front ++ rest) := fun x hx => by simp [hx]
    rw [List.flatMap_cons, List.flatMap_append, Link.all, List.cons_append] at h
    have hpeek : p.peek = l.operator := h.peek_eq
    have hop : p.advance.settle = p.advance :=
      settle_of_ne (ne_of_mem_of_not_mem (hpeek ▸ hbl.1) (by decide))
    have h₁ := h.of_cons
    rw [hop] at h₁
    obtain ⟨s, hs, h₂⟩ := h₁.split
    obtain ⟨m, hm, h₃⟩ := h₂.split
    have hgs : s.grammar = g := hs.reaches.grammar_eq.trans hp
    have hgm : m.grammar = g := hm.reaches.grammar_eq.trans hgs
    have hstop : ¬ g.Binds (g.linkPower l) m.peek.kind := by
      cases rest with
      | nil =>
        cases h₃
        exact fun hx => hr ⟨hx.1, Nat.lt_trans hbl.2 hx.2⟩
      | cons x rest =>
        rw [List.flatMap_cons, Link.all, List.cons_append] at h₃
        rw [h₃.peek_eq]
        exact fun hx => absurd (hrest x rfl) (Precedence.not_lt.not.mp (not_not.mpr hx.2))
    have hright : (expr (g.linkPower l)).run p.advance.advance =
        .ok (g.chainTree l.operand front) m :=
      expr_of_operand hg (hl l List.mem_cons_self) hp
        (hs.reads_advance (hne l List.mem_cons_self))
        (tail_of_links _ _ front (fun x hx => hne x (hmf x hx)) (fun x hx => hl x (hmf x hx))
          (fun x hx => ⟨(hb x (hmf x hx)).1, hf x hx⟩) hgs hm hstop)
    have hrec := tail_of_links q (g.chainTree left (l :: front)) rest
      (fun x hx => hne x (hmr x hx)) (fun x hx => hl x (hmr x hx)) (fun x hx => hb x (hmr x hx))
      hgm h₃ hr
    have hnext : ∀ x ∈ rest.head?, ∀ y ∈ l :: front, g.linkPower x ≤ g.linkPower y := by
      intro x hx y hy
      rcases List.mem_cons.mp hy with rfl | hy
      · exact hrest x hx
      · exact Nat.le_trans (hrest x hx) (Nat.le_of_lt (hf y hy))
    rw [tail_of_binds (hp ▸ hg) (hp ▸ hpeek ▸ hbl), hp, hpeek]
    show Outcome.andThen ((expr (g.linkPower l)).run p.advance.advance) _ = _
    rw [hright, andThen_ok, ← chainTree_cons hf, hrec, chainTree_chainTree hnext, List.cons_append]
termination_by ls.length

omit hg in
theorem operand_of_rule {p : Parser} (hp : p.grammar.Ranked) (rule : OperandRule)
    (h : p.current.kind ∈ ruleKinds rule) : operand.run p = (applyOperand expr rule).run p := by
  rw [operand, operandWith_run, hp.operand_eq, standard_operand_iff.mpr h]

theorem expr_of_links {q : Precedence} {us : List Token} {u : Expr} {ls : List Link}
    (hu : IsRead g us u) (hne : us ≠ []) (hls : ∀ l ∈ ls, l.tokens ≠ [])
    (hl : ∀ l ∈ ls, IsRead g l.tokens l.operand) (hb : ∀ l ∈ ls, g.Binds q l.operator.kind)
    {p r : Parser} (hp : p.grammar = g) (h : p.Reads (us ++ ls.flatMap Link.all) r)
    (hr : ¬ g.Binds q r.peek.kind) : (expr q).run p = .ok (g.chainTree u ls) r := by
  obtain ⟨s, hs, h'⟩ := h.split hne
  exact expr_of_operand hg hu hp hs
    (tail_of_links hg q u ls hls hl hb (hs.reaches.grammar_eq.trans hp) h' hr)

theorem isRead_of_isOperand {ts : List Token} {e : Expr} (h : g.IsOperand ts e) :
    IsRead g ts e := by
  induction h with
  | @identifier t ht =>
    intro p r hp h
    have hk : p.current.kind = .identifier := h.current_eq ▸ ht
    have hr := h.of_cons.eq_of_nil
    rw [settle_of_ne (by simp [hk])] at hr
    rw [operand_of_rule (hp ▸ hg) .identifier (by simp [ruleKinds, hk])]
    show identifier.run p = _
    rw [identifier_run, if_pos hk, h.current_eq, hr]
  | @integer t ht =>
    intro p r hp h
    have hk : p.current.kind = .integer := h.current_eq ▸ ht
    rw [operand_of_rule (hp ▸ hg) .integer (by simp [ruleKinds, hk])]
    show integer.run p = _
    rw [integer_run, if_pos hk, h.current_eq, h.of_cons.eq_of_nil]
  | @unary t ts e ht he ih =>
    intro p r hp h
    have hk : p.current.kind ∈ unaryOperators := h.current_eq ▸ ht
    have hs := h.of_cons
    rw [settle_of_ne (ne_of_mem_of_not_mem hk (by decide))] at hs
    rw [operand_of_rule (hp ▸ hg) .unary hk]
    show (unaryWith expr).run p = _
    have hs' : p.advance.Reads (ts ++ [].flatMap Link.all) r := by
      simpa using hs.reads_advance he.ne_nil
    have hx : (expr .unary).run p.advance = .ok (g.chainTree e []) r :=
      expr_of_links hg ih he.ne_nil (by simp) (by simp) (by simp) hp hs' (hg.not_binds_unary _)
    rw [unary_run_of_mem hk, hx, andThen_ok, chainTree_nil, h.current_eq]
  | @group o c us u ls ho hc hu hb hl ihu ihl =>
    intro p r hp h
    have hk : p.current.kind = .openParen := h.current_eq ▸ ho
    have hs := h.of_cons
    rw [settle_of_ne (by simp [hk])] at hs
    rw [operand_of_rule (hp ▸ hg) .group (by simp [ruleKinds, hk])]
    show (groupWith expr).run p = _
    obtain ⟨m, hm, hlast⟩ := hs.split
    have hpeek : m.peek = c := hlast.peek_eq
    have hmk : m.peek.kind = .closeParen := hpeek ▸ hc
    have hx := expr_of_links hg (q := .lowest) (p := p.advance) (r := m) ihu hu.ne_nil
      (fun l hm' => (hl l hm').ne_nil) ihl hb hp
      (hm.reads_advance (List.append_ne_nil_of_left_ne_nil hu.ne_nil _))
      (fun hbm => by have := hbm.1; rw [hmk] at this; revert this; decide)
    have hr := hlast.of_cons.eq_of_nil
    rw [settle_of_ne (p := m.advance) (by simp [hmk])] at hr
    rw [groupWith_run, hx, andThen_ok, if_pos hmk, hr]

/-- **A chain that no operator continues is read as its tree.** -/
theorem expr_of_isChain {q : Precedence} {ts : List Token} {e : Expr} (he : g.IsChain q ts e)
    {p r : Parser} (hp : p.grammar = g) (h : p.Reads ts r) (hr : ¬ g.Binds q r.peek.kind) :
    (expr q).run p = .ok e r := by
  cases he with
  | intro hu hb hl =>
    exact expr_of_links hg (isRead_of_isOperand hg hu) hu.ne_nil (fun l hm => (hl l hm).ne_nil)
      (fun l hm => isRead_of_isOperand hg (hl l hm)) hb hp h hr

end Complete

/-- **An expression is read exactly where there is a chain that no operator continues.** -/
theorem expr_eq_ok_iff {p r : Parser} (hg : p.grammar.Ranked) {q : Precedence} {e : Expr} :
    (expr q).run p = .ok e r ↔
      ∃ ts, p.grammar.IsChain q ts e ∧ p.Reads ts r ∧ ¬ p.grammar.Binds q r.peek.kind := by
  constructor
  · intro h
    have ho := expr_outcome hg q
    rw [h] at ho
    cases ho with
    | ok h he hr => exact ⟨_, he, h, hr⟩
  · rintro ⟨ts, he, h, hr⟩
    exact expr_of_isChain hg he rfl h hr

end ParseM

/-! ## Expressions on the stream of tokens -/

/-- **Precedence and associativity.** With any binding powers up to that of products registered for
the binary operators, an expression is read at `q` exactly if the stream of tokens starts with a
chain at `q` that no operator continues. It yields the tree of that chain, and stops on the last
token of it; otherwise the expression is absent. -/
theorem expr_reads_longest_chain (rs : List (Kind × Precedence))
    (hrs : ∀ r ∈ rs, r.1 ∈ binaryOperators ∧ r.2 ≤ .product) (p : Parser)
    (hp : p.grammar = Grammar.standard.withPowers rs) (q : Precedence) :
    (∀ e r, (ParseM.expr q).run p = .ok e r → ∃ ts, p.grammar.IsChain q ts e ∧ p.StartsWith ts ∧
      ¬ p.grammar.Binds q (Parser.advance^[ts.length] p).current.kind) ∧
    (∀ ts e, p.grammar.IsChain q ts e → p.StartsWith ts →
      ¬ p.grammar.Binds q (Parser.advance^[ts.length] p).current.kind →
      ∃ r, (ParseM.expr q).run p = .ok e r ∧ ts.getLast? = some r.current ∧
        r.window = (Parser.advance^[ts.length - 1] p).window) ∧
    ∀ s r, (ParseM.expr q).run p = .error s r → s = .absent := by
  have hg : p.grammar.Ranked := hp ▸ Grammar.ranked_standard.withPowers hrs
  refine ⟨fun e r h => ?_, fun ts e he hs hn => ?_, fun s r h => ?_⟩
  · obtain ⟨ts, he, hts, hr⟩ := (ParseM.expr_eq_ok_iff hg).mp h
    exact ⟨ts, he, hts.startsWith, hts.peek_eq ▸ hr⟩
  · obtain ⟨r, hr⟩ := Parser.exists_reads hs he.ne_nil
    exact ⟨r, ParseM.expr_of_isChain hg he rfl hr (hr.peek_eq ▸ hn), hr.getLast?_eq, hr.window_eq⟩
  · have ho := ParseM.expr_outcome hg q
    rw [h] at ho
    cases ho
    rfl

/-- A sum that is registered to bind like a product groups with products to the left. -/
theorem expr_reads_sum_as_product :
    (∀ r ∈ [(Kind.plus, Precedence.product)], r.1 ∈ binaryOperators ∧ r.2 ≤ .product) ∧
    ∃ e r, (ParseM.expr .lowest).run { Parser.ofString "-a + b * (c);" with
        grammar := Grammar.standard.withPowers [(.plus, .product)] } = .ok e r ∧
      e.render = "(((-a) + b) * c)" ∧ r.current = .ofKind .closeParen := by
  have hrs : ∀ r ∈ [(Kind.plus, Precedence.product)], r.1 ∈ binaryOperators ∧ r.2 ≤ .product := by
    decide
  let p : Parser := { Parser.ofString "-a + b * (c);" with
    grammar := Grammar.standard.withPowers [(.plus, .product)] }
  let name (s : String) : Expr := .identifier ⟨⟨.identifier, s⟩, s⟩
  let plus : Link := ⟨.ofKind .plus, [⟨.identifier, "b"⟩], name "b"⟩
  let star : Link :=
    ⟨.ofKind .star, [.ofKind .openParen, ⟨.identifier, "c"⟩, .ofKind .closeParen], name "c"⟩
  let ls : List Link := [plus] ++ [star]
  have hu : p.grammar.IsOperand [.ofKind .minus, ⟨.identifier, "a"⟩]
      (.unary (.ofKind .minus) "-" (name "a")) := .unary (by decide) (.identifier rfl)
  have hb : ∀ l ∈ ls, p.grammar.Binds .lowest l.operator.kind := by decide
  have hl : ∀ l ∈ ls, p.grammar.IsOperand l.tokens l.operand := by
    intro l hl
    rcases List.mem_append.mp hl with hl | hl
    · rw [List.mem_singleton.mp hl]
      exact .identifier rfl
    · rw [List.mem_singleton.mp hl]
      exact ((Grammar.IsOperand.identifier rfl).isChain .lowest).group rfl rfl
  have htree : p.grammar.chainTree (.unary (.ofKind .minus) "-" (name "a")) ls =
      .binary (.ofKind .star) "*" (.binary (.ofKind .plus) "+"
        (.unary (.ofKind .minus) "-" (name "a")) (name "b")) (name "c") := by
    rw [Grammar.chainTree_append (by decide) (by decide), Grammar.chainTree_cons (by decide),
      Grammar.chainTree_nil, Grammar.chainTree_nil]
    rfl
  obtain ⟨r, hr, hlast, -⟩ := (expr_reads_longest_chain _ hrs p rfl .lowest).2.1 _ _
    (.intro hu hb hl) (by decide +kernel) (by decide +kernel)
  refine ⟨hrs, _, r, hr, ?_, (Option.some.inj hlast).symm⟩
  rw [htree]
  decide +kernel

end Frontend
