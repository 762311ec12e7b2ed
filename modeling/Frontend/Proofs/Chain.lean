import Frontend.Proofs.Reach

/-!
# Chains of operands and operators

What an expression is, without saying how it is read. A chain is a row of operands with binary
operators between them. Its tree is found by looking at the whole row: the operator at the top is
the loosest one, and among those that bind equally loose the last one.

* `Link`: an operator of a chain with the operand behind it;
* `Grammar.Binds`: the operators that bind tighter than a precedence;
* `Grammar.loosest?`, `Grammar.chainTree`: the place at which a chain is split, and its tree;
* `Grammar.IsOperand`, `Grammar.IsChain`: the tokens and trees of operands and chains;
* **`Grammar.chainTree_append`**: splitting at the last of the loosest operators;
* **`Grammar.chainTree_chainTree`**: what binds tighter can be put together first.
-/

namespace Frontend

/-- A binary operator in a chain, with the operand behind it. -/
structure Link where
  operator : Token
  /-- The tokens of the operand. -/
  tokens : List Token
  /-- The tree of the operand. -/
  operand : Expr
  deriving DecidableEq, Repr, Inhabited

/-- The tokens of a link. -/
def Link.all (l : Link) : List Token := l.operator :: l.tokens

namespace Grammar

variable (g : Grammar)

/-- The kind is a binary operator that binds tighter than `q`. -/
def Binds (q : Precedence) (k : Kind) : Prop := k ∈ binaryOperators ∧ q < g.powerOf k

instance (q : Precedence) (k : Kind) : Decidable (g.Binds q k) := by unfold Binds; infer_instance

/-- The binding power of a link. -/
def linkPower (l : Link) : Precedence := g.powerOf l.operator.kind

/-! ## The tree of a chain -/

/-- The last of the loosest links of a chain, with the links before it and behind it. -/
def loosest? : List Link → Option (List Link × Link × List Link)
  | [] => none
  | l :: ls =>
    match loosest? ls with
    | none => some ([], l, ls)
    | some (before, m, behind) =>
      if g.linkPower m ≤ g.linkPower l then some (l :: before, m, behind) else some ([], l, ls)

variable {g} in
theorem eq_nil_of_loosest? {ls : List Link} (h : g.loosest? ls = none) : ls = [] := by
  cases ls with
  | nil => rfl
  | cons l ls =>
    rw [loosest?] at h
    split at h
    · cases h
    · split at h <;> cases h

variable {g} in
theorem eq_of_loosest? {ls before behind : List Link} {m : Link}
    (h : g.loosest? ls = some (before, m, behind)) :
    ls = before ++ m :: behind ∧ (∀ l ∈ before, g.linkPower m ≤ g.linkPower l) ∧
      ∀ l ∈ behind, g.linkPower m < g.linkPower l := by
  induction ls generalizing before m behind with
  | nil => cases h
  | cons l ls ih =>
    rw [loosest?] at h
    cases hr : g.loosest? ls with
    | none =>
      rw [hr] at h
      cases h
      rw [eq_nil_of_loosest? hr]
      simp
    | some r =>
      obtain ⟨before', m', behind'⟩ := r
      obtain ⟨hls, hb, ha⟩ := ih hr
      rw [hr] at h
      dsimp only at h
      split at h
      · next hle =>
        cases h
        refine ⟨by rw [hls]; rfl, fun x hx => ?_, ha⟩
        rcases List.mem_cons.mp hx with rfl | hx
        · exact hle
        · exact hb x hx
      · next hle =>
        cases h
        refine ⟨rfl, fun x hx => absurd hx List.not_mem_nil, fun x hx => ?_⟩
        simp only [Precedence.lt_iff, Precedence.le_iff] at hle hb ha ⊢
        rw [hls, List.mem_append, List.mem_cons] at hx
        rcases hx with hx | rfl | hx
        · have := hb x hx; omega
        · omega
        · have := ha x hx; omega

variable {g} in
theorem loosest?_append {before behind : List Link} {m : Link}
    (hb : ∀ l ∈ before, g.linkPower m ≤ g.linkPower l)
    (ha : ∀ l ∈ behind, g.linkPower m < g.linkPower l) :
    g.loosest? (before ++ m :: behind) = some (before, m, behind) := by
  induction before with
  | nil =>
    rw [List.nil_append, loosest?]
    cases hr : g.loosest? behind with
    | none => rfl
    | some r =>
      obtain ⟨before', m', behind'⟩ := r
      have hlt := ha m' (by rw [(eq_of_loosest? hr).1]; simp)
      dsimp only
      rw [if_neg]
      simp only [Precedence.lt_iff, Precedence.le_iff] at hlt ⊢
      omega
  | cons l before ih =>
    rw [List.cons_append, loosest?, ih fun x hx => hb x (List.mem_cons_of_mem _ hx)]
    dsimp only
    rw [if_pos (hb l List.mem_cons_self)]

/-- The tree of the chain of `left` and the links `ls`: at the top is the last of the loosest
operators, between the trees of the chains on both sides of it. -/
def chainTree (left : Expr) (ls : List Link) : Expr :=
  match _h : g.loosest? ls with
  | none => left
  | some (before, m, behind) =>
    .binary m.operator m.operator.literal (chainTree left before) (chainTree m.operand behind)
termination_by ls.length
decreasing_by
  all_goals
    have := congrArg List.length (eq_of_loosest? _h).1
    simp only [List.length_append, List.length_cons] at this
    omega

@[simp] theorem chainTree_nil (left : Expr) : g.chainTree left [] = left := by
  rw [chainTree]
  rfl

variable {g} in
/-- **A chain is split at the last of its loosest operators.** -/
theorem chainTree_append {left : Expr} {before behind : List Link} {m : Link}
    (hb : ∀ l ∈ before, g.linkPower m ≤ g.linkPower l)
    (ha : ∀ l ∈ behind, g.linkPower m < g.linkPower l) :
    g.chainTree left (before ++ m :: behind) = .binary m.operator m.operator.literal
      (g.chainTree left before) (g.chainTree m.operand behind) := by
  have h := loosest?_append hb ha
  rw [chainTree]
  split
  · next hn => rw [h] at hn; cases hn
  · next hs => rw [h] at hs; cases hs; rfl

variable {g} in
theorem chainTree_cons {left : Expr} {l : Link} {ls : List Link}
    (h : ∀ x ∈ ls, g.linkPower l < g.linkPower x) :
    g.chainTree left (l :: ls) = .binary l.operator l.operator.literal left
      (g.chainTree l.operand ls) := by
  rw [← List.nil_append (l :: ls), chainTree_append (List.forall_mem_nil _) h,
    chainTree_nil]

/-- A chain that is not empty has a last one of its loosest links. -/
theorem exists_loosest {ls : List Link} (h : ls ≠ []) : ∃ before m behind,
    ls = before ++ m :: behind ∧ (∀ l ∈ before, g.linkPower m ≤ g.linkPower l) ∧
      ∀ l ∈ behind, g.linkPower m < g.linkPower l := by
  cases hr : g.loosest? ls with
  | some r => exact ⟨_, _, _, eq_of_loosest? hr⟩
  | none => exact absurd (eq_nil_of_loosest? hr) h

variable {g} in
/-- **The front of a chain can be put together first** if the next operator binds no tighter than
all of it. -/
theorem chainTree_chainTree {left : Expr} {front ls : List Link}
    (h : ∀ l ∈ ls.head?, ∀ x ∈ front, g.linkPower l ≤ g.linkPower x) :
    g.chainTree (g.chainTree left front) ls = g.chainTree left (front ++ ls) := by
  by_cases hne : ls = []
  · subst hne
    rw [chainTree_nil, List.append_nil]
  · obtain ⟨before, m, behind, rfl, hb, ha⟩ := g.exists_loosest hne
    -- the whole is split where the part `ls` is, because `front` binds tighter than its first link
    have hf : ∀ x ∈ front ++ before, g.linkPower m ≤ g.linkPower x := by
      intro x hx
      rcases List.mem_append.mp hx with hx' | hx'
      · cases before with
        | nil => exact h m (by simp) x hx'
        | cons l before =>
          exact Nat.le_trans (hb l List.mem_cons_self) (h l (by simp) x hx')
      · exact hb x hx'
    have ih : g.chainTree (g.chainTree left front) before = g.chainTree left (front ++ before) := by
      refine chainTree_chainTree fun l hl x hx => h l ?_ x hx
      cases before with
      | nil => cases hl
      | cons l' before => exact hl
    rw [chainTree_append hb ha, ← List.append_assoc, chainTree_append hf ha, ih]
termination_by ls.length

variable {g} in
/-- What holds of the operands of a chain and is kept by its operators holds of its tree. -/
theorem chainTree_induction {P : Expr → Prop} {left : Expr} {ls : List Link} (hleft : P left)
    (hl : ∀ l ∈ ls, P l.operand)
    (hb : ∀ l ∈ ls, ∀ a b, P a → P b → P (.binary l.operator l.operator.literal a b)) :
    P (g.chainTree left ls) := by
  by_cases hne : ls = []
  · subst hne
    rwa [chainTree_nil]
  · obtain ⟨before, m, behind, rfl, hbefore, hbehind⟩ := g.exists_loosest hne
    simp only [List.forall_mem_append, List.forall_mem_cons] at hl hb
    rw [chainTree_append hbefore hbehind]
    exact hb.2.1 _ _ (chainTree_induction hleft hl.1 hb.1)
      (chainTree_induction hl.2.1 hl.2.2 hb.2.2)
termination_by ls.length

variable {g} in
theorem exists_tighter_front (q : Precedence) (ls : List Link) : ∃ front rest,
    ls = front ++ rest ∧ (∀ l ∈ front, q < g.linkPower l) ∧
      ∀ l ∈ rest.head?, g.linkPower l ≤ q := by
  induction ls with
  | nil => exact ⟨[], [], rfl, by simp, by simp⟩
  | cons l ls ih =>
    by_cases h : q < g.linkPower l
    · obtain ⟨front, rest, rfl, hf, hr⟩ := ih
      refine ⟨l :: front, rest, rfl, fun x hx => ?_, hr⟩
      rcases List.mem_cons.mp hx with rfl | hx
      · exact h
      · exact hf x hx
    · refine ⟨[], l :: ls, rfl, by simp, fun x hx => ?_⟩
      cases hx
      exact Precedence.not_lt.mp h

/-! ## Operands and chains -/

/-- The kinds of token that occur in expressions. -/
def exprKinds : List Kind :=
  [.identifier, .integer, .bang, .openParen, .closeParen] ++ binaryOperators

theorem ne_eof_of_mem_exprKinds {k : Kind} (h : k ∈ exprKinds) : k ≠ .eof := by
  rintro rfl
  revert h
  decide

theorem mem_exprKinds_of_unary {k : Kind} (h : k ∈ unaryOperators) : k ∈ exprKinds := by
  revert h
  cases k <;> decide

theorem mem_exprKinds_of_binary {k : Kind} (h : k ∈ binaryOperators) : k ∈ exprKinds :=
  List.mem_append_right _ h

/-- The tokens of an operand, with its tree: an identifier or a numeral, or a chain in parentheses,
behind any number of unary operators. -/
inductive IsOperand : List Token → Expr → Prop
  | identifier {t : Token} (ht : t.kind = .identifier) :
      IsOperand [t] (.identifier ⟨t, t.literal⟩)
  | integer {t : Token} (ht : t.kind = .integer) :
      IsOperand [t] (.integer t t.value?)
  | unary {t : Token} {ts : List Token} {e : Expr} (ht : t.kind ∈ unaryOperators)
      (he : IsOperand ts e) : IsOperand (t :: ts) (.unary t t.literal e)
  | group {o c : Token} {us : List Token} {u : Expr} {ls : List Link} (ho : o.kind = .openParen)
      (hc : c.kind = .closeParen) (hu : IsOperand us u)
      (hb : ∀ l ∈ ls, g.Binds .lowest l.operator.kind)
      (hl : ∀ l ∈ ls, IsOperand l.tokens l.operand) :
      IsOperand (o :: (us ++ ls.flatMap Link.all) ++ [c]) (g.chainTree u ls)

/-- The tokens of a chain at `q`, with its tree: operands, and between them operators that bind
tighter than `q`. -/
inductive IsChain (q : Precedence) : List Token → Expr → Prop
  | intro {us : List Token} {u : Expr} {ls : List Link} (hu : g.IsOperand us u)
      (hb : ∀ l ∈ ls, g.Binds q l.operator.kind)
      (hl : ∀ l ∈ ls, g.IsOperand l.tokens l.operand) :
      IsChain q (us ++ ls.flatMap Link.all) (g.chainTree u ls)

section Phrases

variable {g} {q : Precedence} {ts : List Token} {e : Expr}

theorem IsOperand.isChain (h : g.IsOperand ts e) (q : Precedence) : g.IsChain q ts e := by
  have hc : g.IsChain q (ts ++ [].flatMap Link.all) (g.chainTree e []) :=
    .intro h (List.forall_mem_nil _) fun _ hx => absurd hx List.not_mem_nil
  rwa [List.flatMap_nil, List.append_nil, chainTree_nil] at hc

theorem IsOperand.isChain_binary {us : List Token} {u : Expr} {o : Token} (h : g.IsOperand ts e)
    (ho : g.Binds q o.kind) (hu : g.IsOperand us u) :
    g.IsChain q (ts ++ o :: us) (.binary o o.literal e u) := by
  have hc : g.IsChain q (ts ++ [⟨o, us, u⟩].flatMap Link.all) (g.chainTree e [⟨o, us, u⟩]) :=
    .intro h (by simpa using ho) (by simpa using hu)
  rwa [chainTree_cons (List.forall_mem_nil _), chainTree_nil,
    List.flatMap_singleton] at hc

theorem IsChain.group {o c : Token} (h : g.IsChain .lowest ts e) (ho : o.kind = .openParen)
    (hc : c.kind = .closeParen) : g.IsOperand (o :: ts ++ [c]) e := by
  cases h with
  | intro hu hb hl => exact .group ho hc hu hb hl

theorem IsOperand.ne_nil (h : g.IsOperand ts e) : ts ≠ [] := by
  cases h <;> simp

theorem IsChain.ne_nil (h : g.IsChain q ts e) : ts ≠ [] := by
  cases h with
  | intro hu _ _ => exact List.append_ne_nil_of_left_ne_nil hu.ne_nil _

theorem IsOperand.kind_mem (h : g.IsOperand ts e) : ∀ t ∈ ts, t.kind ∈ exprKinds := by
  induction h with
  | identifier ht | integer ht => simp [ht, exprKinds]
  | unary ht _ ih =>
    intro x hx
    rcases List.mem_cons.mp hx with rfl | hx
    · exact mem_exprKinds_of_unary ht
    · exact ih x hx
  | group ho hc _ hb _ ihu ihl =>
    intro x hx
    simp only [List.cons_append, List.mem_cons, List.mem_append, List.mem_flatMap, Link.all,
      List.not_mem_nil, or_false] at hx
    rcases hx with rfl | (hx | ⟨l, hl, rfl | hx⟩) | rfl
    · simp [ho, exprKinds]
    · exact ihu x hx
    · exact mem_exprKinds_of_binary (hb l hl).1
    · exact ihl l hl x hx
    · simp [hc, exprKinds]

theorem links_kind_mem {ls : List Link} (hb : ∀ l ∈ ls, g.Binds q l.operator.kind)
    (hl : ∀ l ∈ ls, g.IsOperand l.tokens l.operand) :
    ∀ t ∈ ls.flatMap Link.all, t.kind ∈ exprKinds := by
  intro t ht
  obtain ⟨l, hm, ht⟩ := List.mem_flatMap.mp ht
  rcases List.mem_cons.mp ht with rfl | ht
  · exact mem_exprKinds_of_binary (hb l hm).1
  · exact (hl l hm).kind_mem t ht

theorem IsChain.kind_mem (h : g.IsChain q ts e) : ∀ t ∈ ts, t.kind ∈ exprKinds := by
  cases h with
  | intro hu hb hl =>
    intro t ht
    rcases List.mem_append.mp ht with ht | ht
    · exact hu.kind_mem t ht
    · exact links_kind_mem hb hl t ht

theorem IsChain.kind_ne_eof (h : g.IsChain q ts e) : ∀ t ∈ ts, t.kind ≠ .eof :=
  fun t ht => ne_eof_of_mem_exprKinds (h.kind_mem t ht)

end Phrases

end Grammar

end Frontend
