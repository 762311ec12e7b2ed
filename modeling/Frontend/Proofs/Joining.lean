import Frontend.Proofs.Listing
import Frontend.Proofs.Spacing
import Frontend.Proofs.Yield

/-!
# Programs without separators

The rendering of a program puts nothing between its statements. Where a word meets a word, or a
numeral a numeral, the two are read as one. Everything else is read back.

* `runs`: the number of words and numerals in a text;
* **`runs_of_isLayout`**: it is that of the tokens of the text;
* `Statement.Merges`: statements whose renderings meet in the middle of a literal;
* **`isLayout_join`**: statements none of which merges with the next one are a layout of their tokens;
* **`isChain_of_alike`**: a word that is lost by merging is not made up for elsewhere;
* **`parse_join_iff`**: the programs that are read back.
-/

namespace Frontend

/-! ## Runs of letters and digits -/

/-- The characters belong to one literal where they stand next to each other: both are letters, or
both are digits. -/
def Joins (c d : Char) : Prop :=
  (isLetter c = true ∧ isLetter d = true) ∨ (c.isDigit = true ∧ d.isDigit = true)

instance (c d : Char) : Decidable (Joins c d) := by unfold Joins; infer_instance

theorem Joins.left {c d : Char} (h : Joins c d) : Joins c c :=
  h.imp (fun h => ⟨h.1, h.1⟩) fun h => ⟨h.1, h.1⟩

instance (c : Char) (o : Option Char) : Decidable (∀ d ∈ o, ¬ Joins c d) :=
  Option.decidableForallMem o

/-- The number of words and numerals in a text. Each is counted at its last character. -/
def runs : List Char → Nat
  | [] => 0
  | c :: cs => (if Joins c c ∧ ∀ d ∈ cs.head?, ¬ Joins c d then 1 else 0) + runs cs

@[simp] theorem runs_nil : runs [] = 0 := rfl

theorem runs_cons (c : Char) (cs : List Char) :
    runs (c :: cs) = (if Joins c c ∧ ∀ d ∈ cs.head?, ¬ Joins c d then 1 else 0) + runs cs := rfl

theorem runs_singleton (c : Char) : runs [c] = if Joins c c then 1 else 0 := by
  simp [runs]

theorem runs_cons_of_joins {c d : Char} (h : Joins c d) (cs : List Char) :
    runs (c :: d :: cs) = runs (d :: cs) := by
  rw [runs_cons, if_neg fun hc => hc.2 d rfl h, Nat.zero_add]

theorem runs_cons_of_not_joins {c : Char} {cs : List Char} (h : ∀ d ∈ cs.head?, ¬ Joins c d) :
    runs (c :: cs) = runs [c] + runs cs := by
  rw [runs_cons, runs_singleton]
  exact congrArg (· + runs cs) (if_congr (and_iff_left h) rfl rfl)

/-- What is in front of a character is counted without what is behind it. -/
theorem runs_append_cons (as : List Char) (c : Char) (bs : List Char) :
    runs (as ++ c :: bs) + runs [c] = runs (as ++ [c]) + runs (c :: bs) := by
  induction as with
  | nil => exact Nat.add_comm _ _
  | cons a as ih =>
    have hhead : (as ++ c :: bs).head? = (as ++ [c]).head? := by cases as <;> rfl
    rw [List.cons_append, List.cons_append, runs_cons a, runs_cons a, hhead, Nat.add_assoc, ih,
      Nat.add_assoc]

theorem runs_append {as bs : List Char} (h : ∀ c ∈ as.getLast?, ∀ d ∈ bs.head?, ¬ Joins c d) :
    runs (as ++ bs) = runs as + runs bs := by
  rcases List.eq_nil_or_concat as with rfl | ⟨as, c, rfl⟩
  · simp
  · have hcount := runs_append_cons as c bs
    rw [runs_cons_of_not_joins (h c (by simp))] at hcount
    rw [List.concat_eq_append, List.append_assoc, List.singleton_append]
    omega

/-- Where two runs meet in one, there is one run less. -/
theorem runs_append_of_joins {as bs : List Char}
    (h : ∃ c ∈ as.getLast?, ∃ d ∈ bs.head?, Joins c d) :
    runs (as ++ bs) + 1 = runs as + runs bs := by
  obtain ⟨c, hc, d, hd, hcd⟩ := h
  obtain ⟨as, rfl⟩ := List.getLast?_eq_some_iff.mp hc
  obtain ⟨bs, rfl⟩ := List.head?_eq_some_iff.mp hd
  have hcount := runs_append_cons as c (d :: bs)
  rw [runs_cons_of_joins hcd, runs_singleton, if_pos hcd.left] at hcount
  rw [List.append_assoc, List.singleton_append]
  exact hcount

theorem runs_append_le (as bs : List Char) : runs (as ++ bs) ≤ runs as + runs bs := by
  by_cases h : ∃ c ∈ as.getLast?, ∃ d ∈ bs.head?, Joins c d
  · have := runs_append_of_joins h
    omega
  · refine Nat.le_of_eq (runs_append fun c hc d hd hcd => h ⟨c, hc, d, hd, hcd⟩)

theorem runs_eq_zero {l : List Char} (h : ∀ c ∈ l, ¬ Joins c c) : runs l = 0 := by
  induction l with
  | nil => rfl
  | cons c l ih =>
    obtain ⟨hc, hl⟩ := List.forall_mem_cons.mp h
    rw [runs_cons, if_neg fun hj => hc hj.1, ih hl]

theorem runs_eq_one {l : List Char} (hne : l ≠ []) (h : ∀ c ∈ l, ∀ d ∈ l, Joins c d) :
    runs l = 1 := by
  induction l with
  | nil => exact absurd rfl hne
  | cons c l ih =>
    cases l with
    | nil => rw [runs_singleton, if_pos (h c List.mem_cons_self c List.mem_cons_self)]
    | cons d l =>
      rw [runs_cons_of_joins (h c List.mem_cons_self d (by simp))]
      exact ih (by simp) fun x hx y hy =>
        h x (List.mem_cons_of_mem c hx) y (List.mem_cons_of_mem c hy)

/-! ## Words and numerals -/

/-- The kind of a word or of a numeral. -/
def Kind.IsAtom (k : Kind) : Prop := k.IsWord ∨ k = .integer

instance (k : Kind) : Decidable k.IsAtom := by unfold Kind.IsAtom; infer_instance

/-- The number of words and numerals among tokens. -/
def atoms (ts : List Token) : Nat := ts.countP fun t => t.kind.IsAtom

theorem atoms_append (ts us : List Token) : atoms (ts ++ us) = atoms ts + atoms us :=
  List.countP_append ..

theorem atoms_content (ts : List Token) : atoms (content ts) = atoms ts := by
  rw [atoms, content, List.countP_filter]
  refine List.countP_congr fun t _ => ?_
  have hk : t.kind.IsAtom → t.kind ∉ scaffolding := by
    generalize t.kind = k
    cases k <;> decide
  simpa using hk

theorem Token.joins_iff_of_mem {t : Token} (ht : t.IsScannable) {c d : Char}
    (hc : c ∈ t.literal.toList) (hd : d ∈ t.literal.toList) : Joins c d ↔ t.kind.IsAtom := by
  obtain ⟨hcl, hcd⟩ := isLetter_iff_of_mem ht hc
  obtain ⟨hdl, hdd⟩ := isLetter_iff_of_mem ht hd
  rw [Joins, hcl, hdl, hcd, hdd, and_self, and_self]
  rfl

theorem Token.runs_literal {t : Token} (ht : t.IsScannable) :
    runs t.literal.toList = atoms [t] := by
  by_cases hk : t.kind.IsAtom
  · rw [runs_eq_one (literal_ne_nil ht) fun c hc d hd => (joins_iff_of_mem ht hc hd).mpr hk]
    simp [atoms, hk]
  · rw [runs_eq_zero fun c hc hj => hk ((joins_iff_of_mem ht hc hc).mp hj)]
    simp [atoms, hk]

theorem not_joins_of_isBlank {c : Char} (h : isBlank c = true) (d : Char) : ¬ Joins c d := by
  rintro (⟨hl, -⟩ | ⟨hd, -⟩)
  · rw [isBlank_of_isLetter hl] at h
    cases h
  · rw [isBlank_of_isDigit hd] at h
    cases h

/-- A literal does not join a text that does not continue it. -/
theorem Token.not_joins_of_endsAt {t : Token} (ht : t.IsScannable) {cs : List Char}
    (he : t.kind.EndsAt cs) : ∀ c ∈ t.literal.toList.getLast?, ∀ d ∈ cs.head?, ¬ Joins c d := by
  intro c hc d hd
  obtain ⟨hl, hn⟩ := isLetter_iff_of_mem ht (List.mem_of_getLast? hc)
  obtain ⟨hel, hen, -⟩ := he d hd
  rintro (⟨hcl, hdl⟩ | ⟨hcd, hdd⟩)
  · exact Bool.eq_false_iff.mp (hel (hl.mp hcl)) hdl
  · exact Bool.eq_false_iff.mp (hen (hn.mp hcd)) hdd

/-- **A text has as many words and numerals as its tokens.** -/
theorem runs_of_isLayout {ts : List Token} {cs : List Char} (h : IsLayout ts cs) :
    runs cs = atoms ts := by
  have hblank : ∀ {w : List Char}, w.all isBlank = true → ∀ c ∈ w, ∀ d, ¬ Joins c d :=
    fun hw c hc => not_joins_of_isBlank (List.all_eq_true.mp hw c hc)
  induction h with
  | nil hw => exact runs_eq_zero fun c hc => hblank hw c hc c
  | @cons w cs t ts hw ht he _ ih =>
    rw [runs_append fun c hc d _ => hblank hw c (List.mem_of_getLast? hc) d,
      runs_eq_zero fun c hc => hblank hw c hc c, runs_append (t.not_joins_of_endsAt ht he),
      t.runs_literal ht, ih, Nat.zero_add, ← atoms_append]
    rfl

/-! ## Statements that merge -/

namespace Token

variable {t u : Token}

theorem fuses_identifier (hk : t.kind = .identifier) : t.Fuses u ↔ u.kind.IsWord := by
  have hw : Kind.identifier.IsWord := by decide
  simp [Fuses, hk, hw]

theorem fuses_integer (hk : t.kind = .integer) : t.Fuses u ↔ u.kind = .integer := by
  have hw : ¬ Kind.integer.IsWord := by decide
  simp [Fuses, hk, hw]

theorem not_fuses (hk : t.kind ∈ [Kind.semicolon, .closeParen]) : ¬ t.Fuses u := by
  have hne : ¬ t.kind.IsWord ∧ t.kind ≠ .integer ∧ t.kind ≠ .assign ∧ t.kind ≠ .bang := by
    revert hk
    generalize t.kind = k
    cases k <;> decide
  simp [Fuses, hne]

end Token

/-- What holds of all characters holds of the first and of the last one. -/
theorem exists_mem_ends {l : List Char} {p : Char → Bool} (hne : l ≠ []) (h : l.all p = true) :
    (∃ c ∈ l.head?, p c = true) ∧ ∃ c ∈ l.getLast?, p c = true := by
  have hall := List.all_eq_true.mp h
  exact ⟨⟨_, List.head?_eq_some_head hne, hall _ (List.head_mem hne)⟩,
    ⟨_, List.getLast?_eq_some_getLast hne, hall _ (List.getLast_mem hne)⟩⟩

theorem Identifier.WellFormed.letters {n : Identifier} (h : n.WellFormed) :
    (∃ c ∈ n.value.toList.head?, isLetter c = true) ∧
      ∃ c ∈ n.value.toList.getLast?, isLetter c = true := by
  obtain ⟨-, hne, hl, -, hv⟩ := h
  rw [hv]
  exact exists_mem_ends hne hl

namespace Statement

/-- With nothing between them, the renderings meet in the middle of a word or of a numeral. -/
def Merges : Statement → Statement → Prop
  | expression _ (some (.identifier _)), binding .. => True
  | expression _ (some (.identifier _)), returning .. => True
  | expression _ (some (.identifier _)), expression _ (some (.identifier _)) => True
  | expression _ (some (.integer ..)), expression _ (some (.integer ..)) => True
  | _, _ => False

instance (s s' : Statement) : Decidable (s.Merges s') := by
  unfold Merges
  split <;> infer_instance

theorem merges_anchor {s s' : Statement} : s.anchor.Merges s'.anchor ↔ s.Merges s' := by
  rcases s with _ | _ | ⟨t, _ | _ | _ | _ | _⟩ <;>
    rcases s' with _ | _ | ⟨t', _ | _ | _ | _ | _⟩ <;> rfl

theorem tokens_ne_nil {s : Statement} (h : s.WellFormed) : s.tokens ≠ [] :=
  (isTerminated_tokens h).ne_nil

/-- What a statement begins with tells what it is, but for operations. -/
theorem head_cases {s : Statement} (hs : s.WellFormed) {u : Token} (hu : u ∈ s.tokens.head?) :
    (u.kind = .letWord ∧ ∃ t name value, s = binding t name value) ∨
      (u.kind = .returnWord ∧ ∃ t value, s = returning t value) ∨
      (u.kind = .identifier ∧ ∃ t n, s = expression t (some (.identifier n))) ∨
      (u.kind = .integer ∧ ∃ t i value, s = expression t (some (.integer i value))) ∨
      u.kind = .openParen := by
  unfold WellFormed at hs
  split at hs
  · obtain ⟨rfl, -⟩ := hs
    obtain rfl : .ofKind .letWord = u := by simpa [tokens] using hu
    exact .inl ⟨rfl, _, _, _, rfl⟩
  · obtain ⟨rfl, -⟩ := hs
    obtain rfl : .ofKind .returnWord = u := by simpa [tokens] using hu
    exact .inr (.inl ⟨rfl, _, _, rfl⟩)
  · next t e =>
    cases e with
    | identifier n =>
      obtain rfl : n.token = u := by simpa [tokens, partTokens, Expr.tokens] using hu
      exact .inr (.inr (.inl ⟨hs.2.1, _, _, rfl⟩))
    | integer i value =>
      obtain rfl : i = u := by simpa [tokens, partTokens, Expr.tokens] using hu
      exact .inr (.inr (.inr (.inl ⟨hs.2.1, _, _, _, rfl⟩)))
    | unary | binary =>
      obtain rfl : .ofKind .openParen = u := by simpa [tokens, partTokens, Expr.tokens] using hu
      exact .inr (.inr (.inr (.inr rfl)))
  · exact hs.elim

/-- Only statements that merge have tokens that fuse where they meet. -/
theorem merges_of_fuses {s s' : Statement} (hs : s.WellFormed) (hs' : s'.WellFormed) :
    ∀ t ∈ s.tokens.getLast?, ∀ u ∈ s'.tokens.head?, t.Fuses u → s.Merges s' := by
  intro t ht u hu hf
  have hhead := head_cases hs' hu
  unfold WellFormed at hs
  split at hs
  · obtain rfl : .ofKind .semicolon = t := Option.some.inj (List.getLast?_concat.symm.trans ht)
    exact absurd hf (Token.not_fuses (by decide))
  · obtain rfl : .ofKind .semicolon = t := Option.some.inj (List.getLast?_concat.symm.trans ht)
    exact absurd hf (Token.not_fuses (by decide))
  · next k e =>
    cases e with
    | identifier n =>
      obtain rfl : n.token = t := by simpa [tokens, partTokens, Expr.tokens] using ht
      have hw := (Token.fuses_identifier hs.2.1).mp hf
      rcases hhead with ⟨-, _, _, _, rfl⟩ | ⟨-, _, _, rfl⟩ | ⟨-, _, _, rfl⟩ | ⟨hk, -⟩ | hk
      · trivial
      · trivial
      · trivial
      · exact absurd (hk ▸ hw) (by decide)
      · exact absurd (hk ▸ hw) (by decide)
    | integer i value =>
      obtain rfl : i = t := by simpa [tokens, partTokens, Expr.tokens] using ht
      have hi := (Token.fuses_integer hs.2.1).mp hf
      rcases hhead with ⟨hk, -⟩ | ⟨hk, -⟩ | ⟨hk, -⟩ | ⟨-, _, _, _, rfl⟩ | hk
      · exact absurd (hk.symm.trans hi) (by decide)
      · exact absurd (hk.symm.trans hi) (by decide)
      · exact absurd (hk.symm.trans hi) (by decide)
      · trivial
      · exact absurd (hk.symm.trans hi) (by decide)
    | unary | binary =>
      obtain rfl : .ofKind .closeParen = t := Option.some.inj (List.getLast?_concat.symm.trans ht)
      exact absurd hf (Token.not_fuses (by decide))
  · exact hs.elim

/-- The renderings of statements that merge meet in the middle of a literal. -/
theorem joins_of_merges {s s' : Statement} (hs : s.WellFormed) (hs' : s'.WellFormed)
    (h : s.Merges s') :
    ∃ c ∈ s.render.toList.getLast?, ∃ d ∈ s'.render.toList.head?, Joins c d := by
  unfold Merges at h
  split at h
  · obtain ⟨-, c, hc, hl⟩ := Identifier.WellFormed.letters hs.2
    cases hs'.isSound
    exact ⟨c, hc, 'l', by simp [render, Token.ofKind, Kind.text], .inl ⟨hl, by decide⟩⟩
  · obtain ⟨-, c, hc, hl⟩ := Identifier.WellFormed.letters hs.2
    cases hs'.isSound
    exact ⟨c, hc, 'r', by simp [render, Token.ofKind, Kind.text], .inl ⟨hl, by decide⟩⟩
  · obtain ⟨-, c, hc, hl⟩ := Identifier.WellFormed.letters hs.2
    obtain ⟨⟨d, hd, hl'⟩, -⟩ := Identifier.WellFormed.letters hs'.2
    exact ⟨c, hc, d, hd, .inl ⟨hl, hl'⟩⟩
  · obtain ⟨-, c, hc, hn⟩ := exists_mem_ends hs.2.2.1 hs.2.2.2.1
    obtain ⟨⟨d, hd, hn'⟩, -⟩ := exists_mem_ends hs'.2.2.1 hs'.2.2.2.1
    exact ⟨c, hc, d, hd, .inr ⟨hn, hn'⟩⟩
  · exact h.elim

end Statement

/-! ## Statements in a row -/

theorem render_toList (ss : List Statement) :
    (Program.render ⟨ss⟩).toList = ss.flatMap fun s => s.render.toList := by
  rw [Program.render, String.toList_join, List.flatMap_map]

section Row

variable {ss : List Statement}

/-- **Statements none of which merges with the next one are a layout of their tokens.** -/
theorem isLayout_join (h : ∀ s ∈ ss, s.WellFormed)
    (hc : ss.IsChain fun s s' => ¬ s.Merges s') :
    IsLayout (ss.flatMap Statement.tokens) (Program.render ⟨ss⟩).toList := by
  rw [render_toList]
  induction ss with
  | nil => exact .nil rfl
  | cons s ss ih =>
    obtain ⟨hs, hss⟩ := List.forall_mem_cons.mp h
    obtain ⟨hm, hc⟩ := List.isChain_cons.mp hc
    have hrest := ih hss hc
    refine Statement.isLayout_render hs.isSound (fun t ht => hrest.endsAt fun u hu hf => ?_) hrest
    cases ss with
    | nil => cases hu
    | cons s' ss =>
      obtain ⟨hs', -⟩ := List.forall_mem_cons.mp hss
      rw [List.flatMap_cons, List.head?_append_of_ne_nil _ (Statement.tokens_ne_nil hs')] at hu
      exact hm s' rfl (Statement.merges_of_fuses hs hs' t ht u hu hf)

/-- Statements none of which merges with the next one are read back. -/
theorem parse_join (h : ∀ s ∈ ss, s.WellFormed) (hc : ss.IsChain fun s s' => ¬ s.Merges s') :
    (parse (Program.render ⟨ss⟩)).program.statements = ss ∧
      (parse (Program.render ⟨ss⟩)).diagnostics = overlarge (ss.flatMap Statement.tokens) :=
  parse_of_isSequence (isSequence_tokens h)
    (congrArg (· ++ [Token.eof]) (Scanner.drain_eq_iff.mpr (isLayout_join h hc)))

theorem Statement.runs_render {s : Statement} (h : s.WellFormed) :
    runs s.render.toList = atoms s.tokens := by
  have hend : Kind.Breaks [] := fun c hc => by cases hc
  have hl := isLayout_render h.isSound (fun _ _ => hend.endsAt _) (.nil (w := []) rfl)
  rw [List.append_nil, List.append_nil] at hl
  exact runs_of_isLayout hl

theorem runs_join_le (h : ∀ s ∈ ss, s.WellFormed) :
    runs (Program.render ⟨ss⟩).toList ≤ atoms (ss.flatMap Statement.tokens) := by
  rw [render_toList]
  induction ss with
  | nil => exact Nat.le_refl _
  | cons s ss ih =>
    obtain ⟨hs, hss⟩ := List.forall_mem_cons.mp h
    have hle := runs_append_le s.render.toList (ss.flatMap fun s => s.render.toList)
    rw [Statement.runs_render hs] at hle
    rw [List.flatMap_cons, List.flatMap_cons, atoms_append]
    exact Nat.le_trans hle (Nat.add_le_add_left (ih hss) _)

/-- Where a statement merges with the next one, a word or a numeral is lost. -/
theorem runs_join_lt (h : ∀ s ∈ ss, s.WellFormed)
    (hc : ¬ ss.IsChain fun s s' => ¬ s.Merges s') :
    runs (Program.render ⟨ss⟩).toList < atoms (ss.flatMap Statement.tokens) := by
  induction ss with
  | nil => exact absurd .nil hc
  | cons s ss ih =>
    obtain ⟨hs, hss⟩ := List.forall_mem_cons.mp h
    have hcons : (Program.render ⟨s :: ss⟩).toList =
        s.render.toList ++ (Program.render ⟨ss⟩).toList := by
      simp only [render_toList, List.flatMap_cons]
    rw [hcons, List.flatMap_cons, atoms_append, ← Statement.runs_render hs]
    by_cases hrest : ss.IsChain fun s s' => ¬ s.Merges s'
    · obtain ⟨s', hs', hm⟩ : ∃ s' ∈ ss.head?, s.Merges s' := by
        by_contra hn
        exact hc (List.isChain_cons.mpr ⟨fun s' hs' hm => hn ⟨s', hs', hm⟩, hrest⟩)
      obtain ⟨ss, rfl⟩ := List.head?_eq_some_iff.mp hs'
      obtain ⟨c, hcl, d, hd, hj⟩ :=
        Statement.joins_of_merges hs (hss s' List.mem_cons_self) hm
      have hd' : d ∈ (Program.render ⟨s' :: ss⟩).toList.head? := by
        rw [render_toList, List.flatMap_cons, List.head?_append, Option.mem_def.mp hd]
        rfl
      have hone := runs_append_of_joins ⟨c, hcl, d, hd', hj⟩
      have hle := runs_join_le hss
      omega
    · have hlt := ih hss hrest
      have hle := runs_append_le s.render.toList (Program.render ⟨ss⟩).toList
      omega

end Row

/-! ## Statements that are alike -/

namespace Statement

variable {s t u : Statement}

theorem Alike.symm (h : s.Alike t) : t.Alike s := by
  cases h with
  | refl => exact .refl _
  | expression => exact .expression _ _ _

theorem Alike.trans (h : s.Alike t) (h' : t.Alike u) : s.Alike u := by
  cases h with
  | refl => exact h'
  | expression =>
    cases h' with
    | refl => exact .expression _ _ _
    | expression => exact .expression _ _ _

theorem Alike.yield_eq (h : s.Alike t) : s.yield = t.yield := by
  cases h <;> rfl

theorem alike_anchor_iff : s.Alike t.anchor ↔ s.Alike t :=
  ⟨fun h => h.trans t.alike_anchor, fun h => h.trans t.alike_anchor.symm⟩

theorem yield_anchor (s : Statement) : s.anchor.yield = s.yield := s.alike_anchor.yield_eq

/-- A sound statement whose value is there is well-formed up to its token. -/
theorem IsSound.wellFormed_anchor (h : s.IsSound) (hp : ¬ s.IsPartial) : s.anchor.WellFormed := by
  rcases h.cases with hv | hw | ⟨n, -, rfl⟩ | rfl
  · rcases s with _ | _ | ⟨t, _ | e⟩ <;> first | exact hv.elim | exact absurd rfl hp
  · exact hw
  · exact absurd ⟨Option.some_ne_none n, rfl⟩ hp
  · exact absurd rfl hp

theorem flatMap_yield_of_alike {ss vs : List Statement} (h : List.Forall₂ Alike ss vs) :
    ss.flatMap yield = vs.flatMap yield := by
  induction h with
  | nil => rfl
  | cons hs _ ih => rw [List.flatMap_cons, List.flatMap_cons, hs.yield_eq, ih]

end Statement

/-- **A word or a numeral that is lost by merging is not made up for elsewhere.** If a rendering
yields statements like those that were rendered, then none of them merges with the next one. -/
theorem isChain_of_alike {ss : List Statement} (h : ∀ s ∈ ss, s.WellFormed)
    (ha : List.Forall₂ Statement.Alike (parse (Program.render ⟨ss⟩)).program.statements ss) :
    ss.IsChain fun s s' => ¬ s.Merges s' := by
  by_contra hc
  have hp := Parser.regular_ofString (Program.render ⟨ss⟩)
  obtain ⟨segs, r, hsegs, -⟩ := exists_segments hp
  obtain ⟨ht, hs, -⟩ := parse_of_segments hsegs
  rw [hs] at ha
  have hyield := Statement.flatMap_yield_of_alike ha
  have hlayout : IsLayout (segs.flatMap Segment.tokens) (Program.render ⟨ss⟩).toList :=
    Scanner.drain_eq_iff.mp (List.append_cancel_right ht)
  refine Nat.lt_irrefl (atoms (ss.flatMap Statement.tokens)) ?_
  calc atoms (ss.flatMap Statement.tokens)
      = atoms ((segs.filterMap Segment.statement?).flatMap Statement.yield) := by
        rw [hyield, ← content_flatMap_tokens h, atoms_content]
    _ ≤ atoms (segs.flatMap Segment.tokens) :=
        (hsegs.yield_sublist hp).countP_le
    _ = runs (Program.render ⟨ss⟩).toList := (runs_of_isLayout hlayout).symm
    _ < atoms (ss.flatMap Statement.tokens) := runs_join_lt h hc

/-! ## Programs -/

/-- No statement of the program merges with the next one. -/
def Program.IsApart (p : Program) : Prop := p.statements.IsChain fun s s' => ¬ s.Merges s'

instance (p : Program) : Decidable p.IsApart := by
  unfold Program.IsApart
  infer_instance

/-- A program of which only the integers can lack a value is read back, up to the tokens of
expression statements, exactly if none of its statements merges with the next one. -/
theorem Program.forall₂_alike_iff {p : Program} (hs : ∀ s ∈ p.statements, s.IsSound)
    (hp : ∀ s ∈ p.statements, ¬ s.IsPartial) :
    (List.Forall₂ Statement.Alike (parse p.render).program.statements p.statements ↔ p.IsApart) ∧
      (p.IsApart →
        (parse p.render).diagnostics = overlarge (p.statements.flatMap Statement.yield)) := by
  obtain ⟨ss⟩ := p
  have hwf : ∀ s ∈ ss.map Statement.anchor, s.WellFormed :=
    List.forall_mem_map.mpr fun s hm => (hs s hm).wellFormed_anchor (hp s hm)
  have hrender : Program.render ⟨ss⟩ = Program.render ⟨ss.map Statement.anchor⟩ := by
    simp [Program.render, Function.comp_def]
  have hchain : Program.IsApart ⟨ss⟩ ↔
      (ss.map Statement.anchor).IsChain fun s s' => ¬ s.Merges s' := by
    simp only [Program.IsApart, List.isChain_map, Statement.merges_anchor]
  have halike : ∀ vs, List.Forall₂ Statement.Alike vs ss ↔
      List.Forall₂ Statement.Alike vs (ss.map Statement.anchor) := fun vs => by
    simp only [List.forall₂_map_right_iff, Statement.alike_anchor_iff]
  rw [halike, hchain, hrender]
  refine ⟨⟨isChain_of_alike hwf, fun hc => ?_⟩, fun hc => ?_⟩
  · rw [(parse_join hwf hc).1]
    exact List.forall₂_same.mpr fun s _ => .refl s
  · rw [(parse_join hwf hc).2, ← overlarge_content, content_flatMap_tokens hwf, List.flatMap_map]
    simp only [Statement.yield_anchor]

/-- **The programs that are read back.** The rendering of a program that was read without complaint
yields the same statements, up to the tokens of expression statements, exactly if none of them
merges with the next one, and then it is read without complaint, too. -/
theorem parse_join_iff (source : String) (h : (parse source).diagnostics = []) :
    (List.Forall₂ Statement.Alike (parse (parse source).program.render).program.statements
        (parse source).program.statements ↔ (parse source).program.IsApart) ∧
      ((parse source).program.IsApart →
        (parse (parse source).program.render).diagnostics = []) := by
  have hrange : ∀ d ∈ (parse source).diagnostics, d.IsOutOfRange := by simp [h]
  obtain ⟨hwhole, hcontent, hover⟩ := content_tokenize hrange
  obtain ⟨hiff, hdiag⟩ := Program.forall₂_alike_iff (isSound_of_parse source) hwhole
  refine ⟨hiff, fun ha => ?_⟩
  rw [hdiag ha, ← hcontent, overlarge_content, hover, h]

/-- Words and numerals can stand next to each other, and next to parentheses. -/
theorem parse_join_alternating :
    let source := "a 1 (b + c) return 2; x"
    (parse source).diagnostics = [] ∧
      (parse source).program.render = "a1(b + c)return 2;x" ∧
      List.Forall₂ Statement.Alike (parse (parse source).program.render).program.statements
        (parse source).program.statements ∧
      (parse (parse source).program.render).diagnostics = [] := by
  intro source
  have h : (parse source).diagnostics = [] := by decide +kernel
  have ha : (parse source).program.IsApart := by decide +kernel
  obtain ⟨hiff, hd⟩ := parse_join_iff source h
  exact ⟨h, by decide +kernel, hiff.mpr ha, hd ha⟩

end Frontend
