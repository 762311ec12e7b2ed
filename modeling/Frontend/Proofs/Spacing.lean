import Frontend.Proofs.Layout
import Mathlib.Data.List.Chain

/-!
# Blanks between tokens

A text is scanned to the tokens whose literals it is made of. Blanks may stand anywhere between them,
and have to stand between two literals that would be read as one.

* `Token.Fuses`: the pairs of tokens that need a blank between them;
* **`Token.endsAt_append_iff`**: a literal ends in front of another one exactly if they do not fuse;
* `Piece`, `IsSpacing`: literals with the blanks in front of them;
* **`isLayout_iff_exists_isSpacing`**: layouts are texts of this form;
* **`tokenize_eq_append_eof_iff`**: the tokens of a source.
-/

namespace Frontend

/-! ## Neighbours -/

namespace Token

/-- Without a blank between them the literals would be read as one: both are words, both are
numerals, or the first one takes the `=` with it that the second one begins with. -/
def Fuses (t u : Token) : Prop :=
  (t.kind.IsWord ∧ u.kind.IsWord) ∨ (t.kind = .integer ∧ u.kind = .integer) ∨
    ((t.kind = .assign ∨ t.kind = .bang) ∧ u.literal.toList.head? = some '=')

instance (t u : Token) : Decidable (t.Fuses u) := by unfold Fuses; infer_instance

theorem literal_ne_nil {u : Token} (hu : u.IsScannable) : u.literal.toList ≠ [] := by
  have he : Kind.Breaks [] := fun c hc => by cases hc
  obtain ⟨c, l, hcl, -⟩ := atHead_append hu (he.endsAt _)
  simp [hcl]

/-- The characters of a literal tell words and numerals from other tokens. -/
theorem isLetter_iff_of_mem {u : Token} (hu : u.IsScannable) {c : Char}
    (hc : c ∈ u.literal.toList) :
    (isLetter c = true ↔ u.kind.IsWord) ∧ (c.isDigit = true ↔ u.kind = .integer) := by
  rcases u.kind.mark_cases with hw | hk | hm
  · have hl := List.all_eq_true.mp (isScannable_word hu hw).2.1 c hc
    refine ⟨iff_of_true hl hw, iff_of_false (fun hd => ?_) fun hi => ?_⟩
    · rw [isLetter_of_isDigit hd] at hl
      exact Bool.false_ne_true hl
    · exact absurd (hi ▸ hw) (by decide)
  · simp only [List.mem_cons, List.not_mem_nil, or_false] at hk
    rcases hk with hk | hk | hk | hk | hk
    · obtain ⟨k, w⟩ := u
      obtain rfl : k = .illegal := hk
      obtain ⟨x, rfl, -, hl, hd, -⟩ := hu
      obtain rfl : c = x := by simpa using hc
      exact ⟨iff_of_false (by simp [hl]) (by decide : ¬ Kind.illegal.IsWord),
        iff_of_false (by simp [hd]) (by decide : Kind.illegal ≠ .integer)⟩
    · exact absurd hk (kind_ne_eof hu)
    · have hd := List.all_eq_true.mp ((isScannable_integer_iff hk).mp hu).2 c hc
      refine ⟨iff_of_false ?_ (by rw [hk]; decide), iff_of_true hd hk⟩
      rw [isLetter_of_isDigit hd]
      exact Bool.false_ne_true
    · rw [eq_ofKind hu (by simp [hk]), hk] at hc ⊢
      obtain rfl : c = '=' := by simpa [ofKind, Kind.text] using hc
      decide
    · rw [eq_ofKind hu (by simp [hk]), hk] at hc ⊢
      obtain rfl | rfl : c = '!' ∨ c = '=' := by simpa [ofKind, Kind.text] using hc
      · decide
      · decide
  · obtain ⟨x, -, hm⟩ := List.mem_map.mp hm
    have hn := Kind.not_mem_of_mark? hm
    obtain rfl : c = x := by
      rwa [eq_ofKind hu hn, ofKind, Kind.text_of_mark? hm, String.toList_singleton,
        List.mem_singleton] at hc
    refine ⟨iff_of_false (fun hl => ?_) (Kind.not_isWord_of_mark? hm),
      iff_of_false (fun hd => ?_) fun hi => hn (by simp [hi])⟩
    · rw [Kind.mark?_of_isLetter hl] at hm
      cases hm
    · rw [Kind.mark?_of_isDigit hd] at hm
      cases hm

/-- **A literal ends in front of another one exactly if they do not fuse.** -/
theorem endsAt_append_iff (t : Token) {u : Token} (hu : u.IsScannable) (cs : List Char) :
    t.kind.EndsAt (u.literal.toList ++ cs) ↔ ¬ t.Fuses u := by
  obtain ⟨c, l, hcl⟩ := List.exists_cons_of_ne_nil (literal_ne_nil hu)
  obtain ⟨hl, hd⟩ := isLetter_iff_of_mem hu (hcl ▸ List.mem_cons_self)
  have he : t.kind.EndsAt (c :: (l ++ cs)) ↔ (t.kind.IsWord → isLetter c = false) ∧
      (t.kind = .integer → c.isDigit = false) ∧ (t.kind = .assign ∨ t.kind = .bang → c ≠ '=') := by
    simp [Kind.EndsAt]
  rw [Fuses, hcl, List.cons_append, he, ← hl, ← hd]
  simp only [List.head?_cons, Option.some.injEq, not_or, not_and, Bool.not_eq_true, ne_eq]

end Token

/-- A blank continues no literal. -/
theorem Kind.breaks_of_isBlank {cs : List Char} (h : ∀ c ∈ cs.head?, isBlank c = true) :
    Breaks cs := by
  intro c hc
  rcases isBlank_iff.mp (h c hc) with rfl | rfl | rfl | rfl <;> decide

/-! ## Texts in pieces -/

/-- A token with the text between the token before it and itself. -/
structure Piece where
  gap : List Char
  token : Token
  deriving DecidableEq, Repr, Inhabited

/-- The text of a piece. -/
def Piece.text (p : Piece) : List Char := p.gap ++ p.token.literal.toList

/-- The pieces and the text `w` behind them have blanks for gaps, and wherever two neighbours fuse
there is a blank between them. -/
structure IsSpacing (ps : List Piece) (w : List Char) : Prop where
  isScannable : ∀ p ∈ ps, p.token.IsScannable
  isBlank_gap : ∀ p ∈ ps, p.gap.all isBlank = true
  isBlank_last : w.all isBlank = true
  apart : ps.IsChain fun p q => p.token.Fuses q.token → q.gap ≠ []

theorem isBlank_of_head? {w : List Char} (hw : w.all isBlank = true) :
    ∀ c ∈ w.head?, isBlank c = true :=
  fun c hc => List.all_eq_true.mp hw c (List.mem_of_mem_head? hc)

/-- A literal that is kept apart from the next one ends in front of the pieces. -/
theorem endsAt_pieces {t : Token} {ps : List Piece} {w : List Char}
    (hs : ∀ p ∈ ps, p.token.IsScannable) (hb : ∀ p ∈ ps, p.gap.all isBlank = true)
    (hl : w.all isBlank = true) (hf : ∀ p ∈ ps.head?, t.Fuses p.token → p.gap ≠ []) :
    t.kind.EndsAt (ps.flatMap Piece.text ++ w) := by
  cases ps with
  | nil =>
    exact (Kind.breaks_of_isBlank (isBlank_of_head? hl)).endsAt _
  | cons p ps =>
    rw [List.flatMap_cons, Piece.text, List.append_assoc, List.append_assoc]
    by_cases hg : p.gap = []
    · rw [hg, List.nil_append]
      exact (t.endsAt_append_iff (hs p List.mem_cons_self) _).mpr fun h => hf p rfl h hg
    · refine (Kind.breaks_of_isBlank ?_).endsAt _
      rw [List.head?_append_of_ne_nil _ hg]
      exact isBlank_of_head? (hb p List.mem_cons_self)

/-- **Layouts are texts in pieces.** -/
theorem isLayout_iff_exists_isSpacing {ts : List Token} {cs : List Char} :
    IsLayout ts cs ↔
      ∃ ps w, IsSpacing ps w ∧ ps.map Piece.token = ts ∧ cs = ps.flatMap Piece.text ++ w := by
  constructor
  · intro h
    induction h with
    | @nil w hw =>
      exact ⟨[], w, ⟨List.forall_mem_nil _, List.forall_mem_nil _, hw, .nil⟩, rfl, rfl⟩
    | @cons w cs t ts hw ht he _ ih =>
      obtain ⟨ps, w', ⟨hs, hb, hl, ha⟩, rfl, rfl⟩ := ih
      refine ⟨⟨w, t⟩ :: ps, w', ⟨List.forall_mem_cons.mpr ⟨ht, hs⟩,
        List.forall_mem_cons.mpr ⟨hw, hb⟩, hl, List.isChain_cons.mpr ⟨fun p hp hf hg => ?_, ha⟩⟩,
        rfl, by simp [Piece.text]⟩
      -- without a gap the next literal is what `t` ends in front of
      obtain ⟨ps, rfl⟩ := List.head?_eq_some_iff.mp hp
      rw [List.flatMap_cons, Piece.text, hg, List.nil_append, List.append_assoc] at he
      exact (t.endsAt_append_iff (hs p List.mem_cons_self) _).mp he hf
  · rintro ⟨ps, w, ⟨hs, hb, hl, ha⟩, rfl, rfl⟩
    induction ps with
    | nil => exact .nil hl
    | cons p ps ih =>
      obtain ⟨hp, hs⟩ := List.forall_mem_cons.mp hs
      obtain ⟨hg, hb⟩ := List.forall_mem_cons.mp hb
      obtain ⟨hf, ha⟩ := List.isChain_cons.mp ha
      rw [List.map_cons, List.flatMap_cons, Piece.text, List.append_assoc, List.append_assoc]
      exact .cons hg hp (endsAt_pieces hs hb hl hf) (ih hs hb ha)

/-- A literal ends in front of a text if it does not fuse with the first token of the text. -/
theorem IsLayout.endsAt {t : Token} {ts : List Token} {cs : List Char} (h : IsLayout ts cs)
    (hf : ∀ u ∈ ts.head?, ¬ t.Fuses u) : t.kind.EndsAt cs := by
  obtain ⟨ps, w, ⟨hs, hb, hl, -⟩, rfl, rfl⟩ := isLayout_iff_exists_isSpacing.mp h
  refine endsAt_pieces hs hb hl fun p hp hfuses => absurd hfuses (hf p.token ?_)
  rw [List.head?_map]
  exact Option.mem_map_of_mem Piece.token hp

/-- **The tokens of a source.** They are `ts` exactly if all of `ts` can be scanned and the source
consists of their literals in order, with blanks around them and a blank between any two neighbours
that fuse. -/
theorem tokenize_eq_append_eof_iff (source : String) (ts : List Token) :
    tokenize source = ts ++ [Token.eof] ↔
      ∃ ps w, IsSpacing ps w ∧ ps.map Piece.token = ts ∧
        source.toList = ps.flatMap Piece.text ++ w := by
  rw [tokenize, List.append_cancel_right_eq, Scanner.drain_eq_iff, isLayout_iff_exists_isSpacing]
  rfl

end Frontend
