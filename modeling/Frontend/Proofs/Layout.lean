import Frontend.Scanner

/-!
# Layouts of tokens

A text is a layout of a list of tokens if it is their literals in order, with blanks around them,
such that no literal goes on into the text behind it. Scanning is the way back.

* `Kind.IsWord`: identifiers and reserved words;
* `Token.IsScannable`: the tokens that can come out of a text;
* `Kind.EndsAt`, `Kind.Breaks`: the texts that do not continue a literal of a kind, or any literal;
* **`Token.atHead_append`**, **`Token.isHead_atHead`**: the token at the head of a text is the one
  whose literal the text begins with and does not continue;
* `IsLayout`: the layouts of a list of tokens;
* **`Scanner.drain_eq_iff`**: the tokens of a text are those that it is a layout of.
-/

namespace Frontend

/-! ## Runs of characters -/

theorem takeWhile_append {p : Char → Bool} {l cs : List Char} (hl : l.all p = true)
    (hcs : ∀ c ∈ cs.head?, p c = false) : (l ++ cs).takeWhile p = l := by
  rw [List.takeWhile_append_of_pos (List.all_eq_true.mp hl)]
  cases cs with
  | nil => rw [List.takeWhile_nil, List.append_nil]
  | cons c cs => rw [List.takeWhile_cons_of_neg (by simp [hcs c rfl]), List.append_nil]

theorem dropWhile_append {p : Char → Bool} {w cs : List Char} (hw : w.all p = true)
    (hcs : ∀ c ∈ cs.head?, p c = false) : (w ++ cs).dropWhile p = cs := by
  rw [List.dropWhile_append_of_pos (List.all_eq_true.mp hw)]
  cases cs with
  | nil => rfl
  | cons c cs => rw [List.dropWhile_cons_of_neg (by simp [hcs c rfl])]

theorem head?_dropWhile (p : Char → Bool) (cs : List Char) :
    ∀ c ∈ (cs.dropWhile p).head?, p c = false := by
  intro c hc
  have h := List.head?_dropWhile_not p cs
  rw [Option.mem_def.mp hc] at h
  exact Bool.eq_false_iff.mpr (by simpa using h)

/-! ## Characters and words -/

theorem isBlank_iff {c : Char} : isBlank c = true ↔ c = ' ' ∨ c = '\t' ∨ c = '\n' ∨ c = '\r' := by
  simp [isBlank, or_assoc]

namespace Kind

theorem mark?_of_isLetter {c : Char} (h : isLetter c = true) : mark? c = none := by
  unfold mark?
  split <;> first | rfl | exact absurd h (by decide)

theorem mark?_of_isDigit {c : Char} (h : c.isDigit = true) : mark? c = none := by
  unfold mark?
  split <;> first | rfl | exact absurd h (by decide)

theorem isBlank_of_mark? {c : Char} {k : Kind} (h : mark? c = some k) : isBlank c = false := by
  rw [Bool.eq_false_iff, ne_eq, isBlank_iff]
  rintro (rfl | rfl | rfl | rfl) <;> cases h

/-- The kind of a word: an identifier or a reserved word. -/
def IsWord (k : Kind) : Prop := k = .identifier ∨ k ∈ reserved.map Prod.snd

instance (k : Kind) : Decidable k.IsWord := by unfold IsWord; infer_instance

/-- The characters that are marks. -/
def marks : List Char :=
  ['=', '+', '-', '!', '*', '/', '<', '>', ',', ';', '(', ')', '\x7b', '\x7d']

/-- A kind is that of words, spelt by one character, or one of five others. -/
theorem mark_cases (k : Kind) : k.IsWord ∨ k ∈ [illegal, eof, integer, equal, notEqual] ∨
    some k ∈ marks.map mark? := by
  cases k <;> decide

theorem not_mem_of_mark? {c : Char} {k : Kind} (h : mark? c = some k) :
    k ∉ [illegal, eof, identifier, integer] := by
  unfold mark? at h
  split at h <;> cases h <;> decide

theorem eq_of_mark? {b c : Char} {k : Kind} (hb : mark? b = some k) (hc : mark? c = some k) :
    b = c := by
  have h := text_of_mark? hb
  rw [text_of_mark? hc] at h
  simpa using (congrArg String.toList h).symm

theorem not_isWord_of_mark? {c : Char} {k : Kind} (h : mark? c = some k) : ¬ k.IsWord := by
  unfold mark? at h
  split at h <;> cases h <;> decide

/-- The text `cs` does not continue a literal of the kind. -/
def EndsAt (k : Kind) (cs : List Char) : Prop :=
  ∀ c ∈ cs.head?, (k.IsWord → isLetter c = false) ∧ (k = .integer → c.isDigit = false) ∧
    (k = .assign ∨ k = .bang → c ≠ '=')

theorem endsAt_of_not_mem {k : Kind} (hw : ¬ k.IsWord) (hk : k ∉ [integer, assign, bang])
    (cs : List Char) : k.EndsAt cs := by
  intro c _
  refine ⟨fun h => absurd h hw, fun h => ?_, fun h => ?_⟩
  · exact absurd (by simp [h]) hk
  · exact absurd (by rcases h with h | h <;> simp [h]) hk

/-- The text begins with a character that continues no literal, or it is empty. -/
def Breaks (cs : List Char) : Prop :=
  ∀ c ∈ cs.head?, isLetter c = false ∧ c.isDigit = false ∧ c ≠ '='

theorem breaks_cons {c : Char} (h : isLetter c = false ∧ c.isDigit = false ∧ c ≠ '=')
    (cs : List Char) : Breaks (c :: cs) := by
  intro x hx
  obtain rfl : c = x := by simpa using hx
  exact h

theorem Breaks.endsAt {cs : List Char} (h : Breaks cs) (k : Kind) : k.EndsAt cs :=
  fun c hc => ⟨fun _ => (h c hc).1, fun _ => (h c hc).2.1, fun _ => (h c hc).2.2⟩

theorem endsAt_of_isWord {k : Kind} (hk : k.IsWord) {cs : List Char}
    (h : ∀ c ∈ cs.head?, isLetter c = false) : k.EndsAt cs := by
  intro c hc
  refine ⟨fun _ => h c hc, fun e => ?_, fun e => ?_⟩
  · exact absurd (e ▸ hk) (by decide)
  · rcases e with e | e <;> exact absurd (e ▸ hk) (by decide)

theorem endsAt_integer {cs : List Char} (h : ∀ c ∈ cs.head?, c.isDigit = false) :
    integer.EndsAt cs :=
  fun c hc => ⟨fun e => absurd e (by decide), fun _ => h c hc, fun e => absurd e (by decide)⟩

theorem isWord_ofWord (w : String) : (ofWord w).IsWord :=
  (ofWord_cases w).imp_right fun h => List.mem_map_of_mem (f := Prod.snd) h

end Kind

theorem isBlank_of_isLetter {c : Char} (h : isLetter c = true) : isBlank c = false := by
  rw [Bool.eq_false_iff, ne_eq, isBlank_iff]
  rintro (rfl | rfl | rfl | rfl) <;> exact absurd h (by decide)

theorem isBlank_of_isDigit {c : Char} (h : c.isDigit = true) : isBlank c = false := by
  rw [Bool.eq_false_iff, ne_eq, isBlank_iff]
  rintro (rfl | rfl | rfl | rfl) <;> exact absurd h (by decide)

theorem isLetter_of_isDigit {c : Char} (h : c.isDigit = true) : isLetter c = false := by
  rw [Bool.eq_false_iff]
  intro hl
  have hd := (Char.isDigit_iff_toNat.mp h).2
  change (decide ('A'.val ≤ c.val ∧ c.val ≤ 'Z'.val) ||
    (decide ('a'.val ≤ c.val) && decide (c.val ≤ 'z'.val)) || c == '_') = true at hl
  simp only [Bool.or_eq_true, Bool.and_eq_true, decide_eq_true_eq, beq_iff_eq] at hl
  rcases hl with (⟨h, -⟩ | ⟨h, -⟩) | rfl
  · exact absurd (Nat.le_trans h hd) (by decide)
  · exact absurd (Nat.le_trans h hd) (by decide)
  · exact absurd hd (by decide)

/-! ## Tokens that come out of a text -/

namespace Token

/-- The tokens that can come out of a text. -/
def IsScannable (t : Token) : Prop :=
  match t.kind with
  | .eof => False
  | .illegal => ∃ c, t.literal = String.singleton c ∧ isBlank c = false ∧ isLetter c = false ∧
      c.isDigit = false ∧ Kind.mark? c = none
  | .identifier => t.literal.toList ≠ [] ∧ t.literal.toList.all isLetter = true ∧
      Kind.ofWord t.literal = .identifier
  | .integer => t.literal.toList ≠ [] ∧ t.literal.toList.all Char.isDigit = true
  | k => t.literal = k.text

theorem kind_ne_eof {t : Token} (ht : t.IsScannable) : t.kind ≠ .eof := by
  intro hk
  rwa [IsScannable, hk] at ht

theorem isScannable_integer_iff {t : Token} (hk : t.kind = .integer) :
    t.IsScannable ↔ t.literal.toList ≠ [] ∧ t.literal.toList.all Char.isDigit = true := by
  rw [IsScannable, hk]

/-- A word as a token: a run of letters, with the kind that it has. -/
theorem isScannable_word {t : Token} (ht : t.IsScannable) (hk : t.kind.IsWord) :
    t.literal.toList ≠ [] ∧ t.literal.toList.all isLetter = true ∧
      Kind.ofWord t.literal = t.kind := by
  obtain ⟨k, w⟩ := t
  change k.IsWord at hk
  cases k <;> first | exact absurd hk (by decide) | exact ht | (cases ht; decide)

theorem isScannable_ofKind {k : Kind} (h : k ∉ [.illegal, .eof, .identifier, .integer]) :
    (ofKind k).IsScannable := by
  revert h
  cases k <;> first | exact fun _ => rfl | exact fun h => absurd (by decide) h

theorem isScannable_of_word {w : String} (hne : w.toList ≠ []) (hw : w.toList.all isLetter = true) :
    IsScannable ⟨Kind.ofWord w, w⟩ := by
  rcases Kind.ofWord_cases w with h | h
  · simp only [IsScannable, h]
    exact ⟨hne, hw, trivial⟩
  · have ht := Kind.text_of_mem_reserved h
    generalize Kind.ofWord w = k at h ht
    revert h
    cases k <;> first | exact fun _ => ht.symm | simp [Kind.reserved]

theorem atHead_of_mark?_eq_none {c : Char} (h : Kind.mark? c = none) (cs : List Char) :
    atHead c cs = if isLetter c then
        ⟨Kind.ofWord (String.ofList (c :: cs.takeWhile isLetter)),
          String.ofList (c :: cs.takeWhile isLetter)⟩
      else if c.isDigit then ⟨.integer, String.ofList (c :: cs.takeWhile Char.isDigit)⟩
      else ⟨.illegal, String.singleton c⟩ := by
  unfold atHead
  split
  · cases h
  · cases h
  · rw [h]

theorem atHead_of_mark? {c : Char} {k : Kind} (h : Kind.mark? c = some k) {cs : List Char}
    (hcs : c = '=' ∨ c = '!' → cs.head? ≠ some '=') : atHead c cs = ofKind k := by
  unfold atHead
  split
  · exact absurd rfl (hcs (.inl rfl))
  · exact absurd rfl (hcs (.inr rfl))
  · rw [h]

/-! ## From tokens to text -/

section Append

variable {t : Token} {cs : List Char} (ht : t.IsScannable) (he : t.kind.EndsAt cs)
include ht he

theorem atHead_word (hk : t.kind.IsWord) : ∃ c l, t.literal.toList = c :: l ∧
    isBlank c = false ∧ atHead c (l ++ cs) = t := by
  obtain ⟨hne, hall, hw⟩ := isScannable_word ht hk
  obtain ⟨c, l, hcl⟩ := List.exists_cons_of_ne_nil hne
  rw [hcl, List.all_cons, Bool.and_eq_true] at hall
  refine ⟨c, l, hcl, isBlank_of_isLetter hall.1, ?_⟩
  rw [atHead_of_mark?_eq_none (Kind.mark?_of_isLetter hall.1), if_pos hall.1,
    takeWhile_append hall.2 fun x hx => (he x hx).1 hk, ← hcl, String.ofList_toList, hw]

theorem atHead_integer (hk : t.kind = .integer) : ∃ c l, t.literal.toList = c :: l ∧
    isBlank c = false ∧ atHead c (l ++ cs) = t := by
  obtain ⟨hne, hall⟩ := (isScannable_integer_iff hk).mp ht
  obtain ⟨k, w⟩ := t
  obtain rfl : k = .integer := hk
  obtain ⟨c, l, hcl⟩ := List.exists_cons_of_ne_nil hne
  dsimp only at hcl hall
  rw [hcl, List.all_cons, Bool.and_eq_true] at hall
  refine ⟨c, l, hcl, isBlank_of_isDigit hall.1, ?_⟩
  rw [atHead_of_mark?_eq_none (Kind.mark?_of_isDigit hall.1),
    if_neg (by simp [isLetter_of_isDigit hall.1]), if_pos hall.1,
    takeWhile_append hall.2 fun x hx => (he x hx).2.1 rfl, ← hcl, String.ofList_toList]

omit he in
theorem atHead_illegal (hk : t.kind = .illegal) : ∃ c l, t.literal.toList = c :: l ∧
    isBlank c = false ∧ atHead c (l ++ cs) = t := by
  obtain ⟨k, w⟩ := t
  obtain rfl : k = .illegal := hk
  obtain ⟨c, rfl, hb, hl, hd, hm⟩ := ht
  refine ⟨c, [], String.toList_singleton c, hb, ?_⟩
  rw [atHead_of_mark?_eq_none hm, if_neg (by simp [hl]), if_neg (by simp [hd])]

omit he in
theorem eq_ofKind (hk : t.kind ∉ [.illegal, .eof, .identifier, .integer]) : t = ofKind t.kind := by
  obtain ⟨k, w⟩ := t
  change k ∉ _ at hk
  cases k <;> first | exact absurd (by decide) hk | exact congrArg (Token.mk _) ht

theorem atHead_mark {c : Char} {k : Kind} (hm : Kind.mark? c = some k) (htk : t = ofKind k) :
    ∃ c l, t.literal.toList = c :: l ∧ isBlank c = false ∧ atHead c (l ++ cs) = t := by
  subst htk
  refine ⟨c, [], ?_, Kind.isBlank_of_mark? hm, atHead_of_mark? hm fun hc h => ?_⟩
  · rw [ofKind, Kind.text_of_mark? hm, String.toList_singleton]
  · refine (he '=' h).2.2 ?_ rfl
    rcases hc with rfl | rfl <;> cases hm <;> decide

/-- A literal that the text behind it does not continue is read as its token. -/
theorem atHead_append : ∃ c l, t.literal.toList = c :: l ∧ isBlank c = false ∧
    atHead c (l ++ cs) = t := by
  rcases t.kind.mark_cases with hw | hk | hm
  · exact atHead_word ht he hw
  · simp only [List.mem_cons, List.not_mem_nil, or_false] at hk
    rcases hk with hk | hk | hk | hk | hk
    · exact atHead_illegal ht hk
    · exact absurd hk (kind_ne_eof ht)
    · exact atHead_integer ht he hk
    · rw [eq_ofKind ht (by simp [hk]), hk]
      exact ⟨_, _, rfl, rfl, rfl⟩
    · rw [eq_ofKind ht (by simp [hk]), hk]
      exact ⟨_, _, rfl, rfl, rfl⟩
  · obtain ⟨c, -, hm⟩ := List.mem_map.mp hm
    exact atHead_mark ht he hm (eq_ofKind ht (Kind.not_mem_of_mark? hm))

end Append

/-! ## From text to tokens -/

/-- The token at the head of a text with the text behind it. -/
def IsHead (t : Token) (cs : List Char) : Prop :=
  t.IsScannable ∧ ∃ rest, cs = t.literal.toList ++ rest ∧ t.kind.EndsAt rest

theorem isHead_mark {c : Char} {k : Kind} {cs : List Char} (hm : Kind.mark? c = some k)
    (hcs : k = .assign ∨ k = .bang → cs.head? ≠ some '=') : (ofKind k).IsHead (c :: cs) := by
  have hend : k.EndsAt cs := fun x hx =>
    ⟨fun h => absurd h (Kind.not_isWord_of_mark? hm),
      fun h => absurd (by simp [h]) (Kind.not_mem_of_mark? hm), fun h e => hcs h (e ▸ hx)⟩
  refine ⟨isScannable_ofKind (Kind.not_mem_of_mark? hm), cs, ?_, hend⟩
  rw [ofKind, Kind.text_of_mark? hm, String.toList_singleton]
  rfl

theorem isHead_word {c : Char} (hc : isLetter c = true) (cs : List Char) :
    IsHead ⟨Kind.ofWord (String.ofList (c :: cs.takeWhile isLetter)),
      String.ofList (c :: cs.takeWhile isLetter)⟩ (c :: cs) := by
  have hall : (c :: cs.takeWhile isLetter).all isLetter = true := by
    rw [List.all_cons, hc, List.all_takeWhile]
    rfl
  refine ⟨isScannable_of_word (by simp) (by rwa [String.toList_ofList]), cs.dropWhile isLetter,
    ?_, Kind.endsAt_of_isWord (Kind.isWord_ofWord _) (head?_dropWhile _ _)⟩
  rw [String.toList_ofList, List.cons_append, List.takeWhile_append_dropWhile]

theorem isHead_integer {c : Char} (hc : c.isDigit = true) (cs : List Char) :
    IsHead ⟨.integer, String.ofList (c :: cs.takeWhile Char.isDigit)⟩ (c :: cs) := by
  have hall : (c :: cs.takeWhile Char.isDigit).all Char.isDigit = true := by
    rw [List.all_cons, hc, List.all_takeWhile]
    rfl
  refine ⟨⟨by simp, by rwa [String.toList_ofList]⟩, cs.dropWhile Char.isDigit, ?_,
    Kind.endsAt_integer (head?_dropWhile _ _)⟩
  rw [String.toList_ofList, List.cons_append, List.takeWhile_append_dropWhile]

/-- What is read at the head of a text ends where the text does not continue it. -/
theorem isHead_atHead {c : Char} (hc : isBlank c = false) (cs : List Char) :
    (atHead c cs).IsHead (c :: cs) := by
  unfold atHead
  split
  · exact ⟨rfl, _, rfl, Kind.endsAt_of_not_mem (by decide) (by decide) _⟩
  · exact ⟨rfl, _, rfl, Kind.endsAt_of_not_mem (by decide) (by decide) _⟩
  · next h₁ h₂ =>
    split
    · next k hm =>
      refine isHead_mark hm fun hk he => ?_
      obtain ⟨cs', rfl⟩ := List.head?_eq_some_iff.mp he
      rcases hk with rfl | rfl
      · exact h₁ _ (Kind.eq_of_mark? (c := '=') hm rfl) rfl
      · exact h₂ _ (Kind.eq_of_mark? (c := '!') hm rfl) rfl
    · next hm =>
      split
      · next hl => exact isHead_word hl cs
      · next hl =>
        split
        · next hd => exact isHead_integer hd cs
        · next hd =>
          exact ⟨⟨c, rfl, hc, Bool.eq_false_iff.mpr hl, Bool.eq_false_iff.mpr hd, hm⟩, cs,
            by rw [String.toList_singleton]; rfl,
            Kind.endsAt_of_not_mem (k := .illegal) (by decide) (by decide) _⟩

end Token

/-! ## Layouts -/

/-- The text consists of the literals of the tokens in order, none of which the text behind it
continues, and of blanks around them. -/
inductive IsLayout : List Token → List Char → Prop
  | nil {w : List Char} (hw : w.all isBlank = true) : IsLayout [] w
  | cons {w cs : List Char} {t : Token} {ts : List Token} (hw : w.all isBlank = true)
      (ht : t.IsScannable) (he : t.kind.EndsAt cs) (h : IsLayout ts cs) :
      IsLayout (t :: ts) (w ++ (t.literal.toList ++ cs))

/-- A blank in front does not matter. -/
theorem IsLayout.blank {ts : List Token} {cs : List Char} (h : IsLayout ts cs) {c : Char}
    (hc : isBlank c = true) : IsLayout ts (c :: cs) := by
  have hw : ∀ {w : List Char}, w.all isBlank = true → (c :: w).all isBlank = true := fun h => by
    rw [List.all_cons, hc, h]
    rfl
  cases h with
  | nil h => exact .nil (hw h)
  | cons h ht he hcs => exact .cons (hw h) ht he hcs

/-- A literal in front is a token in front. -/
theorem IsLayout.token {ts : List Token} {cs : List Char} (h : IsLayout ts cs) {t : Token}
    (ht : t.IsScannable) (he : t.kind.EndsAt cs) : IsLayout (t :: ts) (t.literal.toList ++ cs) :=
  .cons (w := []) rfl ht he h

theorem IsLayout.mark {ts : List Token} {cs : List Char} (h : IsLayout ts cs) {k : Kind}
    (hk : k ∉ [.illegal, .eof, .identifier, .integer]) (he : k.EndsAt cs) :
    IsLayout (.ofKind k :: ts) (k.text.toList ++ cs) :=
  h.token (Token.isScannable_ofKind hk) he

theorem IsLayout.isScannable {ts : List Token} {cs : List Char} (h : IsLayout ts cs) :
    ∀ t ∈ ts, t.IsScannable := by
  induction h with
  | nil => exact List.forall_mem_nil _
  | cons _ ht _ _ ih => exact List.forall_mem_cons.mpr ⟨ht, ih⟩

namespace Scanner

theorem next_of_nil {s : Scanner} (h : s.rest.dropWhile isBlank = []) : s.next.1 = Token.eof := by
  rw [← skipBlanks_rest] at h
  rw [next]
  dsimp only
  rw [h]

theorem next_of_cons {s : Scanner} {c : Char} {cs : List Char}
    (h : s.rest.dropWhile isBlank = c :: cs) : s.next.1 = Token.atHead c cs ∧
      s.next.2.rest = (c :: cs).drop (Token.atHead c cs).literal.toList.length := by
  rw [← skipBlanks_rest] at h
  rw [next]
  dsimp only
  rw [h]
  exact ⟨rfl, congrArg (List.drop _) h⟩

theorem drain_of_eof {s : Scanner} (h : s.next.1.kind = .eof) : s.drain.1 = [] := by
  rw [drain, if_pos h]

theorem drain_of_ne_eof {s : Scanner} (h : s.next.1.kind ≠ .eof) :
    s.drain.1 = s.next.1 :: s.next.2.drain.1 := by
  rw [drain, if_neg h]

/-- The text still to read is a layout of its tokens. -/
theorem isLayout_drain (s : Scanner) : IsLayout s.drain.1 s.rest := by
  have hw : (s.rest.takeWhile isBlank).all isBlank = true := List.all_takeWhile
  have hs := List.takeWhile_append_dropWhile (p := isBlank) (l := s.rest)
  cases hr : s.rest.dropWhile isBlank with
  | nil =>
    rw [hr, List.append_nil] at hs
    rw [drain_of_eof (congrArg Token.kind (next_of_nil hr)), ← hs]
    exact .nil hw
  | cons c cs =>
    obtain ⟨ht, hrest⟩ := next_of_cons hr
    have hne : s.next.1.kind ≠ .eof := ht ▸ Token.atHead_kind_ne_eof c cs
    have hlt := s.next_rest_lt hne
    have ih := isLayout_drain s.next.2
    have hc : isBlank c = false := head?_dropWhile isBlank s.rest c (by rw [hr]; rfl)
    obtain ⟨hscan, cs', hcs, he⟩ := Token.isHead_atHead hc cs
    rw [drain_of_ne_eof hne, ht, ← hs, hr, hcs]
    rw [hcs, List.drop_left] at hrest
    rw [hrest] at ih
    exact .cons hw hscan he ih
termination_by s.rest.length

/-- A text is scanned to the tokens that it is a layout of. -/
theorem drain_of_isLayout {ts : List Token} {cs : List Char} (h : IsLayout ts cs) {s : Scanner}
    (hs : s.rest = cs) : s.drain.1 = ts := by
  induction h generalizing s with
  | @nil w hw =>
    refine drain_of_eof (congrArg Token.kind (next_of_nil ?_))
    have h : (w ++ []).dropWhile isBlank = [] := dropWhile_append hw (by simp)
    rwa [List.append_nil, ← hs] at h
  | @cons w cs t ts hw ht he _ ih =>
    obtain ⟨c, l, hcl, hc, hat⟩ := Token.atHead_append ht he
    have hr : s.rest.dropWhile isBlank = c :: (l ++ cs) := by
      rw [hs, hcl]
      exact dropWhile_append hw (by simpa using hc)
    obtain ⟨hnext, hrest⟩ := next_of_cons hr
    rw [hat] at hnext hrest
    rw [hcl, ← List.cons_append, List.drop_left] at hrest
    have hne : s.next.1.kind ≠ .eof := by
      rw [hnext, ← hat]
      exact Token.atHead_kind_ne_eof _ _
    rw [drain_of_ne_eof hne, hnext, ih hrest]

/-- **The tokens of a text are those that it is a layout of.** -/
theorem drain_eq_iff {s : Scanner} {ts : List Token} : s.drain.1 = ts ↔ IsLayout ts s.rest := by
  constructor
  · rintro rfl
    exact s.isLayout_drain
  · intro h
    exact drain_of_isLayout h rfl

end Scanner

end Frontend
