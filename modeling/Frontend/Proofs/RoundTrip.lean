import Frontend.Console
import Frontend.Proofs.Sequence

/-!
# Reading what was rendered

The rendering of a tree puts every operator in parentheses. Scanned and read again it yields the
tree it was made from, whatever the tree, as long as its nodes carry the tokens that they stand for.

* `Expr.WellFormed`, `Statement.WellFormed`: trees whose nodes carry fitting tokens;
* `Statement.IsSound`: the same for the parts that are there, where the value may be absent;
* `Expr.tokens`, `Statement.tokens`: the tokens of a rendering;
* `Expr.numeralFaults`, `Statement.numeralFaults`: what is wrong with the numerals of a tree;
* **`Expr.isLayout_render`**: the rendering of an expression is a layout of its tokens, in front of
  any text that does not continue them;
* **`isSequence_tokens`**: the tokens of rendered statements are a sequence with these trees;
* **`parse_render`**: reading undoes rendering.
-/

namespace Frontend

/-! ## Well-formed trees -/

/-- The identifier carries a word that is not reserved, and its value is that word. -/
def Identifier.WellFormed (n : Identifier) : Prop :=
  n.token.kind = .identifier ∧ n.token.literal.toList ≠ [] ∧
    n.token.literal.toList.all isLetter = true ∧ Kind.ofWord n.token.literal = .identifier ∧
    n.value = n.token.literal

instance (n : Identifier) : Decidable n.WellFormed := by
  unfold Identifier.WellFormed
  infer_instance

namespace Expr

/-- Identifiers carry words, integers carry runs of digits and have a value if it is in range, and
operators are spelt as their kinds. -/
def WellFormed : Expr → Prop
  | identifier n => n.WellFormed
  | integer t value => t.kind = .integer ∧ t.literal.toList ≠ [] ∧
      t.literal.toList.all Char.isDigit = true ∧
      value = if Numeral.value t.literal.toList ≤ Numeral.limit
        then some (Int.ofNat (Numeral.value t.literal.toList)) else none
  | unary t op right => t.kind ∈ unaryOperators ∧ t = .ofKind t.kind ∧ op = t.literal ∧
      right.WellFormed
  | binary t op left right => t.kind ∈ binaryOperators ∧ t = .ofKind t.kind ∧ op = t.literal ∧
      left.WellFormed ∧ right.WellFormed

instance decidableWellFormed : (e : Expr) → Decidable e.WellFormed
  | identifier n => inferInstanceAs (Decidable n.WellFormed)
  | integer _ _ => by unfold WellFormed; infer_instance
  | unary _ _ right =>
    have := right.decidableWellFormed
    by unfold WellFormed; infer_instance
  | binary _ _ left right =>
    have := left.decidableWellFormed
    have := right.decidableWellFormed
    by unfold WellFormed; infer_instance

/-- The first token of the rendering. -/
def firstToken : Expr → Token
  | identifier n => n.token
  | integer t _ => t
  | unary .. => .ofKind .openParen
  | binary .. => .ofKind .openParen

/-- The tokens of the rendering. -/
def tokens : Expr → List Token
  | identifier n => [n.token]
  | integer t _ => [t]
  | unary t _ right => .ofKind .openParen :: t :: right.tokens ++ [.ofKind .closeParen]
  | binary t _ left right =>
    .ofKind .openParen :: (left.tokens ++ t :: right.tokens) ++ [.ofKind .closeParen]

/-- One diagnostic for each integer without a value, from left to right. -/
def numeralFaults : Expr → List Diagnostic
  | identifier _ => []
  | integer t value => if value = none then [.outOfRange t.literal] else []
  | unary _ _ right => right.numeralFaults
  | binary _ _ left right => left.numeralFaults ++ right.numeralFaults

end Expr

namespace Statement

/-- All parts are there, and the statement carries the token that its rendering begins with. -/
def WellFormed : Statement → Prop
  | binding t (some n) (some e) => t = .ofKind .letWord ∧ n.WellFormed ∧ e.WellFormed
  | returning t (some e) => t = .ofKind .returnWord ∧ e.WellFormed
  | expression t (some e) => t = e.firstToken ∧ e.WellFormed
  | _ => False

instance (s : Statement) : Decidable s.WellFormed := by
  unfold WellFormed
  split <;> infer_instance

/-- All parts that are there are well-formed, and only the value can be absent. Nothing is said of
the token of an expression statement. -/
inductive IsSound : Statement → Prop
  | binding {n : Identifier} {value : Option Expr} (hn : n.WellFormed)
      (hv : ∀ e ∈ value, e.WellFormed) : IsSound (.binding (.ofKind .letWord) (some n) value)
  | returning {value : Option Expr} (hv : ∀ e ∈ value, e.WellFormed) :
      IsSound (.returning (.ofKind .returnWord) value)
  | expression {t : Token} {value : Option Expr} (hv : ∀ e ∈ value, e.WellFormed) :
      IsSound (.expression t value)

theorem WellFormed.isSound {s : Statement} (h : s.WellFormed) : s.IsSound := by
  unfold WellFormed at h
  split at h
  · next t n e =>
    obtain ⟨rfl, hn, he⟩ := h
    exact .binding hn (by simpa using he)
  · next t e =>
    obtain ⟨rfl, he⟩ := h
    exact .returning (by simpa using he)
  · exact .expression (by simpa using h.2)
  · exact h.elim

/-- The tokens of the value, none if it is absent. -/
def partTokens (value : Option Expr) : List Token := (value.map Expr.tokens).getD []

/-- The tokens of the rendering. -/
def tokens : Statement → List Token
  | binding t name value => t :: (name.map Identifier.token).toList ++
      .ofKind .assign :: partTokens value ++ [.ofKind .semicolon]
  | returning t value => t :: partTokens value ++ [.ofKind .semicolon]
  | expression _ value => partTokens value

/-- One diagnostic for each integer without a value, from left to right. -/
def numeralFaults : Statement → List Diagnostic
  | binding _ _ value => (value.map Expr.numeralFaults).getD []
  | returning _ value => (value.map Expr.numeralFaults).getD []
  | expression _ value => (value.map Expr.numeralFaults).getD []

end Statement

/-! ## Trees of the tokens -/

namespace Expr

open Grammar

/-- A rendered expression is an operand. -/
theorem isOperand_tokens {e : Expr} (h : e.WellFormed) : standard.IsOperand e.tokens e := by
  induction e with
  | identifier n =>
    obtain ⟨hk, -, -, -, hv⟩ := h
    obtain ⟨t, v⟩ := n
    obtain rfl : v = t.literal := hv
    exact .identifier hk
  | integer t value =>
    obtain ⟨hk, hne, hd, rfl⟩ := h
    have hs : t.IsScannable := (Token.isScannable_integer_iff hk).mpr ⟨hne, hd⟩
    rw [← Token.value?_of_isScannable hs hk]
    exact .integer hk
  | unary t op right ih =>
    obtain ⟨hk, -, rfl, hr⟩ := h
    exact (((ih hr).unary hk).isChain .lowest).group rfl rfl
  | binary t op left right ihl ihr =>
    obtain ⟨hk, -, rfl, hl, hr⟩ := h
    exact ((ihl hl).isChain_binary (standard_binds hk) (ihr hr)).group rfl rfl

/-- Of the tokens of a rendered expression the integers without a value are wrong. -/
theorem overlarge_tokens {e : Expr} (h : e.WellFormed) : overlarge e.tokens = e.numeralFaults := by
  induction e with
  | identifier n => exact overlarge_singleton_of_ne (by rw [h.1]; decide)
  | integer t value =>
    obtain ⟨hk, -, -, rfl⟩ := h
    by_cases hv : Numeral.value t.literal.toList ≤ Numeral.limit
    · rw [tokens, overlarge_singleton, if_neg fun ho => Nat.not_lt.mpr hv ho.2, if_pos hv]
      rfl
    · rw [tokens, overlarge_singleton, if_pos ⟨hk, Nat.lt_of_not_le hv⟩, if_neg hv]
      rfl
  | unary t op right ih =>
    obtain ⟨hk, -, -, hr⟩ := h
    have ht : overlarge [t] = [] :=
      overlarge_singleton_of_ne (ne_of_mem_of_not_mem hk (by decide))
    rw [tokens, overlarge_append, overlarge_cons, overlarge_cons t, ht, ih hr]
    exact List.append_nil _
  | binary t op left right ihl ihr =>
    obtain ⟨hk, -, -, hl, hr⟩ := h
    have ht : overlarge [t] = [] :=
      overlarge_singleton_of_ne (ne_of_mem_of_not_mem hk (by decide))
    rw [tokens, overlarge_append, overlarge_cons, overlarge_append, overlarge_cons t, ht, ihl hl,
      ihr hr]
    exact List.append_nil _

end Expr

/-! ## Renderings as layouts -/

theorem Identifier.WellFormed.isScannable {n : Identifier} (h : n.WellFormed) :
    n.token.IsScannable := by
  obtain ⟨hk, hne, hl, hw, -⟩ := h
  rw [Token.IsScannable, hk]
  exact ⟨hne, hl, hw⟩

namespace Expr

/-- No rendering begins with the sign that `!` could be read with. -/
theorem head_render {e : Expr} (h : e.WellFormed) (cs : List Char) :
    ∀ c ∈ (e.render.toList ++ cs).head?, c ≠ '=' := by
  have hall : ∀ {l : List Char} {p : Char → Bool}, p '=' = false → l ≠ [] → l.all p = true →
      ∀ c ∈ (l ++ cs).head?, c ≠ '=' := by
    rintro (_ | ⟨a, l⟩) p hp hne hl c hc rfl
    · exact hne rfl
    · obtain rfl : a = '=' := by simpa using hc
      simp [hp] at hl
  cases e with
  | identifier n =>
    obtain ⟨-, hne, hl, -, hv⟩ := h
    rw [render, hv]
    exact hall (by decide) hne hl
  | integer t value => exact hall (by decide) h.2.1 h.2.2.1
  | unary t op right =>
    intro c hc
    obtain rfl : '(' = c := by simpa [render] using hc
    decide
  | binary t op left right =>
    intro c hc
    obtain rfl : '(' = c := by simpa [render] using hc
    decide

theorem isScannable_operator {t : Token} (ht : t = .ofKind t.kind)
    (hk : t.kind ∈ unaryOperators ∨ t.kind ∈ binaryOperators) : t.IsScannable := by
  rw [ht]
  refine Token.isScannable_ofKind ?_
  revert hk
  generalize t.kind = k
  cases k <;> decide

theorem endsAt_unary {k : Kind} (hk : k ∈ unaryOperators) {cs : List Char}
    (h : ∀ c ∈ cs.head?, c ≠ '=') : k.EndsAt cs := by
  have hw : ¬ k.IsWord ∧ k ≠ .integer := by
    revert hk
    cases k <;> decide
  exact fun c hc => ⟨fun h => absurd h hw.1, fun h => absurd h hw.2, fun _ => h c hc⟩

/-- **The rendering of an expression is a layout of its tokens**, in front of any text that does not
continue the last of them. -/
theorem isLayout_render {e : Expr} (he : e.WellFormed) {ts : List Token} {cs : List Char}
    (hcs : ∀ t ∈ e.tokens.getLast?, t.kind.EndsAt cs) (h : IsLayout ts cs) :
    IsLayout (e.tokens ++ ts) (e.render.toList ++ cs) := by
  induction e generalizing ts cs with
  | identifier n =>
    rw [render, he.2.2.2.2]
    exact h.token he.isScannable (hcs _ rfl)
  | integer t value =>
    obtain ⟨hk, hne, hd, -⟩ := he
    exact h.token ((Token.isScannable_integer_iff hk).mpr ⟨hne, hd⟩) (hcs _ rfl)
  | unary t op right ih =>
    obtain ⟨hk, ht, rfl, hr⟩ := he
    have h₁ : IsLayout (.ofKind .closeParen :: ts) (')' :: cs) :=
      h.mark (by decide) (Kind.endsAt_of_not_mem (by decide) (by decide) _)
    have h₂ := ih hr (fun _ _ => (Kind.breaks_cons (by decide) cs).endsAt _) h₁
    have h₃ := h₂.token (isScannable_operator ht (.inl hk)) (endsAt_unary hk (head_render hr _))
    have h₄ := h₃.mark (k := .openParen) (by decide)
      (Kind.endsAt_of_not_mem (by decide) (by decide) _)
    simpa [tokens, render, Kind.text] using h₄
  | binary t op left right ihl ihr =>
    obtain ⟨hk, ht, rfl, hl, hr⟩ := he
    have h₁ : IsLayout (.ofKind .closeParen :: ts) (')' :: cs) :=
      h.mark (by decide) (Kind.endsAt_of_not_mem (by decide) (by decide) _)
    have h₂ := ihr hr (fun _ _ => (Kind.breaks_cons (by decide) cs).endsAt _) h₁
    have h₃ := (h₂.blank (c := ' ') rfl).token (isScannable_operator ht (.inr hk))
      ((Kind.breaks_cons (by decide) _).endsAt _)
    have h₄ := ihl hl (fun _ _ => (Kind.breaks_cons (by decide) _).endsAt _)
      (h₃.blank (c := ' ') rfl)
    have h₅ := h₄.mark (k := .openParen) (by decide)
      (Kind.endsAt_of_not_mem (by decide) (by decide) _)
    simpa [tokens, render, Kind.text] using h₅

end Expr

namespace Statement

/-- A value that may be absent, in front of a text that continues nothing. -/
theorem isLayout_part {value : Option Expr} (hv : ∀ e ∈ value, e.WellFormed) {ts : List Token}
    {cs : List Char} (hcs : ∀ t ∈ (partTokens value).getLast?, t.kind.EndsAt cs)
    (h : IsLayout ts cs) :
    IsLayout (partTokens value ++ ts) ((renderPart value).toList ++ cs) := by
  cases value with
  | none => exact h
  | some e => exact Expr.isLayout_render (hv e rfl) hcs h

/-- The rendering of a statement is a layout of its tokens, in front of any text that does not
continue the last of them. -/
theorem isLayout_render {s : Statement} (hs : s.IsSound) {ts : List Token} {cs : List Char}
    (hcs : ∀ t ∈ s.tokens.getLast?, t.kind.EndsAt cs) (h : IsLayout ts cs) :
    IsLayout (s.tokens ++ ts) (s.render.toList ++ cs) := by
  have hb : ∀ cs, Kind.Breaks (' ' :: cs) := fun cs => Kind.breaks_cons (by decide) cs
  have hc : IsLayout (.ofKind .semicolon :: ts) (';' :: cs) :=
    h.mark (by decide) (Kind.endsAt_of_not_mem (by decide) (by decide) _)
  have hpart : ∀ {value : Option Expr}, (∀ e ∈ value, e.WellFormed) →
      IsLayout (partTokens value ++ .ofKind .semicolon :: ts)
        ((renderPart value).toList ++ ';' :: cs) := fun hv =>
    isLayout_part hv (fun _ _ => (Kind.breaks_cons (by decide) cs).endsAt _) hc
  cases hs with
  | @binding n value hn hv =>
    have h₃ := ((hpart hv).blank (c := ' ') rfl).mark (k := .assign) (by decide) ((hb _).endsAt _)
    have h₄ := (h₃.blank (c := ' ') rfl).token hn.isScannable ((hb _).endsAt _)
    have h₅ := (h₄.blank (c := ' ') rfl).mark (k := .letWord) (by decide) ((hb _).endsAt _)
    simpa [tokens, render, Token.ofKind, Kind.text, hn.2.2.2.2] using h₅
  | @returning value hv =>
    have h₃ := ((hpart hv).blank (c := ' ') rfl).mark (k := .returnWord) (by decide)
      ((hb _).endsAt _)
    simpa [tokens, render, Token.ofKind, Kind.text] using h₃
  | expression hv => exact isLayout_part hv hcs h

end Statement

/-- Rendered statements, one a line, are a layout of their tokens. -/
theorem isLayout_lines {ss : List Statement} (h : ∀ s ∈ ss, s.IsSound) :
    IsLayout (ss.flatMap Statement.tokens) (Console.asLines (ss.map Statement.render)).toList := by
  induction ss with
  | nil => exact .nil rfl
  | cons s ss ih =>
    obtain ⟨hs, hss⟩ := List.forall_mem_cons.mp h
    have hl : ∀ cs, Kind.Breaks ('\n' :: cs) := fun cs => Kind.breaks_cons (by decide) cs
    simpa [Console.asLines] using
      Statement.isLayout_render hs (fun _ _ => (hl _).endsAt _) ((ih hss).blank (c := '\n') rfl)

theorem isLayout_asLines {ss : List Statement} (h : ∀ s ∈ ss, s.WellFormed) :
    IsLayout (ss.flatMap Statement.tokens) (Console.asLines (ss.map Statement.render)).toList :=
  isLayout_lines fun s hs => (h s hs).isSound

/-! ## Rendered statements as a sequence -/

namespace Statement

open Grammar

theorem isTerminated_tokens {s : Statement} (hs : s.WellFormed) :
    standard.IsTerminated s.tokens s := by
  unfold WellFormed at hs
  split at hs
  · next t n e =>
    obtain ⟨rfl, ⟨hk, -, -, -, hv⟩, he⟩ := hs
    obtain ⟨n, v⟩ := n
    obtain rfl : v = n.literal := hv
    exact .closed (.binding rfl hk rfl ((Expr.isOperand_tokens he).isChain .lowest)) rfl
  · next t e =>
    obtain ⟨rfl, he⟩ := hs
    exact .closed (.returning rfl ((Expr.isOperand_tokens he).isChain .lowest)) rfl
  · next t e =>
    obtain ⟨rfl, he⟩ := hs
    have hc := (Expr.isOperand_tokens he).isChain .lowest
    have ht : e.tokens = e.firstToken :: e.tokens.tail := by cases e <;> rfl
    rw [ht] at hc
    show standard.IsTerminated e.tokens _
    rw [ht]
    exact .bare (.expression hc)
  · exact hs.elim

/-- The kinds of token that renderings begin with. -/
def renderedHeads : List Kind :=
  [.letWord, .returnWord, .identifier, .integer, .openParen]

theorem headKind_tokens {s : Statement} (hs : s.IsSound) (hne : s.tokens ≠ []) :
    headKind s.tokens ∈ renderedHeads := by
  cases hs with
  | binding _ _ => simp [tokens, renderedHeads, Token.ofKind]
  | returning _ => simp [tokens, renderedHeads, Token.ofKind]
  | @expression t value hv =>
    cases value with
    | none => exact absurd rfl hne
    | some e =>
      have he := hv e rfl
      cases e with
      | identifier n => simp [tokens, partTokens, Expr.tokens, he.1, renderedHeads]
      | integer t value => simp [tokens, partTokens, Expr.tokens, he.1, renderedHeads]
      | unary => simp [tokens, partTokens, Expr.tokens, Token.ofKind, renderedHeads]
      | binary => simp [tokens, partTokens, Expr.tokens, Token.ofKind, renderedHeads]

/-- Statements without tokens are passed over. -/
theorem headKind_flatMap_tokens {ss : List Statement} (h : ∀ s ∈ ss, s.IsSound) :
    headKind (ss.flatMap Statement.tokens) ∈ Kind.eof :: renderedHeads := by
  induction ss with
  | nil => exact List.mem_cons_self
  | cons s ss ih =>
    obtain ⟨hs, hss⟩ := List.forall_mem_cons.mp h
    rw [List.flatMap_cons]
    by_cases hne : s.tokens = []
    · rw [hne]
      exact ih hss
    · rw [headKind_append hne]
      exact List.mem_cons_of_mem _ (headKind_tokens hs hne)

/-- No rendering continues a statement. -/
theorem endsBefore_tokens (ts : List Token) {ss : List Statement} (h : ∀ s ∈ ss, s.IsSound) :
    standard.EndsBefore ts (headKind (ss.flatMap Statement.tokens)) := by
  have hk := headKind_flatMap_tokens h
  intro _
  revert hk
  generalize headKind _ = k
  cases k <;> decide

end Statement

/-- **The tokens of rendered statements are a sequence with these trees.** -/
theorem isSequence_tokens {ss : List Statement} (h : ∀ s ∈ ss, s.WellFormed) :
    Grammar.standard.IsSequence (ss.flatMap Statement.tokens) ss := by
  induction ss with
  | nil => exact .nil
  | cons s ss ih =>
    obtain ⟨hs, hss⟩ := List.forall_mem_cons.mp h
    rw [List.flatMap_cons]
    exact .cons (Statement.isTerminated_tokens hs)
      (Statement.endsBefore_tokens _ fun s hs => (hss s hs).isSound) (ih hss)

theorem Statement.overlarge_tokens {s : Statement} (hs : s.WellFormed) :
    overlarge s.tokens = s.numeralFaults := by
  unfold WellFormed at hs
  split at hs
  · next t n e =>
    obtain ⟨rfl, hn, he⟩ := hs
    have hname : overlarge [n.token] = [] := overlarge_singleton_of_ne (by rw [hn.1]; decide)
    show overlarge (_ :: n.token :: .ofKind .assign :: e.tokens ++ [_]) = e.numeralFaults
    rw [overlarge_append, overlarge_cons, overlarge_cons n.token, hname,
      overlarge_cons (.ofKind .assign), Expr.overlarge_tokens he]
    exact List.append_nil _
  · next t e =>
    obtain ⟨rfl, he⟩ := hs
    show overlarge (_ :: e.tokens ++ [_]) = e.numeralFaults
    rw [overlarge_append, overlarge_cons, Expr.overlarge_tokens he]
    exact List.append_nil _
  · exact Expr.overlarge_tokens hs.2
  · exact hs.elim

theorem overlarge_flatMap {ss : List Statement} (h : ∀ s ∈ ss, s.WellFormed) :
    overlarge (ss.flatMap Statement.tokens) = ss.flatMap Statement.numeralFaults := by
  induction ss with
  | nil => rfl
  | cons s ss ih =>
    obtain ⟨hs, hss⟩ := List.forall_mem_cons.mp h
    rw [List.flatMap_cons, List.flatMap_cons, overlarge_append, Statement.overlarge_tokens hs,
      ih hss]

/-- **Reading undoes rendering.** Well-formed statements, each rendered on a line of its own, are
read as the same statements, with all their tokens, and what is reported are the integers without a
value from left to right. -/
theorem parse_render (ss : List Statement) (h : ∀ s ∈ ss, s.WellFormed) :
    (parse (Console.asLines (ss.map Statement.render))).program.statements = ss ∧
      (parse (Console.asLines (ss.map Statement.render))).diagnostics =
        ss.flatMap Statement.numeralFaults := by
  have ht : tokenize (Console.asLines (ss.map Statement.render)) =
      ss.flatMap Statement.tokens ++ [Token.eof] :=
    congrArg (· ++ [Token.eof]) (Scanner.drain_eq_iff.mpr (isLayout_asLines h))
  rw [← overlarge_flatMap h]
  exact parse_of_isSequence (isSequence_tokens h) ht

/-- Statements with nested operators, words that begin like reserved ones and a numeral out of range
are read back. -/
theorem parse_render_nested :
    let name (w : String) : Identifier := ⟨⟨.identifier, w⟩, w⟩
    let big : Expr := .integer ⟨.integer, "9223372036854775808"⟩ none
    let same : Expr := .binary (.ofKind .equal) "==" (.identifier (name "a")) big
    let ss : List Statement :=
      [.binding (.ofKind .letWord) (some (name "lets")) (some (.unary (.ofKind .bang) "!" same)),
      .expression ⟨.identifier, "x"⟩ (some (.identifier (name "x"))),
      .expression (.ofKind .openParen) (some (.unary (.ofKind .minus) "-"
        (.integer ⟨.integer, "007"⟩ (some 7)))),
      .returning (.ofKind .returnWord) (some (.identifier (name "if_")))]
    (∀ s ∈ ss, s.WellFormed) ∧
      Console.asLines (ss.map Statement.render) =
        "let lets = (!(a == 9223372036854775808));\nx\n(-007)\nreturn if_;\n" ∧
      (parse (Console.asLines (ss.map Statement.render))).program.statements = ss ∧
      (parse (Console.asLines (ss.map Statement.render))).diagnostics =
        [.outOfRange "9223372036854775808"] := by
  intro name big same ss
  have h : ∀ s ∈ ss, s.WellFormed := by decide +kernel
  obtain ⟨hs, hd⟩ := parse_render ss h
  exact ⟨h, by decide +kernel, hs, hd⟩

end Frontend
