import Frontend.Proofs.Shape
import Mathlib.Data.List.Forall2

/-!
# Listings

A listing shows the statements of a source, one a line. It is a source itself. Reading it yields the
statements that are shown, also those without their value, so that a listing of a listing only lacks
the empty lines.

* `Statement.IsVoid`, `Statement.anchor`: statements that leave an empty line, and the token that an
  expression statement has after reading;
* `Statement.renderingFaults`: what is wrong with the rendering of a statement;
* **`parse_lines`**: reading sound statements that are rendered one a line;
* `Console.listing`, `Console.withoutEmptyLines`: listings, and texts without their empty lines;
* **`listing_listing`**: reading a listing, and listing it again.
-/

namespace Frontend

namespace Statement

/-- The statement is an expression that is absent. -/
def IsVoid : Statement → Prop
  | expression _ none => True
  | _ => False

instance : DecidablePred IsVoid := fun s => by
  unfold IsVoid
  split <;> infer_instance

/-- The statement with the token that it has when its rendering is read. -/
def anchor : Statement → Statement
  | expression _ (some e) => expression e.firstToken (some e)
  | s => s

/-- What is wrong with a value and the semicolon behind it. -/
def valueFaults : Option Expr → List Diagnostic
  | some e => e.numeralFaults
  | none => [.noOperand .semicolon]

/-- What is wrong with the rendering of the statement: each integer without a value, from left to
right, and the semicolon that stands where the value of a binding or a return has to start. -/
def renderingFaults : Statement → List Diagnostic
  | binding _ _ value => valueFaults value
  | returning _ value => valueFaults value
  | expression _ none => []
  | expression _ (some e) => e.numeralFaults

/-- The statements are the same but for the token of an expression statement. -/
inductive Alike : Statement → Statement → Prop
  | refl (s : Statement) : Alike s s
  | expression (t u : Token) (value : Option Expr) :
      Alike (.expression t value) (.expression u value)

theorem alike_anchor (s : Statement) : s.anchor.Alike s := by
  unfold anchor
  split
  · exact .expression _ _ _
  · exact .refl _

@[simp] theorem anchor_render (s : Statement) : s.anchor.render = s.render := by
  unfold anchor
  split <;> rfl

@[simp] theorem anchor_tokens (s : Statement) : s.anchor.tokens = s.tokens := by
  unfold anchor
  split <;> rfl

@[simp] theorem anchor_anchor (s : Statement) : s.anchor.anchor = s.anchor := by
  rcases s with _ | _ | ⟨t, _ | e⟩ <;> rfl

@[simp] theorem isVoid_anchor (s : Statement) : s.anchor.IsVoid ↔ s.IsVoid := by
  unfold anchor
  split <;> rfl

theorem IsSound.anchor {s : Statement} (h : s.IsSound) : s.anchor.IsSound := by
  cases h with
  | binding hn hv => exact .binding hn hv
  | returning hv => exact .returning hv
  | @expression t value hv => cases value <;> exact .expression hv

/-- A sound statement is void, or it is well-formed, or its value is absent. -/
theorem IsSound.cases {s : Statement} (h : s.IsSound) : s.IsVoid ∨ s.anchor.WellFormed ∨
    (∃ n : Identifier, n.WellFormed ∧ s = .binding (.ofKind .letWord) (some n) none) ∨
      s = .returning (.ofKind .returnWord) none := by
  cases h with
  | @binding n value hn hv =>
    cases value with
    | none => exact .inr (.inr (.inl ⟨n, hn, rfl⟩))
    | some e => exact .inr (.inl ⟨rfl, hn, hv e rfl⟩)
  | @returning value hv =>
    cases value with
    | none => exact .inr (.inr (.inr rfl))
    | some e => exact .inr (.inl ⟨rfl, hv e rfl⟩)
  | @expression t value hv =>
    cases value with
    | none => exact .inl trivial
    | some e => exact .inr (.inl ⟨rfl, hv e rfl⟩)

theorem tokens_of_isVoid {s : Statement} (h : s.IsVoid) :
    s.tokens = [] ∧ s.renderingFaults = [] := by
  rcases s with _ | _ | ⟨t, _ | e⟩ <;> first | exact h.elim | exact ⟨rfl, rfl⟩

theorem numeralFaults_anchor {s : Statement} (h : s.anchor.WellFormed) :
    s.anchor.numeralFaults = s.renderingFaults := by
  rcases s with ⟨t, _ | n, _ | e⟩ | ⟨t, _ | e⟩ | ⟨t, _ | e⟩ <;> first | exact h.elim | rfl

end Statement

/-! ## Values that are not there -/

/-- At a semicolon there is no value. -/
theorem ParseM.valueWith_of_semicolon {p : Parser} (hg : p.grammar.Ranked)
    (hk : p.current.kind = .semicolon) (hn : p.peek.kind ≠ .semicolon)
    (f : Option Expr → Statement) :
    (valueWith f).run p = .ok (f none) (p.report (.noOperand .semicolon)) := by
  have ho : operand.run p = .error .absent (p.report (.noOperand .semicolon)) := by
    have hnone : Grammar.standard.operand .semicolon = none := rfl
    rw [operand, operandWith_run, hg.operand_eq, hk, hnone]
  have hx : (expr .lowest).run p = .error .absent (p.report (.noOperand .semicolon)) := by
    rw [expr_eq hg.endsAtEof, ho, andThen_error]
  rw [valueWith_of_absent hx, Parser.skipped_of_ne (p := p.report _) hn]

namespace Parser

variable {p r : Parser} {ts us : List Token}

/-- A statement that stops at a semicolon in place of its value is read in one turn of the loop. -/
theorem Regular.exists_turn_valueless (hp : p.Regular) {f : Option Expr → Statement}
    (h : p.Reads ts r) (hts : ∀ t ∈ ts, t.kind ∉ [.eof, .integer])
    (hrun : ParseM.statement.run p = (ParseM.valueWith f).run r)
    (hk : r.current.kind = .semicolon) (ht : p.tokens = ts ++ us)
    (hus : headKind us ≠ .semicolon) :
    ∃ q, p.Turn ⟨ts, [.noOperand .semicolon], some (f none)⟩ q ∧ q.Regular ∧ q.tokens = us := by
  have htakes := h.takes fun t hm e => hts t hm (by simp [e])
  have hleft : r.advance.tokens = us := List.append_cancel_left (htakes.tokens_eq.symm.trans ht)
  have hpeek : r.peek.kind ≠ .semicolon := by
    rwa [← hleft, headKind_tokens r.advance] at hus
  have hfaults : ts.flatMap Token.faults = [] := List.flatMap_eq_nil_iff.mpr fun t hm =>
    Token.faults_of_ne fun e => hts t hm (by simp [e])
  have hgr : r.grammar = p.grammar := h.reaches.grammar_eq
  rw [ParseM.valueWith_of_semicolon (hgr ▸ hp.ranked) hk hpeek] at hrun
  have hq := htakes.report_advance (.noOperand .semicolon)
  rw [hfaults] at hq
  refine ⟨_, ⟨ParseM.segment_of_ok hrun, hq.noted_advance _, h.ne_nil⟩,
    (hp.advance (h.reaches.report _) hq).noted_advance _, ?_⟩
  exact List.append_cancel_left ((hq.noted_advance (.parsed (f none))).tokens_eq.symm.trans ht)

/-- A binding without its value is read in one turn of the loop. -/
theorem Regular.exists_turn_binding (hp : p.Regular) {n : Identifier} (hn : n.WellFormed)
    (ht : p.tokens = (Statement.binding (.ofKind .letWord) (some n) none).tokens ++ us)
    (hus : headKind us ≠ .semicolon) :
    ∃ q, p.Turn ⟨(Statement.binding (.ofKind .letWord) (some n) none).tokens,
        [.noOperand .semicolon], some (.binding (.ofKind .letWord) (some n) none)⟩ q ∧
      q.Regular ∧ q.tokens = us := by
  obtain ⟨hlet, hname, hsign, hsemi, -⟩ := startsWith_of_tokens ht
  rw [advance_current] at hname hsign hsemi
  have hk : p.current.kind = .letWord := congrArg Token.kind hlet
  have hkn : p.peek.kind = .identifier := (congrArg Token.kind hname).trans hn.1
  have hka : p.advance.peek.kind = .assign := congrArg Token.kind hsign
  have hkc : p.advance.advance.peek.kind = .semicolon := congrArg Token.kind hsemi
  have hreads := (((reads_current (by simp [hk])).append (passes_peek (by simp [hkn]))).append
    (passes_peek (by simp [hka]))).append (passes_peek (p := p.advance.advance) (by simp [hkc]))
  have hrun : ParseM.statement.run p = (ParseM.valueWith (.binding p.current
      (some ⟨p.peek, p.peek.literal⟩))).run p.advance.advance.advance := by
    rw [ParseM.statement_run, hk]
    exact (ParseM.binding_run hk).trans (by rw [if_pos hkn, if_pos hka])
  have hturn := hp.exists_turn_valueless hreads (by simp [hk, hkn, hka, hkc]) hrun hkc
    (by rw [ht, hlet, hname, hsign, hsemi]; rfl) hus
  rwa [hlet, hname, hsign, hsemi, ← hn.2.2.2.2] at hturn

/-- A return without its value is read in one turn of the loop. -/
theorem Regular.exists_turn_returning (hp : p.Regular)
    (ht : p.tokens = (Statement.returning (.ofKind .returnWord) none).tokens ++ us)
    (hus : headKind us ≠ .semicolon) :
    ∃ q, p.Turn ⟨(Statement.returning (.ofKind .returnWord) none).tokens,
        [.noOperand .semicolon], some (.returning (.ofKind .returnWord) none)⟩ q ∧
      q.Regular ∧ q.tokens = us := by
  obtain ⟨hret, hsemi, -⟩ := startsWith_of_tokens ht
  rw [advance_current] at hsemi
  have hk : p.current.kind = .returnWord := congrArg Token.kind hret
  have hkc : p.peek.kind = .semicolon := congrArg Token.kind hsemi
  have hreads := (reads_current (by simp [hk])).append (passes_peek (p := p) (by simp [hkc]))
  have hrun : ParseM.statement.run p =
      (ParseM.valueWith (.returning p.current)).run p.advance := by
    rw [ParseM.statement_run, hk]
    exact ParseM.returning_run hk
  have hturn := hp.exists_turn_valueless hreads (by simp [hk, hkc]) hrun hkc
    (by rw [ht, hret, hsemi]; rfl) hus
  rwa [hret, hsemi] at hturn

/-- A rendered statement is read in one turn of the loop, if it has tokens. -/
theorem Regular.exists_turn_of_isSound (hp : p.Regular) {s : Statement} (hs : s.IsSound)
    (hv : ¬ s.IsVoid) {ss : List Statement} (hss : ∀ s ∈ ss, s.IsSound)
    (ht : p.tokens = s.tokens ++ ss.flatMap Statement.tokens) :
    ∃ q, p.Turn ⟨s.tokens, s.renderingFaults, some s.anchor⟩ q ∧ q.Regular ∧
      q.tokens = ss.flatMap Statement.tokens := by
  have hus : headKind (ss.flatMap Statement.tokens) ≠ .semicolon :=
    ne_of_mem_of_not_mem (Statement.headKind_flatMap_tokens hss) (by decide)
  rcases hs.cases with h | h | ⟨n, hn, rfl⟩ | rfl
  · exact absurd h hv
  · have hwhole := hp.exists_turn_whole (Statement.isTerminated_tokens h)
      (by rwa [Statement.anchor_tokens]) (Statement.endsBefore_tokens _ hss)
    rwa [Statement.overlarge_tokens h, Statement.anchor_tokens, Statement.numeralFaults_anchor h]
      at hwhole
  · exact hp.exists_turn_binding hn ht hus
  · exact hp.exists_turn_returning ht hus

end Parser

/-! ## Statements on lines -/

theorem segments_of_isSound {ss : List Statement} (h : ∀ s ∈ ss, s.IsSound) {p : Parser}
    (hp : p.Regular) (ht : p.tokens = ss.flatMap Statement.tokens) :
    ∃ segs r, Segments p segs r ∧
      segs.filterMap Segment.statement? = (ss.filter fun s => ¬ s.IsVoid).map Statement.anchor ∧
      segs.flatMap Segment.diagnostics = ss.flatMap Statement.renderingFaults := by
  induction ss generalizing p with
  | nil => exact ⟨[], p, .done (Parser.tokens_eq_nil_iff.mp ht), rfl, rfl⟩
  | cons s ss ih =>
    obtain ⟨hs, hss⟩ := List.forall_mem_cons.mp h
    rw [List.flatMap_cons] at ht
    by_cases hv : s.IsVoid
    · obtain ⟨hts, hds⟩ := Statement.tokens_of_isVoid hv
      rw [hts, List.nil_append] at ht
      obtain ⟨segs, r, hsegs, hst, hd⟩ := ih hss hp ht
      exact ⟨segs, r, hsegs, by simpa [hv] using hst, by simpa [hds] using hd⟩
    · obtain ⟨q, hturn, hq, hus⟩ := hp.exists_turn_of_isSound hs hv hss ht
      obtain ⟨segs, r, hsegs, hst, hd⟩ := ih hss hq hus
      have hne : p.current.kind ≠ .eof := fun e => by
        rw [Parser.tokens_of_eof e] at ht
        exact hturn.ne_nil (List.append_eq_nil_iff.mp ht.symm).1
      exact ⟨_ :: segs, r, .turn hne hturn hsegs, by simp [hv, hst], by simp [hd]⟩

/-- **Sound statements that are rendered one a line are read back**, but for those that leave an
empty line. What is reported is what is wrong with each rendering. -/
theorem parse_lines {ss : List Statement} (h : ∀ s ∈ ss, s.IsSound) :
    (parse (Console.asLines (ss.map Statement.render))).program.statements =
        (ss.filter fun s => ¬ s.IsVoid).map Statement.anchor ∧
      (parse (Console.asLines (ss.map Statement.render))).diagnostics =
        ss.flatMap Statement.renderingFaults := by
  have ht : (Parser.ofString (Console.asLines (ss.map Statement.render))).tokens =
      ss.flatMap Statement.tokens := by
    rw [Parser.ofString, Parser.ofScanner, Parser.tokens_advance_advance]
    exact Scanner.drain_eq_iff.mpr (isLayout_lines h)
  obtain ⟨segs, r, hsegs, hst, hd⟩ := segments_of_isSound h (Parser.regular_ofString _) ht
  obtain ⟨-, hs, hds⟩ := parse_of_segments hsegs
  exact ⟨hs.trans hst, hds.trans hd⟩

/-! ## Empty lines -/

namespace Console

/-- The text without its empty lines. -/
def withoutEmptyLines (text : String) : String :=
  asLines (((text.toList.splitOn '\n').filter fun l => l ≠ []).map String.ofList)

theorem splitOn_asLines {ls : List String} (h : ∀ l ∈ ls, '\n' ∉ l.toList) :
    (asLines ls).toList.splitOn '\n' = ls.map String.toList ++ [[]] := by
  induction ls with
  | nil => rfl
  | cons l ls ih =>
    obtain ⟨hl, hls⟩ := List.forall_mem_cons.mp h
    have hcons : (asLines (l :: ls)).toList = l.toList ++ '\n' :: (asLines ls).toList := by
      simp [asLines]
    rw [hcons, List.splitOn_append_cons_self_of_not_mem hl, ih hls]
    rfl

theorem withoutEmptyLines_asLines {ls : List String} (h : ∀ l ∈ ls, '\n' ∉ l.toList) :
    withoutEmptyLines (asLines ls) = asLines (ls.filter fun l => l ≠ "") := by
  have hfilter : ((ls.map String.toList).filter fun l => l ≠ []).map String.ofList =
      ls.filter fun l => l ≠ "" := by
    simp [List.filter_map, Function.comp_def]
  rw [withoutEmptyLines, splitOn_asLines h, List.filter_append, List.map_append, hfilter]
  simp

end Console

theorem newline_not_mem_run {l : List Char} {p : Char → Bool} (hp : p '\n' = false)
    (h : l.all p = true) : '\n' ∉ l := fun hm => by
  rw [List.all_eq_true.mp h _ hm] at hp
  cases hp

theorem Kind.newline_not_mem_text (k : Kind) : '\n' ∉ k.text.toList := by
  cases k <;> decide

theorem Expr.newline_not_mem_render {e : Expr} (h : e.WellFormed) : '\n' ∉ e.render.toList := by
  induction e with
  | identifier n =>
    rw [render, h.2.2.2.2]
    exact newline_not_mem_run (by decide) h.2.2.1
  | integer t value => exact newline_not_mem_run (by decide) h.2.2.1
  | unary t op right ih =>
    obtain ⟨hk, ht, rfl, hr⟩ := h
    have hop : '\n' ∉ t.literal.toList := by
      rw [ht]
      exact Kind.newline_not_mem_text _
    simp [render, hop, ih hr]
  | binary t op left right ihl ihr =>
    obtain ⟨hk, ht, rfl, hl, hr⟩ := h
    have hop : '\n' ∉ t.literal.toList := by
      rw [ht]
      exact Kind.newline_not_mem_text _
    simp [render, hop, ihl hl, ihr hr]

theorem Expr.render_ne_empty {e : Expr} (h : e.WellFormed) : e.render ≠ "" := by
  cases e with
  | identifier n =>
    rw [render, h.2.2.2.2]
    exact fun he => h.2.1 (congrArg String.toList he)
  | integer t value => exact fun he => h.2.1 (congrArg String.toList he)
  | unary t op right => simp [render]
  | binary t op left right => simp [render]

namespace Statement

/-- A rendering is a single line. -/
theorem newline_not_mem_render {s : Statement} (h : s.IsSound) : '\n' ∉ s.render.toList := by
  have hpart : ∀ {value : Option Expr}, (∀ e ∈ value, e.WellFormed) →
      '\n' ∉ (renderPart value).toList := by
    rintro (_ | e) hv
    · exact List.not_mem_nil
    · exact Expr.newline_not_mem_render (hv e rfl)
  cases h with
  | @binding n value hn hv =>
    have hname : '\n' ∉ n.value.toList := by
      rw [hn.2.2.2.2]
      exact newline_not_mem_run (by decide) hn.2.2.1
    simp [render, Token.ofKind, Kind.text, hname, hpart hv]
  | returning hv => simp [render, Token.ofKind, Kind.text, hpart hv]
  | expression hv => exact hpart hv

/-- Only void statements leave an empty line. -/
theorem render_ne_empty_iff {s : Statement} (h : s.IsSound) : s.render ≠ "" ↔ ¬ s.IsVoid := by
  cases h with
  | binding _ _ => exact iff_of_true (by simp [render]) id
  | returning _ => exact iff_of_true (by simp [render]) id
  | @expression t value hv =>
    cases value with
    | none => exact iff_of_false (fun h => h rfl) fun h => h trivial
    | some e => exact iff_of_true (Expr.render_ne_empty (hv e rfl)) id

theorem filter_map_render {ss : List Statement} (h : ∀ s ∈ ss, s.IsSound) :
    (ss.map render).filter (fun l => l ≠ "") = (ss.filter fun s => ¬ s.IsVoid).map render := by
  rw [List.filter_map]
  congr 1
  exact List.filter_congr fun s hs => decide_eq_decide.mpr (render_ne_empty_iff (h s hs))

/-- Statements that were read back are not changed by being read back once more. -/
theorem map_anchor_filter (ss : List Statement) :
    (((ss.filter fun s => ¬ s.IsVoid).map anchor).filter fun s => ¬ s.IsVoid).map anchor =
      (ss.filter fun s => ¬ s.IsVoid).map anchor := by
  rw [List.filter_map, List.map_map]
  simp [Function.comp_def]

end Statement

/-! ## Listings -/

/-- The listing of a source: what its file puts on the standard output. -/
def Console.listing (source : String) : String := (onSource false source).stdout

theorem Console.listing_eq (source : String) :
    listing source = asLines ((parse source).program.statements.map Statement.render) := by
  rw [listing, onSource, if_neg Bool.false_ne_true]

/-- Reading a listing. -/
theorem parse_listing (source : String) :
    (parse (Console.listing source)).program.statements =
        ((parse source).program.statements.filter fun s => ¬ s.IsVoid).map Statement.anchor ∧
      (parse (Console.listing source)).diagnostics =
        (parse source).program.statements.flatMap Statement.renderingFaults := by
  rw [Console.listing_eq]
  exact parse_lines (isSound_of_parse source)

theorem parse_listing_listing (source : String) :
    (parse (Console.listing (Console.listing source))).program =
      (parse (Console.listing source)).program := by
  obtain ⟨hs, -⟩ := parse_listing source
  obtain ⟨hs', -⟩ := parse_listing (Console.listing source)
  rw [Program.mk.injEq, hs', hs, Statement.map_anchor_filter]

theorem withoutEmptyLines_listing (source : String) :
    Console.withoutEmptyLines (Console.listing source) = Console.listing (Console.listing source) := by
  have hss := isSound_of_parse source
  have hlines : ∀ l ∈ (parse source).program.statements.map Statement.render,
      '\n' ∉ l.toList := fun l hl => by
    obtain ⟨s, hs, rfl⟩ := List.mem_map.mp hl
    exact Statement.newline_not_mem_render (hss s hs)
  rw [Console.listing_eq source, Console.withoutEmptyLines_asLines hlines,
    Statement.filter_map_render hss, ← Console.listing_eq source, Console.listing_eq,
    (parse_listing source).1, List.map_map]
  simp [Function.comp_def]

/-- **A listing is read as what it shows.** For clean and for wrong sources alike, reading a listing
yields the statements of the source, but for expressions that are absent and up to the token of an
expression statement. What is reported is what is wrong with each rendering. A listing of a listing
lacks the empty lines, and the listings of that are all the same, as are the programs. -/
theorem listing_listing (source : String) :
    List.Forall₂ Statement.Alike (parse (Console.listing source)).program.statements
        ((parse source).program.statements.filter fun s => ¬ s.IsVoid) ∧
      (parse (Console.listing source)).diagnostics =
        (parse source).program.statements.flatMap Statement.renderingFaults ∧
      Console.listing (Console.listing source) =
        Console.withoutEmptyLines (Console.listing source) ∧
      Console.listing (Console.listing (Console.listing source)) =
        Console.listing (Console.listing source) ∧
      (parse (Console.listing (Console.listing source))).program =
        (parse (Console.listing source)).program := by
  obtain ⟨hs, hd⟩ := parse_listing source
  have hprogram := parse_listing_listing source
  refine ⟨?_, hd, (withoutEmptyLines_listing source).symm, ?_, hprogram⟩
  · rw [hs, List.forall₂_map_left_iff]
    exact List.forall₂_same.mpr fun s _ => s.alike_anchor
  · rw [Console.listing_eq, hprogram, ← Console.listing_eq]

end Frontend
