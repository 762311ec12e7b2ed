import Frontend.Proofs.Language
import Frontend.Proofs.Locality
import Frontend.Proofs.Spacing
import Frontend.Proofs.Yield

/-!
# Sources one after the other

Two sources on lines of their own are read as one after the other, if the first one has its
statements whole and nothing at the head of the second one continues the last of them.

* `IsLayout.append_blank`, **`tokenize_append_newline`**: the tokens of both sources;
* `Parser.StandsAt.ahead_eq_getD`: the tokens ahead as the list of those that are left;
* `isSequence_of_parse`: a source in which only numerals are wrong is a sequence of statements;
* **`turns_of_isSequence`**: a sequence in front of other tokens is read turn by turn;
* **`parse_append_newline`**: what both sources yield.
-/

namespace Frontend

/-! ## Layouts one after the other -/

theorem IsLayout.blanks {ts : List Token} {cs w : List Char} (h : IsLayout ts cs)
    (hw : w.all isBlank = true) : IsLayout ts (w ++ cs) := by
  induction w with
  | nil => exact h
  | cons c w ih =>
    rw [List.all_cons, Bool.and_eq_true] at hw
    exact (ih hw.2).blank hw.1

theorem Kind.EndsAt.append_blank {k : Kind} {cs : List Char} (h : k.EndsAt cs) {c : Char}
    (hc : isBlank c = true) (ds : List Char) : k.EndsAt (cs ++ c :: ds) := by
  cases cs with
  | nil => exact (Kind.breaks_of_isBlank fun x hx => by cases hx; exact hc).endsAt k
  | cons x cs => exact h

/-- Texts with a blank between them are a layout of the tokens of both. -/
theorem IsLayout.append_blank {ts us : List Token} {cs ds : List Char} (h : IsLayout ts cs)
    (h' : IsLayout us ds) {c : Char} (hc : isBlank c = true) :
    IsLayout (ts ++ us) (cs ++ c :: ds) := by
  induction h with
  | nil hw => exact (h'.blank hc).blanks hw
  | cons hw ht he _ ih =>
    rw [List.append_assoc, List.append_assoc]
    exact .cons hw ht (he.append_blank hc ds) ih

theorem headKind_tokenize (source : String) :
    headKind (tokenize source) = headKind (Parser.ofString source).tokens := by
  rw [← Parser.tokens_ofString]
  cases (Parser.ofString source).tokens <;> rfl

theorem dropLast_tokenize (source : String) :
    (tokenize source).dropLast = (Parser.ofString source).tokens := by
  rw [← Parser.tokens_ofString, List.dropLast_concat]

/-- **A newline keeps the tokens of two sources apart.** -/
theorem tokenize_append_newline (source₁ source₂ : String) :
    tokenize (source₁ ++ "\n" ++ source₂) = (tokenize source₁).dropLast ++ tokenize source₂ := by
  have h₁ := (Scanner.ofString source₁).isLayout_drain
  have h₂ := (Scanner.ofString source₂).isLayout_drain
  have h := h₁.append_blank h₂ (c := '\n') rfl
  have hl : (Scanner.ofString (source₁ ++ "\n" ++ source₂)).rest =
      (Scanner.ofString source₁).rest ++ '\n' :: (Scanner.ofString source₂).rest := by
    simp [Scanner.ofString, String.toList_append]
  rw [tokenize, tokenize, tokenize, Scanner.drain_eq_iff.mpr (hl.symm ▸ h), List.dropLast_concat,
    List.append_assoc]

/-! ## What is left of a source -/

theorem tokenAt_eq_getD (source : String) (k : Nat) :
    tokenAt source k = (Parser.ofString source).tokens[k]?.getD .eof := by
  rw [tokenAt, ← Parser.tokens_ofString, List.getElem?_append]
  split
  · rfl
  · next h =>
    rw [List.getElem?_eq_none (Nat.not_lt.mp h)]
    cases k - (Parser.ofString source).tokens.length <;> rfl

namespace Parser

variable {p q : Parser} {source source₁ source₂ : String} {k l : Nat}

/-- The tokens ahead are those that are left, with the last one behind them for ever. -/
theorem StandsAt.ahead_eq_getD (h : p.StandsAt source k) (j : Nat) :
    p.ahead j = p.tokens[j]?.getD .eof := by
  have hp : (ofString source).Aligned := aligned_ofScanner _
  rw [h.ahead_eq, tokenAt_eq_getD, tokens_congr h.window_eq, hp.tokens_iterate_advance,
    List.getElem?_drop]

/-- Parsers in different sources resemble each other if the same tokens are left. -/
theorem StandsAt.resembles_of_tokens (hp : p.StandsAt source₁ k) (hq : q.StandsAt source₂ l)
    (h : q.tokens = p.tokens) (hg : q.grammar = p.grammar) (m : Nat) : Resembles m p q := by
  intro j _
  rw [hp.ahead_eq_getD, hq.ahead_eq_getD, h, hg]
  exact ⟨rfl, .refl _ _⟩

end Parser

/-! ## Sequences in front of other tokens -/

/-- A semicolon ends a statement, and so does a token that is neither a semicolon nor a binary
operator. -/
theorem Grammar.EndsBefore.of_border {g : Grammar} {ts : List Token} {k : Kind}
    (h : (∃ t ∈ ts.getLast?, t.kind = .semicolon) ∨ k ∉ Kind.semicolon :: binaryOperators) :
    g.EndsBefore ts k := by
  intro hn
  rcases h with ⟨t, ht, hk⟩ | h
  · exact absurd hk (hn t ht)
  · rw [List.mem_cons, not_or] at h
    exact ⟨h.1, fun hb => h.2 hb.1⟩

theorem Grammar.EndsBefore.of_append {g : Grammar} {ts us : List Token} {k : Kind}
    (h : g.EndsBefore (ts ++ us) k) (hne : us ≠ []) : g.EndsBefore us k := by
  have hlast := List.getLast?_eq_some_getLast hne
  rw [Grammar.EndsBefore, List.getLast?_append, hlast, Option.some_or, ← hlast] at h
  exact h

/-- A source in which only numerals are wrong is a sequence of the statements that it yields. -/
theorem isSequence_of_parse {source : String}
    (h : ∀ d ∈ (parse source).diagnostics, d.IsOutOfRange) :
    Grammar.standard.IsSequence (Parser.ofString source).tokens (parse source).program.statements ∧
      (parse source).diagnostics = overlarge (Parser.ofString source).tokens := by
  obtain ⟨segs, r, hsegs, hwhole⟩ := exists_whole_segments h
  obtain ⟨ht, -, -⟩ := parse_of_segments hsegs
  rw [← Parser.tokens_ofString, List.append_cancel_right_eq] at ht
  obtain ⟨ss, hss⟩ : Nonterminal.program.HasTree (Parser.ofString source).tokens :=
    derives_iff_hasTree.mp (ht ▸ derives_segments hwhole)
  obtain ⟨hs, ho⟩ := parse_of_isSequence hss (Parser.tokens_ofString source).symm
  exact ⟨hs ▸ hss, ho⟩

/-- **A sequence is read turn by turn**, whatever comes behind it, as long as that does not continue
its last statement. -/
theorem turns_of_isSequence {p : Parser} (hp : p.Regular) {ts us : List Token}
    {ss : List Statement} (h : Grammar.standard.IsSequence ts ss) (ht : p.tokens = ts ++ us)
    (hb : ts = [] ∨ Grammar.standard.EndsBefore ts (headKind us)) :
    ∃ q, ParseM.Turns p ss.length ss q ∧ q.Regular ∧ q.tokens = us ∧
      q.diagnostics.toList = p.diagnostics.toList ++ overlarge ts := by
  induction h generalizing p with
  | nil => exact ⟨p, .zero p, hp, ht, (List.append_nil _).symm⟩
  | @cons ts vs s ss hs hbv _ ih =>
    have hne : p.current.kind ≠ .eof := fun e => by
      rw [Parser.tokens_of_eof e, List.append_assoc] at ht
      exact hs.ne_nil (List.append_eq_nil_iff.mp ht.symm).1
    have hb := hb.resolve_left (List.append_ne_nil_of_left_ne_nil hs.ne_nil vs)
    -- behind the statement comes the next one of the sequence, or what comes behind the sequence
    have hbu : Grammar.standard.EndsBefore ts (headKind (vs ++ us)) := by
      by_cases hv : vs = []
      · subst hv
        rwa [List.append_nil] at hb
      · rwa [headKind_append hv]
    rw [List.append_assoc] at ht
    obtain ⟨q, hturn, hq, hvs⟩ := hp.exists_turn_whole hs ht hbu
    obtain ⟨r, hr, hrr, hru, hrd⟩ := ih hq hvs (or_iff_not_imp_left.mpr hb.of_append)
    refine ⟨r, .succ hne hturn.run hr, hrr, hru, ?_⟩
    rw [hrd, hturn.takes.diagnostics_eq, overlarge_append, List.append_assoc]

/-! ## Both sources -/

/-- Behind some turns of the loop, reading goes on as it does in another source of which the same
tokens are left. -/
theorem statements_run_of_turns {p q p₂ r₂ : Parser} {n : Nat} {ss rest : List Statement}
    (ht : ParseM.Turns p n ss q) (hq : q.grammar.EndsAtEof) (hp₂ : p₂.grammar.EndsAtEof)
    (hres : ∀ m, Parser.Resembles m q p₂) (hrun : ParseM.statements.run p₂ = .ok rest r₂) :
    ∃ r ds, ParseM.statements.run p = .ok (ss ++ rest) r ∧
      r.diagnostics.toList = q.diagnostics.toList ++ ds ∧
      r₂.diagnostics.toList = p₂.diagnostics.toList ++ ds := by
  obtain ⟨n, ds, hqr, hloc⟩ := ParseM.statements_localAt hq
  obtain ⟨he, hr₂⟩ := hloc p₂ hp₂ (hres (n + 2))
  rw [hrun] at he hr₂
  refine ⟨_, ds, ?_, hqr.diagnostics_eq, hr₂.diagnostics_eq⟩
  rw [ht.statements_run, Outcome.eq_ok he.symm]
  rfl

/-- A source yields the statements that are read to its end. -/
theorem exists_statements_run (source : String) :
    ∃ r, ParseM.statements.run (.ofString source) = .ok (parse source).program.statements r ∧
      (parse source).diagnostics = r.diagnostics.toList := by
  obtain ⟨segs, r, h, -⟩ := exists_segments (Parser.regular_ofString source)
  obtain ⟨-, hs, hd⟩ := parse_of_segments h
  refine ⟨r, ?_, hd.trans h.takes.diagnostics_eq.symm⟩
  rw [hs]
  exact h.turns.statements_of_eof h.current_eof

/-- **Reading is compositional at statement borders.** Let only numerals be wrong with the first of
two sources, and let the second one be whatever it may. If the first one has no tokens, or ends with
a semicolon, or the second one begins neither with a semicolon nor with a binary operator, then both
on lines of their own yield the statements and the diagnostics of the first one, and behind them
those of the second one. -/
theorem parse_append_newline (source₁ source₂ : String)
    (h : ∀ d ∈ (parse source₁).diagnostics, d.IsOutOfRange)
    (hb : (tokenize source₁).dropLast = [] ∨
      (∃ t ∈ (tokenize source₁).dropLast.getLast?, t.kind = .semicolon) ∨
      headKind (tokenize source₂) ∉ Kind.semicolon :: binaryOperators) :
    (parse (source₁ ++ "\n" ++ source₂)).program.statements =
        (parse source₁).program.statements ++ (parse source₂).program.statements ∧
      (parse (source₁ ++ "\n" ++ source₂)).diagnostics =
        (parse source₁).diagnostics ++ (parse source₂).diagnostics := by
  have ht := tokenize_append_newline source₁ source₂
  generalize source₁ ++ "\n" ++ source₂ = source at ht ⊢
  obtain ⟨hseq, hd₁⟩ := isSequence_of_parse h
  obtain ⟨r₂, hrun₂, hd₂⟩ := exists_statements_run source₂
  obtain ⟨r, hrun, hd⟩ := exists_statements_run source
  rw [← Parser.tokens_ofString source, ← Parser.tokens_ofString source₂, ← List.append_assoc,
    List.append_cancel_right_eq, dropLast_tokenize] at ht
  rw [dropLast_tokenize, headKind_tokenize] at hb
  obtain ⟨q, hturns, hq, hqt, hqd⟩ := turns_of_isSequence (Parser.regular_ofString source) hseq ht
    (hb.imp_right .of_border)
  obtain ⟨m, _, hadv, -⟩ := hturns.exists_of_resembles (Parser.endsAtEof_ofString source)
  have hres m : Parser.Resembles m q (.ofString source₂) :=
    Parser.StandsAt.resembles_of_tokens (Parser.standsAt_of_window hadv.window_eq)
      (Parser.standsAt_of_window (k := 0) rfl) hqt.symm
      ((Parser.ofString_grammar source₂).trans hq.grammar_eq.symm) m
  obtain ⟨r', ds, hrun', hds, hds₂⟩ := statements_run_of_turns hturns hq.ranked.endsAtEof
    (Parser.endsAtEof_ofString source₂) hres hrun₂
  obtain ⟨hs, rfl⟩ := EStateM.Result.ok.inj (hrun.symm.trans hrun')
  refine ⟨hs, ?_⟩
  rw [hd, hds, hqd, hd₁, hd₂, hds₂, Parser.ofString_diagnostics, Parser.ofString_diagnostics]
  rfl

/-- A group behind a group is a statement of its own, even if it is not closed. -/
theorem parse_append_newline_of_groups :
    let source₁ := "let a = 9223372036854775808; (b)"
    let source₂ := "(c"
    (∀ d ∈ (parse source₁).diagnostics, d.IsOutOfRange) ∧
      headKind (tokenize source₂) ∉ Kind.semicolon :: binaryOperators ∧
      (parse (source₁ ++ "\n" ++ source₂)).program.statements =
        (parse source₁).program.statements ++ (parse source₂).program.statements ∧
      (parse (source₁ ++ "\n" ++ source₂)).diagnostics =
        [.outOfRange "9223372036854775808", .unexpected .closeParen .eof] := by
  intro source₁ source₂
  have h : ∀ d ∈ (parse source₁).diagnostics, d.IsOutOfRange := by decide +kernel
  have hb : headKind (tokenize source₂) ∉ Kind.semicolon :: binaryOperators := by decide +kernel
  obtain ⟨hs, hd⟩ := parse_append_newline source₁ source₂ h (.inr (.inr hb))
  have hdiag : (parse source₁).diagnostics ++ (parse source₂).diagnostics =
      [.outOfRange "9223372036854775808", .unexpected .closeParen .eof] := by decide +kernel
  exact ⟨h, hb, hs, hd.trans hdiag⟩

/-- An operator at the border makes one statement of two. -/
example : (parse "a\n-b").program.statements.length = 1 := by decide +kernel

end Frontend
