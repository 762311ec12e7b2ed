import Frontend.Proofs.Shape

/-!
# Where diagnostics come from

Every diagnostic is about one token of the source, which is wrong where it stands. Diagnostics are
recorded in the order of these tokens. A token is complained about at most twice: once because
another one was expected, and then once more because reading goes on with it.

* `Diagnostic.IsJustified`: the diagnostics that a token justifies behind the tokens before it;
* `Site`: a diagnostic with the place of its token; `Site.moment`: when it is recorded;
* `IsRecord`: justified sites between two moments, in order;
* **`exists_record_overlarge`**, **`Parser.Fails.exists_record`**: numerals and failures;
* **`Parser.Regular.exists_record_of_turn`**: one turn of the loop over statements;
* **`diagnostics_follow_source`**: the diagnostics of a source.
-/

namespace Frontend

/-! ## Reasons -/

namespace Diagnostic

/-- The diagnostic says that another token was expected. -/
def IsUnexpected : Diagnostic → Prop
  | unexpected _ _ => True
  | _ => False

instance : DecidablePred IsUnexpected
  | unexpected _ _ => .isTrue trivial
  | noOperand _ | outOfRange _ => .isFalse id

/-- The token `t` behind the tokens `before` is what the diagnostic says, and is wrong there. -/
inductive IsJustified : List Token → Token → Diagnostic → Prop
  /-- It comes where a binding needs its name or its sign. -/
  | aborts {before ts : List Token} {t : Token} {k : Kind} (ha : ParseM.Aborts ts k)
      (ht : t.kind ≠ k) : IsJustified (before ++ ts) t (.unexpected k t.kind)
  /-- It does not close a parenthesis that is open. -/
  | unclosed {before : List Token} {t : Token} (ho : ∃ o ∈ before, o.kind = .openParen)
      (ht : t.kind ≠ .closeParen) : IsJustified before t (.unexpected .closeParen t.kind)
  /-- It starts no operand. -/
  | noOperand {before : List Token} {t : Token} (ht : t.kind ∉ Grammar.operandHeads) :
      IsJustified before t (.noOperand t.kind)
  /-- It is a numeral out of range. -/
  | outOfRange {before : List Token} {t : Token} (ht : t.IsOverlarge) :
      IsJustified before t (.outOfRange t.literal)

end Diagnostic

/-- A diagnostic with the place of the token that it is about, counted from zero. -/
structure Site where
  place : Nat
  diagnostic : Diagnostic
  deriving DecidableEq, Repr, Inhabited

namespace Site

/-- The token at the place, behind those before it, is what the diagnostic says. -/
def IsJustified (ts : List Token) (s : Site) : Prop :=
  ∃ before t behind, ts = before ++ t :: behind ∧ before.length = s.place ∧
    s.diagnostic.IsJustified before t

/-- The moment at which the diagnostic is recorded. A token is unexpected while it is the next one.
Everything else is recorded when it is the current one. -/
def moment (s : Site) : Nat := 2 * s.place + if s.diagnostic.IsUnexpected then 0 else 1

end Site

/-! ## Records -/

/-- The sites are justified in the tokens `ts`, lie between two moments, and follow each other. -/
structure IsRecord (ts : List Token) (a b : Nat) (ss : List Site) : Prop where
  justified : ∀ s ∈ ss, s.IsJustified ts
  le : a ≤ b
  moment_mem : ∀ s ∈ ss, a ≤ s.moment ∧ s.moment < b
  sorted : ss.Pairwise fun s s' => s.moment < s'.moment

namespace IsRecord

variable {ts : List Token} {a a' b b' c : Nat} {ss ss' : List Site} {s : Site}

theorem nil (h : a ≤ b) : IsRecord ts a b [] := ⟨nofun, h, nofun, .nil⟩

theorem singleton (hs : s.IsJustified ts) (ha : a ≤ s.moment) (hb : s.moment < b) :
    IsRecord ts a b [s] where
  justified := by simpa using hs
  le := by omega
  moment_mem := by simp [ha, hb]
  sorted := List.pairwise_singleton _ s

theorem append (h : IsRecord ts a b ss) (h' : IsRecord ts b c ss') :
    IsRecord ts a c (ss ++ ss') where
  justified := List.forall_mem_append.mpr ⟨h.justified, h'.justified⟩
  le := Nat.le_trans h.le h'.le
  moment_mem s hs := by
    have hab := h.le
    have hbc := h'.le
    rcases List.mem_append.mp hs with hs | hs
    · have := h.moment_mem s hs; omega
    · have := h'.moment_mem s hs; omega
  sorted := List.pairwise_append.mpr ⟨h.sorted, h'.sorted, fun s hs s' hs' =>
    Nat.lt_of_lt_of_le (h.moment_mem s hs).2 (h'.moment_mem s' hs').1⟩

theorem mono (h : IsRecord ts a b ss) (ha : a' ≤ a) (hb : b ≤ b') : IsRecord ts a' b' ss := by
  have hfront : IsRecord ts a' a [] := .nil ha
  have hl := hfront.append (h.append (.nil hb))
  rwa [List.nil_append, List.append_nil] at hl

end IsRecord

/-- **Numerals are recorded one after the other**, each when it is the current token. -/
theorem exists_record_overlarge (before ts behind : List Token) (hne : ts ≠ []) :
    ∃ ss : List Site, ss.map Site.diagnostic = overlarge ts ∧
      IsRecord (before ++ ts ++ behind) (2 * before.length + 1) (2 * (before ++ ts).length) ss := by
  induction ts generalizing before with
  | nil => exact absurd rfl hne
  | cons t ts ih =>
    have hhead : ∃ ss : List Site, ss.map Site.diagnostic = overlarge [t] ∧
        IsRecord (before ++ t :: ts ++ behind) (2 * before.length + 1) (2 * before.length + 2)
          ss := by
      rw [overlarge_singleton]
      split
      · next ht =>
        refine ⟨[⟨before.length, .outOfRange t.literal⟩], rfl, .singleton ?_ ?_ ?_⟩
        · exact ⟨before, t, ts ++ behind, by simp, rfl, .outOfRange ht⟩
        · simp [Site.moment, Diagnostic.IsUnexpected]
        · simp [Site.moment, Diagnostic.IsUnexpected]
      · exact ⟨[], rfl, .nil (by omega)⟩
    obtain ⟨ss, hss, hrec⟩ := hhead
    rw [overlarge_cons, ← hss]
    by_cases hts : ts = []
    · subst hts
      exact ⟨ss, by simp [overlarge], by simpa [Nat.mul_add] using hrec⟩
    · obtain ⟨ss', hss', hrec'⟩ := ih (before ++ [t]) hts
      rw [List.append_assoc, List.append_assoc, List.append_assoc, List.singleton_append] at hrec'
      refine ⟨ss ++ ss', by rw [List.map_append, hss'], hrec.append ?_⟩
      have hle : 2 * before.length + 2 ≤ 2 * (before ++ [t]).length + 1 := by
        rw [List.length_append, List.length_singleton]
        omega
      simpa using hrec'.mono hle (Nat.le_refl _)

namespace Parser

/-- The moment from which on a parser records something if it has the tokens `before` behind it. At
the end of the source nothing is recorded any more. -/
def moment (p : Parser) (before : List Token) : Nat :=
  2 * before.length + if p.current.kind = .eof then 2 else 1

theorem moment_of_eof {p : Parser} (h : p.current.kind = .eof) (before : List Token) :
    p.moment before = 2 * before.length + 2 := by
  rw [moment, if_pos h]

theorem moment_of_ne_eof {p : Parser} (h : p.current.kind ≠ .eof) (before : List Token) :
    p.moment before = 2 * before.length + 1 := by
  rw [moment, if_neg h]

theorem lt_moment (p : Parser) (before : List Token) : 2 * before.length < p.moment before := by
  unfold moment
  split <;> omega

/-- Where fewer tokens are left, records begin later. -/
theorem moment_le {p q : Parser} {ts : List Token} (h : p.tokens = ts ++ q.tokens)
    (before : List Token) : p.moment before ≤ q.moment (before ++ ts) := by
  by_cases hts : ts = []
  · subst hts
    have he : p.current.kind = .eof ↔ q.current.kind = .eof := by
      rw [← tokens_eq_nil_iff, ← tokens_eq_nil_iff, h, List.nil_append]
    simp [moment, he]
  · have hk : p.current.kind ≠ .eof := fun e => hts (by
      rw [tokens_of_eof e] at h
      exact (List.append_eq_nil_iff.mp h.symm).1)
    have hpos := List.length_pos_iff.mpr hts
    have hlt := q.lt_moment (before ++ ts)
    rw [moment_of_ne_eof hk]
    rw [List.length_append] at hlt
    omega

/-- The tokens from the current one on, the last one of the source included. -/
def stream (p : Parser) : List Token := p.tokens ++ [.eof]

theorem exists_stream_eq (p : Parser) :
    ∃ t ts, p.stream = t :: ts ∧ t.kind = p.current.kind := by
  by_cases hk : p.current.kind = .eof
  · exact ⟨.eof, [], by rw [stream, tokens_of_eof hk]; rfl, hk.symm⟩
  · exact ⟨p.current, p.advance.stream, by rw [stream, tokens_of_ne_eof hk]; rfl, rfl⟩

/-- A diagnostic about the current token is justified at its place. -/
theorem isJustified_stream {p : Parser} {before : List Token} {d : Diagnostic}
    (h : ∀ t : Token, t.kind = p.current.kind → d.IsJustified before t) :
    Site.IsJustified (before ++ p.stream) ⟨before.length, d⟩ := by
  obtain ⟨t, ts, hs, ht⟩ := p.exists_stream_eq
  exact ⟨before, t, ts, by rw [hs], rfl, h t ht⟩

theorem Takes.stream_eq {p q : Parser} {ts : List Token} {ds : List Diagnostic}
    (h : p.Takes ts ds q) : p.stream = ts ++ q.stream := by
  rw [stream, h.tokens_eq, List.append_assoc]
  rfl

theorem Takes.unique {p q : Parser} {ts us : List Token} {ds es : List Diagnostic}
    (h : p.Takes ts ds q) (h' : p.Takes us es q) : ts = us ∧ ds = es :=
  ⟨List.append_cancel_right (h.tokens_eq.symm.trans h'.tokens_eq),
    List.append_cancel_left (h.diagnostics_eq.symm.trans h'.diagnostics_eq)⟩

/-! ## Readings and failures -/

theorem Regular.exists_record_of_reads {p r : Parser} {ts : List Token} (hp : p.Regular)
    (h : p.Reads ts r) (hts : ∀ t ∈ ts, t.kind ≠ .eof) (before : List Token) :
    ∃ ss : List Site, ss.map Site.diagnostic = ts.flatMap Token.faults ∧
      IsRecord (before ++ p.stream) (2 * before.length + 1) (2 * (before ++ ts).length) ss := by
  have ht := h.takes hts
  rw [flatMap_faults (hp.isScannable_of_append ht.tokens_eq), ht.stream_eq, ← List.append_assoc]
  exact exists_record_overlarge before ts r.advance.stream h.ne_nil

theorem standard_operand_eq_none {k : Kind} (h : Grammar.standard.operand k = none) :
    k ∉ Grammar.operandHeads := by
  revert h
  cases k <;> decide

/-- **A failure is recorded last**, at the token that starts no operand or leaves a parenthesis
open. -/
theorem Fails.exists_record {p r : Parser} (h : p.Fails r) (hp : p.Regular)
    (before : List Token) : ∃ ts ss, p.Takes ts (ss.map Site.diagnostic) r.advance ∧
      IsRecord (before ++ p.stream) (2 * before.length + 1) (r.advance.moment (before ++ ts))
        ss := by
  induction h generalizing before with
  | @noOperand p h =>
    have hd : p.current.kind ∉ Grammar.operandHeads :=
      standard_operand_eq_none (hp.grammar_eq ▸ h)
    have hj : Site.IsJustified (before ++ p.stream) ⟨before.length, .noOperand p.current.kind⟩ :=
      isJustified_stream fun t ht => ht ▸ .noOperand (ht ▸ hd)
    have hm : Site.moment ⟨before.length, .noOperand p.current.kind⟩ = 2 * before.length + 1 := rfl
    obtain ⟨ts, ht, hne⟩ := takes_advance hp.aligned
    refine ⟨ts, [⟨before.length, .noOperand p.current.kind⟩], ht.report_advance _,
      .singleton hj (Nat.le_of_eq hm.symm) ?_⟩
    rw [hm]
    by_cases hk : p.current.kind = .eof
    · have he : (p.report (.noOperand p.current.kind)).advance.current.kind = .eof :=
        hp.aligned.peek_of_current hk
      rw [moment_of_eof he, List.length_append]
      omega
    · have hpos := List.length_pos_iff.mpr (hne hk)
      have hlt := lt_moment (p.report (.noOperand p.current.kind)).advance (before ++ ts)
      rw [List.length_append] at hlt
      omega
  | @unclosed p r ts h hts ho hk =>
    obtain ⟨ss, hss, hrec⟩ := hp.exists_record_of_reads h hts before
    have ht := (h.takes hts).report_advance (.unexpected .closeParen r.peek.kind)
    let s : Site := ⟨(before ++ ts).length, .unexpected .closeParen r.peek.kind⟩
    have hj : s.IsJustified (before ++ p.stream) := by
      rw [(h.takes hts).stream_eq, ← List.append_assoc]
      refine isJustified_stream fun t ht => ?_
      obtain ⟨o, ho, hok⟩ := ho
      have htk : t.kind = r.peek.kind := ht
      exact htk ▸ .unclosed ⟨o, List.mem_append_right _ ho, hok⟩ (htk ▸ hk)
    have hm : s.moment = 2 * (before ++ ts).length := rfl
    refine ⟨ts, ss ++ [s], ?_, hrec.append (.singleton hj (Nat.le_of_eq hm.symm) ?_)⟩
    · rwa [List.map_append, hss]
    · rw [hm]
      exact lt_moment _ _
  | @behind p q r ts h hts _ ih =>
    have ht := h.takes hts
    obtain ⟨ss, hss, hrec⟩ := hp.exists_record_of_reads h hts before
    obtain ⟨us, ss', hu, hrec'⟩ := ih (hp.advance h.reaches ht) (before ++ ts)
    rw [List.append_assoc before, ← ht.stream_eq, List.append_assoc before] at hrec'
    refine ⟨ts ++ us, ss ++ ss', ?_, hrec.append (hrec'.mono (by simp) (Nat.le_refl _))⟩
    rw [List.map_append, hss]
    exact ht.trans hu

/-! ## Turns of the loop -/

/-- **What a turn of the loop records** is justified, and comes before what the next one records. -/
theorem Regular.exists_record_of_turn {p q : Parser} {g : Segment} (hp : p.Regular)
    (h : p.Turn g q) (before : List Token) : ∃ ss : List Site,
      ss.map Site.diagnostic = g.diagnostics ∧
      IsRecord (before ++ p.stream) (2 * before.length + 1) (q.moment (before ++ g.tokens)) ss := by
  have ho := ParseM.segment_outcome hp.ranked
  rw [h.run] at ho
  generalize hs? : g.statement? = s? at ho
  cases ho with
  | @whole ts st r hr hs _ =>
    have ht := (hr.takes hs.kind_ne_eof).noted_advance (.parsed st)
    obtain ⟨hts, hds⟩ := h.takes.unique ht
    obtain ⟨ss, hss, hrec⟩ := hp.exists_record_of_reads hr hs.kind_ne_eof before
    rw [hts, hds]
    exact ⟨ss, hss, hrec.mono (Nat.le_refl _) (Nat.le_of_lt (lt_moment _ _))⟩
  | @valueless st r hf _ =>
    obtain ⟨ts, ss, ht, hrec⟩ := hf.exists_record hp before
    obtain ⟨us, hu⟩ := ht.skipped_advance
    obtain ⟨hts, hds⟩ := h.takes.unique (hu.noted_advance (.parsed st))
    have hle : r.advance.moment (before ++ ts) ≤
        (r.skipped.noted (.parsed st)).advance.moment (before ++ (ts ++ us)) := by
      have htokens := ht.tokens_eq.symm.trans (hu.noted_advance (.parsed st)).tokens_eq
      rw [List.append_assoc] at htokens
      rw [← List.append_assoc]
      exact moment_le (List.append_cancel_left htokens) _
    rw [hts, hds]
    exact ⟨ss, rfl, hrec.mono (Nat.le_refl _) hle⟩
  | @dropped ts k r hr ha hk =>
    obtain ⟨ss, hss, hrec⟩ := hp.exists_record_of_reads hr ha.kind_ne_eof before
    have ht := hr.takes ha.kind_ne_eof
    obtain ⟨hts, hds⟩ := h.takes.unique (ht.report_advance (.unexpected k r.peek.kind))
    let s : Site := ⟨(before ++ ts).length, .unexpected k r.peek.kind⟩
    have hj : s.IsJustified (before ++ p.stream) := by
      rw [ht.stream_eq, ← List.append_assoc]
      refine isJustified_stream fun t ht => ?_
      have htk : t.kind = r.peek.kind := ht
      exact htk ▸ .aborts ha (htk ▸ hk)
    have hm : s.moment = 2 * (before ++ ts).length := rfl
    rw [hts, hds]
    refine ⟨ss ++ [s], ?_, hrec.append (.singleton hj (Nat.le_of_eq hm.symm) ?_)⟩
    · rw [List.map_append, hss]
      rfl
    · rw [hm]
      exact lt_moment _ _

end Parser

/-- The turns of the loop record one after the other. -/
theorem Segments.exists_record {p r : Parser} {segs : List Segment} (h : Segments p segs r)
    (hp : p.Regular) (before : List Token) : ∃ ss : List Site, ∃ b,
      ss.map Site.diagnostic = segs.flatMap Segment.diagnostics ∧
      IsRecord (before ++ p.stream) (p.moment before) b ss := by
  induction h generalizing before with
  | done _ => exact ⟨[], _, rfl, .nil (Nat.le_refl _)⟩
  | @turn p q r g segs hne ht _ ih =>
    obtain ⟨ss, hss, hrec⟩ := hp.exists_record_of_turn ht before
    obtain ⟨ss', b, hss', hrec'⟩ := ih (hp.turn hne ht) (before ++ g.tokens)
    rw [List.append_assoc, ← ht.takes.stream_eq] at hrec'
    rw [Parser.moment_of_ne_eof hne, List.flatMap_cons, ← hss, ← hss']
    exact ⟨ss ++ ss', b, List.map_append, hrec.append hrec'⟩

/-- Of two moments in order the first one is at an earlier place, or at the same place, where a token
is unexpected before anything else is said about it. -/
theorem Site.place_of_moment_lt {s s' : Site} (h : s.moment < s'.moment) :
    s.place ≤ s'.place ∧ (s.place = s'.place →
      s.diagnostic.IsUnexpected ∧ ¬ s'.diagnostic.IsUnexpected) := by
  have hle : s.place ≤ s'.place := by
    unfold moment at h
    split at h <;> split at h <;> omega
  refine ⟨hle, fun he => ⟨?_, fun hs' => ?_⟩⟩
  · by_contra hs
    rw [moment, moment, if_neg hs, he] at h
    split at h <;> omega
  · rw [moment, moment, if_pos hs', he] at h
    omega

/-- **Diagnostics follow the source.** Each of them is about a token of the source that justifies it
where it stands. They come in the order of these tokens. Two that are about the same token are one
that did not expect it, and then one of another cause. -/
theorem diagnostics_follow_source (source : String) : ∃ sites : List Site,
    sites.map Site.diagnostic = (parse source).diagnostics ∧
    (∀ s ∈ sites, s.IsJustified (tokenize source)) ∧
    sites.Pairwise fun s s' => s.place ≤ s'.place ∧ (s.place = s'.place →
      s.diagnostic.IsUnexpected ∧ ¬ s'.diagnostic.IsUnexpected) := by
  have hp := Parser.regular_ofString source
  obtain ⟨segs, r, h, -⟩ := exists_segments hp
  obtain ⟨ss, b, hss, hrec⟩ := h.exists_record hp []
  have hstream : (Parser.ofString source).stream = tokenize source := Parser.tokens_ofString source
  rw [List.nil_append, hstream] at hrec
  exact ⟨ss, hss.trans (parse_of_segments h).2.2.symm, hrec.justified,
    hrec.sorted.imp Site.place_of_moment_lt⟩

end Frontend
