import Frontend.Proofs.Locality
import Frontend.Proofs.RoundTrip

/-!
# Absence is reported once

An expression is absent exactly if a diagnostic says why, and then only one does. Whatever rules and
binding powers a grammar has, no failure is passed over in silence, and none is reported twice on
its way out of nested expressions.

* `Records`: what the reading of an expression has recorded when it ends;
* `Records.checked`: building a node over an expression keeps the record;
* **`ParseM.operand_records`**, **`ParseM.tail_records`**, **`ParseM.expr_records`**: operands, the
  operators behind them, and expressions;
* **`absence_is_reported_once`**: the same in terms of what is new in the list of diagnostics.
-/

namespace Frontend

/-- The diagnostics of a tree are about numerals. -/
theorem Expr.isOutOfRange_of_mem_numeralFaults {e : Expr} :
    ∀ d ∈ e.numeralFaults, d.IsOutOfRange := by
  induction e with
  | identifier n => exact List.forall_mem_nil _
  | integer t value =>
    intro d hd
    rw [numeralFaults] at hd
    split at hd
    · rw [List.mem_singleton.mp hd]
      trivial
    · exact absurd hd List.not_mem_nil
  | unary t op right ih => exact ih
  | binary t op left right ihl ihr => exact List.forall_mem_append.mpr ⟨ihl, ihr⟩

/-- The diagnostics at the end of a reading that began with `ds`. An expression brings those of its
integers without value. If it is absent, one diagnostic of another cause is the last one. A misfit
leaves nothing but diagnostics about numerals. -/
inductive Records (ds : List Diagnostic) : Outcome Expr → Prop
  | ok {e : Expr} {r : Parser} (h : r.diagnostics.toList = ds ++ e.numeralFaults) :
      Records ds (.ok e r)
  | absent {ns : List Diagnostic} {d : Diagnostic} {r : Parser}
      (h : r.diagnostics.toList = ds ++ (ns ++ [d])) (hns : ∀ x ∈ ns, x.IsOutOfRange)
      (hd : ¬ d.IsOutOfRange) : Records ds (.error .absent r)
  | misfit {ns : List Diagnostic} {m : Misfit} {r : Parser} (h : r.diagnostics.toList = ds ++ ns)
      (hns : ∀ x ∈ ns, x.IsOutOfRange) : Records ds (.error (.misfit m) r)

namespace Records

variable {ds es : List Diagnostic} {o : Outcome Expr}

/-- A reading that stops has recorded the same if some diagnostics about numerals count as new. -/
theorem error {e : Stop} {r : Parser} (h : Records (ds ++ es) (.error e r))
    (hes : ∀ d ∈ es, d.IsOutOfRange) : Records ds (.error e r) := by
  cases h with
  | absent h hns hd =>
    rw [List.append_assoc, ← List.append_assoc es] at h
    exact .absent h (List.forall_mem_append.mpr ⟨hes, hns⟩) hd
  | misfit h hns =>
    rw [List.append_assoc] at h
    exact .misfit h (List.forall_mem_append.mpr ⟨hes, hns⟩)

/-- A node over an expression keeps the record if it brings the diagnostics `es` of its other
parts. -/
theorem checked {f : Expr → Except Misfit Expr} (h : Records (ds ++ es) o)
    (hes : ∀ d ∈ es, d.IsOutOfRange)
    (hf : ∀ e e', f e = .ok e' → e'.numeralFaults = es ++ e.numeralFaults) :
    Records ds (o.andThen fun e r => (ParseM.checked (f e)).run r) := by
  cases o with
  | error e r => exact h.error hes
  | ok e r =>
    cases h with
    | ok h =>
      rw [List.append_assoc] at h
      rw [ParseM.andThen_ok]
      cases hfe : f e with
      | ok e' => exact .ok (by rw [hf e e' hfe]; exact h)
      | error m =>
        exact .misfit h (List.forall_mem_append.mpr ⟨hes, Expr.isOutOfRange_of_mem_numeralFaults⟩)

end Records

theorem Form.eq_of_check {α : Type} {f : Form} {t : Token} {a b : α}
    (h : (do f.check t; return a) = Except.ok b) : a = b := by
  by_cases hk : t.kind ∈ f.kinds
  · rw [check_of_mem hk] at h
    exact Except.ok.inj h
  · rw [check_of_not_mem hk] at h
    cases h

namespace ParseM

open Frontend.Parser

section Operand

variable {p : Parser}
  (ih : ∀ c r, p.Later r → Records r.diagnostics.toList ((expr c).run r))
include ih

theorem unary_records (hne : p.current.kind ≠ .eof) :
    Records p.diagnostics.toList ((unaryWith expr).run p) := by
  rw [unaryWith_run]
  have h := ih .unary p.advance (later_advance hne)
  rw [advance_diagnostics, ← List.append_nil p.diagnostics.toList] at h
  refine h.checked (List.forall_mem_nil _) fun e e' he => ?_
  rw [← Form.eq_of_check he]
  rfl

theorem group_records (hne : p.current.kind ≠ .eof) :
    Records p.diagnostics.toList ((groupWith expr).run p) := by
  rw [groupWith_run]
  have h := ih .lowest p.advance (later_advance hne)
  rw [advance_diagnostics] at h
  generalize (expr .lowest).run p.advance = o at h
  cases h with
  | absent h hns hd => exact .absent h hns hd
  | misfit h hns => exact .misfit h hns
  | @ok e r h =>
    rw [andThen_ok]
    split
    · exact .ok h
    · refine .absent (d := .unexpected .closeParen r.peek.kind) ?_
        (e.isOutOfRange_of_mem_numeralFaults) id
      rw [report_diagnostics, Array.toList_push, h, List.append_assoc]

/-- **An operand is recorded.** -/
theorem operand_records (hg : p.grammar.EndsAtEof) :
    Records p.diagnostics.toList (operand.run p) := by
  rw [operand, operandWith_run]
  cases hr : p.grammar.operand p.current.kind with
  | none =>
    refine .absent (d := .noOperand p.current.kind) ?_ (List.forall_mem_nil _) id
    rw [report_diagnostics, Array.toList_push, List.nil_append]
  | some rule =>
    cases rule with
    | identifier =>
      show Records _ (identifier.run p)
      rw [identifier_run]
      split
      · exact .ok (List.append_nil _).symm
      · exact .misfit (List.append_nil _).symm (List.forall_mem_nil _)
    | integer =>
      show Records _ (integer.run p)
      rw [integer_run]
      split
      · next hk =>
        refine .ok ?_
        rw [settle_diagnostics, Token.faults, Expr.numeralFaults]
        simp only [hk, true_and]
      · exact .misfit (List.append_nil _).symm (List.forall_mem_nil _)
    | unary => exact unary_records ih fun e => hg.unary (e ▸ hr)
    | group => exact group_records ih fun e => hg.group (e ▸ hr)

end Operand

/-- **The operators behind an expression are recorded**, on top of what that has brought. -/
theorem tail_records {p : Parser} (q : Precedence) {left : Expr} {ds : List Diagnostic}
    (hp : p.diagnostics.toList = ds ++ left.numeralFaults)
    (ih : ∀ c r, p.Later r → Records r.diagnostics.toList ((expr c).run r))
    (hrest : ∀ left' r, Applies q left p left' r →
      r.diagnostics.toList = ds ++ left'.numeralFaults → Records ds ((tail q left').run r)) :
    Records ds ((tail q left).run p) := by
  rw [tail_eq]
  split
  · next hc =>
    cases hr : p.grammar.operator p.peek.kind with
    | none => exact .ok hp
    | some rule =>
      cases rule with
      | binary =>
        have h := ih p.advance.currentPower p.advance.advance (later_of_continues hc)
        rw [advance_diagnostics, advance_diagnostics, hp] at h
        have ho : Records ds ((applyOperator expr left .binary).run p.advance) := by
          show Records ds ((binaryWith expr left).run p.advance)
          rw [binaryWith_run]
          refine h.checked left.isOutOfRange_of_mem_numeralFaults fun e e' he => ?_
          rw [← Form.eq_of_check he]
          rfl
        dsimp only
        generalize hrun : (applyOperator expr left .binary).run p.advance = o at ho
        cases ho with
        | absent h hns hd => exact .absent h hns hd
        | misfit h hns => exact .misfit h hns
        | @ok left' r h => exact hrest left' r ⟨hc, _, hr, hrun⟩ h
  · exact .ok hp

/-- **An expression is recorded.** -/
theorem expr_records {p : Parser} (hg : p.grammar.EndsAtEof) (q : Precedence) :
    Records p.diagnostics.toList ((expr q).run p) := by
  refine expr_induction (P := fun c r => Records r.diagnostics.toList ((expr c).run r))
    (Q := fun c left r => ∀ ds, r.diagnostics.toList = ds ++ left.numeralFaults →
      Records ds ((tail c left).run r))
    (fun c left r _ ih hrest ds h => tail_records c h ih fun left' s ha => hrest left' s ha ds)
    (fun c r hgr ih htail => ?_) q rfl
  rw [expr_eq (hgr ▸ hg)]
  have ho := operand_records ih (hgr ▸ hg)
  generalize hrun : operand.run r = o at ho
  cases ho with
  | absent h hns hd => exact .absent h hns hd
  | misfit h hns => exact .misfit h hns
  | @ok left s h => exact htail left s hrun _ h

end ParseM

/-- **Absence is reported once.** In every state, with every grammar that does not read on behind
the last token, an expression is read, or it is absent, or the reading stops at a misfit. It is
absent exactly if something other than a numeral out of range is recorded, and then this is recorded
once, and last. With an expression comes one diagnostic for each of its integers without value, from
left to right, and nothing else. -/
theorem absence_is_reported_once (p : Parser) (hg : p.grammar.EndsAtEof) (q : Precedence) :
    let o : Outcome Expr := (ParseM.expr q).run p
    (o.result ≠ .error .endless) ∧
    ∃ ds, o.parser.diagnostics.toList = p.diagnostics.toList ++ ds ∧
      (o.result = .error .absent ↔ ∃ d ∈ ds, ¬ d.IsOutOfRange) ∧
      (o.result = .error .absent →
        ∃ ns d, ds = ns ++ [d] ∧ (∀ x ∈ ns, x.IsOutOfRange) ∧ ¬ d.IsOutOfRange) ∧
      ∀ e, o.result = .ok e → ds = e.numeralFaults := by
  intro o
  have h : Records p.diagnostics.toList o := ParseM.expr_records hg q
  clear_value o
  cases h with
  | @ok e r h =>
    refine ⟨nofun, _, h, iff_of_false nofun ?_, nofun, fun e' he => ?_⟩
    · rintro ⟨d, hd, hn⟩
      exact hn (e.isOutOfRange_of_mem_numeralFaults d hd)
    · rw [Except.ok.inj he]
  | @absent ns d r h hns hd =>
    refine ⟨nofun, _, h, iff_of_true rfl ⟨d, by simp, hd⟩, fun _ => ⟨ns, d, rfl, hns, hd⟩, nofun⟩
  | @misfit ns m r h hns =>
    refine ⟨nofun, _, h, iff_of_false nofun ?_, nofun, nofun⟩
    rintro ⟨d, hd, hn⟩
    exact hn (hns d hd)

/-- With the mark `!` read as a parenthesis, the operand is complete, and what is recorded last is
that nothing closes it. Behind the mark the same text is read, and only its numeral is recorded. -/
theorem absence_is_reported_once_behind_mark :
    let p := ((Parser.ofString "!-9223372036854775808 == b;").perform
      (.registerOperand .bang .group)).2
    let o : Outcome Expr := (ParseM.expr .lowest).run p
    let o' : Outcome Expr := (ParseM.expr .lowest).run p.advance
    p.grammar.EndsAtEof ∧ o.result = .error .absent ∧
      (∃ ns d, o.parser.diagnostics.toList = ns ++ [d] ∧ (∀ x ∈ ns, x.IsOutOfRange) ∧
        ¬ d.IsOutOfRange) ∧
      ∃ e, o'.result = .ok e ∧ o'.parser.diagnostics.toList = e.numeralFaults := by
  intro p o o'
  have hg : p.grammar.EndsAtEof := ⟨by decide +kernel, by decide +kernel⟩
  have habsent : o.result = .error .absent := by decide +kernel
  obtain ⟨-, ds, hds, -, hlast, -⟩ := absence_is_reported_once p hg .lowest
  obtain ⟨ns, d, rfl, hns, hd⟩ := hlast habsent
  obtain ⟨-, ds', hds', -, -, hok⟩ := absence_is_reported_once p.advance hg .lowest
  have he : o'.result = .ok (.binary ⟨.equal, "=="⟩ "=="
      (.unary ⟨.minus, "-"⟩ "-" (.integer ⟨.integer, "9223372036854775808"⟩ none))
      (.identifier ⟨⟨.identifier, "b"⟩, "b"⟩)) := by decide +kernel
  exact ⟨hg, habsent, ⟨ns, d, hds, hns, hd⟩, _, he, hok _ he ▸ hds'⟩

end Frontend
