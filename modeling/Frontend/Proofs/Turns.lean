import Frontend.Proofs.Statement

/-!
# Turns of the loop over statements

The loop over statements takes one turn after the other, up to the last token. Whatever is said about
its runs, turn by turn, is said on top of one relation.

* **`ParseM.moves_statement`**: reading a statement does nothing but advance and report;
* **`ParseM.segment_progress`**: a turn takes at least one token;
* `ParseM.statements`, **`ParseM.statements_eq`**: the loop without a bound on its turns;
* `ParseM.Turns`: some turns of the loop; **`ParseM.Turns.statements_run`**: the loop goes on behind
  them; **`ParseM.Turns.program_run`**: turns up to the last token are a program;
* **`ParseM.exists_turns`**: the loop takes turns up to the last token, or up to one in which it stops.
-/

namespace Frontend

namespace ParseM

open Frontend.Parser

/-! ## One turn -/

theorem moves_optional {α : Type} {x : ParseM α} (h : Moves x) : Moves (optional x) := by
  intro p
  have hp := h p
  rw [optional_run]
  cases hx : x.run p with
  | ok a r => rwa [hx] at hp
  | error e r => rw [hx] at hp; cases e <;> exact hp

theorem moves_skipSemicolon : Moves skipSemicolon := by
  intro p
  rw [skipSemicolon_run]
  exact p.reaches_skipped

theorem moves_valueWith (f : Option Expr → Statement) : Moves (valueWith f) :=
  (moves_optional (moves_expr _)).bind fun _ => moves_skipSemicolon.bind fun _ => moves_pure _

theorem moves_binding : Moves binding :=
  moves_get.bind fun _ => (moves_checked _).bind fun _ => (moves_require _).bind fun _ =>
    moves_get.bind fun _ => (moves_checked _).bind fun _ => (moves_require _).bind fun _ =>
    moves_advance.bind fun _ => moves_valueWith _

theorem moves_returning : Moves returning :=
  moves_get.bind fun _ => (moves_checked _).bind fun _ => moves_advance.bind fun _ =>
    moves_valueWith _

theorem moves_expressionStatement : Moves expressionStatement :=
  moves_get.bind fun _ => moves_valueWith _

/-- **Reading a statement does nothing but advance and report.** -/
theorem moves_statement : Moves statement := by
  refine moves_get.bind fun p => ?_
  split
  · exact moves_binding
  · exact moves_returning
  · exact moves_expressionStatement

theorem turned_grammar (s? : Option Statement) (p : Parser) :
    (turned s? p).grammar = p.grammar := by
  cases s? <;> rfl

theorem turned_window (s? : Option Statement) (p : Parser) :
    (turned s? p).window = p.advance.window := by
  cases s? <;> rfl

theorem turned_unread (s? : Option Statement) (p : Parser) :
    (turned s? p).unread = p.advance.unread := by
  cases s? <;> rfl

/-- **A turn of the loop takes at least one token**, and leaves the grammar as it is. -/
theorem segment_progress {p q : Parser} {s? : Option Statement} (h : segment.run p = .ok s? q)
    (hne : p.current.kind ≠ .eof) : q.grammar = p.grammar ∧ q.unread < p.unread := by
  rw [segment_run, andThen_eq_ok] at h
  obtain ⟨s?', r, hr, hq⟩ := h
  cases hq
  have hp := (moves_optional moves_statement).reaches hr
  refine ⟨(turned_grammar _ r).trans hp.grammar_eq, ?_⟩
  calc (turned s? r).unread
      = r.advance.unread := turned_unread s? r
    _ ≤ r.beyond := r.advance_unread_le_beyond
    _ ≤ p.beyond := hp.beyond_le
    _ < p.unread := beyond_lt_unread hne

/-! ## The loop -/

/-- Bounds that cover the unread tokens agree. -/
theorem statementsWithin_eq {p : Parser} {m n : Nat} (hm : p.unread < m) (hn : p.unread < n) :
    (statementsWithin m).run p = (statementsWithin n).run p := by
  induction m generalizing n p with
  | zero => exact absurd hm (Nat.not_lt_zero _)
  | succ m ih =>
    obtain ⟨n, rfl⟩ : ∃ n', n = n' + 1 := ⟨n - 1, by omega⟩
    rw [statementsWithin_run, statementsWithin_run]
    split
    · rfl
    · next hk =>
      cases hs : segment.run p with
      | error e q => rfl
      | ok s? q =>
        have hlt := (segment_progress hs hk).2
        rw [andThen_ok, andThen_ok, ih (p := q) (n := n) (by omega) (by omega)]

/-- The statements up to the end of the source, without a bound on their number. -/
def statements : ParseM (List Statement) := fun p => (statementsWithin (p.unread + 1)).run p

/-- **At the end of the source there are no more statements, and in front of it every turn of the
loop comes before the rest.** -/
theorem statements_eq (p : Parser) : statements.run p =
    if p.current.kind = .eof then .ok [] p
    else Outcome.andThen (segment.run p) fun s? q =>
      Outcome.andThen (statements.run q) fun rest r => .ok (s?.toList ++ rest) r := by
  have h : statements.run p = (statementsWithin (p.unread + 1)).run p := rfl
  rw [h, statementsWithin_run]
  split
  · rfl
  · next hk =>
    cases hs : segment.run p with
    | error e q => rfl
    | ok s? q =>
      have hlt := (segment_progress hs hk).2
      rw [andThen_ok, andThen_ok, statementsWithin_eq (n := q.unread + 1) hlt (Nat.lt_succ_self _)]
      rfl

/-- A program is the statements up to the end of the source. -/
theorem program_run (p : Parser) : program.run p =
    Outcome.andThen (statements.run p) fun ss q =>
      .ok ⟨ss⟩ (q.noted (.finished ss.length q.diagnostics.size)) := by
  rw [program, bind_run, get_run, andThen_ok, bind_run]
  rfl

/-! ## Some turns -/

theorem filterMap_cons_toList {α β : Type} (f : α → Option β) (a : α) (l : List α) :
    (a :: l).filterMap f = (f a).toList ++ l.filterMap f := by
  rw [List.filterMap_cons]
  cases f a <;> rfl

/-- The loop over statements takes `n` turns, which bring it from `p` to `r` and yield the
statements. -/
inductive Turns : Parser → Nat → List Statement → Parser → Prop
  | zero (p : Parser) : Turns p 0 [] p
  | succ {p q r : Parser} {n : Nat} {s? : Option Statement} {ss : List Statement}
      (hne : p.current.kind ≠ .eof) (hs : segment.run p = .ok s? q) (h : Turns q n ss r) :
      Turns p (n + 1) (s?.toList ++ ss) r

namespace Turns

variable {p r : Parser} {n : Nat} {ss : List Statement}

theorem grammar_eq (h : Turns p n ss r) : r.grammar = p.grammar := by
  induction h with
  | zero p => rfl
  | succ hne hs _ ih => exact ih.trans (segment_progress hs hne).1

/-- **Behind some turns, the loop goes on as if it began there.** -/
theorem statements_run (h : Turns p n ss r) : statements.run p =
    Outcome.andThen (statements.run r) fun rest q => .ok (ss ++ rest) q := by
  induction h with
  | zero p =>
    cases hr : statements.run p <;> rfl
  | @succ p q r n s? ss hne hs _ ih =>
    rw [statements_eq, if_neg hne, hs, andThen_ok, ih]
    cases statements.run r with
    | ok rest t => simp only [andThen_ok, List.append_assoc]
    | error e t => rfl

/-- Turns up to the last token are all of the loop. -/
theorem statements_of_eof (h : Turns p n ss r) (he : r.current.kind = .eof) :
    statements.run p = .ok ss r := by
  rw [h.statements_run, statements_eq, if_pos he, andThen_ok, List.append_nil]

/-- **Turns up to the last token are a program.** -/
theorem program_run (h : Turns p n ss r) (he : r.current.kind = .eof) :
    program.run p = .ok ⟨ss⟩ (r.noted (.finished ss.length r.diagnostics.size)) := by
  rw [ParseM.program_run, h.statements_of_eof he, andThen_ok]

/-- Where a turn stops, the loop stops. -/
theorem statements_of_error (h : Turns p n ss r) (hne : r.current.kind ≠ .eof) {e : Stop}
    {q : Parser} (hs : segment.run r = .error e q) : statements.run p = .error e q := by
  rw [h.statements_run, statements_eq, if_neg hne, hs]
  rfl

end Turns

/-- **The loop takes turns up to the last token, or up to one in which the reading stops.** -/
theorem exists_turns (p : Parser) : ∃ n ss r, Turns p n ss r ∧
    (r.current.kind = .eof ∨ r.current.kind ≠ .eof ∧ ∃ e q, segment.run r = .error e q) := by
  by_cases hk : p.current.kind = .eof
  · exact ⟨0, [], p, .zero p, .inl hk⟩
  · cases hs : segment.run p with
    | error e q => exact ⟨0, [], p, .zero p, .inr ⟨hk, e, q, hs⟩⟩
    | ok s? q =>
      have hlt := (segment_progress hs hk).2
      obtain ⟨n, ss, r, h, hr⟩ := exists_turns q
      exact ⟨n + 1, s?.toList ++ ss, r, .succ hk hs h, hr⟩
termination_by p.unread

end ParseM

end Frontend
