import Frontend.Proofs.Locality

/-!
# The log of a reading

The log tells in order what happened while a source was read: two tokens further than the window
stands they are scanned, and each statement comes behind what was wrong with it.

* `Step`, `Parser.follow`: what the reading of a program does to a parser, step by step;
* **`Parser.Reaches.exists_follow`**: whatever only advances and reports takes such steps;
* `Parser.HasScanned`, **`Parser.HasScanned.follow`**: the tokens in the log and those of the source;
* **`Parser.follow_log_filter`**, `Parser.follow_diagnostics`: what else the steps leave;
* `Call`, `Calls`: the calls for statements that the reading of a program makes, with their steps;
* **`Calls.turns`**, **`Calls.exists_of_turns`**: they are the turns of the loop over statements;
* **`exists_calls`**, **`Calls.parse_eq`**: every source is read by such calls;
* **`Calls.log_filter`**, **`Calls.prefix_log`**: what the log holds, and where;
* **`log_tells_reading`**: the log, the calls and the window.
-/

namespace Frontend

open Function

/-! ## Steps -/

/-- One thing that the reading of a program does to a parser. -/
inductive Step where
  | advance
  | report (diagnostic : Diagnostic)
  /-- A statement is added to the program. -/
  | record (statement : Statement)
  deriving DecidableEq, Repr

namespace Step

/-- The step is taken inside of statements. -/
def IsMove : Step → Prop
  | advance | report _ => True
  | record _ => False

/-- The event of a step other than an advance. -/
def event? : Step → Option Event
  | advance => none
  | report d => some (.reported d)
  | record s => some (.parsed s)

/-- The diagnostic that a step records. -/
def diagnostic? : Step → Option Diagnostic
  | report d => some d
  | advance | record _ => none

/-- The statement that a step adds to the program. -/
def statement? : Step → Option Statement
  | record s => some s
  | advance | report _ => none

theorem filterMap_statement_of_isMove {steps : List Step} (h : ∀ s ∈ steps, s.IsMove) :
    steps.filterMap statement? = [] := by
  refine List.filterMap_eq_nil_iff.mpr fun s hs => ?_
  cases s with
  | advance => rfl
  | report d => rfl
  | record s => exact (h _ hs).elim

/-- What moves leave in the log, apart from tokens, is their diagnostics. -/
theorem filterMap_event_of_isMove {steps : List Step} (h : ∀ s ∈ steps, s.IsMove) :
    steps.filterMap event? = (steps.filterMap diagnostic?).map .reported := by
  rw [List.map_filterMap]
  refine List.filterMap_congr fun s hs => ?_
  cases s with
  | advance => rfl
  | report d => rfl
  | record s => exact (h _ hs).elim

/-- The events of steps that tell diagnostics are those of the diagnostics. -/
theorem filter_reported (steps : List Step) :
    (steps.filterMap event?).filter (·.message = "parse error") =
      (steps.filterMap diagnostic?).map .reported := by
  rw [List.filter_filterMap, List.map_filterMap]
  refine List.filterMap_congr fun s _ => ?_
  cases s <;> rfl

/-- The events of steps that tell statements are those of the statements. -/
theorem filter_parsed (steps : List Step) :
    (steps.filterMap event?).filter (·.message = "parsed statement") =
      (steps.filterMap statement?).map .parsed := by
  rw [List.filter_filterMap, List.map_filterMap]
  refine List.filterMap_congr fun s _ => ?_
  cases s <;> rfl

/-- No step tells the end, and none tells a token. -/
theorem message_of_event {s : Step} {e : Event} (h : s.event? = some e) :
    e.message ≠ "finished parsing program" ∧ e.message ≠ "scanned token" := by
  cases s with
  | advance => cases h
  | report d => cases h; simp [Event.message]
  | record s => cases h; simp [Event.message]

theorem message_of_mem_events {steps : List Step} {e : Event} (h : e ∈ steps.filterMap event?) :
    e.message ≠ "finished parsing program" ∧ e.message ≠ "scanned token" := by
  obtain ⟨s, -, hs⟩ := List.mem_filterMap.mp h
  exact message_of_event hs

end Step

namespace Parser

/-- The parser after a step. -/
def after (p : Parser) : Step → Parser
  | .advance => p.advance
  | .report d => p.report d
  | .record s => p.noted (.parsed s)

/-- The parser after some steps. -/
def follow (p : Parser) (steps : List Step) : Parser := steps.foldl after p

variable {p q : Parser}

theorem follow_append (p : Parser) (steps steps' : List Step) :
    p.follow (steps ++ steps') = (p.follow steps).follow steps' := List.foldl_append

/-- **Whatever only advances and reports takes steps.** -/
theorem Reaches.exists_follow (h : p.Reaches q) :
    ∃ steps, (∀ s ∈ steps, s.IsMove) ∧ q = p.follow steps := by
  induction h with
  | refl => exact ⟨[], List.forall_mem_nil _, rfl⟩
  | advance _ ih =>
    obtain ⟨steps, hsteps, rfl⟩ := ih
    refine ⟨steps ++ [.advance], List.forall_mem_append.mpr ⟨hsteps, by simp [Step.IsMove]⟩, ?_⟩
    rw [follow_append]
    rfl
  | report d _ ih =>
    obtain ⟨steps, hsteps, rfl⟩ := ih
    refine ⟨steps ++ [.report d], List.forall_mem_append.mpr ⟨hsteps, by simp [Step.IsMove]⟩, ?_⟩
    rw [follow_append]
    rfl

/-- The window moves with every advance and stays otherwise. -/
theorem follow_window (p : Parser) (steps : List Step) :
    (p.follow steps).window = (Parser.advance^[steps.count .advance] p).window := by
  induction steps generalizing p with
  | nil => rfl
  | cons s steps ih =>
    refine (ih (p.after s)).trans ?_
    cases s with
    | advance => rw [List.count_cons_self, iterate_succ_apply]; rfl
    | report d => exact iterate_advance_window (p.report_window d) _
    | record s => exact iterate_advance_window (p.noted_window _) _

theorem standsAt_follow (source : String) (steps : List Step) :
    ((ofString source).follow steps).StandsAt source (steps.count .advance) :=
  standsAt_of_window (follow_window _ steps)

theorem follow_diagnostics (p : Parser) (steps : List Step) :
    (p.follow steps).diagnostics.toList =
      p.diagnostics.toList ++ steps.filterMap Step.diagnostic? := by
  induction steps generalizing p with
  | nil => exact (List.append_nil _).symm
  | cons s steps ih =>
    refine (ih (p.after s)).trans ?_
    cases s with
    | advance => rfl
    | report d => simp [after, Step.diagnostic?]
    | record s => rfl

/-! ## The log -/

theorem advance_log (p : Parser) : p.advance.log.toList =
    p.log.toList ++ (Event.ofToken? p.scanner.next.1).toList := by
  unfold advance
  dsimp only
  cases Event.ofToken? p.scanner.next.1 <;> simp

/-- A step with an event leaves it in the log. -/
theorem after_log {s : Step} {e : Event} (h : s.event? = some e) :
    (p.after s).log.toList = p.log.toList ++ [e] := by
  cases s with
  | advance => cases h
  | report d => cases h; exact Array.toList_push
  | record s => cases h; exact Array.toList_push

theorem log_prefix_follow (p : Parser) (steps : List Step) :
    p.log.toList <+: (p.follow steps).log.toList := by
  induction steps generalizing p with
  | nil => exact List.prefix_rfl
  | cons s steps ih =>
    refine List.IsPrefix.trans ?_ (ih (p.after s))
    cases s with
    | advance => rw [after, advance_log]; exact List.prefix_append _ _
    | report d => rw [after_log rfl]; exact List.prefix_append _ _
    | record s => rw [after_log rfl]; exact List.prefix_append _ _

/-! ### Events that are not about tokens -/

section Filter

variable {P : Event → Bool} (hP : ∀ t, P (.scanned t) = false)
include hP

theorem advance_log_filter (p : Parser) :
    p.advance.log.toList.filter P = p.log.toList.filter P := by
  rw [advance_log, List.filter_append, Event.ofToken?]
  split <;> simp [hP]

/-- **Apart from tokens, the log holds the events of the steps.** -/
theorem follow_log_filter (p : Parser) (steps : List Step) :
    (p.follow steps).log.toList.filter P =
      p.log.toList.filter P ++ (steps.filterMap Step.event?).filter P := by
  induction steps generalizing p with
  | nil => exact (List.append_nil _).symm
  | cons s steps ih =>
    refine (ih (p.after s)).trans ?_
    cases hs : s.event? with
    | none =>
      rw [List.filterMap_cons_none hs]
      cases s with
      | advance => rw [after, advance_log_filter hP]
      | report d => cases hs
      | record s => cases hs
    | some e =>
      rw [after_log hs, List.filterMap_cons_some hs, List.filter_append, List.append_assoc,
        ← List.filter_append, List.singleton_append]

theorem ofString_follow_log_filter (source : String) (steps : List Step) :
    ((ofString source).follow steps).log.toList.filter P =
      (steps.filterMap Step.event?).filter P := by
  rw [follow_log_filter hP, ofString, ofScanner, advance_log_filter hP, advance_log_filter hP]
  exact List.nil_append _

end Filter

/-! ### Events of tokens -/

/-- The parser has scanned the first `n` tokens behind `s`, and its log tells them. -/
structure HasScanned (p : Parser) (s : Scanner) (n : Nat) : Prop where
  scanner_eq : p.scanner = Scanner.behind^[n] s
  log_eq : p.log.toList.filter (·.message = "scanned token") = (s.drain.1.take n).map .scanned

theorem HasScanned.advance {s : Scanner} {n : Nat} (h : p.HasScanned s n) :
    p.advance.HasScanned s (n + 1) where
  scanner_eq := by
    rw [iterate_succ_apply', ← h.scanner_eq]
    rfl
  log_eq := by
    have ht : p.scanner.next.1 = s.drain.1[n]?.getD .eof := by rw [h.scanner_eq, s.getD_drain]
    rw [advance_log, List.filter_append, h.log_eq, ht, List.take_add_one, List.map_append]
    congr 1
    -- behind the tokens nothing is scanned, and nothing is told
    cases hn : s.drain.1[n]? with
    | none => rfl
    | some t =>
      have hne : t.kind ≠ .eof :=
        Token.kind_ne_eof (s.isLayout_drain.isScannable t (List.mem_of_getElem? hn))
      simp [Event.ofToken?, Token.is_iff, hne, Event.message]

/-- A step with an event of its own does not count. -/
theorem HasScanned.of_event {s : Scanner} {n : Nat} (h : p.HasScanned s n) {st : Step} {e : Event}
    (hs : (p.after st).scanner = p.scanner) (he : st.event? = some e) :
    (p.after st).HasScanned s n where
  scanner_eq := hs.trans h.scanner_eq
  log_eq := by
    rw [after_log he, List.filter_append, h.log_eq]
    simp [(Step.message_of_event he).2]

/-- **The log tells the tokens that were scanned**, one for each advance until they are at their
end. -/
theorem HasScanned.follow {s : Scanner} {n : Nat} (h : p.HasScanned s n) (steps : List Step) :
    (p.follow steps).HasScanned s (n + steps.count .advance) := by
  induction steps generalizing p n with
  | nil => exact h
  | cons st steps ih =>
    cases st with
    | advance =>
      rw [List.count_cons_self, Nat.add_comm _ 1, ← Nat.add_assoc]
      exact ih h.advance
    | report d => exact ih (h.of_event rfl rfl)
    | record st => exact ih (h.of_event rfl rfl)

theorem hasScanned_ofScanner (s : Scanner) : (ofScanner s).HasScanned s 2 := by
  have h : HasScanned ⟨.standard, s, .eof, .eof, #[], #[]⟩ s 0 := ⟨rfl, rfl⟩
  exact h.advance.advance

end Parser

/-! ## The tokens of a source -/

theorem filter_tokenize (source : String) :
    (tokenize source).filter (fun t => !t.is .eof) = (Scanner.ofString source).drain.1 := by
  have h : ∀ t ∈ (Scanner.ofString source).drain.1, (!t.is .eof) = true := fun t ht => by
    have hne := Token.kind_ne_eof ((Scanner.isLayout_drain _).isScannable t ht)
    rw [Bool.not_eq_true']
    exact Bool.eq_false_iff.mpr (mt Token.is_iff.mp hne)
  rw [tokenize, List.filter_append, List.filter_eq_self.mpr h]
  exact List.append_nil _

/-- The tokens stand in front of the last one. -/
theorem length_filter_tokenize_le {source : String} {k : Nat} (h : (tokenAt source k).kind = .eof) :
    ((tokenize source).filter fun t => !t.is .eof).length ≤ k := by
  rw [filter_tokenize]
  by_contra hlt
  rw [not_le] at hlt
  rw [tokenAt, tokenize, List.getElem?_append_left hlt, List.getElem?_eq_getElem hlt] at h
  exact Token.kind_ne_eof ((Scanner.isLayout_drain _).isScannable _ (List.getElem_mem hlt)) h

theorem ofString_follow_log_scanned (source : String) (steps : List Step) :
    ((Parser.ofString source).follow steps).log.toList.filter (·.message = "scanned token") =
      (((tokenize source).filter fun t => !t.is .eof).take (steps.count .advance + 2)).map
        .scanned := by
  rw [filter_tokenize, Nat.add_comm]
  exact ((Parser.hasScanned_ofScanner _).follow steps).log_eq

/-! ## Calls for statements -/

/-- A call for a statement: its steps up to its return, and the statement, if there is one. -/
structure Call where
  steps : List Step
  statement? : Option Statement

namespace Call

/-- The diagnostics that the call records. -/
def diagnostics (c : Call) : List Diagnostic := c.steps.filterMap Step.diagnostic?

/-- The steps of a call, with those behind it up to the next one. -/
def turn (c : Call) : List Step := c.steps ++ (c.statement?.toList.map .record ++ [.advance])

/-- What a call leaves in the log, apart from tokens. -/
def events (c : Call) : List Event :=
  c.diagnostics.map .reported ++ c.statement?.toList.map .parsed

theorem follow_turn (c : Call) (p : Parser) :
    p.follow c.turn = ParseM.turned c.statement? (p.follow c.steps) := by
  rw [turn, Parser.follow_append]
  cases c.statement? <;> rfl

theorem filterMap_event_turn {c : Call} (h : ∀ s ∈ c.steps, s.IsMove) :
    c.turn.filterMap Step.event? = c.events := by
  rw [turn, List.filterMap_append, Step.filterMap_event_of_isMove h]
  cases hs : c.statement? <;> simp [events, diagnostics, hs, Step.event?]

end Call

/-- The reading of a program from a parser on makes these calls for statements: one after the other,
each takes its steps and yields its statement, up to the last token. -/
inductive Calls : Parser → List Call → Prop
  | done {p : Parser} (h : p.current.kind = .eof) : Calls p []
  | call {p : Parser} {c : Call} {cs : List Call} (hne : p.current.kind ≠ .eof)
      (hmoves : ∀ s ∈ c.steps, s.IsMove)
      (hrun : (ParseM.optional ParseM.statement).run p = .ok c.statement? (p.follow c.steps))
      (h : Calls (p.follow c.turn) cs) : Calls p (c :: cs)

namespace Calls

open ParseM

variable {p : Parser} {cs : List Call}

/-- Calls are turns of the loop. -/
theorem turns (h : Calls p cs) :
    Turns p cs.length (cs.filterMap Call.statement?) (p.follow (cs.flatMap Call.turn)) := by
  induction h with
  | done h => exact .zero _
  | @call p c cs hne hmoves hrun _ ih =>
    have hseg : segment.run p = .ok c.statement? (p.follow c.turn) := by
      rw [segment_run, hrun, c.follow_turn]
      rfl
    rw [filterMap_cons_toList, List.flatMap_cons, Parser.follow_append]
    exact .succ hne hseg ih

/-- **Turns up to the last token are calls.** -/
theorem exists_of_turns {r : Parser} {n : Nat} {ss : List Statement} (h : Turns p n ss r)
    (he : r.current.kind = .eof) : ∃ cs, Calls p cs := by
  induction h with
  | zero p => exact ⟨[], .done he⟩
  | @succ p q r n s? ss hne hs _ ih =>
    obtain ⟨cs, hcs⟩ := ih he
    rw [segment_run, andThen_eq_ok] at hs
    obtain ⟨s?', t, hrun, hq⟩ := hs
    cases hq
    -- the call only moves, so it has steps
    obtain ⟨steps, hsteps, rfl⟩ := ((moves_optional moves_statement).reaches hrun).exists_follow
    let c : Call := ⟨steps, s?⟩
    refine ⟨c :: cs, .call hne hsteps hrun ?_⟩
    rwa [c.follow_turn]

theorem follow_current (h : Calls p cs) :
    (p.follow (cs.flatMap Call.turn)).current.kind = .eof := by
  induction h with
  | done h => exact h
  | call _ _ _ _ ih => rwa [List.flatMap_cons, Parser.follow_append]

theorem filterMap_event (h : Calls p cs) :
    (cs.flatMap Call.turn).filterMap Step.event? = cs.flatMap Call.events := by
  induction h with
  | done h => rfl
  | call _ hmoves _ _ ih =>
    rw [List.flatMap_cons, List.filterMap_append, ih, Call.filterMap_event_turn hmoves]
    rfl

theorem filterMap_statement (h : Calls p cs) :
    (cs.flatMap Call.turn).filterMap Step.statement? = cs.filterMap Call.statement? := by
  induction h with
  | done h => rfl
  | @call p c cs _ hmoves _ _ ih =>
    rw [List.flatMap_cons, List.filterMap_append, ih, Call.turn, List.filterMap_append,
      Step.filterMap_statement_of_isMove hmoves, filterMap_cons_toList]
    cases c.statement? <;> rfl

end Calls

/-! ## The log of a source -/

/-- The event that ends a reading, with the numbers of its statements and of its diagnostics. -/
def Parsed.finished (r : Parsed) : Event :=
  .finished r.program.statements.length r.diagnostics.length

namespace Calls

variable {source : String} {cs : List Call} (h : Calls (.ofString source) cs)
include h

/-- **The calls make the reading of a source.** -/
theorem parse_eq :
    let q := (Parser.ofString source).follow (cs.flatMap Call.turn)
    let statements := cs.filterMap Call.statement?
    parse source = ⟨⟨statements⟩, q.diagnostics.toList,
      q.log.toList ++ [.finished statements.length q.diagnostics.toList.length]⟩ := by
  rw [parse, h.turns.program_run h.follow_current]
  simp [Parser.noted]

theorem program_eq :
    (parse source).program.statements = (cs.flatMap Call.turn).filterMap Step.statement? := by
  rw [h.parse_eq, h.filterMap_statement]

theorem diagnostics_eq :
    (parse source).diagnostics = (cs.flatMap Call.turn).filterMap Step.diagnostic? := by
  rw [h.parse_eq, Parser.follow_diagnostics, Parser.ofString_diagnostics]
  exact List.nil_append _

theorem log_eq : (parse source).log =
    ((Parser.ofString source).follow (cs.flatMap Call.turn)).log.toList ++
      [(parse source).finished] := by
  rw [h.parse_eq, Parsed.finished]

theorem log_filter {P : Event → Bool} (hP : ∀ t, P (.scanned t) = false) :
    (parse source).log.filter P = ((cs.flatMap Call.turn).filterMap Step.event?).filter P ++
      [(parse source).finished].filter P := by
  rw [h.log_eq, List.filter_append, Parser.ofString_follow_log_filter hP]

/-- All tokens are scanned in the end. -/
theorem log_filter_scanned : (parse source).log.filter (·.message = "scanned token") =
    ((tokenize source).filter fun t => !t.is .eof).map .scanned := by
  have hend := h.follow_current
  rw [(Parser.standsAt_follow source _).current_eq] at hend
  have hle := Nat.le_add_right_of_le (k := 2) (length_filter_tokenize_le hend)
  rw [h.log_eq, List.filter_append, ofString_follow_log_scanned, List.take_of_length_le hle]
  exact List.append_nil _

theorem log_filter_reported : (parse source).log.filter (·.message = "parse error") =
    (parse source).diagnostics.map .reported := by
  rw [h.log_filter (by simp [Event.message]), Step.filter_reported, ← h.diagnostics_eq]
  exact List.append_nil _

theorem log_filter_parsed : (parse source).log.filter (·.message = "parsed statement") =
    (parse source).program.statements.map .parsed := by
  rw [h.log_filter (by simp [Event.message]), Step.filter_parsed, ← h.program_eq]
  exact List.append_nil _

/-- The end is told once. -/
theorem log_filter_finished :
    (parse source).log.filter (·.message = "finished parsing program") =
      [(parse source).finished] := by
  rw [h.log_filter (by simp [Event.message]), List.filter_eq_nil_iff.mpr fun e he => by
    simpa using (Step.message_of_mem_events he).1]
  rfl

theorem log_getLast? : (parse source).log.getLast? = some (parse source).finished := by
  rw [h.log_eq, List.getLast?_concat]

/-- Apart from tokens, the log tells one call after the other, and the end. -/
theorem log_filter_events : (parse source).log.filter (·.message ≠ "scanned token") =
    cs.flatMap Call.events ++ [(parse source).finished] := by
  rw [h.log_filter (by simp [Event.message]), List.filter_eq_self.mpr fun e he => by
    simpa using (Step.message_of_mem_events he).2, h.filterMap_event]
  rfl

/-- An event stands in the log behind all that was told before its step. -/
theorem prefix_log {before behind : List Step} {step : Step} {e : Event}
    (hsplit : cs.flatMap Call.turn = before ++ step :: behind) (he : step.event? = some e) :
    ((Parser.ofString source).follow before).log.toList ++ [e] <+: (parse source).log := by
  rw [h.log_eq, hsplit, Parser.follow_append, ← Parser.after_log he]
  exact (Parser.log_prefix_follow _ behind).trans (List.prefix_append _ _)

end Calls

/-- **Every source is read by calls.** -/
theorem exists_calls (source : String) : ∃ cs, Calls (.ofString source) cs := by
  have hg : (Parser.ofString source).grammar.IsFitting :=
    Parser.ofString_grammar source ▸ Grammar.isFitting_standard
  obtain ⟨n, ss, r, h, he⟩ := ParseM.exists_turns_of_allows hg.endsAtEof hg.allows
  exact Calls.exists_of_turns h he

/-- **The log tells the reading of a source.** It has the tokens of the source, the diagnostics and
the statements, each once and in order, and ends with their numbers. What it shows of them is the
kind and the text of each token, the message of each diagnostic, each statement as source text, and
the numbers in decimal.

Every source is read by calls for statements. However it is divided into such calls, the diagnostics
of a call come before its statement, and behind all that is told of earlier calls. When the parser
stands at place `c`, counted in advances, and records a diagnostic or a statement, the log holds the
first `c + 2` tokens, or all if there are less. -/
theorem log_tells_reading (source : String) :
    let r := parse source
    let tokens := (tokenize source).filter fun t => !t.is .eof
    let shown message := (r.log.filter (·.message = message)).map Event.fields
    r.log.filter (·.message = "scanned token") = tokens.map .scanned ∧
      r.log.filter (·.message = "parse error") = r.diagnostics.map .reported ∧
      r.log.filter (·.message = "parsed statement") = r.program.statements.map .parsed ∧
      r.log.filter (·.message = "finished parsing program") = [r.finished] ∧
      r.log.getLast? = some r.finished ∧
      shown "scanned token" =
        tokens.map (fun t => [("kind", t.kind.text), ("literal", t.literal)]) ∧
      shown "parse error" = r.diagnostics.map (fun d => [("error", d.message)]) ∧
      shown "parsed statement" =
        r.program.statements.map (fun s => [("statement", s.render)]) ∧
      shown "finished parsing program" =
        [[("statements", toString r.program.statements.length),
          ("errors", toString r.diagnostics.length)]] ∧
      (∃ calls, Calls (.ofString source) calls) ∧
      ∀ calls, Calls (.ofString source) calls →
        r.log.filter (·.message ≠ "scanned token") = calls.flatMap Call.events ++ [r.finished] ∧
        ∀ before step behind e, calls.flatMap Call.turn = before ++ step :: behind →
          step.event? = some e →
          let q := (Parser.ofString source).follow before
          let c := before.count .advance
          q.log.toList ++ [e] <+: r.log ∧ q.StandsAt source c ∧
            q.log.toList.countP (·.message = "scanned token") = min tokens.length (c + 2) := by
  dsimp only
  obtain ⟨calls, h⟩ := exists_calls source
  refine ⟨h.log_filter_scanned, h.log_filter_reported, h.log_filter_parsed, h.log_filter_finished,
    h.log_getLast?, ?_, ?_, ?_, ?_, ⟨calls, h⟩, fun calls h => ⟨h.log_filter_events,
      fun before step behind e hsplit he =>
        ⟨h.prefix_log hsplit he, Parser.standsAt_follow source before, ?_⟩⟩⟩
  · rw [h.log_filter_scanned, List.map_map]
    rfl
  · rw [h.log_filter_reported, List.map_map]
    rfl
  · rw [h.log_filter_parsed, List.map_map]
    rfl
  · rw [h.log_filter_finished]
    rfl
  · rw [List.countP_eq_length_filter, ofString_follow_log_scanned, List.length_map,
      List.length_take, Nat.min_comm]

/-- The diagnostic of a binding that is given up is told behind two tokens. -/
theorem log_tells_reading_of_dropped_binding :
    let source := "let 5 y"
    let d : Diagnostic := .unexpected .identifier .integer
    ∃ calls before behind, Calls (.ofString source) calls ∧
      calls.flatMap Call.turn = before ++ .report d :: behind ∧
      let q := (Parser.ofString source).follow before
      let c := before.count .advance
      q.log.toList ++ [.reported d] <+: (parse source).log ∧ q.StandsAt source c ∧
        q.log.toList.countP (·.message = "scanned token") = min 3 (c + 2) := by
  intro source d
  obtain ⟨-, -, -, -, -, -, -, -, -, ⟨calls, h⟩, hcalls⟩ := log_tells_reading source
  obtain ⟨-, hsteps⟩ := hcalls calls h
  have hd : (calls.flatMap Call.turn).filterMap Step.diagnostic? = [d] :=
    h.diagnostics_eq.symm.trans (by decide +kernel)
  obtain ⟨before, step, behind, hsplit, -, hstep, -⟩ := List.filterMap_eq_cons_iff.mp hd
  obtain rfl : step = .report d := by
    cases step <;> simp_all [Step.diagnostic?]
  have htokens : ((tokenize source).filter fun t => !t.is .eof).length = 3 := by decide +kernel
  have hlog := hsteps before _ behind (.reported d) hsplit rfl
  rw [htokens] at hlog
  exact ⟨calls, before, behind, h, hsplit, hlog⟩

/-- A binding is given up at its first token, when two tokens are scanned. The next two tokens are
statements, and the last one is scanned before the first of them is added. -/
example : (parse "let 5 y").log =
    [.scanned ⟨.letWord, "let"⟩, .scanned ⟨.integer, "5"⟩,
      .reported (.unexpected .identifier .integer), .scanned ⟨.identifier, "y"⟩,
      .parsed (.expression ⟨.integer, "5"⟩ (some (.integer ⟨.integer, "5"⟩ (some 5)))),
      .parsed (.expression ⟨.identifier, "y"⟩ (some (.identifier ⟨⟨.identifier, "y"⟩, "y"⟩))),
      .finished 2 1] := by
  decide +kernel

end Frontend
