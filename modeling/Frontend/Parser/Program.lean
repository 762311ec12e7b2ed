import Frontend.Parser.Expr

/-!
# Reading statements and programs

Nothing in a source ends the reading. A statement that is wrong leaves a diagnostic, and reading
goes on behind the token at which it was found wrong.

* `ParseM.binding`, `ParseM.returning`, `ParseM.expressionStatement`, `ParseM.statement`:
  statements;
* `ParseM.segment`: one statement of a program, if it has one at this point;
* `ParseM.program`: statements up to the end of the source;
* `parse`: the program of a source, with what is wrong with the source and the log of the reading.
-/

namespace Frontend

namespace ParseM

/-- Moves on to the next token if it is a semicolon. -/
def skipSemicolon : ParseM Unit := do
  if (← get).peek.is .semicolon then advance

/-- A binding, opened by the current token. Without a name or an assignment sign there is no
statement, and without a value there is one with its value absent. -/
def binding : ParseM Statement := do
  let t := (← get).current
  checked (Form.binding.check t)
  require .identifier
  let name ← checked (Identifier.ofToken (← get).current)
  require .assign
  advance
  let value ← optional (expr .lowest)
  skipSemicolon
  return .binding t (some name) value

/-- A return, opened by the current token. -/
def returning : ParseM Statement := do
  let t := (← get).current
  checked (Form.returning.check t)
  advance
  let value ← optional (expr .lowest)
  skipSemicolon
  return .returning t value

/-- An expression as a statement. -/
def expressionStatement : ParseM Statement := do
  let t := (← get).current
  let value ← optional (expr .lowest)
  skipSemicolon
  return .expression t value

/-- The statement at the current token. -/
def statement : ParseM Statement := do
  match (← get).current.kind with
  | .letWord => binding
  | .returnWord => returning
  | _ => expressionStatement

/-- Records that a statement was added to the program. -/
def recordParsed (s : Statement) : ParseM Unit :=
  modify fun p => { p with log := p.log.push (.parsed s) }

/-- Records that the program is complete. -/
def recordFinished (statements : Nat) : ParseM Unit :=
  modify fun p => { p with log := p.log.push (.finished statements p.diagnostics.size) }

/-- The next statement of a program, if there is one at this point. Moves on behind it. -/
def segment : ParseM (Option Statement) := do
  let s? ← optional statement
  if let some s := s? then recordParsed s
  advance
  return s?

/-- The statements up to the end of the source, in less than `n` segments. -/
def statementsWithin : Nat → ParseM (List Statement)
  | 0 => throw .endless
  | n + 1 => do
    if (← get).current.is .eof then
      return []
    else
      let s? ← segment
      let rest ← statementsWithin n
      return s?.toList ++ rest

/-- The program from the current token to the end of the source. Every segment has a token of its
own, so the unread tokens bound their number. -/
def program : ParseM Program := do
  let statements ← statementsWithin ((← get).unread + 1)
  recordFinished statements.length
  return ⟨statements⟩

/-! ## The outcomes of the readers -/

theorem skipSemicolon_run (p : Parser) :
    skipSemicolon.run p = .ok () (if p.peek.kind = .semicolon then p.advance else p) := by
  rw [skipSemicolon, bind_run, get_run, andThen_ok]
  by_cases h : p.peek.kind = .semicolon
  · rw [if_pos (Token.is_iff.mpr h), if_pos h]; rfl
  · rw [if_neg (mt Token.is_iff.mp h), if_neg h]; rfl

theorem statementsWithin_run (n : Nat) (p : Parser) :
    (statementsWithin (n + 1)).run p =
      if p.current.kind = .eof then .ok [] p
      else Outcome.andThen (segment.run p) fun s? q =>
        Outcome.andThen ((statementsWithin n).run q) fun rest r => .ok (s?.toList ++ rest) r := by
  rw [statementsWithin, bind_run, get_run, andThen_ok]
  by_cases h : p.current.kind = .eof
  · rw [if_pos (Token.is_iff.mpr h), if_pos h]; rfl
  · rw [if_neg (mt Token.is_iff.mp h), if_neg h]
    simp only [bind_run, pure_run]

end ParseM

/-- What the reading of a source yields. -/
structure Parsed where
  program : Program
  /-- What is wrong with the source. -/
  diagnostics : List Diagnostic
  /-- What happened during the reading. -/
  log : List Event
  deriving DecidableEq, Repr, Inhabited

/-- Reads a source. In the standard grammar every rule fits the tokens that it is registered for and
none is registered for the last token, so that the reading never stops early. -/
def parse (source : String) : Parsed :=
  match ParseM.program.run (.ofString source) with
  | .ok program p => ⟨program, p.diagnostics.toList, p.log.toList⟩
  | .error _ p => ⟨⟨[]⟩, p.diagnostics.toList, p.log.toList⟩

/-- The log of scanning a source to its end. -/
def scanLog (source : String) : List Event :=
  (tokenize source).filterMap Event.ofToken?

end Frontend
