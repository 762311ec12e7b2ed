import Frontend.Diagnostic
import Frontend.Tree.Program

/-!
# Events

What happens while a source is scanned and parsed, for a log.

* `Event`: the events; `Event.level`, `Event.message`, `Event.fields`: how a log shows them;
* `Event.ofToken?`: the event of scanning a token.
-/

namespace Frontend

/-- How much detail a log has to ask for to see an event. -/
inductive Level where
  | debug
  | trace
  deriving DecidableEq, Repr, Inhabited

/-- The name of a level. -/
def Level.name : Level → String
  | debug => "DEBUG"
  | trace => "TRACE"

/-- Something that happens while a source is read. -/
inductive Event where
  /-- A token other than the last one was scanned. -/
  | scanned (token : Token)
  /-- A diagnostic was recorded. -/
  | reported (diagnostic : Diagnostic)
  /-- A statement was added to the program. -/
  | parsed (statement : Statement)
  /-- The program is complete, with so many statements and so many diagnostics. -/
  | finished (statements diagnostics : Nat)
  deriving DecidableEq, Repr, Inhabited

namespace Event

/-- The event of scanning a token. The last token is none. -/
def ofToken? (t : Token) : Option Event :=
  if t.is .eof then none else some (scanned t)

/-- The level of an event. -/
def level : Event → Level
  | scanned _ => .trace
  | reported _ | parsed _ | finished _ _ => .debug

/-- What an event says. -/
def message : Event → String
  | scanned _ => "scanned token"
  | reported _ => "parse error"
  | parsed _ => "parsed statement"
  | finished _ _ => "finished parsing program"

/-- The data of an event, each with its name. -/
def fields : Event → List (String × String)
  | scanned t => [("kind", t.kind.text), ("literal", t.literal)]
  | reported d => [("error", d.message)]
  | parsed s => [("statement", s.render)]
  | finished statements diagnostics =>
    [("statements", toString statements), ("errors", toString diagnostics)]

end Event

end Frontend
