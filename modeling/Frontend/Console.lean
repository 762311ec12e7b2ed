import Frontend.Parser.Program

/-!
# The command line

What the command line prints, as a function of its arguments and of the bytes that it reads.

* `Invocation`: the arguments; `Invocation.ofArgs?`: the arguments that are understood;
* `Console.onSource`: the output for the text of a file; `Console.onFailure`: for a file that cannot
  be read;
* `Console.onLine`, `Console.readLoop`: the output for one line, and for lines read one by one;
* `Terminal`: where bytes are read and texts are printed, in any monad; `Terminal.readLine`,
  `Terminal.answer`, `Terminal.session`: lines read one by one at a terminal;
* `Console.run`: the output of the whole program.
-/

namespace Frontend

/-- The arguments of the command line. -/
structure Invocation where
  /-- The file to read. Without one, lines are read from the standard input. -/
  file : Option String
  /-- Whether tokens are printed in place of the program. -/
  tokens : Bool
  /-- How many times more detail was asked for. -/
  verbosity : Nat
  deriving DecidableEq, Repr, Inhabited

namespace Invocation

/-- The arguments with one more taken in. -/
def take? (inv : Invocation) (arg : String) : Option Invocation :=
  match arg.toList with
  | ['-', '-', 't', 'o', 'k', 'e', 'n', 's'] =>
    if inv.tokens then none else some { inv with tokens := true }
  | ['-', '-', 'v', 'e', 'r', 'b', 'o', 's', 'e'] =>
    some { inv with verbosity := inv.verbosity + 1 }
  | '-' :: c :: cs =>
    if (c :: cs).all (· == 'v') then
      some { inv with verbosity := inv.verbosity + (c :: cs).length }
    else none
  | _ => if inv.file.isSome then none else some { inv with file := some arg }

/-- The invocation that the arguments ask for, if they are understood. -/
def ofArgs? (args : List String) : Option Invocation :=
  args.foldlM take? ⟨none, false, 0⟩

end Invocation

/-- Why a file could not be read. -/
inductive ReadFailure where
  /-- The system refused, for this reason and with this error number. -/
  | system (reason : String) (code : Nat)
  /-- The bytes are no text. -/
  | notText
  deriving DecidableEq, Repr, Inhabited

namespace ReadFailure

/-- The text of a failure. -/
def message : ReadFailure → String
  | system reason code => reason ++ " (os error " ++ toString code ++ ")"
  | notText => "stream did not contain valid UTF-8"

/-- There is no such file. -/
def missing : ReadFailure := system "No such file or directory" 2

/-- The file is a directory. -/
def directory : ReadFailure := system "Is a directory" 21

end ReadFailure

/-- What a run of the program leaves behind. -/
structure Output where
  status : Nat
  stdout : String
  /-- The standard error, less the log. How much of the log is there depends on the verbosity. -/
  stderr : String
  deriving DecidableEq, Repr, Inhabited

namespace Console

/-- The texts, each with the end of a line behind it. -/
def asLines (texts : List String) : String := String.join (texts.map (· ++ "\n"))

/-- The tokens of a source, one a line, without the last one. -/
def tokenLines (source : String) : String :=
  asLines ((Scanner.ofString source).drain.1.map Token.display)

/-- The diagnostics as they are shown. -/
def diagnosticLines (ds : List Diagnostic) : String := asLines (ds.map Diagnostic.display)

/-- The text that bytes encode. -/
def decode? (bytes : List UInt8) : Option String :=
  String.fromUTF8? ⟨bytes.toArray⟩

/-! ## Files -/

/-- The output for the text of a file: its tokens, or its statements, one a line, and what is wrong
with it. -/
def onSource (tokens : Bool) (source : String) : Output :=
  if tokens then
    ⟨0, tokenLines source, ""⟩
  else
    let r := parse source
    ⟨if r.diagnostics.isEmpty then 0 else 1, asLines (r.program.statements.map Statement.render),
      diagnosticLines r.diagnostics⟩

/-- The output for a file that cannot be read. -/
def onFailure (name : String) (e : ReadFailure) : Output :=
  ⟨1, "", "Error: failed to read " ++ name ++ "\n\nCaused by:\n    " ++ e.message ++ "\n"⟩

/-- The output for a file. -/
def onFile (tokens : Bool) (name : String) (contents : Except ReadFailure (List UInt8)) : Output :=
  match contents with
  | .error e => onFailure name e
  | .ok bytes =>
    match decode? bytes with
    | some source => onSource tokens source
    | none => onFailure name .notText

/-! ## Lines -/

/-- What is shown before a line is read. -/
def prompt : String := ">> "

/-- The byte that ends a line. -/
def newline : UInt8 := 10

/-- Bytes in lines. Each line but perhaps the last one ends with its newline. -/
def lines : List UInt8 → List (List UInt8)
  | [] => []
  | b :: bs =>
    if b = newline then [b] :: lines bs
    else
      match lines bs with
      | [] => [[b]]
      | l :: ls => (b :: l) :: ls

/-- What a line puts on the standard output and on the standard error: its tokens, or its program
if it has a statement, and what is wrong with it. A line that is no text has no answer. -/
def onLine (tokens : Bool) (line : List UInt8) : Option (String × String) := do
  let source ← decode? line
  if tokens then
    return (tokenLines source, "")
  else
    let r := parse source
    let shown := if r.program.statements.isEmpty then "" else r.program.render ++ "\n"
    return (shown, diagnosticLines r.diagnostics)

/-- What is printed when a line is no text. -/
def lineFailure : String := "Error: " ++ ReadFailure.notText.message ++ "\n"

/-- The output for lines that are read one by one, each after a prompt, up to the end of the input
or to a line that is no text. -/
def readLoop (tokens : Bool) : List (List UInt8) → Output
  | [] => ⟨0, prompt, ""⟩
  | l :: ls =>
    match onLine tokens l with
    | none => ⟨1, prompt, lineFailure⟩
    | some (out, err) =>
      let o := readLoop tokens ls
      ⟨o.status, prompt ++ out ++ o.stdout, err ++ o.stderr⟩

end Console

/-! ## Lines at a terminal -/

/-- Where a session reads and prints. -/
structure Terminal (m : Type → Type) where
  /-- The next byte of the standard input, if there is one. -/
  next : m (Option UInt8)
  /-- Prints on the standard output. -/
  print : String → m Unit
  /-- Prints on the standard error. -/
  warn : String → m Unit

namespace Terminal

open Console

variable {m : Type → Type} [Monad m] (t : Terminal m)

/-- Takes one more byte into a line, which is given in reverse, and yields the line where it ends. -/
def extend (line : List UInt8) : m (List UInt8 ⊕ List UInt8) := do
  match ← t.next with
  | none => return .inr line.reverse
  | some b => return if b = newline then .inr (b :: line).reverse else .inl (b :: line)

/-- The bytes up to the end of a line or of the input. -/
def readLine : m (List UInt8) := repeatM t.extend []

/-- Answers a line. Yields the status of the session if the line is no text and ends it. -/
def answer (tokens : Bool) (line : List UInt8) : m (Unit ⊕ Nat) := do
  match onLine tokens line with
  | none =>
    t.warn lineFailure
    return .inr 1
  | some (out, err) =>
    t.warn err
    t.print out
    return .inl ()

/-- A turn of a session: a prompt, and the answer to a line. Yields the status where the session
ends, which may be at the end of the input. -/
def turn (tokens : Bool) : m (Unit ⊕ Nat) := do
  t.print prompt
  let line ← t.readLine
  if line = [] then return .inr 0 else t.answer tokens line

/-- A session, turn after turn. Yields its status. -/
def session (tokens : Bool) : m Nat := repeatM (fun _ => t.turn tokens) ()

end Terminal

namespace Console

/-- The output of the program, given the contents of files and the bytes on the standard input. The
verbosity concerns the log alone, which is no part of what counts as standard error here. -/
def run (inv : Invocation) (contents : String → Except ReadFailure (List UInt8))
    (input : List UInt8) : Output :=
  match inv.file with
  | some name => onFile inv.tokens name (contents name)
  | none => readLoop inv.tokens (lines input)

end Console

end Frontend
