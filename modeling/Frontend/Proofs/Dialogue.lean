import Frontend.Console
import Mathlib.Data.List.Forall2

/-!
# Lines are answered one by one

The answer to a line depends on that line alone. So a session on two inputs in a row is one session
behind the other, and a line that is no text ends a session without taking back what was printed.

* `Console.IsText`: bytes that encode characters; **`Console.onLine_eq_none_iff`**: all other lines
  have no answer;
* `Console.InLines`: bytes in lines, as a relation; **`Console.lines_eq_iff`**: it is how bytes are
  cut; **`Console.lines_append`**: cutting behind a newline;
* `Console.Answers`, `Console.shown`, `Console.told`: the answers to some lines, and what is printed
  with them;
* **`Console.readLoop_append`**: lines that have answers, in front of other lines;
  **`Console.readLoop_status_eq_one_iff`**: sessions that fail;
* `Transcript`, `Transcript.terminal`: a terminal in memory;
  **`Transcript.session_run`**: a session at it prints what is printed for its lines;
* **`lines_are_answered_apart`**: whole sessions.
-/

namespace Frontend

namespace Console

/-! ## Lines that are texts -/

/-- The bytes encode characters, one after the other. -/
def IsText (bytes : List UInt8) : Prop :=
  ∃ cs : List Char, bytes = cs.flatMap String.utf8EncodeChar

theorem isValidUTF8_iff {bytes : List UInt8} :
    (⟨bytes.toArray⟩ : ByteArray).IsValidUTF8 ↔ IsText bytes := by
  constructor
  · rintro ⟨cs, hcs⟩
    have hdata := congrArg ByteArray.data hcs
    rw [List.utf8Encode, List.data_toByteArray] at hdata
    exact ⟨cs, List.toArray_inj hdata⟩
  · rintro ⟨cs, rfl⟩
    refine ⟨cs, ByteArray.ext ?_⟩
    rw [List.utf8Encode, List.data_toByteArray]

theorem decode?_eq_none_iff {bytes : List UInt8} : decode? bytes = none ↔ ¬ IsText bytes := by
  rw [decode?, String.fromUTF8?, ← isValidUTF8_iff]
  split <;> simp [*]

instance : DecidablePred IsText := fun bytes =>
  decidable_of_iff (decode? bytes ≠ none) (not_iff_comm.mp decode?_eq_none_iff.symm)

/-- **A line has an answer exactly if it is a text.** -/
theorem onLine_eq_none_iff (tokens : Bool) {line : List UInt8} :
    onLine tokens line = none ↔ ¬ IsText line := by
  rw [← decode?_eq_none_iff, onLine]
  cases decode? line with
  | none => simp
  | some source => cases tokens <;> simp

/-! ## Bytes in lines -/

/-- The bytes are these lines in a row: each ends with its only newline, but the last one may be
without. -/
inductive InLines : List UInt8 → List (List UInt8) → Prop
  | nil : InLines [] []
  | unended {l : List UInt8} (hne : l ≠ []) (h : newline ∉ l) : InLines l [l]
  | ended {l bytes : List UInt8} {ls : List (List UInt8)} (h : newline ∉ l)
      (hls : InLines bytes ls) : InLines (l ++ newline :: bytes) ((l ++ [newline]) :: ls)

theorem inLines_lines (bytes : List UInt8) : InLines bytes (lines bytes) := by
  induction bytes with
  | nil => exact .nil
  | cons b bytes ih =>
    rw [lines]
    split
    · next hb =>
      subst hb
      exact .ended (l := []) List.not_mem_nil ih
    · next hb =>
      generalize lines bytes = ls at ih
      cases ih with
      | nil => exact .unended (List.cons_ne_nil _ _) (by simpa using Ne.symm hb)
      | unended hne h => exact .unended (List.cons_ne_nil _ _) (by simp [Ne.symm hb, h])
      | ended h hls => exact .ended (l := b :: _) (by simp [Ne.symm hb, h]) hls

theorem lines_of_not_mem {l : List UInt8} (hne : l ≠ []) (h : newline ∉ l) : lines l = [l] := by
  induction l with
  | nil => exact absurd rfl hne
  | cons b l ih =>
    obtain ⟨hb, hl⟩ := List.ne_and_not_mem_of_not_mem_cons h
    rw [lines, if_neg (Ne.symm hb)]
    cases l with
    | nil => rfl
    | cons c l => rw [ih (List.cons_ne_nil _ _) hl]

theorem lines_newline {l : List UInt8} (h : newline ∉ l) (bytes : List UInt8) :
    lines (l ++ newline :: bytes) = (l ++ [newline]) :: lines bytes := by
  induction l with
  | nil => rw [List.nil_append, lines, if_pos rfl, List.nil_append]
  | cons b l ih =>
    obtain ⟨hb, hl⟩ := List.ne_and_not_mem_of_not_mem_cons h
    rw [List.cons_append, lines, if_neg (Ne.symm hb), ih hl]
    rfl

/-- **Bytes are cut behind each newline.** -/
theorem lines_eq_iff {bytes : List UInt8} {ls : List (List UInt8)} :
    lines bytes = ls ↔ InLines bytes ls := by
  constructor
  · rintro rfl
    exact inLines_lines bytes
  · intro h
    induction h with
    | nil => rfl
    | unended hne h => exact lines_of_not_mem hne h
    | ended h _ ih => rw [lines_newline h, ih]

/-- Nothing stands behind the last newline. -/
def IsEnded (bytes : List UInt8) : Prop := bytes = [] ∨ ∃ front, bytes = front ++ [newline]

theorem IsEnded.of_append {l bytes : List UInt8} (h : IsEnded (l ++ bytes)) : IsEnded bytes := by
  rcases List.eq_nil_or_concat bytes with rfl | ⟨front, b, rfl⟩
  · exact .inl rfl
  · rw [List.concat_eq_append, ← List.append_assoc] at h
    obtain h | ⟨front', h⟩ := h
    · simp at h
    · obtain ⟨-, hb⟩ := List.append_inj' h rfl
      exact .inr ⟨front, by rw [List.concat_eq_append, hb]⟩

/-- **Cutting goes on behind a newline.** -/
theorem lines_append {b₁ : List UInt8} (h : IsEnded b₁) (b₂ : List UInt8) :
    lines (b₁ ++ b₂) = lines b₁ ++ lines b₂ := by
  have hls := inLines_lines b₁
  generalize lines b₁ = ls at hls
  induction hls with
  | nil => rfl
  | unended hne hn =>
    obtain rfl | ⟨front, rfl⟩ := h
    · exact absurd rfl hne
    · simp at hn
  | @ended l bytes ls hn _ ih =>
    rw [List.append_cons] at h
    rw [List.append_assoc, List.cons_append, lines_newline hn, ih h.of_append]
    rfl

/-- The lines in front of a line are the lines of the bytes in front of it. -/
theorem lines_flatten_front {bytes l : List UInt8} {front rest : List (List UInt8)}
    (h : lines bytes = front ++ l :: rest) : lines front.flatten = front := by
  rw [lines_eq_iff] at h
  induction front generalizing bytes with
  | nil => rfl
  | cons f front ih =>
    rw [List.cons_append] at h
    generalize hls : front ++ l :: rest = ls at h
    cases h with
    | unended => simp at hls
    | @ended l' bytes _ hn h =>
      subst hls
      rw [List.flatten_cons, List.append_assoc, List.singleton_append, lines_newline hn, ih h]

/-! ## Answers -/

/-- The lines have these answers, one for each line. -/
def Answers (tokens : Bool) : List (List UInt8) → List (String × String) → Prop :=
  List.Forall₂ fun l a => onLine tokens l = some a

/-- The answers on the standard output, each of them behind a prompt. -/
def shown (answers : List (String × String)) : String :=
  String.join (answers.map fun a => prompt ++ a.1)

/-- The answers on the standard error. -/
def told (answers : List (String × String)) : String := String.join (answers.map Prod.snd)

variable {tokens : Bool} {ls : List (List UInt8)} {as : List (String × String)}

theorem exists_answers (tokens : Bool) (h : ∀ l ∈ ls, IsText l) : ∃ as, Answers tokens ls as := by
  induction ls with
  | nil => exact ⟨[], .nil⟩
  | cons l ls ih =>
    obtain ⟨hl, hls⟩ := List.forall_mem_cons.mp h
    obtain ⟨as, has⟩ := ih hls
    obtain ⟨a, ha⟩ := Option.ne_none_iff_exists'.mp fun hn => (onLine_eq_none_iff tokens).mp hn hl
    exact ⟨a :: as, .cons ha has⟩

/-- **Lines with answers are answered, and the session goes on behind them.** -/
theorem readLoop_append (h : Answers tokens ls as) (rest : List (List UInt8)) :
    readLoop tokens (ls ++ rest) = ⟨(readLoop tokens rest).status,
      shown as ++ (readLoop tokens rest).stdout, told as ++ (readLoop tokens rest).stderr⟩ := by
  induction h with
  | nil => simp [shown, told]
  | cons ha _ ih =>
    rw [List.cons_append, readLoop, ha]
    simp [ih, shown, told, String.append_assoc]

/-- A session on lines with answers ends with one more prompt. -/
theorem readLoop_of_answers (h : Answers tokens ls as) :
    readLoop tokens ls = ⟨0, shown as ++ prompt, told as⟩ := by
  have hend := readLoop_append h []
  rwa [List.append_nil, readLoop, String.append_empty] at hend

/-- A line that is no text ends the session behind its prompt. -/
theorem readLoop_of_not_isText (h : Answers tokens ls as) {l : List UInt8} (hl : ¬ IsText l)
    (rest : List (List UInt8)) :
    readLoop tokens (ls ++ l :: rest) = ⟨1, shown as ++ prompt, told as ++ lineFailure⟩ := by
  rw [readLoop_append h, readLoop, (onLine_eq_none_iff tokens).mpr hl]

/-- Where some line is no text, there is a first such line. -/
theorem exists_first_not_isText (h : ∃ l ∈ ls, ¬ IsText l) :
    ∃ front l rest, ls = front ++ l :: rest ∧ (∀ l ∈ front, IsText l) ∧ ¬ IsText l := by
  obtain ⟨l, hmem, hl⟩ := h
  obtain ⟨l', front, rest, hfront, hl', hls, -⟩ :=
    List.exists_of_eraseP (p := fun l => decide (¬ IsText l)) hmem (decide_eq_true hl)
  exact ⟨front, l', rest, hls, by simpa using hfront, of_decide_eq_true hl'⟩

/-- **A session fails exactly if some line is no text.** -/
theorem readLoop_status_eq_one_iff :
    (readLoop tokens ls).status = 1 ↔ ∃ l ∈ ls, ¬ IsText l := by
  constructor
  · intro hstatus
    by_contra hall
    push Not at hall
    obtain ⟨as, has⟩ := exists_answers tokens hall
    rw [readLoop_of_answers has] at hstatus
    cases hstatus
  · intro h
    obtain ⟨front, l, rest, rfl, hfront, hl⟩ := exists_first_not_isText h
    obtain ⟨as, has⟩ := exists_answers tokens hfront
    rw [readLoop_of_not_isText has hl]

end Console

open Console

/-! ## A terminal in memory -/

/-- The bytes that are left to read, and what was printed. -/
structure Transcript where
  input : List UInt8
  stdout : String
  stderr : String
  deriving DecidableEq, Repr, Inhabited

namespace Transcript

/-- Reading takes bytes from the input, and printing appends. -/
def terminal : Terminal (StateM Transcript) where
  next s := (s.input.head?, { s with input := s.input.tail })
  print text := modify fun s => { s with stdout := s.stdout ++ text }
  warn text := modify fun s => { s with stderr := s.stderr ++ text }

section Repeat

variable {σ α β : Type} [Nonempty σ] [Nonempty β] {f : α → StateM σ (α ⊕ β)} {a : α} {s s' : σ}

theorem repeatM_run_of_inl {a' : α} (h : (f a).run s = (.inl a', s')) :
    (repeatM f a).run s = (repeatM f a').run s' := by
  rw [repeatM_eq_of_monadTail, repeatM.body, StateT.run_bind, h]
  rfl

theorem repeatM_run_of_inr {b : β} (h : (f a).run s = (.inr b, s')) :
    (repeatM f a).run s = (b, s') := by
  rw [repeatM_eq_of_monadTail, repeatM.body, StateT.run_bind, h]
  rfl

end Repeat

variable {bytes l : List UInt8} {ls : List (List UInt8)}

/-! ### Lines -/

theorem extend_run_nil (line : List UInt8) (out err : String) :
    (terminal.extend line).run ⟨[], out, err⟩ = (.inr line.reverse, ⟨[], out, err⟩) := rfl

theorem extend_run_newline (line bytes : List UInt8) (out err : String) :
    (terminal.extend line).run ⟨newline :: bytes, out, err⟩ =
      (.inr (newline :: line).reverse, ⟨bytes, out, err⟩) := rfl

theorem extend_run_cons (line : List UInt8) {b : UInt8} (hb : b ≠ newline) (bytes : List UInt8)
    (out err : String) : (terminal.extend line).run ⟨b :: bytes, out, err⟩ =
      (.inl (b :: line), ⟨bytes, out, err⟩) := by
  have h : (terminal.extend line).run ⟨b :: bytes, out, err⟩ =
    (if b = newline then .inr (b :: line).reverse else .inl (b :: line), ⟨bytes, out, err⟩) := rfl
  rw [h, if_neg hb]

/-- Bytes other than a newline all go into the line. -/
theorem repeatM_extend_run (h : newline ∉ l) (line bytes : List UInt8) (out err : String) :
    (repeatM terminal.extend line).run ⟨l ++ bytes, out, err⟩ =
      (repeatM terminal.extend (l.reverse ++ line)).run ⟨bytes, out, err⟩ := by
  induction l generalizing line with
  | nil => rfl
  | cons b l ih =>
    obtain ⟨hb, hl⟩ := List.ne_and_not_mem_of_not_mem_cons h
    rw [List.cons_append, repeatM_run_of_inl (extend_run_cons line (Ne.symm hb) _ out err), ih hl,
      List.reverse_cons, List.append_assoc]
    rfl

/-- A line is read up to and with its newline. -/
theorem readLine_run_of_ended (h : newline ∉ l) (bytes : List UInt8) (out err : String) :
    terminal.readLine.run ⟨l ++ newline :: bytes, out, err⟩ =
      (l ++ [newline], ⟨bytes, out, err⟩) := by
  rw [Terminal.readLine, repeatM_extend_run h, repeatM_run_of_inr (extend_run_newline ..),
    List.append_nil, List.reverse_cons, List.reverse_reverse]

/-- A line without newline is read up to the end of the input. -/
theorem readLine_run_of_unended (h : newline ∉ l) (out err : String) :
    terminal.readLine.run ⟨l, out, err⟩ = (l, ⟨[], out, err⟩) := by
  have hrun := repeatM_extend_run h [] [] out err
  rw [List.append_nil, List.append_nil, repeatM_run_of_inr (extend_run_nil ..),
    List.reverse_reverse] at hrun
  exact hrun

/-- **Reading a line takes the first of the lines of the input.** -/
theorem exists_readLine_run (h : lines bytes = l :: ls) (out err : String) : l ≠ [] ∧
    ∃ rest, lines rest = ls ∧
      terminal.readLine.run ⟨bytes, out, err⟩ = (l, ⟨rest, out, err⟩) := by
  rw [lines_eq_iff] at h
  cases h with
  | unended hne hn => exact ⟨hne, [], rfl, readLine_run_of_unended hn out err⟩
  | @ended l' rest _ hn hls =>
    exact ⟨by simp, rest, lines_eq_iff.mpr hls, readLine_run_of_ended hn rest out err⟩

/-! ### Turns and sessions -/

variable {tokens : Bool} {rest : List UInt8} {out err : String}

theorem answer_run_of_none (h : onLine tokens l = none) :
    (terminal.answer tokens l).run ⟨rest, out, err⟩ = (.inr 1, ⟨rest, out, err ++ lineFailure⟩) := by
  rw [Terminal.answer, h]
  rfl

theorem answer_run_of_some {a : String × String} (h : onLine tokens l = some a) :
    (terminal.answer tokens l).run ⟨rest, out, err⟩ =
      (.inl (), ⟨rest, out ++ a.1, err ++ a.2⟩) := by
  rw [Terminal.answer, h]
  rfl

theorem turn_run (tokens : Bool) {t : Transcript}
    (h : terminal.readLine.run ⟨bytes, out ++ prompt, err⟩ = (l, t)) :
    (terminal.turn tokens).run ⟨bytes, out, err⟩ =
      if l = [] then (.inr 0, t) else (terminal.answer tokens l).run t := by
  have hp : (terminal.print prompt).run ⟨bytes, out, err⟩ = ((), ⟨bytes, out ++ prompt, err⟩) := rfl
  rw [Terminal.turn, StateT.run_bind, hp]
  show StateT.run (terminal.readLine >>= _) _ = _
  rw [StateT.run_bind, h]
  show StateT.run (if l = [] then _ else _) t = _
  split <;> rfl

/-- **A session at a terminal in memory prints what is printed for the lines of its input**, and has
the same status. -/
theorem session_run (tokens : Bool) (h : lines bytes = ls) (out err : String) : ∃ rest,
    (terminal.session tokens).run ⟨bytes, out, err⟩ = ((readLoop tokens ls).status,
      ⟨rest, out ++ (readLoop tokens ls).stdout, err ++ (readLoop tokens ls).stderr⟩) := by
  induction ls generalizing bytes out err with
  | nil =>
    obtain rfl : bytes = [] := by
      rw [lines_eq_iff] at h
      cases h
      rfl
    have hturn := turn_run tokens (readLine_run_of_unended List.not_mem_nil (out ++ prompt) err)
    rw [if_pos rfl] at hturn
    refine ⟨[], ?_⟩
    rw [Terminal.session, repeatM_run_of_inr hturn, readLoop, String.append_empty]
  | cons l ls ih =>
    obtain ⟨hne, rest, hrest, hread⟩ := exists_readLine_run h (out ++ prompt) err
    have hturn := turn_run tokens hread
    rw [if_neg hne] at hturn
    cases ha : onLine tokens l with
    | none =>
      rw [answer_run_of_none ha] at hturn
      refine ⟨rest, ?_⟩
      rw [Terminal.session, repeatM_run_of_inr hturn, readLoop, ha]
    | some a =>
      rw [answer_run_of_some ha] at hturn
      obtain ⟨rest', hsession⟩ := ih hrest (out ++ prompt ++ a.1) (err ++ a.2)
      refine ⟨rest', ?_⟩
      rw [Terminal.session, repeatM_run_of_inl hturn]
      refine hsession.trans ?_
      rw [readLoop, ha]
      simp [String.append_assoc]

end Transcript

/-- **Lines are answered apart from each other.** With or without tokens, a session on two inputs in
a row, of which the first one is ended and has no line that is no text, prints what one on the first
input prints, less its last prompt, and then what one on the second input prints, and has its status.
A session fails exactly if some line is no text. Then all answers to the lines in front of the first
such line are there, and the prompt of that line is last. Otherwise each line has its answer behind a
prompt, and one more prompt is last. This is also what is printed, line by line, at a terminal that
the inputs are read from. The standard error is meant without the log, whose detail is what the
verbosity is about. -/
theorem lines_are_answered_apart (tokens : Bool) (verbosity : Nat)
    (contents : String → Except ReadFailure (List UInt8)) :
    let session := run ⟨none, tokens, verbosity⟩ contents
    (∀ b₁ b₂, IsEnded b₁ → (∀ l ∈ lines b₁, IsText l) →
      ∃ printed, (session b₁).stdout = printed ++ prompt ∧
        session (b₁ ++ b₂) = ⟨(session b₂).status, printed ++ (session b₂).stdout,
          (session b₁).stderr ++ (session b₂).stderr⟩) ∧
    (∀ b, (session b).status = 1 ↔ ∃ l ∈ lines b, ¬ IsText l) ∧
    (∀ b front l rest, lines b = front ++ l :: rest → (∀ l ∈ front, IsText l) → ¬ IsText l →
      ∃ as, Answers tokens front as ∧ session front.flatten = ⟨0, shown as ++ prompt, told as⟩ ∧
        session b = ⟨1, shown as ++ prompt, told as ++ lineFailure⟩) ∧
    (∀ b, (∀ l ∈ lines b, IsText l) →
      ∃ as, Answers tokens (lines b) as ∧ session b = ⟨0, shown as ++ prompt, told as⟩) ∧
    ∀ b, ∃ rest, (Transcript.terminal.session tokens).run ⟨b, "", ""⟩ =
      ((session b).status, ⟨rest, (session b).stdout, (session b).stderr⟩) := by
  intro session
  have hsession b : session b = readLoop tokens (lines b) := rfl
  refine ⟨fun b₁ b₂ hb h => ?_, fun b => readLoop_status_eq_one_iff,
    fun b front l rest hls h hl => ?_, fun b h => ?_, fun b => ?_⟩
  · obtain ⟨as, has⟩ := exists_answers tokens h
    have h₁ : session b₁ = ⟨0, shown as ++ prompt, told as⟩ := readLoop_of_answers has
    refine ⟨shown as, by rw [h₁], ?_⟩
    rw [h₁, hsession (b₁ ++ b₂), lines_append hb, readLoop_append has]
    rfl
  · obtain ⟨as, has⟩ := exists_answers tokens h
    refine ⟨as, has, ?_, ?_⟩
    · rw [hsession, lines_flatten_front hls, readLoop_of_answers has]
    · rw [hsession, hls, readLoop_of_not_isText has hl]
  · obtain ⟨as, has⟩ := exists_answers tokens h
    exact ⟨as, has, readLoop_of_answers has⟩
  · obtain ⟨rest, h⟩ := Transcript.session_run tokens (rfl : lines b = _) "" ""
    rw [String.empty_append, String.empty_append] at h
    exact ⟨rest, h⟩

/-- A sum without its second operand, then a line on its own, then a byte that starts no character,
in front of one more line. -/
theorem lines_are_answered_apart_up_to_bad_byte :
    let session := run ⟨none, false, 0⟩ fun _ => .error .missing
    let b₁ : List UInt8 := [49, 43, 10]
    let b₂ : List UInt8 := [97, 10, 255, 10, 98]
    IsEnded b₁ ∧ (∀ l ∈ lines b₁, IsText l) ∧
      ∃ printed, (session b₁).stdout = printed ++ prompt ∧ session (b₁ ++ b₂) =
        ⟨1, printed ++ ">> a\n>> ", (session b₁).stderr ++ lineFailure⟩ := by
  intro session b₁ b₂
  have hended : IsEnded b₁ := .inr ⟨[49, 43], rfl⟩
  have htext : ∀ l ∈ lines b₁, IsText l := by decide +kernel
  have hb₂ : session b₂ = ⟨1, ">> a\n>> ", lineFailure⟩ := by decide +kernel
  obtain ⟨happend, -⟩ := lines_are_answered_apart false 0 fun _ => .error .missing
  obtain ⟨printed, hprinted, hsession⟩ := happend b₁ b₂ hended htext
  change session (b₁ ++ b₂) = ⟨(session b₂).status, printed ++ (session b₂).stdout,
    (session b₁).stderr ++ (session b₂).stderr⟩ at hsession
  rw [hb₂] at hsession
  exact ⟨hended, htext, printed, hprinted, hsession⟩

end Frontend
