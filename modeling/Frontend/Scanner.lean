import Frontend.Token.Lexeme

/-!
# The scanner

A scanner is a cursor in a source text that hands out one token at a time.

* `Scanner`: the text read so far and the text still to read;
* `Scanner.next`: the next token, and the cursor behind it; at the end of the text it is `Token.eof`
  again and again;
* `Scanner.drain`: all remaining tokens; `tokenize`: all tokens of a source;
* **`Scanner.next_source`**: reading changes neither text nor order of the source;
* **`Scanner.next_rest_lt`**: every token but the last one shortens the text still to read.
-/

namespace Frontend

/-- A cursor in a source text. -/
structure Scanner where
  /-- The text before the cursor, last character first. -/
  past : List Char
  /-- The text after the cursor. -/
  rest : List Char
  deriving DecidableEq, Repr, Inhabited

namespace Scanner

/-- The cursor at the start of a source. -/
def ofString (source : String) : Scanner := ⟨[], source.toList⟩

/-- The whole source, on both sides of the cursor. -/
def source (s : Scanner) : String := String.ofList (s.past.reverse ++ s.rest)

/-- The text after the cursor. -/
def remainder (s : Scanner) : String := String.ofList s.rest

/-- The number of bytes before the cursor. -/
def position (s : Scanner) : Nat := (String.ofList s.past).utf8ByteSize

/-- Whether no character is left. -/
def atEnd (s : Scanner) : Bool := s.rest.isEmpty

/-- The cursor `n` characters further on. -/
def advance (s : Scanner) (n : Nat) : Scanner :=
  ⟨(s.rest.take n).reverse ++ s.past, s.rest.drop n⟩

/-- The cursor behind the blanks that follow it. -/
def skipBlanks (s : Scanner) : Scanner :=
  s.advance (s.rest.takeWhile isBlank).length

/-- The next token, and the cursor behind it. -/
def next (s : Scanner) : Token × Scanner :=
  let s := s.skipBlanks
  match s.rest with
  | [] => (Token.eof, s)
  | c :: cs =>
    let t := Token.atHead c cs
    (t, s.advance t.literal.toList.length)

/-! ## The text on both sides of the cursor -/

@[simp] theorem advance_source (s : Scanner) (n : Nat) : (s.advance n).source = s.source := by
  simp [source, advance]

@[simp] theorem skipBlanks_source (s : Scanner) : s.skipBlanks.source = s.source := by
  simp [skipBlanks]

theorem skipBlanks_rest (s : Scanner) : s.skipBlanks.rest = s.rest.dropWhile isBlank := by
  have h := List.takeWhile_append_dropWhile (p := isBlank) (l := s.rest)
  calc s.skipBlanks.rest
      = (s.rest.takeWhile isBlank ++ s.rest.dropWhile isBlank).drop
          (s.rest.takeWhile isBlank).length := by rw [h]; rfl
    _ = s.rest.dropWhile isBlank := List.drop_left

theorem next_source (s : Scanner) : s.next.2.source = s.source := by
  unfold next
  dsimp only
  split <;> simp

/-! ## Progress -/

theorem skipBlanks_rest_length_le (s : Scanner) : s.skipBlanks.rest.length ≤ s.rest.length := by
  rw [skipBlanks_rest]
  exact (List.dropWhile_suffix _).length_le

theorem next_rest_lt (s : Scanner) (h : s.next.1.kind ≠ .eof) :
    s.next.2.rest.length < s.rest.length := by
  have hle := s.skipBlanks_rest_length_le
  unfold next at h ⊢
  dsimp only at h ⊢
  split
  · next hr => rw [hr] at h; exact absurd rfl h
  · next c cs hr =>
    have hpos := List.length_pos_iff.mpr (Token.atHead_literal_ne_nil c cs)
    rw [hr] at hle
    simp only [advance, hr, List.length_drop, List.length_cons] at hle ⊢
    omega

theorem next_rest_length_le (s : Scanner) : s.next.2.rest.length ≤ s.rest.length := by
  have hle := s.skipBlanks_rest_length_le
  unfold next
  dsimp only
  split
  · exact hle
  · simp only [advance, List.length_drop]
    omega

/-- At the end of the text the cursor stays behind the last character. -/
theorem next_rest_of_eof (s : Scanner) (h : s.next.1.kind = .eof) : s.next.2.rest = [] := by
  unfold next at h ⊢
  dsimp only at h ⊢
  split
  · assumption
  · next c cs hr => rw [hr] at h; exact absurd h (Token.atHead_kind_ne_eof c cs)

/-! ## All remaining tokens -/

/-- The next token unless the text is at its end, and the cursor behind it. -/
def next? (s : Scanner) : Option Token × Scanner :=
  match s.next with
  | (t, s) => (if t.is .eof then none else some t, s)

/-- The remaining tokens in order, and the cursor behind the last one. -/
def drain (s : Scanner) : List Token × Scanner :=
  if s.next.1.kind = .eof then
    ([], s.next.2)
  else
    let (ts, s') := s.next.2.drain
    (s.next.1 :: ts, s')
termination_by s.rest.length
decreasing_by exact s.next_rest_lt ‹_›

end Scanner

/-- The tokens of a source in order, with `Token.eof` as the last one. -/
def tokenize (source : String) : List Token :=
  (Scanner.ofString source).drain.1 ++ [Token.eof]

end Frontend
