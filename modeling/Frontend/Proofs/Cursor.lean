import Frontend.Proofs.Window
import Mathlib.Data.List.TakeWhile

/-!
# Cursors by byte offset

A scanner can be kept as a byte offset in its source and a copy of the character under it. Texts are
then cut at offsets, which fails behind the end and inside of a character. It never happens.

* `textFrom?`, `textTo?`: texts cut at a byte offset;
* `Cursor`, `Cursor.scan?`: a scanner by offset, with cuts that can fail;
* `Scanner.cursor`, **`Scanner.cursor_scan?`**: both scanners go in step;
* `ScanCommand`, `Scanner.performAll`, `Cursor.performAll?`: sessions with a scanner and its copies;
* `Scanner.Collects`: collecting the tokens one by one;
* **`cursor_stays_valid`**: the cursors and the text behind them in every session.
-/

namespace Frontend

open Function

/-! ## Cuts -/

/-- The text from a byte offset on. -/
def textFrom? (text : String) (offset : Nat) : Option String :=
  if h : String.Pos.Raw.IsValid text ⟨offset⟩ then some (text.sliceFrom ⟨⟨offset⟩, h⟩).copy
  else none

/-- The text up to a byte offset. -/
def textTo? (text : String) (offset : Nat) : Option String :=
  if h : String.Pos.Raw.IsValid text ⟨offset⟩ then some (text.sliceTo ⟨⟨offset⟩, h⟩).copy
  else none

theorem isValid_append (a b : String) : String.Pos.Raw.IsValid (a ++ b) ⟨a.utf8ByteSize⟩ :=
  String.Pos.Raw.isValid_iff_exists_append.mpr ⟨a, b, rfl, rfl⟩

theorem splits_append (a b : String) :
    String.Pos.Splits ⟨⟨a.utf8ByteSize⟩, isValid_append a b⟩ a b := ⟨rfl, rfl⟩

theorem textFrom?_append (a b : String) : textFrom? (a ++ b) a.utf8ByteSize = some b := by
  rw [textFrom?, dif_pos (isValid_append a b)]
  exact congrArg some ((String.Pos.splits _).eq_right (splits_append a b))

theorem textTo?_append (a b : String) : textTo? (a ++ b) a.utf8ByteSize = some a := by
  rw [textTo?, dif_pos (isValid_append a b)]
  exact congrArg some ((String.Pos.splits _).eq_left (splits_append a b))

/-- No text begins inside of a character. -/
example : textFrom? "é=" 1 = none ∧ textFrom? "é=" 2 = some "=" := by decide +kernel

theorem le_of_textFrom? {text t : String} {offset : Nat} (h : textFrom? text offset = some t) :
    offset ≤ text.utf8ByteSize := by
  rw [textFrom?] at h
  split at h
  · next hv => exact hv.le_utf8ByteSize
  · cases h

/-- The number of bytes that a pattern for runs of characters matches: the longest run. -/
def runEnd (p : Char → Bool) (text : String) : Nat :=
  (String.ofList (text.toList.takeWhile p)).utf8ByteSize

/-! ## The cursor -/

/-- A scanner by offset: the bytes before the cursor are counted, and the character under it is
kept. -/
structure Cursor where
  source : String
  offset : Nat
  char? : Option Char
  deriving DecidableEq

namespace Cursor

/-- The cursor at the start of a source. -/
def ofString (source : String) : Cursor := ⟨source, 0, source.toList.head?⟩

/-- The text behind the cursor. -/
def remainder? (c : Cursor) : Option String := textFrom? c.source c.offset

/-- The cursor at another offset, with the character that is there. -/
def moveTo? (c : Cursor) (offset : Nat) : Option Cursor := do
  let text ← textFrom? c.source offset
  return ⟨c.source, offset, text.toList.head?⟩

/-- The cursor behind the character under it. -/
def readChar? (c : Cursor) : Option Cursor := c.moveTo? (c.offset + c.char?.elim 0 Char.utf8Size)

/-- The character behind the one under the cursor. -/
def peek? (c : Cursor) : Option (Option Char) := do return (← c.remainder?).toList[1]?

theorem readChar?_progress {c c' : Cursor} {ch : Char} (hc : c.char? = some ch)
    (h : c.readChar? = some c') :
    c'.source.utf8ByteSize - c'.offset < c.source.utf8ByteSize - c.offset := by
  obtain ⟨text, ht, hc'⟩ := Option.bind_eq_some_iff.mp h
  cases hc'
  have hle := le_of_textFrom? ht
  have hpos := ch.utf8Size_pos
  rw [hc] at hle ⊢
  dsimp only [Option.elim] at hle ⊢
  omega

/-- The cursor behind the blanks that follow it, read one by one. -/
def skipBlanks? (c : Cursor) : Option Cursor :=
  match _ : c.char? with
  | none => some c
  | some ch =>
    if isBlank ch then
      match _ : c.readChar? with
      | none => none
      | some c' => c'.skipBlanks?
    else some c
termination_by c.source.utf8ByteSize - c.offset
decreasing_by exact readChar?_progress ‹_› ‹_›

theorem skipBlanks?_of_head {c : Cursor} (h : ∀ ch ∈ c.char?, isBlank ch = false) :
    c.skipBlanks? = some c := by
  unfold skipBlanks?
  split
  · rfl
  · next ch hc => rw [if_neg (by simp [h ch hc])]

theorem skipBlanks?_of_blank {c : Cursor} {ch : Char} (hc : c.char? = some ch)
    (h : isBlank ch = true) : c.skipBlanks? = c.readChar?.bind skipBlanks? := by
  rw [skipBlanks?]
  split
  · next hn => rw [hc] at hn; cases hn
  · next ch' hc' =>
    obtain rfl : ch = ch' := Option.some.inj (hc.symm.trans hc')
    rw [if_pos h]
    split
    · next hr => rw [hr]; rfl
    · next c' hr => rw [hr]; rfl

/-- The run of characters at the cursor, and the cursor behind it. -/
def readRun? (c : Cursor) (p : Char → Bool) : Option (String × Cursor) := do
  let text ← c.remainder?
  let n := runEnd p text
  return (← textTo? text n, ← c.moveTo? (c.offset + n))

/-- The token of kind `two` if `second` follows the character under the cursor, which then moves on
to it, and the token of kind `one` otherwise. -/
def either? (c : Cursor) (second : Char) (two one : Kind) : Option (Token × Cursor) := do
  let first := c.char?.getD '\x00'
  if (← c.peek?) = some second then
    return (⟨two, String.ofList [first, second]⟩, ← c.readChar?)
  else
    return (⟨one, String.singleton first⟩, c)

/-- The token at the character `ch` if it is neither a word nor a numeral, and the cursor on its
last character. -/
def sign? (c : Cursor) (ch : Char) : Option (Token × Cursor) :=
  match ch with
  | '=' => c.either? '=' .equal .assign
  | '!' => c.either? '=' .notEqual .bang
  | _ => some (((Kind.mark? ch).map Token.ofKind).getD ⟨.illegal, String.singleton ch⟩, c)

/-- The token at the character `ch`, and the cursor behind it. Words and numerals move the cursor
behind them by themselves, and all other tokens leave it on their last character. -/
def tokenAt? (c : Cursor) (ch : Char) : Option (Token × Cursor) :=
  if isLetter ch then do
    let (word, c) ← c.readRun? isLetter
    return (⟨Kind.ofWord word, word⟩, c)
  else if ch.isDigit then do
    let (numeral, c) ← c.readRun? Char.isDigit
    return (⟨.integer, numeral⟩, c)
  else do
    let (t, c) ← c.sign? ch
    return (t, ← c.readChar?)

/-- The next token, and the cursor behind it. -/
def scan? (c : Cursor) : Option (Token × Cursor) := do
  let c ← c.skipBlanks?
  match c.char? with
  | none => return (.eof, c)
  | some ch => c.tokenAt? ch

end Cursor

/-! ## In step -/

theorem utf8ByteSize_ofList_reverse (cs : List Char) :
    (String.ofList cs.reverse).utf8ByteSize = (String.ofList cs).utf8ByteSize := by
  induction cs with
  | nil => rfl
  | cons c cs ih =>
    have h : String.ofList ([c] ++ cs) = String.ofList [c] ++ String.ofList cs :=
      String.ofList_append
    rw [List.singleton_append] at h
    rw [List.reverse_cons, String.ofList_append, h, String.utf8ByteSize_append,
      String.utf8ByteSize_append, ih, Nat.add_comm]

namespace Scanner

/-- The scanner by offset. -/
def cursor (s : Scanner) : Cursor := ⟨s.source, s.position, s.rest.head?⟩

theorem cursor_ofString (source : String) :
    (ofString source).cursor = Cursor.ofString source := by
  simp [cursor, ofString, Scanner.source, position, Cursor.ofString]

variable (s : Scanner)

theorem source_eq : s.source = String.ofList s.past.reverse ++ s.remainder := by
  rw [source, String.ofList_append, remainder]

theorem position_eq : s.position = (String.ofList s.past.reverse).utf8ByteSize :=
  (utf8ByteSize_ofList_reverse s.past).symm

theorem cursor_remainder? : s.cursor.remainder? = some s.remainder := by
  rw [Cursor.remainder?, cursor, source_eq, position_eq]
  exact textFrom?_append _ _

theorem cursor_moveTo? {t : Scanner} (h : t.source = s.source) :
    s.cursor.moveTo? t.position = some t.cursor := by
  have ht : textFrom? s.source t.position = some t.remainder := h ▸ t.cursor_remainder?
  rw [Cursor.moveTo?, cursor, ht, cursor, h]
  simp [remainder]

theorem advance_add (m n : Nat) : s.advance (m + n) = (s.advance m).advance n := by
  simp only [advance, List.take_add, List.reverse_append, List.append_assoc, List.drop_drop]

theorem advance_position (n : Nat) : (s.advance n).position =
    s.position + (String.ofList (s.rest.take n)).utf8ByteSize := by
  rw [position, advance, String.ofList_append, String.utf8ByteSize_append,
    utf8ByteSize_ofList_reverse, Nat.add_comm]
  rfl

theorem cursor_readChar? : s.cursor.readChar? = some (s.advance 1).cursor := by
  have h : s.cursor.offset + s.cursor.char?.elim 0 Char.utf8Size = (s.advance 1).position := by
    rw [advance_position]
    obtain ⟨past, rest⟩ := s
    cases rest <;> simp [cursor]
  rw [Cursor.readChar?, h]
  exact s.cursor_moveTo? (s.advance_source 1)

theorem cursor_peek? : s.cursor.peek? = some s.rest[1]? := by
  rw [Cursor.peek?, cursor_remainder?]
  simp [remainder]

theorem cursor_readRun? (p : Char → Bool) : s.cursor.readRun? p =
    some (String.ofList (s.rest.takeWhile p), (s.advance (s.rest.takeWhile p).length).cursor) := by
  have hs := List.takeWhile_append_dropWhile (p := p) (l := s.rest)
  have hcut : textTo? s.remainder (runEnd p s.remainder) =
      some (String.ofList (s.rest.takeWhile p)) := by
    rw [runEnd, remainder, String.toList_ofList]
    nth_rewrite 1 [← hs]
    rw [String.ofList_append]
    exact textTo?_append _ _
  have hmove : s.cursor.offset + runEnd p s.remainder =
      (s.advance (s.rest.takeWhile p).length).position := by
    rw [advance_position, runEnd, remainder, String.toList_ofList]
    nth_rewrite 3 [← hs]
    rw [List.take_left]
    rfl
  rw [Cursor.readRun?, cursor_remainder?]
  simp [hcut, hmove, s.cursor_moveTo? (s.advance_source _)]

theorem skipBlanks_of_blank {c : Char} {cs : List Char} (hr : s.rest = c :: cs)
    (hc : isBlank c = true) : s.skipBlanks = (s.advance 1).skipBlanks := by
  have h : (s.advance 1).rest = cs := by rw [advance, hr]; rfl
  rw [skipBlanks, skipBlanks, h, hr, List.takeWhile_cons_of_pos hc, ← advance_add,
    List.length_cons, Nat.add_comm]

theorem skipBlanks_of_head (h : ∀ c ∈ s.rest.head?, isBlank c = false) : s.skipBlanks = s := by
  rw [skipBlanks]
  cases hr : s.rest with
  | nil => rfl
  | cons c cs => rw [List.takeWhile_cons_of_neg (by simp [h c (by simp [hr])])]; rfl

theorem cursor_skipBlanks? : s.cursor.skipBlanks? = some s.skipBlanks.cursor := by
  induction hr : s.rest generalizing s with
  | nil =>
    have h : ∀ c ∈ s.rest.head?, isBlank c = false := by simp [hr]
    rw [s.skipBlanks_of_head h]
    exact Cursor.skipBlanks?_of_head h
  | cons c cs ih =>
    cases hc : isBlank c with
    | false =>
      have h : ∀ c ∈ s.rest.head?, isBlank c = false := by simpa [hr] using hc
      rw [s.skipBlanks_of_head h]
      exact Cursor.skipBlanks?_of_head h
    | true =>
      rw [Cursor.skipBlanks?_of_blank (c := s.cursor) (congrArg List.head? hr) hc,
        cursor_readChar?, Option.bind_some, s.skipBlanks_of_blank hr hc]
      exact ih (s.advance 1) (by rw [advance, hr]; rfl)

/-- The next token, at a character that is no blank. -/
theorem next_of_head {c : Char} {cs : List Char} (hr : s.skipBlanks.rest = c :: cs) :
    s.next = (Token.atHead c cs,
      s.skipBlanks.advance (Token.atHead c cs).literal.toList.length) := by
  rw [next]
  dsimp only
  rw [hr]

theorem cursor_either? {first : Char} {cs : List Char} (hr : s.rest = first :: cs) (second : Char)
    (two one : Kind) : s.cursor.either? second two one =
      if cs.head? = some second then
        some (⟨two, String.ofList [first, second]⟩, (s.advance 1).cursor)
      else some (⟨one, String.singleton first⟩, s.cursor) := by
  have hfirst : s.cursor.char?.getD '\x00' = first := by simp [cursor, hr]
  have hpeek : s.rest[1]? = cs.head? := by rw [hr, List.getElem?_cons_succ, List.head?_eq_getElem?]
  rw [Cursor.either?, hfirst, cursor_peek?, hpeek, cursor_readChar?]
  split <;> simp [*]

/-- A mark that an equality sign may follow is read with it or alone. -/
theorem cursor_either?_atHead {c : Char} {cs : List Char} (hr : s.rest = c :: cs) {two one : Kind}
    (hone : Kind.mark? c = some one) (htwo : two.text = String.ofList [c, '='])
    (heq : ∀ cs', Token.atHead c ('=' :: cs') = .ofKind two) :
    s.cursor.either? '=' two one = some (Token.atHead c cs,
      (s.advance ((Token.atHead c cs).literal.toList.length - 1)).cursor) := by
  rw [cursor_either? s hr]
  split
  · next h =>
    obtain ⟨cs', rfl⟩ : ∃ cs', cs = '=' :: cs' := by
      cases cs with
      | nil => cases h
      | cons d cs' => exact ⟨cs', by rw [Option.some.inj h]⟩
    rw [heq, Token.ofKind, htwo, String.toList_ofList]
    rfl
  · next h =>
    rw [Token.atHead_of_mark? hone fun _ => h, Token.ofKind, Kind.text_of_mark? hone,
      String.toList_singleton]
    rfl

theorem cursor_sign? {c : Char} {cs : List Char} (hr : s.rest = c :: cs)
    (hl : isLetter c = false) (hd : c.isDigit = false) : s.cursor.sign? c =
      some (Token.atHead c cs,
        (s.advance ((Token.atHead c cs).literal.toList.length - 1)).cursor) := by
  unfold Cursor.sign?
  split
  · exact s.cursor_either?_atHead hr rfl (by decide) fun _ => rfl
  · exact s.cursor_either?_atHead hr rfl (by decide) fun _ => rfl
  · next h₁ h₂ =>
    cases hm : Kind.mark? c with
    | some k =>
      rw [Token.atHead_of_mark? hm fun h => (h.elim h₁ h₂).elim]
      simp only [Option.map_some, Option.getD_some, Token.ofKind, Kind.text_of_mark? hm,
        String.toList_singleton]
      rfl
    | none =>
      rw [Token.atHead_of_mark?_eq_none hm, if_neg (by simp [hl]), if_neg (by simp [hd])]
      simp only [Option.map_none, Option.getD_none, String.toList_singleton]
      rfl

theorem cursor_tokenAt? {c : Char} {cs : List Char} (hr : s.rest = c :: cs) :
    s.cursor.tokenAt? c = some (Token.atHead c cs,
      (s.advance (Token.atHead c cs).literal.toList.length).cursor) := by
  rw [Cursor.tokenAt?]
  split
  · next hl =>
    have h : Token.atHead c cs = _ := Token.atHead_of_mark?_eq_none (Kind.mark?_of_isLetter hl) cs
    rw [if_pos hl] at h
    rw [cursor_readRun?, h, hr, List.takeWhile_cons_of_pos hl]
    simp
  · next hl =>
    split
    · next hd =>
      have h : Token.atHead c cs = _ := Token.atHead_of_mark?_eq_none (Kind.mark?_of_isDigit hd) cs
      rw [if_neg hl, if_pos hd] at h
      rw [cursor_readRun?, h, hr, List.takeWhile_cons_of_pos hd]
      simp
    · next hd =>
      -- the last character of the literal is read at the end
      have hpos := List.length_pos_iff.mpr (Token.atHead_literal_ne_nil c cs)
      rw [s.cursor_sign? hr (Bool.eq_false_iff.mpr hl) (Bool.eq_false_iff.mpr hd)]
      simp only [Option.pure_def, Option.bind_eq_bind, Option.bind_some, cursor_readChar?,
        ← advance_add]
      rw [Nat.sub_add_cancel hpos]

theorem next_of_rest_eq_nil (hr : s.skipBlanks.rest = []) : s.next = (Token.eof, s.skipBlanks) := by
  rw [next]
  dsimp only
  rw [hr]

/-- **Both scanners go in step**, and no cut fails. -/
theorem cursor_scan? : s.cursor.scan? = some (s.next.1, s.next.2.cursor) := by
  rw [Cursor.scan?, cursor_skipBlanks?]
  cases hr : s.skipBlanks.rest with
  | nil =>
    have hc : s.skipBlanks.cursor.char? = none := congrArg List.head? hr
    simp [hc, s.next_of_rest_eq_nil hr]
  | cons c cs =>
    have hc : s.skipBlanks.cursor.char? = some c := congrArg List.head? hr
    simp [hc, s.next_of_head hr, cursor_tokenAt? _ hr]

/-! ## What a call takes from the text -/

theorem toList_remainder : s.remainder.toList = s.rest := String.toList_ofList

variable {s}

theorem next_kind_eq_eof_iff : s.next.1.kind = .eof ↔ s.rest.dropWhile isBlank = [] := by
  refine ⟨fun h => ?_, fun hr => congrArg Token.kind (next_of_nil hr)⟩
  by_contra hne
  obtain ⟨c, cs, hr⟩ := List.exists_cons_of_ne_nil hne
  rw [(next_of_cons hr).1] at h
  exact Token.atHead_kind_ne_eof c cs h

/-- **The last token comes if nothing but blanks is left.** -/
theorem next_kind_eq_eof_iff_blank :
    s.next.1.kind = .eof ↔ ∀ c ∈ s.remainder.toList, isBlank c = true := by
  rw [next_kind_eq_eof_iff, toList_remainder, List.dropWhile_eq_nil_iff]

/-- **At the end of the text the last token comes again and again.** -/
theorem next_behind_eof (h : s.next.1.kind = .eof) :
    s.next.2.remainder = "" ∧ s.next.2.next = (.eof, s.next.2) := by
  have hr : s.next.2.rest = [] := s.next_rest_of_eof h
  have hs : s.next.2.skipBlanks = s.next.2 := s.next.2.skipBlanks_of_head (by simp [hr])
  refine ⟨by rw [remainder, hr], ?_⟩
  rw [next_of_rest_eq_nil _ (by rw [hs, hr]), hs]

/-- **A token is taken from the text with the blanks in front of it.** -/
theorem remainder_eq (h : s.next.1.kind ≠ .eof) : s.remainder =
    String.ofList (s.remainder.toList.takeWhile isBlank) ++ s.next.1.literal ++
      s.next.2.remainder := by
  obtain ⟨c, cs, hr⟩ := List.exists_cons_of_ne_nil (mt next_kind_eq_eof_iff.mpr h)
  obtain ⟨ht, hrest⟩ := next_of_cons hr
  obtain ⟨behind, hcs⟩ := Token.atHead_literal_isPrefix c cs
  have hbehind : s.next.2.rest = behind := by
    rw [hrest, ← hcs]
    exact List.drop_left
  rw [← String.toList_inj, ht, String.toList_append, String.toList_append, toList_remainder,
    toList_remainder, hbehind, String.toList_ofList, List.append_assoc, hcs, ← hr,
    List.takeWhile_append_dropWhile]

theorem literal_ne_empty (h : s.next.1.kind ≠ .eof) : s.next.1.literal ≠ "" := by
  obtain ⟨c, cs, hr⟩ := List.exists_cons_of_ne_nil (mt next_kind_eq_eof_iff.mpr h)
  rw [(next_of_cons hr).1]
  exact fun he => Token.atHead_literal_ne_nil c cs (by rw [he]; rfl)

/-! ## The text behind the cursor decides -/

variable (s)

theorem drain_ofString_remainder : (ofString s.remainder).drain.1 = s.drain.1 :=
  drain_of_isLayout s.isLayout_drain s.toList_remainder

/-- A scanner in front of the remaining text finds the same tokens. -/
theorem next_iterate_behind (n : Nat) :
    (behind^[n] s).next.1 = (behind^[n] (ofString s.remainder)).next.1 := by
  rw [← getD_drain, ← getD_drain, drain_ofString_remainder]

/-- The tokens that the scanner yields one by one until there is none, and the scanner behind
them. -/
inductive Collects : Scanner → List Token → Scanner → Prop
  | done {s : Scanner} (h : s.next?.1 = none) : Collects s [] s.next?.2
  | more {s r : Scanner} {t : Token} {ts : List Token} (h : s.next?.1 = some t)
      (hs : Collects s.next?.2 ts r) : Collects s (t :: ts) r

theorem next?_eq :
    s.next? = (if s.next.1.kind = .eof then none else some s.next.1, s.next.2) := by
  simp only [next?, Token.is_iff]

/-- Collecting and draining yield the same tokens. -/
theorem exists_collects (s : Scanner) : ∃ r, s.Collects s.drain.1 r := by
  by_cases h : s.next.1.kind = .eof
  · rw [drain_of_eof h]
    exact ⟨_, .done (by rw [next?_eq, if_pos h])⟩
  · obtain ⟨r, hr⟩ := exists_collects s.next.2
    rw [drain_of_ne_eof h]
    refine ⟨r, .more (by rw [next?_eq, if_neg h]) ?_⟩
    rw [next?_eq]
    exact hr
termination_by s.rest.length
decreasing_by exact s.next_rest_lt h

end Scanner

/-! ## Sessions -/

/-- A call in a session with some scanners. -/
inductive ScanCommand where
  /-- The next token of a scanner. -/
  | next (i : Nat)
  /-- The next token of a scanner unless the text is at its end. -/
  | next? (i : Nat)
  /-- A copy of a scanner joins the session, behind all others. -/
  | copy (i : Nat)
  deriving DecidableEq, Repr

/-- The scanners of a session after a call. -/
def Scanner.perform (pool : List Scanner) : ScanCommand → List Scanner
  | .next i =>
    match pool[i]? with
    | none => pool
    | some s => pool.set i s.next.2
  | .next? i =>
    match pool[i]? with
    | none => pool
    | some s => pool.set i s.next?.2
  | .copy i => pool ++ pool[i]?.toList

/-- The scanners of a session after some calls. -/
def Scanner.performAll (pool : List Scanner) (cs : List ScanCommand) : List Scanner :=
  cs.foldl Scanner.perform pool

/-- The cursors of a session after a call, unless a cut fails. -/
def Cursor.perform? (pool : List Cursor) : ScanCommand → Option (List Cursor)
  | .next i | .next? i =>
    match pool[i]? with
    | none => some pool
    | some c => do
      let (_, c) ← c.scan?
      return pool.set i c
  | .copy i => some (pool ++ pool[i]?.toList)

/-- The cursors of a session after some calls, unless a cut fails. -/
def Cursor.performAll? (pool : List Cursor) (cs : List ScanCommand) : Option (List Cursor) :=
  cs.foldlM Cursor.perform? pool

section Session

variable {pool : List Scanner}

theorem perform?_map_cursor (pool : List Scanner) (c : ScanCommand) :
    Cursor.perform? (pool.map Scanner.cursor) c = some ((Scanner.perform pool c).map Scanner.cursor) := by
  have hget i : (pool.map Scanner.cursor)[i]? = pool[i]?.map Scanner.cursor := List.getElem?_map
  cases c with
  | next i | next? i =>
    rw [Cursor.perform?, Scanner.perform, hget]
    cases pool[i]? with
    | none => rfl
    | some s => simp [Scanner.cursor_scan?, Scanner.next?_eq, List.map_set]
  | copy i =>
    rw [Cursor.perform?, Scanner.perform, hget, List.map_append]
    cases pool[i]? <;> rfl

/-- **In a session no cut fails**, and cursors and scanners stay in step. -/
theorem performAll?_map_cursor (pool : List Scanner) (cs : List ScanCommand) :
    Cursor.performAll? (pool.map Scanner.cursor) cs =
      some ((Scanner.performAll pool cs).map Scanner.cursor) := by
  induction cs generalizing pool with
  | nil => rfl
  | cons c cs ih =>
    rw [Cursor.performAll?, List.foldlM_cons, perform?_map_cursor]
    exact ih _

theorem perform_source {source : String} (h : ∀ s ∈ pool, s.source = source) (c : ScanCommand) :
    ∀ s ∈ Scanner.perform pool c, s.source = source := by
  cases c with
  | next i | next? i =>
    rw [Scanner.perform]
    cases hi : pool[i]? with
    | none => exact h
    | some s =>
      intro t ht
      rcases List.mem_or_eq_of_mem_set ht with ht | rfl
      · exact h t ht
      · exact s.next_source.trans (h s (List.mem_of_getElem? hi))
  | copy i =>
    rw [Scanner.perform]
    refine List.forall_mem_append.mpr ⟨h, fun s hs => ?_⟩
    exact h s (List.mem_of_getElem? (Option.mem_toList.mp hs))

/-- The scanners of a session keep their source. -/
theorem performAll_source {source : String} (h : ∀ s ∈ pool, s.source = source)
    (cs : List ScanCommand) : ∀ s ∈ Scanner.performAll pool cs, s.source = source := by
  induction cs generalizing pool with
  | nil => exact h
  | cons c cs ih => exact ih (perform_source h c)

end Session

/-- The cursor stands in a source in front of a text: at a boundary between characters, with all
that was read before it, and with the first character of the text. -/
structure Cursor.StandsBefore (c : Cursor) (source text : String) : Prop where
  source_eq : c.source = source
  exists_read : ∃ read, source = read ++ text ∧ c.offset = read.utf8ByteSize
  isValid : String.Pos.Raw.IsValid source ⟨c.offset⟩
  offset_le : c.offset ≤ source.utf8ByteSize
  remainder?_eq : c.remainder? = some text
  char?_eq : c.char? = text.toList.head?
  char?_eq_none_iff : c.char? = none ↔ text = ""

theorem Scanner.cursor_standsBefore (s : Scanner) :
    s.cursor.StandsBefore s.source s.remainder := by
  have hvalid : String.Pos.Raw.IsValid s.source ⟨s.position⟩ := by
    rw [s.source_eq, s.position_eq]
    exact isValid_append _ _
  refine ⟨rfl, ⟨_, s.source_eq, s.position_eq⟩, hvalid, hvalid.le_utf8ByteSize,
    s.cursor_remainder?, by rw [s.toList_remainder]; rfl, ?_⟩
  rw [← String.toList_eq_nil_iff, s.toList_remainder]
  exact List.head?_eq_none_iff

/-- **The cursor stays valid and every call makes progress.** In a session with a scanner and copies
of it, the scanners by offset go in step with the others and no cut fails. The last token comes if
nothing but blanks is left, and then again and again. Any other token is taken from the text with
the blanks in front of it. What comes next is settled by the text behind the cursor. -/
theorem cursor_stays_valid (source : String) (cs : List ScanCommand) :
    let pool := Scanner.performAll [.ofString source] cs
    Cursor.performAll? [.ofString source] cs = some (pool.map Scanner.cursor) ∧
      ∀ s ∈ pool,
        s.cursor.StandsBefore source s.remainder ∧ (s.atEnd = true ↔ s.remainder = "") ∧
        s.cursor.scan? = some (s.next.1, s.next.2.cursor) ∧
        s.next? = (if s.next.1.kind = .eof then none else some s.next.1, s.next.2) ∧
        (s.next.1.kind = .eof ↔ ∀ c ∈ s.remainder.toList, isBlank c = true) ∧
        (s.next.1.kind = .eof →
          s.next.2.remainder = "" ∧ s.next.2.next = (.eof, s.next.2)) ∧
        (s.next.1.kind ≠ .eof → s.next.1.literal ≠ "" ∧
          s.remainder = String.ofList (s.remainder.toList.takeWhile isBlank) ++ s.next.1.literal ++
            s.next.2.remainder) ∧
        (∀ n, (Scanner.behind^[n] s).next.1 =
          (Scanner.behind^[n] (.ofString s.remainder)).next.1) ∧
        ∃ ts r, s.Collects ts r ∧ ts ++ [.eof] = tokenize s.remainder := by
  intro pool
  refine ⟨Scanner.cursor_ofString source ▸ performAll?_map_cursor [.ofString source] cs,
    fun s hs => ?_⟩
  have hsource : s.source = source :=
    performAll_source (by simp [Scanner.source, Scanner.ofString]) cs s hs
  obtain ⟨r, hr⟩ := s.exists_collects
  refine ⟨hsource ▸ s.cursor_standsBefore, ?_, s.cursor_scan?, s.next?_eq,
    Scanner.next_kind_eq_eof_iff_blank, Scanner.next_behind_eof,
    fun h => ⟨Scanner.literal_ne_empty h, Scanner.remainder_eq h⟩, s.next_iterate_behind,
    s.drain.1, r, hr, ?_⟩
  · rw [← String.toList_eq_nil_iff, s.toList_remainder]
    exact List.isEmpty_iff
  · rw [tokenize, s.drain_ofString_remainder]

/-- Behind a character of two bytes and an equality, a scanner whose copy was left in front of the
equality goes on with a character of four bytes. -/
theorem cursor_stays_valid_between_characters :
    let source := "é==🦀 x"
    let cs : List ScanCommand := [.next 0, .copy 0, .next? 0]
    let s : Scanner := ⟨['=', '=', 'é'], ['🦀', ' ', 'x']⟩
    s ∈ Scanner.performAll [.ofString source] cs ∧
      Cursor.performAll? [.ofString source] cs =
        some [⟨source, 4, some '🦀'⟩, ⟨source, 2, some '='⟩] ∧
      s.cursor.remainder? = some "🦀 x" ∧
      s.cursor.scan? = some (⟨.illegal, "🦀"⟩, ⟨source, 8, some ' '⟩) ∧
      ∃ ts r, s.Collects ts r ∧ ts ++ [.eof] = tokenize "🦀 x" := by
  intro source cs s
  have hs : s ∈ Scanner.performAll [.ofString source] cs := by decide +kernel
  obtain ⟨hcs, hpool⟩ := cursor_stays_valid source cs
  obtain ⟨hstands, -, hscan, -, -, -, -, -, hcollects⟩ := hpool s hs
  exact ⟨hs, hcs.trans (by decide +kernel), hstands.remainder?_eq, hscan.trans (by decide +kernel),
    hcollects⟩

end Frontend
