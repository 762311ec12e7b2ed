import Frontend.Token

/-!
# The token at the head of a text

Which token a non-empty text starts with, blanks aside. Words are runs of letters, numerals are
runs of digits, `=` and `!` take a following `=` with them, and a character that starts no other
token is a token of its own kind.

* `isBlank`, `isLetter`: the characters between tokens and the characters of words;
* `Token.atHead`: the token that starts a text;
* `Token.atHead_literal_isPrefix`, `Token.atHead_literal_ne_nil`: its literal is a non-empty
  initial part of the text.
-/

namespace Frontend

/-- The characters that separate tokens: space, tab, line feed and carriage return. -/
def isBlank (c : Char) : Bool :=
  c == ' ' || c == '\t' || c == '\n' || c == '\r'

/-- The characters of words: the ASCII letters and the underscore. -/
def isLetter (c : Char) : Bool :=
  c.isAlpha || c == '_'

namespace Token

/-- The token that the text `c :: cs` starts with. -/
def atHead (c : Char) (cs : List Char) : Token :=
  match c, cs with
  | '=', '=' :: _ => ofKind .equal
  | '!', '=' :: _ => ofKind .notEqual
  | _, _ =>
    match Kind.mark? c with
    | some k => ofKind k
    | none =>
      if isLetter c then
        let word := String.ofList (c :: cs.takeWhile isLetter)
        ⟨Kind.ofWord word, word⟩
      else if c.isDigit then
        ⟨.integer, String.ofList (c :: cs.takeWhile Char.isDigit)⟩
      else
        ⟨.illegal, String.singleton c⟩

theorem atHead_literal_isPrefix (c : Char) (cs : List Char) :
    (atHead c cs).literal.toList <+: c :: cs := by
  unfold atHead
  split
  · exact ⟨_, rfl⟩
  · exact ⟨_, rfl⟩
  · split
    · next h => rw [ofKind, Kind.text_of_mark? h]; simp
    · split
      · simpa using List.takeWhile_prefix _
      · split
        · simpa using List.takeWhile_prefix _
        · simp

theorem atHead_literal_ne_nil (c : Char) (cs : List Char) :
    (atHead c cs).literal.toList ≠ [] := by
  unfold atHead
  split
  · simp [ofKind, Kind.text]
  · simp [ofKind, Kind.text]
  · split
    · next h => rw [ofKind, Kind.text_of_mark? h]; simp
    · split
      · simp
      · split <;> simp

theorem atHead_kind_ne_eof (c : Char) (cs : List Char) : (atHead c cs).kind ≠ .eof := by
  unfold atHead
  split
  · simp [ofKind]
  · simp [ofKind]
  · split
    · next h => intro e; unfold Kind.mark? at h; split at h <;> simp_all [ofKind]
    · split
      · generalize String.ofList _ = w
        rintro (e : Kind.ofWord w = .eof)
        have h := Kind.ofWord_cases w
        rw [e] at h
        simp [Kind.reserved] at h
      · split <;> simp

end Token

end Frontend
