import Frontend.Text.Printable

/-!
# Quoted texts

A text in double quotes, on one line and without characters that a reader could not see.

* `escape`: how one character is written between the quotes;
* `quote`: a text in quotes.
-/

namespace Frontend.Text

/-- A character as it is written between double quotes. The quote and the backslash have a
backslash before them, four controls have a letter of their own, and every other character that
does not stand for itself is written by its code point in hexadecimal. -/
def escape (c : Char) : String :=
  match c with
  | '\x00' => "\\0"
  | '\t' => "\\t"
  | '\n' => "\\n"
  | '\r' => "\\r"
  | '\x22' => "\\\""
  | '\\' => "\\\\"
  | c =>
    if isPlain c then String.singleton c
    else "\\u\x7b" ++ String.ofList (Nat.toDigits 16 c.toNat) ++ "\x7d"

/-- A text in double quotes. -/
def quote (s : String) : String :=
  "\"" ++ String.join (s.toList.map escape) ++ "\""

end Frontend.Text
