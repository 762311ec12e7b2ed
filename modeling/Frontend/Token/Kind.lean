/-!
# Token kinds

The kinds of token of the language, each with a text that no other kind shares.

* `Kind`: the kinds, in their fixed order, and `Kind.all`, the list of them;
* `Kind.text`, `Kind.ofText?`: the text of a kind and the way back;
* `Kind.reserved`, `Kind.ofWord`: the reserved words, and the kind of a word;
* `Kind.mark?`: the kind of an operator or delimiter that is one character long.
-/

namespace Frontend

/-- The kind of a token. -/
inductive Kind where
  | illegal
  | eof
  | identifier
  | integer
  | assign
  | plus
  | minus
  | bang
  | star
  | slash
  | less
  | greater
  | equal
  | notEqual
  | comma
  | semicolon
  | openParen
  | closeParen
  | openBrace
  | closeBrace
  | funcWord
  | letWord
  | trueWord
  | falseWord
  | ifWord
  | elseWord
  | returnWord
  deriving DecidableEq, Repr, Inhabited

namespace Kind

/-- All kinds, in order. -/
def all : List Kind :=
  [illegal, eof, identifier, integer, assign, plus, minus, bang, star, slash, less, greater, equal,
    notEqual, comma, semicolon, openParen, closeParen, openBrace, closeBrace, funcWord, letWord,
    trueWord, falseWord, ifWord, elseWord, returnWord]

theorem mem_all (k : Kind) : k ∈ all := by
  cases k <;> decide

/-- The text of a kind. For operators, delimiters and reserved words it is their spelling. -/
def text : Kind → String
  | illegal => "ILLEGAL"
  | eof => "EOF"
  | identifier => "IDENT"
  | integer => "INT"
  | assign => "="
  | plus => "+"
  | minus => "-"
  | bang => "!"
  | star => "*"
  | slash => "/"
  | less => "<"
  | greater => ">"
  | equal => "=="
  | notEqual => "!="
  | comma => ","
  | semicolon => ";"
  | openParen => "("
  | closeParen => ")"
  | openBrace => "\x7b"
  | closeBrace => "\x7d"
  | funcWord => "func"
  | letWord => "let"
  | trueWord => "true"
  | falseWord => "false"
  | ifWord => "if"
  | elseWord => "else"
  | returnWord => "return"

/-- The kind with the given text. -/
def ofText? (s : String) : Option Kind :=
  all.find? fun k => k.text == s

theorem ofText?_text (k : Kind) : ofText? k.text = some k := by
  cases k <;> decide

theorem text_injective {k l : Kind} (h : k.text = l.text) : k = l := by
  have := ofText?_text k
  rwa [h, ofText?_text l, Option.some.injEq, eq_comm] at this

/-! ## Words -/

/-- The reserved words with their kinds, sorted by word. -/
def reserved : List (String × Kind) :=
  [("else", elseWord), ("false", falseWord), ("func", funcWord), ("if", ifWord), ("let", letWord),
    ("return", returnWord), ("true", trueWord)]

/-- The kind of a word: reserved words have their own, every other word is an identifier. -/
def ofWord (w : String) : Kind :=
  (reserved.lookup w).getD identifier

/-- A reserved word is spelt as the text of its kind. -/
theorem text_of_mem_reserved {w : String} {k : Kind} (h : (w, k) ∈ reserved) : k.text = w := by
  simp only [reserved, List.mem_cons, Prod.mk.injEq, List.not_mem_nil, or_false] at h
  rcases h with ⟨rfl, rfl⟩ | ⟨rfl, rfl⟩ | ⟨rfl, rfl⟩ | ⟨rfl, rfl⟩ | ⟨rfl, rfl⟩ | ⟨rfl, rfl⟩ |
    ⟨rfl, rfl⟩ <;> rfl

/-- The kind of a word that is not reserved is that of identifiers. -/
theorem ofWord_cases (w : String) : ofWord w = identifier ∨ (w, ofWord w) ∈ reserved := by
  unfold ofWord
  cases h : reserved.lookup w with
  | none => exact .inl rfl
  | some k =>
    refine .inr ?_
    obtain ⟨l₁, l₂, h, -⟩ := List.lookup_eq_some_iff.mp h
    rw [h]
    simp

/-- The words of identifiers are those that are not reserved. -/
theorem ofWord_eq_identifier_iff {w : String} :
    ofWord w = identifier ↔ w ∉ reserved.map Prod.fst := by
  constructor
  · intro h hw
    simp only [reserved, List.map_cons, List.map_nil, List.mem_cons, List.not_mem_nil,
      or_false] at hw
    revert h
    rcases hw with rfl | rfl | rfl | rfl | rfl | rfl | rfl <;> decide
  · intro h
    exact (ofWord_cases w).resolve_right fun hm => h (List.mem_map.mpr ⟨_, hm, rfl⟩)

/-! ## Marks -/

/-- The kind of the operator or delimiter that the character alone spells. -/
def mark? (c : Char) : Option Kind :=
  match c with
  | '=' => some assign
  | '+' => some plus
  | '-' => some minus
  | '!' => some bang
  | '*' => some star
  | '/' => some slash
  | '<' => some less
  | '>' => some greater
  | ',' => some comma
  | ';' => some semicolon
  | '(' => some openParen
  | ')' => some closeParen
  | '\x7b' => some openBrace
  | '\x7d' => some closeBrace
  | _ => none

theorem text_of_mark? {c : Char} {k : Kind} (h : mark? c = some k) :
    k.text = String.singleton c := by
  unfold mark? at h
  split at h <;> first | contradiction | (cases h; decide)

end Kind

end Frontend
