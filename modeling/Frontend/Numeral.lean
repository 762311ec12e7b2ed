/-!
# Numerals

Decimal numerals and the integers in range.

* `Numeral.value`: the number that a run of digits denotes;
* `Numeral.read?`: the same number, read digit by digit without ever passing the limit;
* **`Numeral.read?_eq`**: reading succeeds exactly up to the limit, whatever the length of the run.
-/

namespace Frontend.Numeral

/-- The largest integer in range, one less than the power of two with exponent 63. -/
def limit : Nat := 9223372036854775807

/-- The number of a decimal digit. -/
def digit (c : Char) : Nat := c.toNat - '0'.toNat

/-- The number with the digits of `n` followed by `c`. -/
def snoc (n : Nat) (c : Char) : Nat := 10 * n + digit c

/-- The number that a run of decimal digits denotes. -/
def value (digits : List Char) : Nat := digits.foldl snoc 0

/-- One digit more, as long as the number stays in range. -/
def step (n : Nat) (c : Char) : Option Nat :=
  if snoc n c ≤ limit then some (snoc n c) else none

/-- The number that a run of digits denotes if it is in range. Nothing else has a number. -/
def read? (digits : List Char) : Option Nat :=
  if digits ≠ [] ∧ digits.all Char.isDigit then digits.foldlM step 0 else none

theorem le_foldl_snoc (digits : List Char) (n : Nat) : n ≤ digits.foldl snoc n := by
  induction digits generalizing n with
  | nil => exact Nat.le_refl n
  | cons c cs ih =>
    have h : n ≤ snoc n c := by unfold snoc; omega
    exact Nat.le_trans h (ih (snoc n c))

theorem foldlM_step (digits : List Char) (n : Nat) :
    digits.foldlM step n =
      if digits = [] ∨ digits.foldl snoc n ≤ limit then some (digits.foldl snoc n) else none := by
  induction digits generalizing n with
  | nil => simp
  | cons c cs ih =>
    rw [List.foldlM_cons, List.foldl_cons]
    have hle := le_foldl_snoc cs (snoc n c)
    unfold step
    split
    · next h =>
      rw [Option.bind_eq_bind, Option.bind_some]
      change cs.foldlM step (snoc n c) = _
      rw [ih]
      by_cases hc : cs = []
      · subst hc; simp [h]
      · simp [hc]
    · next h =>
      have : ¬ cs.foldl snoc (snoc n c) ≤ limit := fun h' => h (Nat.le_trans hle h')
      simp [this]

/-- **A run of digits is read exactly when its number is in range**, and as that number. -/
theorem read?_eq {digits : List Char} (hne : digits ≠ []) (hd : digits.all Char.isDigit = true) :
    read? digits = if value digits ≤ limit then some (value digits) else none := by
  rw [read?, if_pos ⟨hne, hd⟩, foldlM_step, value]
  simp [hne]

end Frontend.Numeral
