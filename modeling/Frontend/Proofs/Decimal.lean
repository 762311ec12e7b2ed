import Frontend.Proofs.Recovery
import Mathlib.Data.List.Induction
import Mathlib.Data.Nat.Digits.Defs

/-!
# Numerals have their decimal value

A run of digits stands for a number in the decimal system, however long the run is and however many
zeros it begins with. The parser finds this number or says that it is out of range.

* **`Numeral.value_eq_ofDigits`**: the number of a run of digits;
* `Numeral.read?_zeros`: zeros in front of a run do not matter;
* **`integer_reads_decimal`**: what the parser makes of a run of digits.
-/

namespace Frontend

namespace Numeral

/-- The digits of a run, the last one first. -/
def places (digits : List Char) : List Nat := digits.reverse.map digit

theorem value_concat (digits : List Char) (c : Char) :
    value (digits ++ [c]) = snoc (value digits) c := by
  rw [value, value, List.foldl_append, List.foldl_cons, List.foldl_nil]

/-- **A run of digits stands for its number in the decimal system.** -/
theorem value_eq_ofDigits (digits : List Char) : value digits = Nat.ofDigits 10 (places digits) := by
  induction digits using List.reverseRecOn with
  | nil => rfl
  | append_singleton digits c ih =>
    have hplaces : places (digits ++ [c]) = digit c :: places digits := by simp [places]
    rw [value_concat, hplaces, Nat.ofDigits_cons, ← ih, snoc]
    exact Nat.add_comm _ _

theorem places_zeros (k : Nat) (digits : List Char) :
    places (List.replicate k '0' ++ digits) = places digits ++ List.replicate k 0 := by
  rw [places, List.reverse_append, List.map_append, List.reverse_replicate, List.map_replicate]
  rfl

theorem value_zeros (k : Nat) (digits : List Char) :
    value (List.replicate k '0' ++ digits) = value digits := by
  rw [value_eq_ofDigits, places_zeros, Nat.ofDigits_append_replicate_zero, value_eq_ofDigits]

/-- Zeros in front of a run of digits do not matter. -/
theorem read?_zeros (k : Nat) {digits : List Char} (hne : digits ≠ [])
    (hd : digits.all Char.isDigit = true) :
    read? (List.replicate k '0' ++ digits) = read? digits := by
  have hzeros : (List.replicate k '0').all Char.isDigit = true :=
    List.all_eq_true.mpr fun c hc => by rw [List.eq_of_mem_replicate hc]; decide
  rw [read?_eq (List.append_ne_nil_of_right_ne_nil _ hne) (by rw [List.all_append, hzeros, hd]; rfl),
    read?_eq hne hd, value_zeros]

end Numeral

/-- **Integer literals have their decimal value.** At a numeral, which is a run of digits of any
length, the parser builds an integer literal of this very token. If the number of the run is below
the power of two with exponent 63, it is the value of the literal and nothing is recorded. Otherwise
the literal has no value, and one diagnostic with the whole run is recorded. The window stays where
it is. Zeros in front of the run change neither the number nor whether it is in range. -/
theorem integer_reads_decimal (p : Parser) (digits : List Char) (hne : digits ≠ [])
    (hd : digits.all Char.isDigit = true) (hp : p.current = ⟨.integer, String.ofList digits⟩) :
    let n := Nat.ofDigits 10 (Numeral.places digits)
    ∃ value r, ParseM.integer.run p = .ok (.integer p.current value) r ∧
      r.window = p.window ∧ r.grammar = p.grammar ∧
      (value = some (Int.ofNat n) ∧ r.diagnostics = p.diagnostics ↔ n ≤ 9223372036854775807) ∧
      (value = none ∧ r.diagnostics = p.diagnostics.push (.outOfRange (String.ofList digits)) ↔
        9223372036854775807 < n) ∧
      ∀ k, Numeral.read? (List.replicate k '0' ++ digits) = value.map Int.toNat := by
  intro n
  have hk : p.current.kind = .integer := by rw [hp]
  have hl : p.current.literal.toList = digits := by rw [hp, String.toList_ofList]
  have hn : Numeral.value digits = n := Numeral.value_eq_ofDigits digits
  have hv := Token.value?_of_isScannable
    ((Token.isScannable_integer_iff hk).mpr ⟨hl ▸ hne, hl ▸ hd⟩) hk
  rw [hl, hn] at hv
  have hread k : Numeral.read? (List.replicate k '0' ++ digits) =
      if n ≤ Numeral.limit then some n else none := by
    rw [Numeral.read?_zeros k hne hd, Numeral.read?_eq hne hd, hn]
  refine ⟨p.current.value?, p.settle, ?_, p.settle_window, p.settle_grammar, ?_⟩
  · rw [ParseM.integer_run, if_pos hk]
  by_cases hle : n ≤ Numeral.limit
  · rw [if_pos hle] at hv
    have hs : p.settle = p := Parser.settle_eq_self fun h => by rw [hv] at h; cases h.2
    refine ⟨iff_of_true ⟨hv, by rw [hs]⟩ hle, iff_of_false (fun h => ?_) (Nat.not_lt.mpr hle),
      fun k => ?_⟩
    · rw [hv] at h
      cases h.1
    · rw [hread, if_pos hle, hv]
      rfl
  · rw [if_neg hle] at hv
    have hs : p.settle = p.report (.outOfRange (String.ofList digits)) := by
      rw [Parser.settle_eq_report hk hv, hp]
    refine ⟨iff_of_false (fun h => ?_) hle, iff_of_true ⟨hv, by rw [hs]; rfl⟩ (Nat.lt_of_not_le hle),
      fun k => ?_⟩
    · rw [hv] at h
      cases h.1
    · rw [hread, if_neg hle, hv]
      rfl

/-- The largest number in range keeps its value behind zeros, and the next number has none. -/
theorem integer_reads_decimal_at_limit :
    let p := Parser.ofString "0009223372036854775807"
    let q := Parser.ofString "0009223372036854775808"
    (∃ r, ParseM.integer.run p = .ok (.integer p.current (some 9223372036854775807)) r ∧
      r.diagnostics = #[]) ∧
    ∃ r, ParseM.integer.run q = .ok (.integer q.current none) r ∧
      r.diagnostics = #[.outOfRange "0009223372036854775808"] := by
  intro p q
  have hp : Nat.ofDigits 10 (Numeral.places "0009223372036854775807".toList) =
    9223372036854775807 := by decide +kernel
  have hq : Nat.ofDigits 10 (Numeral.places "0009223372036854775808".toList) =
    9223372036854775808 := by decide +kernel
  obtain ⟨v, r, hr, -, -, hin, -⟩ := integer_reads_decimal p "0009223372036854775807".toList
    (by decide) (by decide +kernel) (by decide +kernel)
  obtain ⟨w, s, hs, -, -, -, hout, -⟩ := integer_reads_decimal q "0009223372036854775808".toList
    (by decide) (by decide +kernel) (by decide +kernel)
  obtain ⟨rfl, hrd⟩ := hin.mpr (by rw [hp])
  obtain ⟨rfl, hsd⟩ := hout.mpr (by rw [hq]; decide)
  refine ⟨⟨r, ?_, hrd⟩, ⟨s, hs, hsd⟩⟩
  rw [hr, hp]
  rfl

end Frontend
