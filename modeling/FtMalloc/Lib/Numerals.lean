import Mathlib

/-!
# Numerals

The numeral of a number in a base is the list of its digits, the most significant one first; that of
zero has one digit. Reading digit after digit, with a value that is multiplied by the base each
time, gives the number back.
-/

namespace HeapLib

variable {α : Type} {digit : ℕ → α} {value : α → ℕ} {b n : ℕ}

/-- The numeral of `n` in base `b`. -/
def numeral (digit : ℕ → α) (b n : ℕ) : List α :=
  if n = 0 then [digit 0] else (Nat.digits b n).reverse.map digit

/-- A number below the base is one digit. -/
theorem numeral_of_lt (h : n < b) : numeral digit b n = [digit n] := by
  rw [numeral]
  by_cases hn : n = 0
  · rw [if_pos hn, hn]
  · rw [if_neg hn, Nat.digits_of_lt b n hn h]
    rfl

/-- The last digit is the remainder. -/
theorem numeral_of_le (hb : 1 < b) (h : b ≤ n) :
    numeral digit b n = numeral digit b (n / b) ++ [digit (n % b)] := by
  have hdiv : 0 < n / b := Nat.div_pos h (by omega)
  rw [numeral, numeral, if_neg (by omega), if_neg (by omega), Nat.digits_def' hb (by omega),
    List.reverse_cons, List.map_append, List.map_singleton]

/-- Induction on the digits of a number. -/
@[elab_as_elim] theorem numeral_induction {motive : ℕ → Prop} (hb : 1 < b) (n : ℕ)
    (digit : ∀ n < b, motive n) (more : ∀ n, b ≤ n → motive (n / b) → motive n) : motive n := by
  induction n using Nat.strong_induction_on with
  | _ n ih =>
    by_cases h : n < b
    · exact digit n h
    · exact more n (by omega) (ih _ (Nat.div_lt_self (by omega) hb))

/-- There is a digit. -/
theorem length_numeral_pos : 0 < (numeral digit b n).length := by
  rw [numeral]
  split
  · exact Nat.one_pos
  · next h =>
    rw [List.length_map, List.length_reverse, List.length_pos_iff]
    exact Nat.digits_ne_nil_iff_ne_zero.mpr h

/-- A numeral below a power of the base is not longer than its exponent. -/
theorem length_numeral_le {k : ℕ} (hb : 1 < b) (hk : 0 < k) (h : n < b ^ k) :
    (numeral digit b n).length ≤ k := by
  rw [numeral]
  split
  · exact hk
  · rw [List.length_map, List.length_reverse]
    exact (Nat.digits_length_le_iff hb n).mpr h

/-- What is read from a list of digits. -/
def readDigits (value : α → ℕ) (b : ℕ) (ds : List α) : ℕ :=
  ds.foldl (fun n d => n * b + value d) 0

/-- One more digit. -/
theorem readDigits_concat (ds : List α) (d : α) :
    readDigits value b (ds ++ [d]) = readDigits value b ds * b + value d := by
  rw [readDigits, List.foldl_append]
  rfl

/-- More digits read no less. -/
theorem readDigits_le_append (hb : 0 < b) (ds es : List α) :
    readDigits value b ds ≤ readDigits value b (ds ++ es) := by
  induction es using List.reverseRecOn with
  | nil => rw [List.append_nil]
  | append_singleton es e ih =>
    rw [← List.append_assoc, readDigits_concat]
    exact ih.trans ((Nat.le_mul_of_pos_right _ hb).trans (Nat.le_add_right _ _))

/-- A numeral is read back. -/
theorem readDigits_numeral (hb : 1 < b) (hdigit : ∀ d < b, value (digit d) = d) :
    readDigits value b (numeral digit b n) = n := by
  induction n using numeral_induction hb with
  | digit n h =>
    rw [numeral_of_lt h, readDigits, List.foldl_cons, List.foldl_nil, Nat.zero_mul, Nat.zero_add,
      hdigit n h]
  | more n h ih =>
    rw [numeral_of_le hb h, readDigits_concat, ih, hdigit _ (Nat.mod_lt _ (by omega)),
      Nat.div_add_mod']

/-- The digits of a numeral. -/
theorem mem_numeral (hb : 1 < b) {d : α} (h : d ∈ numeral digit b n) : ∃ i < b, d = digit i := by
  induction n using numeral_induction hb with
  | digit n hn =>
    rw [numeral_of_lt hn, List.mem_singleton] at h
    exact ⟨n, hn, h⟩
  | more n hn ih =>
    rw [numeral_of_le hb hn, List.mem_append, List.mem_singleton] at h
    cases h with
    | inl h => exact ih h
    | inr h => exact ⟨n % b, Nat.mod_lt _ (by omega), h⟩

end HeapLib
