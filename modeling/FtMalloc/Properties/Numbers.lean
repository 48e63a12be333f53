import FtMalloc.Properties.Strings
import FtMalloc.Refine.Numbers

/-!
# Numbers as strings and back

`ft_atoi` computes the absolute value before it applies the sign, so it cannot read the least `int`;
`ft_itoa` can write it.
-/

namespace FtMalloc

open HeapLib

variable {P : Platform} {K : Kernel P} {s : Heap} {w : Task} {t : Text} {str : List UInt8}

/-- A result of `k` bits is that number if and only if its absolute value fits. -/
theorem wp_atoWidth_iff {k : ℕ} (h : s.Sound P) (ht : t.Spells s.client str)
    (hn : str.length + 1 < 2 ^ 31) :
    wp (atoWidth k t) (fun r s' => r = parsed str ∧ s' = s) s ↔
      magnitude str < 2 ^ (k - 1) := by
  rw [wp_atoWidth h ht hn]
  exact and_iff_left ⟨rfl, rfl⟩

/-- On every string that an `int` can count, `ft_atoi`, `ft_atol` and `ft_atoll` have a result if
and only if the absolute value of the number it starts with is a value of the result's type. They
return that number and change nothing. -/
theorem ftAtoi_defined_iff (h : s.Sound P) (ht : t.Spells s.client str)
    (hn : str.length + 1 < 2 ^ 31) :
    (wp (ftAtoi t) (fun r s' => r = parsed str ∧ s' = s) s ↔ magnitude str < 2 ^ 31) ∧
    (wp (ftAtol t) (fun r s' => r = parsed str ∧ s' = s) s ↔ magnitude str < 2 ^ 63) ∧
    (wp (ftAtoll t) (fun r s' => r = parsed str ∧ s' = s) s ↔ magnitude str < 2 ^ 63) :=
  ⟨wp_atoWidth_iff (k := 32) h ht hn, wp_atoWidth_iff (k := 64) h ht hn,
    wp_atoWidth_iff (k := 64) h ht hn⟩

/-- White space, the least `int` and something else. -/
theorem ftAtoi_defined_iff_witness : ∃ t,
    (wp (ftAtoi t) (fun r s => r = -2 ^ 31 ∧ s = .seeded) .seeded ↔ 2 ^ 31 < 2 ^ 31) ∧
    (wp (ftAtol t) (fun r s => r = -2 ^ 31 ∧ s = .seeded) .seeded ↔ 2 ^ 31 < 2 ^ 63) ∧
    (wp (ftAtoll t) (fun r s => r = -2 ^ 31 ∧ s = .seeded) .seeded ↔ 2 ^ 31 < 2 ^ 63) := by
  have ht : (Text.const [9, 45, 50, 49, 52, 55, 52, 56, 51, 54, 52, 56, 120] 0).Spells
      Heap.seeded.client [9, 45, 50, 49, 52, 55, 52, 56, 51, 54, 52, 56, 120] :=
    ⟨by decide, by decide, Nat.zero_le _, [], rfl⟩
  exact ⟨_, ftAtoi_defined_iff sound_seeded ht (by decide)⟩

/-- `ft_itoa` of every `int` returns null, exactly if `malloc` refuses the request, and changes
nothing, or it returns a new block with the decimal string of the number. `ft_atol` reads the number
back; `ft_atoi` does so if and only if it is not the least `int`. -/
theorem ftItoa_read_back (h : w.heap.Sound P) {n : ℤ} (hn : -2 ^ 31 ≤ n ∧ n < 2 ^ 31) :
    wp (ftItoa K n) (fun r w' => w'.heap.Sound P ∧
      w'.refused = (w.refused || decide (r = null)) ∧
      w.heap.client.Makes (decimal n ++ [0]) r w'.heap.client ∧
      (r ≠ null → wp (ftAtol (.heap r)) (fun z s => z = n ∧ s = w'.heap) w'.heap ∧
        (wp (ftAtoi (.heap r)) (fun z s => z = n ∧ s = w'.heap) w'.heap ↔ n ≠ -2 ^ 31))) w := by
  refine wp_mono (h.wp_ftItoa rfl (by omega)) ?_
  rintro r w' ⟨hsound, hmakes, hrefused⟩
  refine ⟨hsound, hrefused, hmakes, fun hne => ?_⟩
  generalize hD : w'.heap.client = D at hmakes
  cases hmakes with
  | refused => exact absurd rfl hne
  | made hr hfresh rest =>
    have hlen := length_decimal_le (z := n) (by omega)
    have hspells : (Text.heap r).Spells w'.heap.client (decimal n) :=
      Text.spells_block zero_notMem_decimal (by omega) (by rw [hD, Store.put_same])
    have hlong := wp_atoWidth_iff (k := 64) hsound hspells (by omega)
    have hint := wp_atoWidth_iff (k := 32) hsound hspells (by omega)
    rw [parsed_decimal, magnitude_decimal] at hlong hint
    refine ⟨hlong.mpr (by omega), hint.trans ?_⟩
    omega

/-- The least `int`. -/
theorem ftItoa_read_back_witness : ∃ r w',
    ftItoa (.refusing .unlimited) (-2 ^ 31) .seeded = some (r, w') ∧ w'.refused = false ∧
      Task.seeded.heap.client.Makes (decimal (-2 ^ 31) ++ [0]) r w'.heap.client ∧
      wp (ftAtol (.heap r)) (fun z s => z = -2 ^ 31 ∧ s = w'.heap) w'.heap ∧
      ¬wp (ftAtoi (.heap r)) (fun z s => z = -2 ^ 31 ∧ s = w'.heap) w'.heap := by
  obtain ⟨r, w', hrun, -, hrefused, hmakes, hread⟩ :=
    ftItoa_read_back (K := .refusing .unlimited) sound_seeded (n := -2 ^ 31) (by decide)
  obtain rfl : r = 65696 := result_of_run hrun (by decide +kernel)
  obtain ⟨hlong, hint⟩ := hread (by decide)
  exact ⟨_, w', hrun, hrefused, hmakes, hlong, fun h => hint.mp h rfl⟩

end FtMalloc
