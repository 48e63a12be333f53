import Mathlib

/-!
# Slices of arrays

An array is a function of its index. A slice is the list of its values from one index up to
another; an array is shuffled if a permutation of the indices of a slice leads from one array to
the other.
-/

namespace HeapLib

variable {α : Type} {a b c : ℤ → α} {i j k l m n : ℤ} {R : α → α → Prop}

/-! ## Slices -/

/-- The values from `i` up to `n`. -/
def slice (a : ℤ → α) (i n : ℤ) : List α := (List.range (n - i).toNat).map fun k : ℕ => a (i + k)

/-- The empty slice. -/
theorem slice_of_ge (h : n ≤ i) : slice a i n = [] := by
  rw [slice, Int.toNat_eq_zero.mpr (by omega)]
  rfl

/-- The last value. -/
theorem slice_concat (h : i ≤ n) : slice a i (n + 1) = slice a i n ++ [a n] := by
  have hlen : (n + 1 - i).toNat = (n - i).toNat + 1 := by omega
  have hlast : i + ((n - i).toNat : ℤ) = n := by omega
  rw [slice, hlen, List.range_succ, List.map_append, List.map_singleton, hlast]
  rfl

/-- The values behind each other. -/
theorem slice_append (hi : i ≤ m) (hn : m ≤ n) :
    slice a i m ++ slice a m n = slice a i n := by
  obtain ⟨k, rfl⟩ := Int.le.dest hn
  clear hn
  induction k with
  | zero => rw [Nat.cast_zero, Int.add_zero, slice_of_ge (Int.le_refl m), List.append_nil]
  | succ k ih =>
    rw [Nat.cast_succ, ← Int.add_assoc, slice_concat (by omega), slice_concat (by omega),
      ← List.append_assoc, ih]

/-- One value. -/
theorem slice_singleton : slice a i (i + 1) = [a i] := by
  rw [slice_concat (Int.le_refl i), slice_of_ge (Int.le_refl i)]
  rfl

/-- The first value. -/
theorem slice_cons (h : i < n) : slice a i n = a i :: slice a (i + 1) n := by
  rw [← slice_append (Int.le_add_one (Int.le_refl i)) h, slice_singleton]
  rfl

/-- The values of a slice. -/
theorem mem_slice {x : α} : x ∈ slice a i n ↔ ∃ k, (i ≤ k ∧ k < n) ∧ a k = x := by
  rw [slice, List.mem_map]
  constructor
  · rintro ⟨k, hk, rfl⟩
    rw [List.mem_range] at hk
    exact ⟨i + k, by omega, rfl⟩
  · rintro ⟨k, hk, rfl⟩
    refine ⟨(k - i).toNat, List.mem_range.mpr (by omega), ?_⟩
    congr 1
    omega

/-- A slice depends on its values. -/
theorem slice_congr (h : ∀ k, i ≤ k → k < n → a k = b k) : slice a i n = slice b i n :=
  List.map_congr_left fun k hk => h _ (by omega) (by rw [List.mem_range] at hk; omega)

/-- A relation between the values of a slice, in their order. -/
theorem pairwise_slice :
    (slice a i n).Pairwise R ↔ ∀ k l, i ≤ k → k < l → l < n → R (a k) (a l) := by
  rw [slice, List.pairwise_map, List.pairwise_iff_getElem]
  simp only [List.length_range, List.getElem_range]
  constructor
  · intro h k l hk hkl hl
    have hkl := h (k - i).toNat (l - i).toNat (by omega) (by omega) (by omega)
    rwa [Int.toNat_of_nonneg (by omega), Int.toNat_of_nonneg (by omega), add_sub_cancel,
      add_sub_cancel] at hkl
  · intro h k l _ hl hkl
    exact h _ _ (by omega) (by omega) (by omega)

/-- A relation between the values of a part of the slice. -/
theorem pairwise_slice_mono (h : (slice a i n).Pairwise R) (hi : i ≤ j) (hn : m ≤ n) :
    (slice a j m).Pairwise R :=
  pairwise_slice.mpr fun k l hk hkl hl =>
    pairwise_slice.mp h k l (by omega) hkl (by omega)

/-! ## Shuffled arrays -/

/-- The array `b` is `a` with the values from `i` up to `n` in another order. -/
def Shuffled (i n : ℤ) (a b : ℤ → α) : Prop :=
  ∃ σ : Equiv.Perm ℤ, (∀ k, ¬(i ≤ k ∧ k < n) → σ k = k) ∧ b = a ∘ σ

theorem Shuffled.refl (i n : ℤ) (a : ℤ → α) : Shuffled i n a a := ⟨1, fun _ _ => rfl, rfl⟩

theorem Shuffled.trans (h : Shuffled i n a b) (h' : Shuffled i n b c) : Shuffled i n a c := by
  obtain ⟨σ, hσ, rfl⟩ := h
  obtain ⟨τ, hτ, rfl⟩ := h'
  refine ⟨σ * τ, fun k hk => ?_, rfl⟩
  rw [Equiv.Perm.mul_apply, hτ k hk, hσ k hk]

theorem Shuffled.mono (h : Shuffled i n a b) (hi : j ≤ i) (hn : n ≤ m) : Shuffled j m a b := by
  obtain ⟨σ, hσ, hb⟩ := h
  exact ⟨σ, fun k hk => hσ k (by omega), hb⟩

/-- The other values stay. -/
theorem Shuffled.outside (h : Shuffled i n a b) (hk : ¬(i ≤ k ∧ k < n)) : b k = a k := by
  obtain ⟨σ, hσ, rfl⟩ := h
  rw [Function.comp_apply, hσ k hk]

/-- Exchanging two values. -/
theorem shuffled_swap (hk : i ≤ k ∧ k < n) (hl : i ≤ l ∧ l < n) :
    Shuffled i n a (a ∘ Equiv.swap k l) := by
  refine ⟨Equiv.swap k l, fun m hm => Equiv.swap_apply_of_ne_of_ne ?_ ?_, rfl⟩
  · rintro rfl
    exact hm hk
  · rintro rfl
    exact hm hl

/-- The values of the slice are the same. -/
theorem Shuffled.perm (h : Shuffled i n a b) : (slice b i n).Perm (slice a i n) := by
  obtain ⟨σ, hσ, rfl⟩ := h
  have hmem (k : ℤ) : (i ≤ k ∧ k < n) ↔ i ≤ σ k ∧ σ k < n := by
    constructor
    · intro hk
      by_contra hnot
      exact hnot ((σ.injective (hσ (σ k) hnot)).symm ▸ hk)
    · intro hk
      by_contra hnot
      rw [hσ k hnot] at hk
      exact hnot hk
  have hid : slice (a ∘ σ) i n = (slice σ i n).map a := by
    rw [slice, slice, List.map_map]
    rfl
  have hid' : slice a i n = (slice id i n).map a := by
    rw [slice, slice, List.map_map]
    rfl
  rw [hid, hid']
  refine List.Perm.map a ((List.perm_ext_iff_of_nodup ?_ ?_).mpr fun x => ?_)
  · exact pairwise_slice.mpr fun k l _ hkl _ heq => hkl.ne (σ.injective heq)
  · exact pairwise_slice.mpr fun k l _ hkl _ heq => hkl.ne heq
  · rw [mem_slice, mem_slice]
    constructor
    · rintro ⟨k, hk, rfl⟩
      exact ⟨σ k, (hmem k).mp hk, rfl⟩
    · rintro ⟨k, hk, rfl⟩
      refine ⟨σ.symm k, (hmem _).mpr ?_, σ.apply_symm_apply k⟩
      rwa [σ.apply_symm_apply]

/-- One value stays as it is. -/
theorem Shuffled.eq_of_singleton (h : Shuffled i (i + 1) a b) : b = a := by
  funext k
  by_cases hk : k = i
  · have hperm := h.perm
    rw [slice_singleton, slice_singleton, List.singleton_perm_singleton] at hperm
    rw [hk, hperm]
  · exact h.outside (by omega)

/-- A value of the shuffled slice. -/
theorem Shuffled.exists_eq (h : Shuffled i n a b) (hk : i ≤ k ∧ k < n) :
    ∃ l, (i ≤ l ∧ l < n) ∧ a l = b k :=
  mem_slice.mp (h.perm.mem_iff.mp (mem_slice.mpr ⟨k, hk, rfl⟩))

end HeapLib
