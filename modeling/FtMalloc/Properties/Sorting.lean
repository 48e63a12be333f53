import FtMalloc.Refine.Sorting

/-!
# When the sorts sort

The indices of `merge_sort` are added before they are halved, which bounds the arrays that it can
sort. `quick_sort` leaves two values alone, and its loop does not end if the pivot is there twice.
-/

namespace FtMalloc

open HeapLib

variable {s : Ints} {p q : ℕ} {i start len : ℤ}

/-- `merge_sort` sorts the first `i` values of an array and changes nothing else but the other
array if and only if there are at most `2 ^ 30` of them. -/
theorem mergeSort_sorts (hpq : p ≠ q) (hi : 0 ≤ i ∧ i < 2 ^ 31) (hp : i ≤ s.size p)
    (hq : i ≤ s.size q) :
    wp (mergeSort p i q) (fun _ s' => s.Within {p, q} 0 i s' ∧ SortedFrom p 0 i s s') s ↔
      i ≤ 2 ^ 30 := by
  have hcopy := wp_copyInts hpq hi.1 hp hq hi.2
  rw [mergeSort, wp_bind]
  constructor
  · intro h
    by_contra hlarge
    obtain ⟨n, s₁, -, ⟨rfl, -⟩, hsplit⟩ := wp_and hcopy h
    have hsum := lt_of_wp_mergeSplit hsplit (Int.le_refl 0) (by omega)
    omega
  · intro hsmall
    refine wp_mono hcopy ?_
    rintro n s₁ ⟨rfl, hwithin, hcopied⟩
    have hcell : s₁.cell p = s.cell p := hwithin.other p fun hmem => hpq hmem
    have hp₁ : s₁.size p = s.size p := congrFun hwithin.size p
    have hq₁ : s₁.size q = s.size q := congrFun hwithin.size q
    refine wp_mono (wp_mergeSplit hpq (Int.le_refl 0) (by omega) (by omega) hsmall
      fun k hk hkn => by rw [hcell, hcopied k hk hkn]) ?_
    rintro _ s₂ ⟨hwithin₂, hsorted⟩
    refine ⟨(hwithin.mono (by simp) (Int.le_refl 0) (Int.le_refl n)).trans hwithin₂,
      hsorted.sorted, ?_⟩
    rw [← hcell]
    exact hsorted.perm

/-- The array `0` has the values `3`, `1`, `2` and the array `1` has room for them. -/
def threeInts : Ints where
  size := fun _ => 3
  cell := fun _ i => if i = 0 then 3 else i

/-- Three values. -/
theorem mergeSort_sorts_witness : wp (mergeSort 0 3 1)
    (fun _ s' => threeInts.Within {0, 1} 0 3 s' ∧ SortedFrom 0 0 3 threeInts s') threeInts ↔
      (3 : ℤ) ≤ 2 ^ 30 :=
  mergeSort_sorts (by decide) (by decide) (by decide) (by decide)

/-- `quick_sort` of the values from `start` up to the last one at `len` sorts them and changes
nothing else if and only if they are two values in order, or not two and all different. -/
theorem quickSort_sorts (h0 : 0 ≤ start) (hstart : start ≤ len + 1) (hp : len < s.size p)
    (hlen : len ≤ 2 ^ 30) : (∃ depth, wp (quickSort depth p start len) (fun _ s' =>
      s.Within {p} start (len + 1) s' ∧ SortedFrom p start (len + 1) s s') s) ↔
    (len - start = 1 → s.cell p start ≤ s.cell p len) ∧
      (1 < len - start → (slice (s.cell p) start (len + 1)).Nodup) := by
  by_cases hlong : 1 < len - start
  · have hpair : len - start = 1 → s.cell p start < s.cell p len := fun htwo => by omega
    constructor
    · rintro ⟨depth, h⟩
      obtain ⟨_, s', -, ⟨-, hsorted⟩, hquick⟩ := wp_quickSort_keeps h h0 hp (by omega)
      refine ⟨fun htwo => by omega, fun _ => hsorted.perm.nodup_iff.mp ?_⟩
      exact pairwise_slice.mpr fun k l hk hkl hl =>
        (hquick.sorted hpair k l hk hkl (by omega)).ne
    · rintro ⟨-, hnodup⟩
      have hsort := wp_quickSort (f := 1) (g := 1) (hnodup hlong) h0 hp hlen (by omega) (by simp)
        (by simp) (Nat.lt_succ_self _)
      refine ⟨_, wp_mono hsort fun _ s' hquick => ⟨hquick.within, ?_, hquick.shuffled.perm⟩⟩
      exact pairwise_slice.mpr fun k l hk hkl hl =>
        (hquick.sorted hpair k l hk hkl (by omega)).le
  · have hshort (depth : ℕ) : wp (quickSort (depth + 1) p start len) (fun _ s' =>
        s.Within {p} start (len + 1) s' ∧ SortedFrom p start (len + 1) s s') s ↔
          (slice (s.cell p) start (len + 1)).Pairwise (· ≤ ·) := by
      rw [wp_quickSort_short (by omega) (by omega), and_iff_right (.refl ..)]
      exact ⟨fun h => h.sorted, fun h => ⟨h, List.Perm.refl _⟩⟩
    have hsorted : (slice (s.cell p) start (len + 1)).Pairwise (· ≤ ·) ↔
        (len - start = 1 → s.cell p start ≤ s.cell p len) := by
      rw [pairwise_slice]
      constructor
      · exact fun h htwo => h start len (Int.le_refl start) (by omega) (by omega)
      · intro h k l hk hkl hl
        obtain rfl : k = start := by omega
        obtain rfl : l = len := by omega
        exact h (by omega)
    rw [and_iff_left fun h => absurd h hlong, ← hsorted]
    constructor
    · rintro ⟨depth | depth, h⟩
      · obtain ⟨_, _, hrun, -⟩ := h
        cases hrun
      · exact (hshort depth).mp h
    · exact fun h => ⟨1, (hshort 0).mpr h⟩

/-- Three different values. -/
theorem quickSort_sorts_witness : (∃ depth, wp (quickSort depth 0 0 2) (fun _ s' =>
      threeInts.Within {0} 0 3 s' ∧ SortedFrom 0 0 3 threeInts s') threeInts) ↔
    ((2 : ℤ) - 0 = 1 → threeInts.cell 0 0 ≤ threeInts.cell 0 2) ∧
      ((1 : ℤ) < 2 - 0 → (slice (threeInts.cell 0) 0 3).Nodup) :=
  quickSort_sorts (by decide) (by decide) (by decide) (by decide)

end FtMalloc
