import FtMalloc.Source.Blocks

/-!
# Copying bytes

`ft_memmove` copies a range correctly for every relative position of source and destination: the
ascending loop never reads a byte it has written when the destination is below the source, and the
descending loop never does otherwise.
-/

namespace FtMalloc

open HeapLib

variable {s : Heap} {m : Memory} {dest src n lo hi i : ℕ}

/-- The memory after the bytes from `lo` to `hi` of a copy have been stored. -/
def movedRange (m : Memory) (dest src lo hi : ℕ) : Memory := fun x =>
  if dest + lo ≤ x ∧ x < dest + hi then m (src + (x - dest)) else m x

/-- The memory after a copy of `n` bytes. -/
def moved (m : Memory) (dest src n : ℕ) : Memory := movedRange m dest src 0 n

/-- A copied byte. -/
theorem moved_apply (hi : i < n) : moved m dest src n (dest + i) = m (src + i) := by
  rw [moved, movedRange, if_pos (by omega), Nat.add_sub_cancel_left]

/-- A byte outside the destination. -/
theorem moved_apply_of_outside {x : ℕ} (hx : x < dest ∨ dest + n ≤ x) :
    moved m dest src n x = m x := by
  rw [moved, movedRange, if_neg (by omega)]

/-- An empty range of bytes. -/
theorem movedRange_self : movedRange m dest src lo lo = m := by
  funext x
  rw [movedRange, if_neg (by omega)]

/-- Copying one byte stores it. -/
theorem wp_copyByte {a b : ℕ} {Q : Unit → Heap → Prop} (ha : s.Valid a 1) (hb : s.Valid b 1) :
    wp (load 1 b >>= fun v => store 1 a v) Q s ↔
      Q () (s.withMem fun x => if x = a then s.mem b else s.mem x) := by
  rw [wp_bind, wp_load hb, wp_store ha]
  have hbyte : writeLE s.mem a 1 (readLE s.mem b 1) =
      fun x => if x = a then s.mem b else s.mem x := by
    funext x
    rw [writeLE]
    by_cases hx : x = a
    · subst hx
      rw [if_pos (by omega), if_pos rfl]
      simp [readLE]
    · rw [if_neg (by omega), if_neg hx]
  rw [hbyte]

/-- The ascending loop with the destination below the source. -/
theorem wp_ftMemcpy (hd : s.Valid dest n) (hs : s.Valid src n) (hlt : dest < src)
    (hn : n < 2 ^ 64) :
    wp (ftMemcpy dest src n) (fun r s' => r = dest ∧ s' = s.withMem (moved s.mem dest src n)) s := by
  rw [ftMemcpy, wp_ite_neg (by simp only [null]; omega)]
  refine wp_forever (fun k i s' => i + k = n ∧ s' = s.withMem (movedRange s.mem dest src 0 i))
    ?_ hn ⟨Nat.zero_add n, by rw [movedRange_self, withMem_self]⟩
  rintro k i s' ⟨hk, rfl⟩
  by_cases hin : n > i
  · rw [wp_ite_pos hin]
    rw [← bind_assoc, wp_bind, wp_copyByte (valid_withMem.mpr (hd.sub (by omega) (by omega)))
      (valid_withMem.mpr (hs.sub (by omega) (by omega))), wp_pure, withMem_withMem]
    refine ⟨k - 1, by omega, by omega, congrArg s.withMem ?_⟩
    funext x
    simp only [withMem_mem, movedRange]
    -- the byte read lies behind everything written so far
    by_cases hx : x = dest + i
    · rw [if_pos hx, if_neg (by omega), if_pos (by omega), hx, Nat.add_sub_cancel_left]
    · rw [if_neg hx]
      by_cases hin' : dest + 0 ≤ x ∧ x < dest + i
      · rw [if_pos hin', if_pos (by omega)]
      · rw [if_neg hin', if_neg (by omega)]
  · rw [wp_ite_neg hin, wp_pure, show n = i by omega]
    exact ⟨rfl, rfl⟩

/-- `ft_memmove` copies the range, whatever the overlap. -/
theorem wp_ftMemmove (hd : s.Valid dest n) (hs : s.Valid src n) (hnull : dest ≠ 0)
    (hn : n < 2 ^ 64) :
    wp (ftMemmove dest src n) (fun r s' => r = dest ∧ s' = s.withMem (moved s.mem dest src n))
      s := by
  rw [ftMemmove, wp_ite_neg (by simp only [null]; omega)]
  by_cases hlt : dest < src
  · rw [wp_ite_pos hlt]
    exact wp_ftMemcpy hd hs hlt hn
  rw [wp_ite_neg hlt]
  refine wp_forever (fun k i s' => i = k ∧ i ≤ n ∧ s' = s.withMem (movedRange s.mem dest src i n))
    ?_ hn ⟨rfl, Nat.le_refl n, by rw [movedRange_self, withMem_self]⟩
  rintro k i s' ⟨rfl, hin, rfl⟩
  by_cases hi : i = 0
  · subst hi
    rw [wp_ite_pos rfl, wp_pure]
    exact ⟨rfl, rfl⟩
  · rw [wp_ite_neg hi, ← bind_assoc, wp_bind,
      wp_copyByte (valid_withMem.mpr (hd.sub (by omega) (by omega)))
      (valid_withMem.mpr (hs.sub (by omega) (by omega))), wp_pure, withMem_withMem]
    refine ⟨i - 1, by omega, rfl, by omega, congrArg s.withMem ?_⟩
    funext x
    simp only [withMem_mem, movedRange]
    -- the byte read lies before everything written so far
    by_cases hx : x = dest + (i - 1)
    · rw [if_pos hx, if_neg (by omega), if_pos (by omega), hx, Nat.add_sub_cancel_left]
    · rw [if_neg hx]
      by_cases hin' : dest + i ≤ x ∧ x < dest + n
      · rw [if_pos hin', if_pos (by omega)]
      · rw [if_neg hin', if_neg (by omega)]

end FtMalloc
