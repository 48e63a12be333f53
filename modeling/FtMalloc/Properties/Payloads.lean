import FtMalloc.Runs

/-!
# What calls do to payloads

No call touches a live block other than the one of its pointer argument, and `realloc` carries over
the bytes of the block that it resizes or moves, by copies that may overlap.
-/

namespace FtMalloc

open HeapLib TiledZone

variable {P : Platform} {s : Heap} {A : Arena P} {kernel : ℕ → Option ℕ} {b n d size : ℕ}

/-! ## Copies -/

/-- `ft_memmove` between any two mapped ranges, wherever they lie: the destination holds the bytes
that the source held before, and no other byte changes. -/
theorem memmove_overlapping {dest src : ℕ} (hdest : dest ≠ null) (hwrap : dest + n ≤ 2 ^ 64)
    (hvd : s.Valid dest n) (hvs : s.Valid src n) :
    wp (ftMemmove dest src n) (fun r s' => r = dest ∧ (∃ m, s' = s.withMem m) ∧
      (∀ i < n, s'.mem (dest + i) = s.mem (src + i)) ∧
      ∀ x, ¬(dest ≤ x ∧ x < dest + n) → s'.mem x = s.mem x) s := by
  have hpos : dest ≠ 0 := hdest
  apply wp_mono (wp_ftMemmove hvd hvs hpos (by omega))
  intro r s' hpost
  obtain ⟨hr, rfl⟩ := hpost
  refine ⟨hr, ⟨_, rfl⟩, fun i hi => moved_apply hi, fun x hx => ?_⟩
  exact moved_apply_of_outside (by omega)

/-- A copy to an address inside the source, as a block that grows backwards makes it. -/
theorem memmove_overlapping_witness : ∃ s : Heap, s.Valid 65536 48 ∧
    wp (ftMemmove 65536 65552 32) (fun r s' => r = 65536 ∧ (∃ m, s' = s.withMem m) ∧
      (∀ i < 32, s'.mem (65536 + i) = s.mem (65552 + i)) ∧
      ∀ x, ¬(65536 ≤ x ∧ x < 65536 + 32) → s'.mem x = s.mem x) s := by
  let s : Heap := { Heap.blank with mem := fun x => .ofNat x, mapped := fun _ => true }
  have hv : ∀ a n, s.Valid a n := fun a n i hi => rfl
  exact ⟨s, hv _ _, memmove_overlapping (by decide) (by decide) (hv _ _) (hv _ _)⟩

/-! ## Calls -/

/-- A live block and its payload are mapped. -/
theorem Holds.valid_live (h : Holds s A) (hlive : Live s b n) : s.Valid b (headerSize + n) := by
  obtain ⟨z, hz, ht⟩ := (h.rep.live_iff A.spread).mp hlive
  have hin := A.live_inside hz ht
  simp only [Tile.stop, headerSize] at *
  exact (h.rep.valid hz).sub (by omega) (by omega)

/-- Every call leaves every live block other than the block of its pointer argument live, with its
size, mapped, and with the contents of its payload. -/
theorem call_frames_live (h : Reachable P s) (hk : s.KernelOk P kernel) (c : Call)
    (hlive : Live s b n) (hptr : c.ptr ≠ b + headerSize) :
    wp (c.run P kernel) (fun _ s' => Live s' b n ∧ s'.Valid b (headerSize + n) ∧
      ∀ i < n, s'.mem (b + headerSize + i) = s.mem (b + headerSize + i)) s := by
  obtain ⟨A, hA⟩ := h.exists_holds
  have ht := (hA.rep.live_iff A.spread).mp hlive
  apply wp_mono (hA.wp_call hk c)
  intro r s' hr
  obtain ⟨A', calls, old, new, heffect⟩ := hr
  have hold : (⟨b, n, true⟩ : Tile) ∉ old := fun hmem => hptr (heffect.gone _ hmem).2
  have ht' : (⟨b, n, true⟩ : Tile) ∈ A'.live := by
    rw [heffect.turn.live]
    exact .inr ⟨ht, hold⟩
  have hlive' := (heffect.holds.rep.live_iff A'.spread).mpr ht'
  have hkeep := heffect.became.spared.content ht ht' rfl (Nat.le_refl n)
  exact ⟨hlive', heffect.holds.valid_live hlive', fun i hi => hkeep i hi hi⟩

/-- The first of two blocks while the second one grows backwards over the empty space between. -/
theorem call_frames_live_witness : ∃ s, Reachable .unlimited s ∧
    (Live s 65616 112 ∧ Live s 65856 64) ∧
    wp ((Call.realloc 65888 100).run .unlimited fun _ => none) (fun _ s' => Live s' 65616 112 ∧
      s'.Valid 65616 (headerSize + 112) ∧
      ∀ i < 112, s'.mem (65616 + headerSize + i) = s.mem (65616 + headerSize + i)) s := by
  obtain ⟨s, A, h, hA, hzones⟩ := exists_reachable (P := .unlimited) 65536 (.malloc 100)
    [.malloc 64, .malloc 64, .malloc 64, .free 65792] (by decide) (by decide) (by decide)
    (by decide) (by decide)
  have hlive : Live s 65616 112 ∧ Live s 65856 64 := by
    rw [Live, Live, hA.rep.view_eq A.spread, hzones]
    decide +kernel
  exact ⟨s, h, hlive, call_frames_live h (fun _ _ hans => by cases hans) _ hlive.1 (by decide)⟩

/-- `realloc` of a live block with a new size that is not zero returns null, or the payload of a
live block of at least the new size that starts with the bytes of the old one. -/
theorem realloc_preserves (h : Reachable P s) (hk : s.KernelOk P kernel) (hlive : Live s b d)
    (hsize : 0 < size) :
    wp (realloc P kernel (b + headerSize) size) (fun q s' => q ≠ null →
      ∃ b' d', q = b' + headerSize ∧ Live s' b' d' ∧ size ≤ d' ∧
        ∀ i < min d (roundUp size), s'.mem (q + i) = s.mem (b + headerSize + i)) s := by
  obtain ⟨A, hA⟩ := h.exists_holds
  have ht := (hA.rep.live_iff A.spread).mp hlive
  have hserved := A.realloc_served (hA.rep.kernelFresh A.spread hk) ht hsize
  apply wp_mono (hA.rep.wp_realloc A hA.unlocked hk)
  intro q s' hq hne
  obtain ⟨hres, hbecame, -, hcontent⟩ := hq
  change A.Served _ _ (Zones.realloc P kernel (b + headerSize) size A.zones) at hserved
  generalize Zones.realloc P kernel (b + headerSize) size A.zones = o at hserved hres hbecame
  cases hserved with
  | refused => exact absurd hres hne
  | @block A' u calls hfit hturn =>
    have hu : u ∈ A'.live := by
      rw [hturn.live]
      exact .inl rfl
    have hself : (⟨u.addr, u.size, true⟩ : Tile) = u := by
      obtain ⟨z, -, hz⟩ := hu
      rw [← (mem_live.mp hz).2]
    refine ⟨u.addr, u.size, hres, ?_, (le_roundUp size).trans hfit, fun i hi => ?_⟩
    · refine (hbecame.rep.live_iff A'.spread).mpr ?_
      rw [hself]
      exact hu
    · exact hcontent _ ht rfl hsize hne i (lt_min_iff.mp hi).1 (lt_min_iff.mp hi).2

/-- A block that grows backwards: the two payloads overlap. -/
theorem realloc_preserves_witness : ∃ s, Reachable .unlimited s ∧ Live s 65856 64 ∧
    wp (realloc .unlimited (fun _ => none) (65856 + headerSize) 100) (fun q s' => q ≠ null →
      ∃ b' d', q = b' + headerSize ∧ Live s' b' d' ∧ 100 ≤ d' ∧
        ∀ i < min 64 (roundUp 100), s'.mem (q + i) = s.mem (65856 + headerSize + i)) s := by
  obtain ⟨s, A, h, hA, hzones⟩ := exists_reachable (P := .unlimited) 65536 (.malloc 100)
    [.malloc 64, .malloc 64, .malloc 64, .free 65792] (by decide) (by decide) (by decide)
    (by decide) (by decide)
  have hlive : Live s 65856 64 := by
    rw [Live, hA.rep.view_eq A.spread, hzones]
    decide +kernel
  exact ⟨s, h, hlive, realloc_preserves h (fun _ _ hans => by cases hans) hlive (by decide)⟩

end FtMalloc
