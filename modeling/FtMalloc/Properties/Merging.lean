import FtMalloc.Observe

/-!
# What `merge_empty_spaces` does to any free list

The list need not come from a zone: its elements are in address order and do not overlap, and the
gaps between them are arbitrary. One pass closes exactly the gaps below `MIN_SPLIT_SIZE`, chains of
them included, and a second pass finds nothing to do.
-/

namespace FtMalloc

open HeapLib

variable {s : Heap} {m : Memory} {S : Set ℕ} {c zone : ℕ} {fs : List Tile}

/-- A list has fewer nodes than a loop has rounds. -/
theorem FreeListAt.length_lt (h : FreeListAt s c fs) : fs.length < 2 ^ 64 := by
  have hlt := h.placed.length_lt
  rwa [List.length_map] at hlt

/-- A change away from the head cell and the headers keeps a list. -/
theorem FreeListAt.agreeOff (h : FreeListAt s c fs) (hS : AgreeOff S s.mem m)
    (hoff : ∀ x ∈ listBytes c (fs.map Tile.addr), x ∉ S) : FreeListAt (s.withMem m) c fs where
  list := h.list.agreeOff hS fun x hx => hoff x (by
    rcases hx with hx | ⟨a, ha, hx, hx'⟩
    · exact .inl hx
    · simp only [blockLinks_prev, blockLinks_next] at hx hx'
      exact .inr ⟨a, ha, by omega, by omega⟩)
  data := h.data.agreeOff hS fun x hx t ht hxt =>
    hoff x (.inr ⟨t.addr, List.mem_map_of_mem ht, hxt.1, by omega⟩) hx
  placed := h.placed
  sorted := h.sorted
  bound := h.bound
  valid := h.valid

/-- A list away from the zone header can be gone through. -/
theorem FreeListAt.scannable (h : FreeListAt s (zone + 56) fs) (hv : s.Valid zone 80)
    (hoff : ∀ f ∈ fs, f.addr + 32 ≤ zone ∨ zone + 80 ≤ f.addr) : Scannable s zone fs where
  header := hv
  list := h.list
  data := h.data
  valid := h.valid
  node := by
    intro f hf
    have hpos := (h.placed.pos f.addr (List.mem_map_of_mem hf)).1
    have hstop := h.bound f hf
    simp only [Tile.stop] at hstop
    exact ⟨Nat.ne_of_gt hpos, by omega⟩
  off := by
    intro f hf
    have := hoff f hf
    omega

/-- Refreshing the cached maximum keeps the list. -/
theorem FreeListAt.refresh (h : FreeListAt s (zone + 56) fs)
    (hoff : ∀ f ∈ fs, f.addr + 32 ≤ zone ∨ zone + 80 ≤ f.addr) :
    FreeListAt (s.withMem (refreshedMem s.mem zone fs)) (zone + 56) fs := by
  rw [refreshedMem]
  split
  · exact h
  · have hS : AgreeOff {x | zone + 40 ≤ x ∧ x < zone + 48} s.mem
        (setWord s.mem (zone + 40) (largest fs)) :=
      (AgreeOff.refl _ _).write fun x hx hx' => ⟨hx, hx'⟩
    refine h.agreeOff hS ?_
    rintro x (hx | ⟨a, ha, hx, hx'⟩) ⟨hxz, hxz'⟩
    · omega
    · obtain ⟨f, hf, rfl⟩ := List.mem_map.mp ha
      have := hoff f hf
      omega

/-- The spaces that survive a merge are where they were, away from the zone header. -/
theorem mergeGaps_off (hoff : ∀ f ∈ fs, f.addr + 32 ≤ zone ∨ zone + 80 ≤ f.addr) :
    ∀ f ∈ mergeGaps 32 48 fs, f.addr + 32 ≤ zone ∨ zone + 80 ≤ f.addr := by
  intro f hf
  have haddr := map_addr_mergeGaps_sublist.subset (List.mem_map_of_mem hf)
  obtain ⟨e, he, heq⟩ := List.mem_map.mp haddr
  exact heq ▸ hoff e he

/-- `merge_empty_spaces` on any free list of a zone. -/
theorem FreeListAt.wp_mergeEmptySpaces (h : FreeListAt s (zone + 56) fs) (hz : zone ≠ null)
    (hv : s.Valid zone 80) (hoff : ∀ f ∈ fs, f.addr + 32 ≤ zone ∨ zone + 80 ≤ f.addr) :
    wp (mergeEmptySpaces zone) (fun _ s' => ∃ m,
      FreeListAt (s.withMem m) (zone + 56) (mergeGaps 32 48 fs) ∧
      s' = s.withMem (refreshedMem m zone (mergeGaps 32 48 fs))) s := by
  rw [mergeEmptySpaces, wp_bind, (h.scannable hv hoff).wp_getEmpties, wp_bind]
  refine wp_mono (h.wp_mergeLoop h.length_lt) fun _ s₁ hpost => ?_
  obtain ⟨h₁, hw⟩ := hpost
  have hscan := h₁.scannable (hw.valid.mpr hv) (mergeGaps_off hoff)
  refine wp_mono (hscan.wp_updateEmptyStats hz h₁.length_lt) fun _ s₂ hpost => ?_
  subst hpost
  obtain ⟨m, rfl, -⟩ := hw
  exact ⟨m, h₁, rfl⟩

/-- `merge_empty_spaces` stores nothing where all gaps are wide and the cached maximum is right. -/
theorem FreeListAt.wp_mergeEmptySpaces_again (h : FreeListAt s (zone + 56) fs) (hz : zone ≠ null)
    (hv : s.Valid zone 80) (hoff : ∀ f ∈ fs, f.addr + 32 ≤ zone ∨ zone + 80 ≤ f.addr)
    (hchain : fs.IsChain fun e f => e.stop 32 + 48 ≤ f.addr)
    (hcache : refreshedMem s.mem zone fs = s.mem) :
    wp (mergeEmptySpaces zone) (fun _ s' => s' = s) s := by
  have hscan := h.scannable hv hoff
  rw [mergeEmptySpaces, wp_bind, hscan.wp_getEmpties, wp_bind]
  refine wp_mono (h.wp_mergeLoop_of_isChain h.length_lt hchain) fun _ s₁ hpost => ?_
  subst hpost
  refine wp_mono (hscan.wp_updateEmptyStats hz h.length_lt) fun _ s₂ hpost => ?_
  rw [hpost, hcache, withMem_self]

/-- On every address-ordered list of disjoint empty spaces, whatever the gaps, `merge_empty_spaces`
terminates and leaves a list with gaps of at least `MIN_SPLIT_SIZE` whose elements keep their
addresses and cover the old ones and the narrower gaps; doing it again changes nothing. -/
theorem merge_normalises (hz : zone ≠ null) (hv : s.Valid zone zoneHeaderSize)
    (h : FreeListAt s (zone + 56) fs)
    (hoff : ∀ f ∈ fs, f.addr + headerSize ≤ zone ∨ zone + zoneHeaderSize ≤ f.addr) :
    wp (mergeEmptySpaces zone) (fun _ s' => ∃ gs, FreeListAt s' (zone + 56) gs ∧
      gs.IsChain (fun e f => e.stop headerSize + minSplitSize ≤ f.addr) ∧
      (gs.map Tile.addr).Sublist (fs.map Tile.addr) ∧
      extent headerSize gs = extent headerSize fs ∪ narrowGaps headerSize minSplitSize fs ∧
      wp (mergeEmptySpaces zone) (fun _ s'' => s'' = s') s') s := by
  apply wp_mono (h.wp_mergeEmptySpaces hz hv hoff)
  intro _ s' hpost
  obtain ⟨m, h₁, rfl⟩ := hpost
  have hoff₁ := mergeGaps_off hoff
  have hchain : (mergeGaps 32 48 fs).IsChain fun e f => e.stop 32 + 48 ≤ f.addr :=
    isChain_mergeGaps h.sorted
  have h₂ := h₁.refresh hoff₁
  exact ⟨mergeGaps 32 48 fs, h₂, hchain, map_addr_mergeGaps_sublist, extent_mergeGaps h.sorted,
    h₂.wp_mergeEmptySpaces_again hz hv hoff₁ hchain refreshedMem_refreshedMem⟩

/-- Four spaces: the first two gaps are closed one after the other, the last one is too wide. -/
theorem merge_normalises_witness : ∃ (s : Heap) (fs : List Tile), FreeListAt s (4096 + 56) fs ∧
    fs.map Tile.addr = [4176, 4224, 4288, 4384] ∧
    wp (mergeEmptySpaces 4096) (fun _ s' => ∃ gs, FreeListAt s' (4096 + 56) gs ∧
      gs.IsChain (fun e f => e.stop headerSize + minSplitSize ≤ f.addr) ∧
      (gs.map Tile.addr).Sublist (fs.map Tile.addr) ∧
      extent headerSize gs = extent headerSize fs ∪ narrowGaps headerSize minSplitSize fs ∧
      wp (mergeEmptySpaces 4096) (fun _ s'' => s'' = s') s') s := by
  let cells : List (ℕ × ℕ) := [(4152, 4176), (4176, 16), (4184, 4224), (4200, 4224), (4224, 16),
    (4232, 4272), (4240, 4176), (4248, 4288), (4288, 16), (4296, 4336), (4304, 4224), (4312, 4384),
    (4384, 16), (4392, 4432), (4400, 4288)]
  let fs : List Tile := [⟨4176, 16, false⟩, ⟨4224, 16, false⟩, ⟨4288, 16, false⟩, ⟨4384, 16, false⟩]
  let s : Heap := ⟨cells.foldl (fun m c => setWord m c.1 c.2) fun _ => 0, fun _ => true, null,
    false, [], false⟩
  have hv : ∀ a n, s.Valid a n := fun a n i hi => rfl
  have hlist : FreeListAt s (4096 + 56) fs := by
    refine ⟨⟨by decide +kernel, ?_⟩, ?_, ⟨by decide +kernel, by decide +kernel, by decide +kernel⟩,
      by decide +kernel, by decide +kernel, fun f _ => hv f.addr 32⟩
    · exact ⟨by decide +kernel, by decide +kernel, by decide +kernel, by decide +kernel,
        by decide +kernel, by decide +kernel, by decide +kernel, by decide +kernel, trivial⟩
    · change ∀ t ∈ fs, word s.mem t.addr = t.size ∧ word s.mem (t.addr + 8) = t.stop 32
      decide +kernel
  exact ⟨s, fs, hlist, rfl, merge_normalises (by decide) (hv _ _) hlist (by decide)⟩

end FtMalloc
