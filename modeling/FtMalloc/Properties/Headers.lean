import FtMalloc.Runs

/-!
# What the headers say

In every reachable state the counters of a zone are those of its two lists, its cached maximum is
what a scan of the empty spaces finds, and every address and every size in the headers is a multiple
of the alignment. No computation on sizes or counters wraps on the way. A page size is an `int`:
that is the type of `getpagesize`, whose value `sysconf(_SC_PAGESIZE)` gives.
-/

namespace FtMalloc

open HeapLib TiledZone

/-- The counters in the header of a zone are right. -/
structure ZoneView.Accounted (v : ZoneView) : Prop where
  blocksNum : v.blocksNum = v.blocks.length
  remaining : v.remainingSpace = (v.emptySpaces.map fun e => e.size + headerSize).sum
  total : v.totalSpace = v.remainingSpace + (v.blocks.map fun e => e.size + headerSize).sum
  length : v.start + zoneHeaderSize + v.totalSpace = v.stop

/-- Every header of a zone is aligned, with its size, and so is the end of the zone. -/
structure ZoneView.Aligned (v : ZoneView) : Prop where
  blocks : ∀ e ∈ v.blocks, alignment ∣ e.addr ∧ alignment ∣ e.size
  emptySpaces : ∀ e ∈ v.emptySpaces, alignment ∣ e.addr ∧ alignment ∣ e.size
  stop : alignment ∣ v.stop

/-- The cached maximum of a zone with empty spaces is what a scan of them finds. -/
def ZoneView.CacheExact (v : ZoneView) : Prop :=
  v.emptySpaces ≠ [] → ∀ n, n ≤ v.maxFreeSpaceSize ↔ ∃ e ∈ v.emptySpaces, n ≤ e.size

variable {P : Platform} {s : Heap} {A A' : Arena P} {z : TiledZone} {t : Tile}
  {kernel : ℕ → Option ℕ}

/-- What is seen of every well-formed zone is seen in every zone of a reachable state, and again
after every call. -/
theorem Reachable.forall_zone {p : ZoneView → Prop} (h : Reachable P s)
    (hp : ∀ z : TiledZone, z.WellFormed P → p (.ofZone z)) :
    (∀ v ∈ view s, p v) ∧ ∀ (kernel : ℕ → Option ℕ) (c : Call), s.KernelOk P kernel →
      wp (c.run P kernel) (fun _ s' => ∀ v ∈ view s', p v) s := by
  have hstate {s : Heap} {A : Arena P} (hA : Holds s A) : ∀ v ∈ view s, p v := by
    intro v hv
    obtain ⟨z, hz, rfl⟩ := (hA.rep.mem_view A.spread).mp hv
    exact hp z (A.wf z hz)
  obtain ⟨A, hA⟩ := h.exists_holds
  refine ⟨hstate hA, fun kernel c hk => wp_mono (hA.wp_call hk c) ?_⟩
  intro r s' hpost
  obtain ⟨A', calls, old, new, heffect⟩ := hpost
  exact hstate heffect.holds

/-! ## Counters -/

/-- The counters of a well-formed zone are right. -/
theorem TiledZone.WellFormed.accounted (hz : z.WellFormed P) (hpage : P.IntPages) :
    (ZoneView.ofZone z).Accounted where
  blocksNum := by
    have hlt := hz.length_blocks_lt hpage
    change z.blocks.length % 2 ^ 32 = ((useds z.tiles).map RegionView.ofTile).length
    rw [Nat.mod_eq_of_lt (Nat.lt_of_succ_lt hlt), blocks, List.length_map, List.length_map]
  remaining := by
    change z.remaining = (((frees z.tiles).map RegionView.ofTile).map _).sum
    rw [List.map_map]
    rfl
  total := by
    have hspace := hz.laid.remaining_add_occupied
    change z.len - zoneHeaderSize = z.remaining + (((useds z.tiles).map RegionView.ofTile).map _).sum
    rw [List.map_map]
    exact hspace.symm
  length := by
    have hroom := hz.laid.room
    change z.addr + zoneHeaderSize + (z.len - zoneHeaderSize) = z.addr + z.len
    simp only [zoneHeaderSize]
    omega

/-- In every reachable state `blocks_num` is the length of the block list, `remaining_space` is the
sum over the empty spaces, and both lists together make up `total_space`, the length of the zone
without its header. -/
theorem spaces_accounted (hpage : P.IntPages) (h : Reachable P s) : ∀ v ∈ view s, v.Accounted :=
  (h.forall_zone fun _ hz => hz.accounted hpage).1

/-- A block that has grown backwards and given a part back. -/
theorem spaces_accounted_witness : ∃ s, Reachable .unlimited s ∧
    (∃ v ∈ view s, v.blocks.length = 2 ∧ v.emptySpaces.length = 2) ∧
    ∀ v ∈ view s, v.Accounted := by
  obtain ⟨s, A, h, hA, hzones⟩ := exists_reachable (P := .unlimited) 65536 (.malloc 100)
    [.malloc 48, .malloc 32, .free 65648, .realloc 65792 64] (by decide) (by decide) (by decide)
    (by decide) (by decide)
  refine ⟨s, h, ?_, spaces_accounted (by unfold Platform.IntPages; decide) h⟩
  rw [hA.rep.view_eq A.spread, hzones]
  decide +kernel

/-! ## Arithmetic -/

/-- The products that give the lengths of zones do not wrap. -/
theorem Platform.IntPages.zoneSizes (hpage : P.IntPages) :
    P.tinyZoneSize = P.pagesize * 6 ∧ P.smallZoneSize = P.tinyZoneSize * 16 := by
  have hlt : P.pagesize < 2 ^ 31 := hpage
  have htiny : P.tinyZoneSize = P.pagesize * 6 := Nat.mod_eq_of_lt (by omega)
  exact ⟨htiny, Nat.mod_eq_of_lt (by omega)⟩

/-- Up to every reachable state, and in every call made there with any arguments, no `size_t` and no
`unsigned int` computation of the allocator wraps. -/
theorem arithmetic_never_wraps (hpage : P.IntPages) (h : Reachable P s) :
    s.wrapped = false ∧
    (∀ (kernel : ℕ → Option ℕ) (c : Call), s.KernelOk P kernel →
      wp (c.run P kernel) (fun _ s' => s'.wrapped = false) s) ∧
    P.tinyZoneSize = P.pagesize * 6 ∧ P.smallZoneSize = P.tinyZoneSize * 16 := by
  obtain ⟨A, hA⟩ := h.exists_holds
  refine ⟨hA.unwrapped hpage, fun kernel c hk => wp_mono (hA.wp_call hk c) ?_, hpage.zoneSizes⟩
  intro r s' hpost
  obtain ⟨A', calls, old, new, heffect⟩ := hpost
  exact heffect.holds.unwrapped hpage

/-- The block of a `LARGE` zone is asked to grow to `SIZE_MAX` bytes. -/
theorem arithmetic_never_wraps_witness : ∃ s, Reachable .unlimited s ∧
    (∃ v ∈ view s, v.type = EType.large.code) ∧ s.wrapped = false ∧
    wp ((Call.realloc 65648 sizeMax).run .unlimited fun _ => none)
      (fun _ s' => s'.wrapped = false) s := by
  obtain ⟨s, A, h, hA, hzones⟩ := exists_reachable (P := .unlimited) 65536 (.malloc 5000) []
    (by decide) (by decide) (by decide) (by decide) (by decide)
  have hk : s.KernelOk .unlimited fun _ => none := fun _ _ hans => by cases hans
  have hall := arithmetic_never_wraps (by unfold Platform.IntPages; decide) h
  refine ⟨s, h, ?_, hall.1, hall.2.1 _ _ hk⟩
  rw [hA.rep.view_eq A.spread, hzones]
  decide +kernel

/-! ## The cached maximum -/

/-- The cached maximum of a well-formed zone is exact. -/
theorem TiledZone.WellFormed.cacheExact (hz : z.WellFormed P) : (ZoneView.ofZone z).CacheExact := by
  intro hne n
  have hfrees : frees z.tiles ≠ [] := fun hnil => hne (emptySpaces_ofZone_eq_nil.mpr hnil)
  change n ≤ z.cache ↔ ∃ e ∈ (frees z.tiles).map RegionView.ofTile, n ≤ e.size
  rw [hz.cache hfrees, le_largest_iff hfrees]
  constructor
  · rintro ⟨t, ht, hn⟩
    exact ⟨.ofTile t, List.mem_map_of_mem ht, hn⟩
  · rintro ⟨e, he, hn⟩
    obtain ⟨t, ht, rfl⟩ := List.mem_map.mp he
    exact ⟨t, ht, hn⟩

/-- In every reachable state, and after every call made there, the cached maximum of a zone with
empty spaces reaches `n` exactly when some empty space does. -/
theorem cached_maximum_exact (h : Reachable P s) : (∀ v ∈ view s, v.CacheExact) ∧
    ∀ (kernel : ℕ → Option ℕ) (c : Call), s.KernelOk P kernel →
      wp (c.run P kernel) (fun _ s' => ∀ v ∈ view s', v.CacheExact) s :=
  h.forall_zone fun _ hz => hz.cacheExact

/-- A block that grows over the largest empty space behind it, where a smaller one is left. -/
theorem cached_maximum_exact_witness : ∃ s, Reachable .unlimited s ∧
    (∃ v ∈ view s, v.emptySpaces.map RegionView.size = [48, 24224]) ∧
    (∀ v ∈ view s, v.CacheExact) ∧
    wp ((Call.realloc 65808 160).run .unlimited fun _ => none)
      (fun _ s' => ∀ v ∈ view s', v.CacheExact) s := by
  obtain ⟨s, A, h, hA, hzones⟩ := exists_reachable (P := .unlimited) 65536 (.malloc 48)
    [.malloc 48, .malloc 48, .free 65648] (by decide) (by decide) (by decide) (by decide)
    (by decide)
  have hk : s.KernelOk .unlimited fun _ => none := fun _ _ hans => by cases hans
  have hall := cached_maximum_exact h
  refine ⟨s, h, ?_, hall.1, hall.2 _ _ hk⟩
  rw [hA.rep.view_eq A.spread, hzones]
  decide +kernel

/-! ## Alignment -/

/-- Every header of a framed zone is aligned. -/
theorem TiledZone.Framed.tiles_aligned (hz : z.Framed P) :
    (∀ t ∈ z.tiles, alignment ∣ t.addr) ∧ alignment ∣ z.addr + z.len := by
  have haddr : alignment ∣ z.addr := P.alignment_dvd.trans hz.page
  refine hz.laid.tiled.dvd (Nat.dvd_add haddr (by decide)) (by decide) fun t ht => ?_
  exact (hz.laid.grain t ht).2

/-- A framed zone is aligned. -/
theorem TiledZone.Framed.aligned (hz : z.Framed P) : (ZoneView.ofZone z).Aligned where
  blocks := by
    intro e he
    obtain ⟨t, ht, rfl⟩ := List.mem_map.mp he
    have hmem := (mem_useds.mp ht).1
    exact ⟨hz.tiles_aligned.1 t hmem, (hz.laid.grain t hmem).2⟩
  emptySpaces := by
    intro e he
    obtain ⟨t, ht, rfl⟩ := List.mem_map.mp he
    have hmem := (mem_frees.mp ht).1
    exact ⟨hz.tiles_aligned.1 t hmem, (hz.laid.grain t hmem).2⟩
  stop := hz.tiles_aligned.2

/-- The payload of a live block is aligned. -/
theorem Arena.payload_aligned (A : Arena P) (ht : t ∈ A.live) : alignment ∣ t.addr + headerSize := by
  obtain ⟨z, hz, htz⟩ := ht
  exact Nat.dvd_add ((A.wf z hz).toFramed.tiles_aligned.1 t (mem_live.mp htz).1) (by decide)

/-- In every reachable state all headers, sizes and ends of zones are aligned, and so is every
pointer that a call returns. -/
theorem pointers_aligned (h : Reachable P s) :
    (∀ v ∈ view s, v.Aligned) ∧ ∀ (kernel : ℕ → Option ℕ) (c : Call), s.KernelOk P kernel →
      wp (c.run P kernel) (fun r s' => (r ≠ null → alignment ∣ r) ∧ ∀ v ∈ view s', v.Aligned) s := by
  have hstate {s : Heap} {A : Arena P} (hA : Holds s A) : ∀ v ∈ view s, v.Aligned := by
    intro v hv
    obtain ⟨z, hz, rfl⟩ := (hA.rep.mem_view A.spread).mp hv
    exact (A.wf z hz).toFramed.aligned
  obtain ⟨A, hA⟩ := h.exists_holds
  refine ⟨hstate hA, fun kernel c hk => wp_mono (hA.wp_grant hk c) ?_⟩
  rintro r s' ⟨A', calls, old, new, heffect, hgrants⟩
  refine ⟨fun hne => ?_, hstate heffect.holds⟩
  rcases hgrants with ⟨hnull, -⟩ | ⟨t, rfl, rfl, -⟩
  · exact absurd hnull hne
  · exact A'.payload_aligned (heffect.turn.live ▸ .inl rfl)

/-- A request whose size `align_size` leaves alone, next to a block of an odd size. -/
theorem pointers_aligned_witness : ∃ s, Reachable .unlimited s ∧ (∀ v ∈ view s, v.Aligned) ∧
    wp ((Call.realloc 65648 (2 ^ 64 - 7)).run .unlimited fun _ => none)
      (fun r s' => (r ≠ null → alignment ∣ r) ∧ ∀ v ∈ view s', v.Aligned) s := by
  obtain ⟨s, A, h, hA, hzones⟩ := exists_reachable (P := .unlimited) 65536 (.malloc 101)
    [.malloc 33] (by decide) (by decide) (by decide) (by decide) (by decide)
  have hk : s.KernelOk .unlimited fun _ => none := fun _ _ hans => by cases hans
  have hall := pointers_aligned h
  exact ⟨s, h, hall.1, hall.2 _ _ hk⟩

end FtMalloc
