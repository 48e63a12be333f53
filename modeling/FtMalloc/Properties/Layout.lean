import FtMalloc.Runs

/-!
# The layout of the zones

In every reachable state the blocks and the empty spaces of a zone partition the bytes behind the
zone header, live blocks are disjoint, and no two empty spaces touch: a live block lies between any
two of them.
-/

namespace FtMalloc

open HeapLib TiledZone

/-- Regions, in this order, cover exactly the interval from `lo` to `hi`, each with its header and
with room for an aligned datum. -/
def Partition : ℕ → List RegionView → ℕ → Prop
  | lo, [], hi => lo = hi
  | lo, e :: es, hi => e.addr = lo ∧ e.stop = e.addr + headerSize + e.size ∧ alignment ≤ e.size ∧
      Partition e.stop es hi

/-- Blocks and empty spaces of a zone, merged in address order. -/
def ZoneView.regions (z : ZoneView) : List RegionView :=
  z.blocks.merge z.emptySpaces fun e f => decide (e.addr ≤ f.addr)

/-- The blocks and the empty spaces of a zone partition its bytes behind the zone header. -/
structure ZoneView.Partitioned (z : ZoneView) : Prop where
  partition : Partition (z.addr + zoneHeaderSize) z.regions z.stop
  apart : ∀ e ∈ z.blocks, ∀ f ∈ z.emptySpaces, e.addr ≠ f.addr
  covered : ∀ x, z.addr + zoneHeaderSize ≤ x → x < z.stop →
    ∃! e, (e ∈ z.blocks ∨ e ∈ z.emptySpaces) ∧ e.addr ≤ x ∧ x < e.stop

/-- Distinct live blocks, headers included, share no byte. -/
def LiveDisjoint (s : Heap) : Prop :=
  ∀ b n c k, Live s b n → Live s c k → (b, n) ≠ (c, k) →
    b + headerSize + n ≤ c ∨ c + headerSize + k ≤ b

variable {P : Platform} {s : Heap} {m : Memory} {z : TiledZone} {A : Arena P} {lo hi num rem : ℕ}
  {ts : List Tile} {e : RegionView}

/-- A tiling is seen as a partition. -/
theorem partition_of_tiled (ht : Tiled headerSize lo ts hi) (hg : ∀ t ∈ ts, alignment ≤ t.size) :
    Partition lo (ts.map RegionView.ofTile) hi := by
  induction ts generalizing lo with
  | nil => exact ht
  | cons t ts ih =>
    exact ⟨ht.1, rfl, hg t List.mem_cons_self,
      ih ht.2 fun u hu => hg u (List.mem_cons_of_mem _ hu)⟩

/-- The merged regions of a laid zone are its tiles. -/
theorem TiledZone.Laid.regions_eq (hz : z.Laid) :
    (ZoneView.ofZone z).regions = z.tiles.map RegionView.ofTile := by
  have hmap : ((useds z.tiles).merge (frees z.tiles) fun s t => decide (s.addr ≤ t.addr)).map
      RegionView.ofTile = (ZoneView.ofZone z).regions := List.map_merge fun _ _ _ _ => rfl
  rw [hz.tiled.merge_useds_frees (by decide)] at hmap
  exact hmap.symm

/-- The regions of a zone are the views of its tiles. -/
theorem mem_regions : e ∈ (ZoneView.ofZone z).blocks ∨ e ∈ (ZoneView.ofZone z).emptySpaces ↔
    ∃ t ∈ z.tiles, e = RegionView.ofTile t := by
  constructor
  · rintro (he | he)
    · obtain ⟨t, ht, rfl⟩ := List.mem_map.mp he
      exact ⟨t, (mem_useds.mp ht).1, rfl⟩
    · obtain ⟨t, ht, rfl⟩ := List.mem_map.mp he
      exact ⟨t, (mem_frees.mp ht).1, rfl⟩
  · rintro ⟨t, ht, rfl⟩
    cases hu : t.used with
    | true => exact .inl (List.mem_map_of_mem (mem_useds.mpr ⟨ht, hu⟩))
    | false => exact .inr (List.mem_map_of_mem (mem_frees.mpr ⟨ht, hu⟩))

/-- A laid zone is partitioned. -/
theorem TiledZone.Laid.partitioned (hz : z.Laid) : (ZoneView.ofZone z).Partitioned where
  partition := by
    rw [hz.regions_eq]
    exact partition_of_tiled hz.tiled fun t ht => (hz.grain t ht).1
  apart := by
    intro e he f hf heq
    obtain ⟨t, ht, rfl⟩ := List.mem_map.mp he
    obtain ⟨u, hu, rfl⟩ := List.mem_map.mp hf
    have hd := hz.geometry.disjoint t.addr (List.mem_map_of_mem ht)
    exact hd (List.mem_map.mpr ⟨u, hu, heq.symm⟩)
  covered := by
    intro x hlo hhi
    obtain ⟨t, ht, hxt⟩ := hz.tiled.exists_mem hlo hhi
    refine ⟨.ofTile t, ⟨mem_regions.mpr ⟨t, ht, rfl⟩, hxt⟩, ?_⟩
    rintro e ⟨he, hxe⟩
    obtain ⟨u, hu, rfl⟩ := mem_regions.mp he
    by_contra hne
    have hut : u ≠ t := fun heq => hne (heq ▸ rfl)
    have := hz.tiled.apart hu ht hut
    simp only [RegionView.ofTile] at hxe
    omega

/-- Distinct live blocks of an arena are disjoint. -/
theorem Holds.liveDisjoint (h : Holds s A) : LiveDisjoint s := by
  intro b n c k hb hc hne
  have ht := (h.rep.live_iff A.spread).mp hb
  have hu := (h.rep.live_iff A.spread).mp hc
  have htu : (⟨b, n, true⟩ : Tile) ≠ ⟨c, k, true⟩ := fun heq => by
    cases heq
    exact hne rfl
  have hpos : ∀ x, b ≤ x → x < b + 32 + n → ¬(c ≤ x ∧ x < c + 32 + k) :=
    fun x hlo hhi => A.live_apart ht hu htu (x := x) hlo hhi
  have h₁ := hpos b
  have h₂ := hpos c
  simp only [headerSize]
  omega

/-- In every reachable state the blocks and the empty spaces of each zone partition the bytes
behind its header, and live blocks are disjoint. -/
theorem reachable_partitioned (h : Reachable P s) :
    (∀ z ∈ view s, z.Partitioned) ∧ LiveDisjoint s := by
  obtain ⟨A, hA⟩ := h.exists_holds
  refine ⟨fun v hv => ?_, hA.liveDisjoint⟩
  obtain ⟨z, hz, rfl⟩ := (hA.rep.mem_view A.spread).mp hv
  exact (A.wf z hz).laid.partitioned

/-- After two allocations and a release. -/
theorem reachable_partitioned_witness : ∃ s, Reachable .unlimited s ∧
    (∃ z ∈ view s, z.blocks = [⟨65760, 64, 65856⟩] ∧ z.emptySpaces.length = 2) ∧
    (∀ z ∈ view s, z.Partitioned) ∧ LiveDisjoint s := by
  obtain ⟨s, A, h, hA, hzones⟩ := exists_reachable (P := .unlimited) 65536
    (.malloc 100) [.malloc 64, .free 65648] (by decide) (by decide) (by decide)
    (by decide) (by decide)
  refine ⟨s, h, ?_, reachable_partitioned h⟩
  rw [hA.rep.view_eq A.spread, hzones]
  decide +kernel

/-! ## Empty spaces -/

/-- Consecutive empty spaces of a zone have a live block between them, so at least
`MIN_SPLIT_SIZE` bytes. -/
def ZoneView.Separated (z : ZoneView) : Prop :=
  z.emptySpaces.IsChain fun a b => a.stop + minSplitSize ≤ b.addr ∧
    ∃ e ∈ z.blocks, a.stop ≤ e.addr ∧ e.stop ≤ b.addr

/-- The coalesced tiling of a laid zone separates its empty spaces. -/
theorem TiledZone.Laid.separated (hz : z.Laid) (hc : Coalesced z.tiles) :
    (ZoneView.ofZone z).Separated := by
  refine (List.isChain_map RegionView.ofTile).mpr ((hz.tiled.frees_isChain hc).imp ?_)
  rintro a b ⟨u, hu, hau, hub⟩
  have hg := (hz.grain u (mem_useds.mp hu).1).1
  refine ⟨?_, .ofTile u, List.mem_map_of_mem hu, hau, hub⟩
  simp only [RegionView.ofTile, Tile.stop, minSplitSize, headerSize, alignment] at *
  omega

/-- `merge_empty_spaces` separates the empty spaces and keeps every block, whatever empty spaces
touch each other before. -/
theorem ZoneAt.wp_mergeEmptySpaces_view (h : ZoneAt s.mem z num rem z.blocks z.empties)
    (hv : s.Valid z.addr z.len) (hz : z.Laid) :
    wp (mergeEmptySpaces z.addr) (fun _ s' => (viewZone s'.mem z.addr).Separated ∧
      (viewZone s'.mem z.addr).blocks = (viewZone s.mem z.addr).blocks ∧
      ∀ e ∈ (viewZone s.mem z.addr).blocks, ∀ f ∈ (viewZone s'.mem z.addr).emptySpaces,
        e.stop ≤ f.addr ∨ f.stop ≤ e.addr) s := by
  refine wp_mono (h.wp_mergeEmptySpaces hv hz) fun _ s' hpost => ?_
  obtain ⟨-, h'⟩ := hpost
  have haddr : z.coalesced.refresh.addr = z.addr := refresh_addr _
  have hview := h'.viewZone_eq
  rw [haddr] at hview
  have hlaid := hz.coalesced.refresh
  have hc : Coalesced z.coalesced.refresh.tiles := by
    rw [refresh_tiles]
    exact coalesced_coalesce z.tiles
  have hblocks : (ZoneView.ofZone z.coalesced.refresh).blocks = (ZoneView.ofZone z).blocks := by
    simp only [ZoneView.ofZone, refresh_tiles, coalesced_tiles, useds_coalesce]
  rw [hview, h.viewZone_eq]
  refine ⟨hlaid.separated hc, hblocks, fun e he f hf => ?_⟩
  change e ∈ (ZoneView.ofZone z).blocks at he
  rw [← hblocks] at he
  obtain ⟨t, ht, rfl⟩ := List.mem_map.mp he
  obtain ⟨u, hu, rfl⟩ := List.mem_map.mp hf
  refine hlaid.tiled.apart (mem_useds.mp ht).1 (mem_frees.mp hu).1 fun heq => ?_
  have hused := (mem_useds.mp ht).2
  rw [heq, (mem_frees.mp hu).2] at hused
  exact Bool.false_ne_true hused

/-- A zone of a small class is longer than its header. -/
theorem TiledZone.WellFormed.length_gt (hz : z.WellFormed P) (hl : z.type ≠ .large) :
    zoneHeaderSize < z.len := by
  have hroom := hz.laid.room
  have hge := P.pagesize_ge
  have hdvd : P.pagesize ∣ z.len := by
    rcases hz.sized with ⟨-, hlen⟩ | ⟨-, hlen⟩ | hlarge
    · exact hlen ▸ P.dvd_tinyZoneSize
    · exact hlen ▸ P.dvd_smallZoneSize
    · exact absurd hlarge hl
  have := Nat.le_of_dvd (by omega) hdvd
  simp only [zoneHeaderSize]
  omega

/-- No zone is without tiles. -/
theorem TiledZone.WellFormed.tiles_ne_nil (hz : z.WellFormed P) : z.tiles ≠ [] := by
  intro hnil
  by_cases hl : z.type = .large
  · have howned := hz.owned hl
    rw [TiledZone.blocks, hnil] at howned
    cases howned
  · have hlen := hz.length_gt hl
    have htiled := hz.laid.tiled
    rw [hnil] at htiled
    have : z.addr + zoneHeaderSize = z.addr + z.len := htiled
    omega

/-- A zone of a small class without blocks is one empty space. -/
theorem TiledZone.WellFormed.empties_of_blocks_nil (hz : z.WellFormed P) (hl : z.type ≠ .large)
    (hb : (ZoneView.ofZone z).blocks = []) :
    (ZoneView.ofZone z).emptySpaces = [⟨z.addr + zoneHeaderSize,
      (ZoneView.ofZone z).totalSpace - headerSize, z.addr + z.len⟩] ∧
    (ZoneView.ofZone z).remainingSpace = (ZoneView.ofZone z).totalSpace := by
  have hlen := hz.length_gt hl
  have hu : useds z.tiles = [] := List.map_eq_nil_iff.mp hb
  obtain ⟨t, ht, htu⟩ := hz.coalesced.eq_singleton hu hz.tiles_ne_nil
  have htiled := hz.laid.tiled
  rw [ht] at htiled
  have haddr : t.addr = z.addr + zoneHeaderSize := htiled.1
  have hstop : t.stop headerSize = z.addr + z.len := htiled.2
  have hfrees : frees z.tiles = [t] := by
    rw [ht, frees_cons, htu]
    rfl
  have hsize : t.size = z.len - zoneHeaderSize - headerSize := by
    simp only [Tile.stop, headerSize, zoneHeaderSize] at *
    omega
  constructor
  · change (frees z.tiles).map RegionView.ofTile = _
    rw [hfrees, List.map_singleton, RegionView.ofTile, haddr, hstop, hsize]
    rfl
  · change z.remaining = z.len - zoneHeaderSize
    have := hz.laid.remaining_add_occupied
    rw [occupied, hu] at this
    simpa using this

/-- In every reachable state a live block lies between any two empty spaces of a zone, and a zone
of a small class without blocks is one empty space; merging never swallows a block. -/
theorem reachable_coalesced (h : Reachable P s) :
    (∀ v ∈ view s, v.Separated ∧ (v.type ≠ EType.large.code → v.blocks = [] →
      v.emptySpaces = [⟨v.addr + zoneHeaderSize, v.totalSpace - headerSize, v.stop⟩] ∧
      v.remainingSpace = v.totalSpace)) ∧
    ∀ (s : Heap) (z : TiledZone) (num rem : ℕ), z.Laid → s.Valid z.addr z.len →
      ZoneAt s.mem z num rem z.blocks z.empties →
      wp (mergeEmptySpaces z.addr) (fun _ s' => (viewZone s'.mem z.addr).Separated ∧
        (viewZone s'.mem z.addr).blocks = (viewZone s.mem z.addr).blocks ∧
        ∀ e ∈ (viewZone s.mem z.addr).blocks, ∀ f ∈ (viewZone s'.mem z.addr).emptySpaces,
          e.stop ≤ f.addr ∨ f.stop ≤ e.addr) s := by
  obtain ⟨A, hA⟩ := h.exists_holds
  refine ⟨fun v hv => ?_, fun s z num rem hz hv hrep => hrep.wp_mergeEmptySpaces_view hv hz⟩
  obtain ⟨z, hz, rfl⟩ := (hA.rep.mem_view A.spread).mp hv
  have hwf := A.wf z hz
  refine ⟨hwf.laid.separated hwf.coalesced, fun hl hb => ?_⟩
  exact hwf.empties_of_blocks_nil (fun heq => hl (congrArg EType.code heq)) hb

/-- After two blocks have been given back in the order of their addresses. -/
theorem reachable_coalesced_witness : ∃ s, Reachable .unlimited s ∧
    (∃ v ∈ view s, v.blocks = [] ∧ v.type ≠ EType.large.code) ∧
    ∀ v ∈ view s, v.Separated ∧ (v.type ≠ EType.large.code → v.blocks = [] →
      v.emptySpaces = [⟨v.addr + zoneHeaderSize, v.totalSpace - headerSize, v.stop⟩] ∧
      v.remainingSpace = v.totalSpace) := by
  obtain ⟨s, A, h, hA, hzones⟩ := exists_reachable (P := .unlimited) 65536
    (.malloc 100) [.malloc 64, .free 65648, .free 65792] (by decide) (by decide) (by decide)
    (by decide) (by decide)
  refine ⟨s, h, ?_, (reachable_coalesced h).1⟩
  rw [hA.rep.view_eq A.spread, hzones]
  decide +kernel

end FtMalloc
