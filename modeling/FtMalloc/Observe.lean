import FtMalloc.Abstract.Growth
import FtMalloc.Refine.Fields
import FtMalloc.Refine.Represent

/-!
# Reading the allocator state out of a memory

`view` reads everything the allocator keeps in memory: it follows `g_zones`, and in each zone the
block list and the list of empty spaces, and reads every field of the headers on the way. The
properties of the allocator are stated on what it reads, with no reference to tilings. A state that
represents some zones has exactly their view.
-/

namespace FtMalloc

open HeapLib TiledZone

/-- A `t_block`, without its links. -/
structure RegionView where
  addr : ℕ
  size : ℕ
  stop : ℕ
deriving DecidableEq, Repr

/-- A `t_zone`, with its two lists. -/
structure ZoneView where
  addr : ℕ
  start : ℕ
  stop : ℕ
  type : ℕ
  blocksNum : ℕ
  totalSpace : ℕ
  remainingSpace : ℕ
  maxFreeSpaceSize : ℕ
  blocks : List RegionView
  emptySpaces : List RegionView
deriving DecidableEq, Repr

/-- The addresses of the zones, in the order of `g_zones`. -/
def zoneList (s : Heap) : List ℕ := walk zoneLinks s.mem loopBound s.gZones

/-- The addresses on the block list of a zone. -/
def blockList (m : Memory) (zone : ℕ) : List ℕ := walk blockLinks m loopBound (word m (zone + 48))

/-- The addresses on the list of empty spaces of a zone. -/
def emptyList (m : Memory) (zone : ℕ) : List ℕ := walk blockLinks m loopBound (word m (zone + 56))

/-- Read a block header. -/
def viewRegion (m : Memory) (b : ℕ) : RegionView := ⟨b, word m b, word m (b + 8)⟩

/-- Read a zone header and its lists. -/
def viewZone (m : Memory) (zone : ℕ) : ZoneView where
  addr := zone
  start := word m zone
  stop := word m (zone + 8)
  type := readLE m (zone + 16) 4
  blocksNum := readLE m (zone + 20) 4
  totalSpace := word m (zone + 24)
  remainingSpace := word m (zone + 32)
  maxFreeSpaceSize := word m (zone + 40)
  blocks := (blockList m zone).map (viewRegion m)
  emptySpaces := (emptyList m zone).map (viewRegion m)

/-- Read all zones. -/
def view (s : Heap) : List ZoneView := (zoneList s).map (viewZone s.mem)

/-- `b` is the header of a live block of `n` data bytes. -/
def Live (s : Heap) (b n : ℕ) : Prop :=
  ∃ z ∈ view s, ∃ e ∈ z.blocks, e.addr = b ∧ e.size = n

/-- An empty space starts at the end of the block, and both together hold `n` bytes. -/
def ZoneView.Forward (v : ZoneView) (e : RegionView) (n : ℕ) : Prop :=
  ∃ f ∈ v.emptySpaces, f.addr = e.stop ∧ n ≤ e.size + headerSize + f.size

/-- An empty space ends at the block, and both together hold `n` bytes. -/
def ZoneView.Backward (v : ZoneView) (e : RegionView) (n : ℕ) : Prop :=
  ∃ f ∈ v.emptySpaces, f.stop = e.addr ∧ n ≤ f.size + headerSize + e.size

/-- `ptr` is the payload of a block that is too small for `size`, and that cannot grow in place. -/
def Moves (s : Heap) (ptr size : ℕ) : Prop :=
  ∃ v ∈ view s, ∃ e ∈ v.blocks, ptr = e.addr + headerSize ∧ e.size < roundUp size ∧
    (v.type ≠ (getZoneType (roundUp size)).code ∨
      ¬ v.Forward e (roundUp size) ∧ ¬ v.Backward e (roundUp size))

/-! ## The view of represented zones -/

/-- The view of a tile. -/
def RegionView.ofTile (t : Tile) : RegionView := ⟨t.addr, t.size, t.stop headerSize⟩

/-- The view of a tiled zone. -/
def ZoneView.ofZone (z : TiledZone) : ZoneView where
  addr := z.addr
  start := z.addr
  stop := z.addr + z.len
  type := z.type.code
  blocksNum := z.blocks.length % 2 ^ 32
  totalSpace := z.len - zoneHeaderSize
  remainingSpace := z.remaining
  maxFreeSpaceSize := z.cache
  blocks := (useds z.tiles).map RegionView.ofTile
  emptySpaces := (frees z.tiles).map RegionView.ofTile

variable {P : Platform} {s : Heap} {m : Memory} {z : TiledZone} {zs : List TiledZone}
  {b n num rem : ℕ}

/-- No empty space is seen in a zone exactly when it has none. -/
theorem emptySpaces_ofZone_eq_nil : (ZoneView.ofZone z).emptySpaces = [] ↔ frees z.tiles = [] :=
  List.map_eq_nil_iff

/-- Room behind a block is seen. -/
theorem forward_ofZone {t : Tile} :
    (ZoneView.ofZone z).Forward (.ofTile t) n ↔ z.Forward t n := by
  constructor
  · rintro ⟨f, hf, hfit⟩
    obtain ⟨u, hu, rfl⟩ := List.mem_map.mp hf
    exact ⟨u, hu, hfit⟩
  · rintro ⟨u, hu, hfit⟩
    exact ⟨.ofTile u, List.mem_map_of_mem hu, hfit⟩

/-- Room before a block is seen. -/
theorem backward_ofZone {t : Tile} :
    (ZoneView.ofZone z).Backward (.ofTile t) n ↔ z.Backward t n := by
  constructor
  · rintro ⟨f, hf, hfit⟩
    obtain ⟨u, hu, rfl⟩ := List.mem_map.mp hf
    exact ⟨u, hu, hfit⟩
  · rintro ⟨u, hu, hfit⟩
    exact ⟨.ofTile u, List.mem_map_of_mem hu, hfit⟩

/-- Walking along a list of headers of a zone visits it. -/
theorem Geometry.walk_eq {bs es l : List ℕ} {c : ℕ} (hg : Geometry z bs es)
    (hl : l.Sublist z.headers) (h : ListAt blockLinks m c l) :
    walk blockLinks m loopBound (word m c) = l := by
  rw [h.head]
  exact h.seg.walk_eq (fun a ha => hg.header_ne_null (hl.subset ha)) (hg.length_lt hl)

/-- The block list of a zone. -/
theorem ZoneAt.blockList_eq {bs es : List ℕ} (h : ZoneAt m z num rem bs es) :
    blockList m z.addr = bs :=
  h.geo.walk_eq h.geo.blocks h.blocks

/-- The list of empty spaces of a zone. -/
theorem ZoneAt.emptyList_eq {bs es : List ℕ} (h : ZoneAt m z num rem bs es) :
    emptyList m z.addr = es :=
  h.geo.walk_eq h.geo.empties h.empties

/-- The headers of tiles in memory. -/
theorem DataAt.viewRegion_eq {ts us : List Tile} (h : DataAt m us) (hts : ∀ t ∈ ts, t ∈ us) :
    (ts.map Tile.addr).map (viewRegion m) = ts.map RegionView.ofTile := by
  rw [List.map_map]
  refine List.map_congr_left fun t ht => ?_
  obtain ⟨hsize, hend⟩ := h t (hts t ht)
  rw [Function.comp_apply, viewRegion, hsize, hend]
  rfl

/-- The view of a zone in the middle of an operation. -/
theorem ZoneAt.viewZone_eq (h : ZoneAt m z num rem z.blocks z.empties) :
    viewZone m z.addr = { ZoneView.ofZone z with blocksNum := num, remainingSpace := rem } := by
  have hsc := h.scalars
  rw [viewZone, h.blockList_eq, h.emptyList_eq, TiledZone.blocks, TiledZone.empties,
    h.data.viewRegion_eq fun t ht => (mem_useds.mp ht).1,
    h.data.viewRegion_eq fun t ht => (mem_frees.mp ht).1, hsc.start, hsc.stop, hsc.type, hsc.num,
    hsc.total, hsc.rem, hsc.cache]
  rfl

/-- The zones of a state that represents some. -/
theorem Heap.Rep.zoneList_eq (h : s.Rep P zs) (hsp : Zones.Spread P zs) :
    zoneList s = zs.map TiledZone.addr := by
  rw [zoneList, h.head]
  refine h.links.walk_eq (fun a ha => ?_) (by rw [List.length_map]; exact hsp.length_lt)
  have := (hsp.placed.pos a ha).1
  omega

/-- The view of a state that represents some zones. -/
theorem Heap.Rep.view_eq (h : s.Rep P zs) (hsp : Zones.Spread P zs) :
    view s = zs.map ZoneView.ofZone := by
  rw [view, h.zoneList_eq hsp, List.map_map]
  exact List.map_congr_left fun z hz => ZoneAt.viewZone_eq (h.zone z hz)

/-- The zones seen are the zones represented. -/
theorem Heap.Rep.mem_view (h : s.Rep P zs) (hsp : Zones.Spread P zs) {v : ZoneView} :
    v ∈ view s ↔ ∃ z ∈ zs, v = .ofZone z := by
  rw [h.view_eq hsp, List.mem_map]
  exact exists_congr fun z => and_congr_right fun _ => eq_comm

/-- A block seen in a zone is a live block of it. -/
theorem Heap.Rep.exists_tile (h : s.Rep P zs) (hsp : Zones.Spread P zs) {v : ZoneView}
    {e : RegionView} (hv : v ∈ view s) (he : e ∈ v.blocks) :
    ∃ z ∈ zs, ∃ t ∈ z.live, v = .ofZone z ∧ e = .ofTile t := by
  obtain ⟨z, hz, rfl⟩ := (h.mem_view hsp).mp hv
  obtain ⟨t, ht, rfl⟩ := List.mem_map.mp he
  exact ⟨z, hz, t, ht, rfl, rfl⟩

/-- The blocks seen live are the live blocks represented. -/
theorem Heap.Rep.live_iff (h : s.Rep P zs) (hsp : Zones.Spread P zs) :
    Live s b n ↔ ⟨b, n, true⟩ ∈ Zones.live zs := by
  constructor
  · rintro ⟨v, hv, e, he, rfl, rfl⟩
    obtain ⟨z, hz, rfl⟩ := (h.mem_view hsp).mp hv
    obtain ⟨t, ht, rfl⟩ := List.mem_map.mp he
    have hself : (⟨t.addr, t.size, true⟩ : Tile) = t := by
      rw [← (mem_useds.mp ht).2]
    exact ⟨z, hz, hself ▸ ht⟩
  · rintro ⟨z, hz, ht⟩
    exact ⟨.ofZone z, (h.mem_view hsp).mpr ⟨z, hz, rfl⟩, _, List.mem_map_of_mem ht, rfl, rfl⟩

end FtMalloc
