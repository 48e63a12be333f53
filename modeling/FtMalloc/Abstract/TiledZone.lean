import FtMalloc.Lib.FreeList
import FtMalloc.Source.Blocks

/-!
# Zones as tilings

What a zone is for: a mapped interval whose bytes behind the zone header are tiled by blocks
and empty spaces. The operations are stated on the tiling alone; the memory of the allocator is
related to them elsewhere. `cache` is the cached maximum of the zone, which is only refreshed
while there is an empty space.
-/

namespace FtMalloc

open HeapLib

/-- A zone with its tiles in address order. -/
structure TiledZone where
  addr : ℕ
  len : ℕ
  type : EType
  cache : ℕ
  tiles : List Tile
deriving DecidableEq, Repr

namespace TiledZone

/-- Addresses of all headers. -/
def headers (z : TiledZone) : List ℕ := z.tiles.map Tile.addr

/-- Addresses of the live blocks. -/
def blocks (z : TiledZone) : List ℕ := (useds z.tiles).map Tile.addr

/-- Addresses of the empty spaces. -/
def empties (z : TiledZone) : List ℕ := (frees z.tiles).map Tile.addr

/-- Bytes of the empty spaces, headers included. -/
def remaining (z : TiledZone) : ℕ := ((frees z.tiles).map fun t => t.size + headerSize).sum

/-- The zone with another tiling. -/
def retile (z : TiledZone) (ts : List Tile) : TiledZone := { z with tiles := ts }

/-- Refresh the cached maximum, which is left alone in a zone without empty spaces. -/
def refresh (z : TiledZone) : TiledZone :=
  if frees z.tiles = [] then z else { z with cache := largest (frees z.tiles) }

@[simp] theorem retile_addr (z : TiledZone) (ts : List Tile) : (z.retile ts).addr = z.addr := rfl

@[simp] theorem retile_len (z : TiledZone) (ts : List Tile) : (z.retile ts).len = z.len := rfl

@[simp] theorem retile_type (z : TiledZone) (ts : List Tile) : (z.retile ts).type = z.type := rfl

@[simp] theorem retile_tiles (z : TiledZone) (ts : List Tile) : (z.retile ts).tiles = ts := rfl

@[simp] theorem retile_retile (z : TiledZone) (ts us : List Tile) :
    (z.retile ts).retile us = z.retile us := rfl

@[simp] theorem refresh_addr (z : TiledZone) : z.refresh.addr = z.addr := by
  rw [refresh]
  split <;> rfl

@[simp] theorem refresh_len (z : TiledZone) : z.refresh.len = z.len := by
  rw [refresh]
  split <;> rfl

@[simp] theorem refresh_type (z : TiledZone) : z.refresh.type = z.type := by
  rw [refresh]
  split <;> rfl

@[simp] theorem refresh_tiles (z : TiledZone) : z.refresh.tiles = z.tiles := by
  rw [refresh]
  split <;> rfl

@[simp] theorem refresh_blocks (z : TiledZone) : z.refresh.blocks = z.blocks := by
  rw [blocks, refresh_tiles, blocks]

@[simp] theorem refresh_remaining (z : TiledZone) : z.refresh.remaining = z.remaining := by
  rw [remaining, refresh_tiles, remaining]

/-- The geometry of a zone: a non-wrapping interval, tiled behind the zone header by regions of
at least `alignment` data bytes, all of them multiples of it. -/
structure Laid (z : TiledZone) : Prop where
  pos : 0 < z.addr
  bound : z.addr + z.len < 2 ^ 64
  tiled : Tiled headerSize (z.addr + zoneHeaderSize) z.tiles (z.addr + z.len)
  grain : ∀ t ∈ z.tiles, alignment ≤ t.size ∧ alignment ∣ t.size

/-- The zone header lies inside the zone. -/
theorem Laid.room {z : TiledZone} (hz : z.Laid) : 80 ≤ z.len := by
  have := hz.tiled.le
  simp only [zoneHeaderSize] at this
  omega

/-- Every tile lies behind the zone header and inside the zone. -/
theorem Laid.inside {z : TiledZone} (hz : z.Laid) {t : Tile} (ht : t ∈ z.tiles) :
    z.addr + 80 ≤ t.addr ∧ t.addr + 48 ≤ t.stop 32 ∧ t.stop 32 ≤ z.addr + z.len := by
  have hb := hz.tiled.bounds ht
  have hg := (hz.grain t ht).1
  simp only [Tile.stop, headerSize, zoneHeaderSize, alignment] at *
  omega

/-- A zone may be retiled over the same interval. -/
theorem Laid.retile {z : TiledZone} (hz : z.Laid) {ts : List Tile}
    (ht : Tiled headerSize (z.addr + zoneHeaderSize) ts (z.addr + z.len))
    (hg : ∀ t ∈ ts, alignment ≤ t.size ∧ alignment ∣ t.size) : (z.retile ts).Laid :=
  ⟨hz.pos, hz.bound, ht, hg⟩

/-- The zone with all neighbouring empty spaces joined. -/
def coalesced (z : TiledZone) : TiledZone := z.retile (coalesce headerSize z.tiles)

@[simp] theorem coalesced_tiles (z : TiledZone) :
    z.coalesced.tiles = coalesce headerSize z.tiles := rfl

/-- Joining empty spaces keeps the blocks. -/
@[simp] theorem coalesced_blocks (z : TiledZone) : z.coalesced.blocks = z.blocks := by
  rw [blocks, blocks, coalesced_tiles, useds_coalesce]

/-- Joining empty spaces keeps the geometry. -/
theorem Laid.coalesced {z : TiledZone} (hz : z.Laid) : z.coalesced.Laid := by
  refine hz.retile hz.tiled.coalesce ?_
  refine forall_coalesce hz.grain fun s t hs ht => ⟨?_, ?_⟩
  · exact hs.1.trans (by simp only [Nat.add_assoc]; exact Nat.le_add_right _ _)
  · exact Nat.dvd_add (Nat.dvd_add hs.2 (by decide)) ht.2

/-- Bytes of the empty spaces are the bytes behind the zone header that no block occupies. -/
theorem Laid.remaining_add_occupied {z : TiledZone} (hz : z.Laid) :
    z.remaining + occupied headerSize z.tiles = z.len - zoneHeaderSize := by
  have := hz.tiled.free_length
  simp only [remaining, zoneHeaderSize] at *
  omega

/-- The number of free bytes is a word. -/
theorem Laid.remaining_lt {z : TiledZone} (hz : z.Laid) : z.remaining < 2 ^ 64 := by
  have := hz.remaining_add_occupied
  have := hz.bound
  simp only [zoneHeaderSize] at *
  omega

/-- Replace the tiles between `pre` and `post` by `mid`, join empty spaces and refresh. -/
def splice (z : TiledZone) (pre mid post : List Tile) : TiledZone :=
  (z.retile (pre ++ (mid ++ post))).coalesced.refresh

@[simp] theorem splice_addr (z : TiledZone) (pre mid post : List Tile) :
    (z.splice pre mid post).addr = z.addr := refresh_addr _

@[simp] theorem splice_len (z : TiledZone) (pre mid post : List Tile) :
    (z.splice pre mid post).len = z.len := refresh_len _

@[simp] theorem splice_type (z : TiledZone) (pre mid post : List Tile) :
    (z.splice pre mid post).type = z.type := refresh_type _

@[simp] theorem splice_tiles (z : TiledZone) (pre mid post : List Tile) :
    (z.splice pre mid post).tiles = coalesce headerSize (pre ++ (mid ++ post)) := refresh_tiles _

/-- The blocks after a splice. -/
@[simp] theorem useds_splice (z : TiledZone) (pre mid post : List Tile) :
    useds (z.splice pre mid post).tiles = useds pre ++ (useds mid ++ useds post) := by
  rw [splice_tiles, useds_coalesce, useds_append, useds_append]

/-- Refreshing keeps the geometry. -/
theorem Laid.refresh {z : TiledZone} (hz : z.Laid) : z.refresh.Laid := by
  rw [TiledZone.refresh]
  split
  · exact hz
  · exact ⟨hz.pos, hz.bound, hz.tiled, hz.grain⟩

/-- Splicing keeps the geometry. -/
theorem Laid.splice {z : TiledZone} {pre mid post : List Tile}
    (hz : (z.retile (pre ++ (mid ++ post))).Laid) : (z.splice pre mid post).Laid :=
  hz.coalesced.refresh

/-- Replacing a run of tiles moves the difference in occupied bytes to or from the empty spaces. -/
theorem Laid.remaining_retile {z : TiledZone} {pre post : List Tile} (old mid : List Tile)
    (hz : z.Laid) (ht : z.tiles = pre ++ (old ++ post))
    (hz' : (z.retile (pre ++ (mid ++ post))).Laid) :
    (z.retile (pre ++ (mid ++ post))).remaining + occupied headerSize mid =
      z.remaining + occupied headerSize old := by
  have hold := hz.remaining_add_occupied
  have hnew := hz'.remaining_add_occupied
  rw [ht, occupied_append, occupied_append] at hold
  rw [retile_tiles, retile_len, occupied_append, occupied_append] at hnew
  omega

/-- Joining empty spaces and refreshing keep the number of free bytes. -/
theorem Laid.remaining_splice {z : TiledZone} {pre mid post : List Tile}
    (hz : (z.retile (pre ++ (mid ++ post))).Laid) :
    (z.splice pre mid post).remaining = (z.retile (pre ++ (mid ++ post))).remaining := by
  have h₁ := hz.remaining_add_occupied
  have h₂ := hz.splice.remaining_add_occupied
  rw [occupied, useds_splice, ← useds_append, ← useds_append, ← occupied, splice_len] at h₂
  rw [retile_tiles, retile_len] at h₁
  omega

/-- The payload bytes that a block of `z` shares with the block of `z'` at the same address. -/
def kept (z z' : TiledZone) : Set ℕ :=
  {x | ∃ t ∈ useds z.tiles, ∃ t' ∈ useds z'.tiles, t.addr = t'.addr ∧
    t.addr + headerSize ≤ x ∧ x < t.stop headerSize ∧ x < t'.stop headerSize}

/-- The bytes of the zone, other than its links, that may change when it becomes `z'`. -/
def churn (z z' : TiledZone) : Set ℕ :=
  {x | z.addr ≤ x ∧ x < z.addr + z.len ∧ ¬(z.addr + 64 ≤ x ∧ x < z.addr + 80) ∧ x ∉ kept z z'}

/-- A splice that leaves no two empty spaces next to each other joins nothing. -/
theorem splice_of_coalesced {z : TiledZone} {pre mid post : List Tile}
    (hc : Coalesced (pre ++ (mid ++ post))) :
    z.splice pre mid post = (z.retile (pre ++ (mid ++ post))).refresh := by
  rw [splice, TiledZone.coalesced, retile_retile, retile_tiles, coalesce_eq_self hc]

end TiledZone

end FtMalloc
