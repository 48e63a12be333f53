import FtMalloc.Abstract.TiledZone

/-!
# The operations on one zone

What `allocate_block`, `convert_block_to_empty`, `split_block` and the two extensions do to the
tiling of a zone: each replaces a short run of tiles, joins empty spaces and refreshes the cached
maximum. All of them keep a zone well formed.
-/

namespace FtMalloc

open HeapLib

/-- A size of whole grains, unless it is too large for any zone. -/
def GrainSize (n : ℕ) : Prop :=
  n ≤ sizeMax - headerSize - zoneHeaderSize → alignment ≤ n ∧ alignment ∣ n

/-- A block of `k` bytes serves a request for `n`, and what it has to spare is too little to be
split off. -/
def Snug (n k : ℕ) : Prop := n ≤ k ∧ k < n + minSplitSize

namespace TiledZone

/-- Take the first empty space of at least `n` bytes. -/
def alloc (n : ℕ) (z : TiledZone) : Option (ℕ × TiledZone) :=
  (cutAt (fun t => !t.used && decide (n ≤ t.size)) z.tiles).map fun (pre, t, post) =>
    (t.addr, z.splice pre (carve headerSize minSplitSize n t) post)

/-- Cut the tiles at the block `b`. -/
def cutBlock (b : ℕ) (z : TiledZone) : Option (List Tile × Tile × List Tile) :=
  cutAt (fun t => t.used && decide (t.addr = b)) z.tiles

/-- Give the block `b` back. -/
def release (b : ℕ) (z : TiledZone) : TiledZone :=
  match z.cutBlock b with
  | none => z
  | some (pre, t, post) => z.splice pre [{ t with used := false }] post

/-- Keep `n` bytes of the block `b`, unless too little would be left. -/
def shrink (b n : ℕ) (z : TiledZone) : TiledZone :=
  match z.cutBlock b with
  | none => z
  | some (pre, t, post) =>
    if t.size - n < minSplitSize then z
    else z.splice pre (carve headerSize minSplitSize n t) post

/-- Let the block `b` grow to `n` bytes into the empty space behind it. -/
def growForward (b n : ℕ) (z : TiledZone) : Option TiledZone :=
  match z.cutBlock b with
  | some (pre, t, e :: post) =>
    if e.used = false ∧ n ≤ t.size + headerSize + e.size then
      some (z.splice pre (carve headerSize minSplitSize n (join headerSize t e)) post)
    else none
  | _ => none

/-- Let the block `b` grow to `n` bytes into the empty space before it. -/
def growBack (b n : ℕ) (z : TiledZone) : Option (ℕ × TiledZone) :=
  match cutAt (fun e => !e.used && decide (e.stop headerSize = b)) z.tiles with
  | some (pre, e, t :: post) =>
    if n ≤ e.size + headerSize + t.size then
      some (e.addr, z.splice pre (carve headerSize minSplitSize n (join headerSize e t)) post)
    else none
  | _ => none

/-! ## Geometry of the edited runs -/

variable {P : Platform} {z z' : TiledZone} {b n : ℕ} {s t u : Tile} {pre post mid : List Tile}

/-- Carving pieces of whole grains. -/
theorem grain_carve (hn : alignment ≤ n ∧ alignment ∣ n) (ht : alignment ≤ t.size ∧ alignment ∣ t.size)
    (hu : u ∈ carve headerSize minSplitSize n t) : alignment ≤ u.size ∧ alignment ∣ u.size := by
  rw [carve] at hu
  split at hu
  · obtain rfl := List.mem_singleton.mp hu
    exact ht
  · next hrest =>
    rcases List.mem_cons.mp hu with rfl | hu
    · exact hn
    · obtain rfl := List.mem_singleton.mp hu
      simp only [alignment, headerSize, minSplitSize] at *
      omega

/-- Carving a tile keeps the geometry. -/
theorem Laid.retile_carve (hz : z.Laid) (ht : z.tiles = pre ++ t :: post) (hle : n ≤ t.size)
    (hn : alignment ≤ n ∧ alignment ∣ n) :
    (z.retile (pre ++ (carve headerSize minSplitSize n t ++ post))).Laid := by
  have htiled := hz.tiled
  have hgrain := hz.grain
  rw [ht] at htiled hgrain
  refine hz.retile (htiled.carve hle (by decide)) fun u hu => ?_
  rcases List.mem_append.mp hu with hu | hu
  · exact hgrain u (by simp [hu])
  · rcases List.mem_append.mp hu with hu | hu
    · exact grain_carve hn (hgrain t (by simp)) hu
    · exact hgrain u (by simp [hu])

/-- Joining two neighbours keeps the geometry. -/
theorem Laid.retile_join (hz : z.Laid) (ht : z.tiles = pre ++ s :: t :: post) :
    (z.retile (pre ++ join headerSize s t :: post)).Laid := by
  have htiled := hz.tiled
  have hgrain := hz.grain
  rw [ht] at htiled hgrain
  refine hz.retile htiled.join fun u hu => ?_
  rcases List.mem_append.mp hu with hu | hu
  · exact hgrain u (by simp [hu])
  · rcases List.mem_cons.mp hu with rfl | hu
    · have hs := hgrain s (by simp)
      have ht := hgrain t (by simp)
      simp only [HeapLib.join, alignment, headerSize] at *
      omega
    · exact hgrain u (by simp [hu])

/-- Changing the use of a tile keeps the geometry. -/
theorem Laid.retile_mark (hz : z.Laid) (ht : z.tiles = pre ++ t :: post) (v : Bool) :
    (z.retile (pre ++ ([{ t with used := v }] ++ post))).Laid := by
  have htiled := hz.tiled
  have hgrain := hz.grain
  rw [ht] at htiled hgrain
  refine hz.retile (htiled.swap fun a b (h : Tiled headerSize a [t] b) => h) fun u hu => ?_
  rcases List.mem_append.mp hu with hu | hu
  · exact hgrain u (by simp [hu])
  · rcases List.mem_append.mp hu with hu | hu
    · obtain rfl := List.mem_singleton.mp hu
      exact hgrain t (by simp)
    · exact hgrain u (by simp [hu])

/-! ## Well-formed zones -/

/-- What every zone satisfies, also before its first block is allocated. -/
structure Framed (P : Platform) (z : TiledZone) : Prop where
  laid : z.Laid
  page : P.pagesize ∣ z.addr
  sized : z.type = .tiny ∧ z.len = P.tinyZoneSize ∨ z.type = .small ∧ z.len = P.smallZoneSize ∨
    z.type = .large

/-- What every zone between calls satisfies: no two empty spaces touch, the cached maximum is right
while there is an empty space, and a `LARGE` zone has one block, right behind its header. -/
structure WellFormed (P : Platform) (z : TiledZone) : Prop extends Framed P z where
  coalesced : Coalesced z.tiles
  cache : frees z.tiles ≠ [] → z.cache = largest (frees z.tiles)
  owned : z.type = .large → z.blocks = [z.addr + zoneHeaderSize]

/-- Refreshing makes the cached maximum right. -/
theorem refresh_cache (hne : frees z.tiles ≠ []) : z.refresh.cache = largest (frees z.tiles) := by
  rw [TiledZone.refresh, if_neg hne]

/-- The live blocks with their sizes. -/
def live (z : TiledZone) : Set Tile := {t | t ∈ useds z.tiles}

theorem mem_live : t ∈ z.live ↔ t ∈ z.tiles ∧ t.used = true := mem_useds

/-- A block of the zone is one of its live tiles. -/
theorem mem_blocks : b ∈ z.blocks ↔ ∃ t ∈ z.live, t.addr = b := List.mem_map

/-- A zone of a small class is shorter than 96 pages of `2 ^ 31` bytes. -/
theorem Framed.len_lt (hz : z.Framed P) (hpage : P.IntPages) (hl : z.type ≠ .large) :
    z.len < 96 * 2 ^ 31 := by
  have hlt : P.pagesize < 2 ^ 31 := hpage
  have htiny : P.tinyZoneSize ≤ P.pagesize * 6 := Nat.mod_le _ _
  have hsmall : P.smallZoneSize ≤ P.tinyZoneSize * 16 := Nat.mod_le _ _
  rcases hz.sized with ⟨-, hlen⟩ | ⟨-, hlen⟩ | hlarge
  · omega
  · omega
  · exact absurd hlarge hl

/-- The blocks of a zone occupy at least `MIN_SPLIT_SIZE` bytes each. -/
theorem Laid.length_blocks_le (hz : z.Laid) :
    z.blocks.length * minSplitSize ≤ z.len - zoneHeaderSize := by
  have hsum := List.card_nsmul_le_sum ((useds z.tiles).map fun t => t.size + headerSize)
    minSplitSize fun n hn => by
      obtain ⟨t, ht, rfl⟩ := List.mem_map.mp hn
      have := (hz.grain t (mem_useds.mp ht).1).1
      simp only [alignment, minSplitSize, headerSize] at *
      omega
  have hoccupied := hz.remaining_add_occupied
  rw [List.length_map, nsmul_eq_mul, Nat.cast_id] at hsum
  rw [blocks, List.length_map]
  rw [occupied] at hoccupied
  omega

/-- The number of blocks of a zone fits into an `unsigned int`, with one more. -/
theorem WellFormed.length_blocks_lt (hz : z.WellFormed P) (hpage : P.IntPages) :
    z.blocks.length + 1 < 2 ^ 32 := by
  by_cases hl : z.type = .large
  · rw [hz.owned hl, List.length_singleton]
    decide
  · have hlen := hz.len_lt hpage hl
    have hle := hz.laid.length_blocks_le
    simp only [minSplitSize, headerSize, alignment, zoneHeaderSize] at hle
    omega

/-- A replaced run shares no tile with the tiles around it. -/
theorem Laid.disjoint_around (old : List Tile) (hz : z.Laid) (ht : z.tiles = pre ++ (old ++ post))
    (hu : u ∈ old) : u ∉ pre ∧ u ∉ post := by
  have hp := hz.tiled.pairwise
  rw [ht] at hp
  obtain ⟨-, hmid, hpre⟩ := List.pairwise_append.mp hp
  obtain ⟨-, -, hpost⟩ := List.pairwise_append.mp hmid
  constructor
  · intro hmem
    have := hpre u hmem u (List.mem_append_left _ hu)
    simp only [Tile.stop, headerSize] at this
    omega
  · intro hmem
    have := hpost u hu u hmem
    simp only [Tile.stop, headerSize] at this
    omega

/-- A splice exchanges the live blocks of the replaced run. -/
theorem Laid.live_splice {old : List Tile} (hz : z.Laid) (ht : z.tiles = pre ++ (old ++ post)) :
    (z.splice pre mid post).live =
      {u | u ∈ useds mid} ∪ (z.live \ {u | u ∈ useds old}) := by
  ext u
  simp only [live, useds_splice, ht, useds_append, List.mem_append, Set.mem_union, Set.mem_sdiff,
    Set.mem_ofPred_eq]
  constructor
  · rintro (h | h | h)
    · exact .inr ⟨.inl h, fun hold =>
        (hz.disjoint_around old ht (mem_useds.mp hold).1).1 (mem_useds.mp h).1⟩
    · exact .inl h
    · exact .inr ⟨.inr (.inr h), fun hold =>
        (hz.disjoint_around old ht (mem_useds.mp hold).1).2 (mem_useds.mp h).1⟩
  · rintro (h | ⟨h | h | h, hne⟩)
    · exact .inr (.inl h)
    · exact .inl h
    · exact absurd h hne
    · exact .inr (.inr h)

/-- `z'` is a well-formed zone over the same interval that has the blocks `new` in place of the
blocks `old` of `z`. -/
structure Edited (P : Platform) (z z' : TiledZone) (old new : Set Tile) : Prop where
  wf : z'.WellFormed P
  addr : z'.addr = z.addr
  len : z'.len = z.len
  type : z'.type = z.type
  live : z'.live = new ∪ (z.live \ old)
  fresh : Disjoint new (z.live \ old)

/-- A new block is at an address, and its payload too. -/
theorem Edited.block_bounds {old : Set Tile} {k : ℕ} {v : Bool}
    (h : Edited P z z' old {⟨b, k, v⟩}) : 0 < b ∧ b + headerSize < 2 ^ 64 := by
  have hmem : (⟨b, k, v⟩ : Tile) ∈ z'.live := h.live ▸ .inl rfl
  have hin := h.wf.laid.inside (mem_live.mp hmem).1
  have := h.wf.laid.bound
  simp only [Tile.stop, headerSize] at *
  omega

/-- An edit that is undone or continued by another one is one edit. -/
theorem Edited.trans {w : TiledZone} {old mid new : Set Tile} (h : Edited P z z' old mid)
    (h' : Edited P z' w mid new) : Edited P z w old new := by
  have hrest : z'.live \ mid = z.live \ old := by
    rw [h.live, Set.union_sdiff_left, h.fresh.sdiff_eq_right]
  exact
    { wf := h'.wf
      addr := h'.addr.trans h.addr
      len := h'.len.trans h.len
      type := h'.type.trans h.type
      live := by rw [h'.live, hrest]
      fresh := hrest ▸ h'.fresh }

/-- A splice of a framed zone is an edit when a `LARGE` zone has one block then. -/
theorem Framed.edited_splice (old mid : List Tile) (hz : z.Framed P)
    (ht : z.tiles = pre ++ (old ++ post)) (hlaid : (z.retile (pre ++ (mid ++ post))).Laid)
    (howned : z.type = .large →
      (useds pre ++ (useds mid ++ useds post)).map Tile.addr = [z.addr + zoneHeaderSize]) :
    Edited P z (z.splice pre mid post) {u | u ∈ useds old} {u | u ∈ useds mid} where
  wf :=
    { laid := hlaid.splice
      page := (splice_addr z pre mid post).symm ▸ hz.page
      sized := by
        rw [splice_type, splice_len]
        exact hz.sized
      coalesced := by
        rw [splice_tiles]
        exact coalesced_coalesce _
      cache := by
        intro hne
        rw [TiledZone.splice, refresh_tiles] at hne ⊢
        exact refresh_cache hne
      owned := by
        rw [splice_type, splice_addr, blocks, useds_splice]
        exact howned }
  addr := splice_addr ..
  len := splice_len ..
  type := splice_type ..
  live := hz.laid.live_splice ht
  fresh := by
    refine Set.disjoint_left.mpr fun u hu hold => ?_
    have hoff := hlaid.disjoint_around mid rfl (mem_useds.mp hu).1
    obtain ⟨hlive, hne⟩ := hold
    have hmem := hlive
    rw [live, Set.mem_ofPred_eq, ht, useds_append, useds_append, List.mem_append,
      List.mem_append] at hmem
    rcases hmem with h | h | h
    · exact hoff.1 (mem_useds.mp h).1
    · exact hne h
    · exact hoff.2 (mem_useds.mp h).1

/-- A splice of a well-formed zone is an edit when the addresses of its blocks stay. -/
theorem WellFormed.edited_splice (old mid : List Tile) (hz : z.WellFormed P)
    (ht : z.tiles = pre ++ (old ++ post)) (hlaid : (z.retile (pre ++ (mid ++ post))).Laid)
    (howned : z.type = .large → (useds mid).map Tile.addr = (useds old).map Tile.addr) :
    Edited P z (z.splice pre mid post) {u | u ∈ useds old} {u | u ∈ useds mid} := by
  refine hz.toFramed.edited_splice old mid ht hlaid fun hl => ?_
  rw [← hz.owned hl, blocks, ht, useds_append, useds_append, List.map_append, List.map_append,
    howned hl, List.map_append, List.map_append]

/-- A free tile is no block. -/
theorem useds_singleton_of_free (hu : t.used = false) : {u | u ∈ useds [t]} = (∅ : Set Tile) := by
  ext u
  simp [useds_cons, hu]

/-- A used tile is one block. -/
theorem useds_singleton_of_used (hu : t.used = true) : {u | u ∈ useds [t]} = ({t} : Set Tile) := by
  ext u
  simp [useds_cons, hu]

/-- The only used tile of a carving, as a set. -/
theorem useds_carve_set : {u | u ∈ useds (HeapLib.carve headerSize minSplitSize n t)} =
    {⟨t.addr, if t.size - n < minSplitSize then t.size else n, true⟩} := by
  ext u
  rw [useds_carve]
  simp

/-- The carved block serves the request. -/
theorem snug_carve_size (hle : n ≤ t.size) :
    Snug n (if t.size - n < minSplitSize then t.size else n) := by
  split
  · next hrest => exact ⟨hle, by omega⟩
  · exact ⟨Nat.le_refl n, Nat.lt_add_of_pos_right (by decide)⟩

/-- Allocation adds one block that serves the request; in a `LARGE` zone it has to be the
first one. -/
theorem Framed.alloc (hz : z.Framed P)
    (hl : z.type = .large → ∃ m, z.tiles = [⟨z.addr + zoneHeaderSize, m, false⟩])
    (hn : alignment ≤ n ∧ alignment ∣ n) (h : z.alloc n = some (b, z')) :
    ∃ k, Snug n k ∧ Edited P z z' ∅ {⟨b, k, true⟩} := by
  rw [TiledZone.alloc, Option.map_eq_some_iff] at h
  obtain ⟨⟨pre, t, post⟩, hcut, heq⟩ := h
  obtain ⟨ht, hp, -⟩ := cutAt_eq_some.mp hcut
  simp only [Bool.and_eq_true, Bool.not_eq_true', decide_eq_true_eq] at hp
  cases heq
  refine ⟨_, snug_carve_size hp.2, ?_⟩
  have hedit := hz.edited_splice [t] _ ht (hz.laid.retile_carve ht hp.2 hn) fun hlarge => by
    obtain ⟨m, hm⟩ := hl hlarge
    rw [ht] at hm
    obtain ⟨rfl, htm, rfl⟩ : pre = [] ∧ t = ⟨z.addr + zoneHeaderSize, m, false⟩ ∧ post = [] := by
      cases pre with
      | nil => simpa using hm
      | cons a as => simp at hm
    rw [useds_carve, htm]
    rfl
  rwa [useds_carve_set, useds_singleton_of_free hp.1] at hedit

/-- Allocation fails exactly when no empty space is large enough. -/
theorem alloc_eq_none : z.alloc n = none ↔ ∀ t ∈ z.tiles, t.used = false → t.size < n := by
  rw [TiledZone.alloc, Option.map_eq_none_iff, cutAt_eq_none]
  refine forall₂_congr fun t _ => ?_
  simp only [Bool.and_eq_false_imp, Bool.not_eq_true', decide_eq_false_iff_not, Nat.not_le]

/-- A block is cut out at its place. -/
theorem Laid.cutBlock_eq (hz : z.Laid) (ht : z.tiles = pre ++ t :: post) (hused : t.used = true) :
    z.cutBlock t.addr = some (pre, t, post) := by
  refine cutAt_eq_some.mpr ⟨ht, by simp [hused], fun u hu => ?_⟩
  have htiled := hz.tiled.pairwise
  rw [ht] at htiled
  have := (List.pairwise_append.mp htiled).2.2 u hu t List.mem_cons_self
  simp only [Tile.stop, headerSize] at this
  simp only [Bool.and_eq_false_imp, decide_eq_false_iff_not]
  omega

/-- A block cuts the tiles of its zone. -/
theorem Laid.exists_cutBlock (hz : z.Laid) (ht : t ∈ z.live) :
    ∃ pre post, z.tiles = pre ++ t :: post ∧ z.cutBlock t.addr = some (pre, t, post) := by
  obtain ⟨hmem, hu⟩ := mem_live.mp ht
  obtain ⟨pre, post, heq⟩ := List.append_of_mem hmem
  exact ⟨pre, post, heq, hz.cutBlock_eq heq hu⟩

/-- Releasing a block removes it. -/
theorem WellFormed.release (hz : z.WellFormed P) (hl : z.type ≠ .large) (ht : t ∈ z.live) :
    Edited P z (z.release t.addr) {t} ∅ := by
  obtain ⟨pre, post, heq, hcut⟩ := hz.laid.exists_cutBlock ht
  have hedit := hz.edited_splice [t] [{ t with used := false }] heq
    (hz.laid.retile_mark heq false) fun h => absurd h hl
  rw [TiledZone.release, hcut]
  rwa [useds_singleton_of_used (mem_live.mp ht).2, useds_singleton_of_free rfl] at hedit

/-- Shrinking a block keeps it at its address, and it serves the request. -/
theorem WellFormed.shrink (hz : z.WellFormed P) (ht : t ∈ z.live) (hle : n ≤ t.size)
    (hn : alignment ≤ n ∧ alignment ∣ n) :
    ∃ k, Snug n k ∧ k ≤ t.size ∧ Edited P z (z.shrink t.addr n) {t} {⟨t.addr, k, true⟩} := by
  obtain ⟨pre, post, heq, hcut⟩ := hz.laid.exists_cutBlock ht
  have hu := (mem_live.mp ht).2
  rw [TiledZone.shrink, hcut]
  simp only
  split
  · next hrest =>
    have hself : (⟨t.addr, t.size, true⟩ : Tile) = t := by rw [← hu]
    refine ⟨t.size, ⟨hle, by omega⟩, Nat.le_refl _, hz, rfl, rfl, rfl, ?_, ?_⟩
    · rw [hself]
      ext u
      by_cases hut : u = t
      · simp [hut, ht]
      · simp [hut]
    · rw [hself]
      exact Set.disjoint_left.mpr fun u hu h => h.2 hu
  · refine ⟨_, snug_carve_size hle, ?_, ?_⟩
    · split
      · exact Nat.le_refl _
      · exact hle
    · have hedit := hz.edited_splice [t] _ heq (hz.laid.retile_carve heq hle hn) fun _ => by
        rw [useds_carve, useds_cons, if_pos hu]
        rfl
      rwa [useds_carve_set, useds_singleton_of_used hu] at hedit

/-- Replacing a block and an empty neighbour by the carved whole keeps one block. -/
theorem WellFormed.edited_join (hz : z.WellFormed P) {s u : Tile}
    (heq : z.tiles = pre ++ s :: u :: post) (hle : n ≤ s.size + headerSize + u.size)
    (hn : alignment ≤ n ∧ alignment ∣ n)
    (howned : z.type = .large → [s.addr] = (useds [s, u]).map Tile.addr) :
    ∃ k, Snug n k ∧ Edited P z
      (z.splice pre (HeapLib.carve headerSize minSplitSize n (join headerSize s u)) post)
      {w | w ∈ useds [s, u]} {⟨s.addr, k, true⟩} := by
  refine ⟨_, snug_carve_size (t := join headerSize s u) hle, ?_⟩
  have hedit := hz.edited_splice [s, u] _ heq
    ((hz.laid.retile_join heq).retile_carve (t := join headerSize s u) rfl hle hn) fun hl => by
      rw [useds_carve, ← howned hl]
      rfl
  rw [useds_carve_set] at hedit
  exact hedit

/-- Two neighbours never hold a size that is too large for any zone. -/
theorem Laid.grain_of_le (hz : z.Laid) (hn : GrainSize n) {s u : Tile}
    (heq : z.tiles = pre ++ s :: u :: post) (hle : n ≤ s.size + headerSize + u.size) :
    alignment ≤ n ∧ alignment ∣ n := by
  have htiled := hz.tiled
  rw [heq] at htiled
  have hadj := (tiled_append_cons.mp htiled).2.1
  have hs := hz.inside (t := s) (by simp [heq])
  have hu := hz.inside (t := u) (by simp [heq])
  have := hz.bound
  refine hn ?_
  simp only [Tile.stop, sizeMax, headerSize, zoneHeaderSize] at *
  omega

/-- Growing forward keeps the block at its address. -/
theorem WellFormed.growForward (hz : z.WellFormed P) (ht : t ∈ z.live) (hn : GrainSize n)
    (h : z.growForward t.addr n = some z') :
    ∃ k, Snug n k ∧ Edited P z z' {t} {⟨t.addr, k, true⟩} := by
  obtain ⟨pre, rest, heq, hcut⟩ := hz.laid.exists_cutBlock ht
  have hu := (mem_live.mp ht).2
  rw [TiledZone.growForward, hcut] at h
  cases rest with
  | nil => cases h
  | cons e post =>
    simp only at h
    split at h
    · next hfit =>
      cases h
      have hgrain := hz.laid.grain_of_le hn heq hfit.2
      obtain ⟨k, hk, hedit⟩ := hz.edited_join heq hfit.2 hgrain fun _ => by
        simp [useds_cons, hu, hfit.1]
      have hold : {w | w ∈ useds [t, e]} = ({t} : Set Tile) := by
        ext w
        simp [useds_cons, hu, hfit.1]
      exact ⟨k, hk, hold ▸ hedit⟩
    · cases h

/-- Growing back moves the block to the front of the joined region. -/
theorem WellFormed.growBack (hz : z.WellFormed P) (ht : t ∈ z.live) (hn : GrainSize n)
    (h : z.growBack t.addr n = some (b, z')) :
    ∃ k, Snug n k ∧ Edited P z z' {t} {⟨b, k, true⟩} := by
  obtain ⟨hmem, hu⟩ := mem_live.mp ht
  rw [TiledZone.growBack] at h
  split at h
  · next pre e t' post hcut =>
    obtain ⟨heq, hp, -⟩ := cutAt_eq_some.mp hcut
    simp only [Bool.and_eq_true, Bool.not_eq_true', decide_eq_true_eq] at hp
    have htiled := hz.laid.tiled
    rw [heq] at htiled
    have htt : t' = t := hz.laid.tiled.eq_of_addr_eq (by decide) (by simp [heq]) hmem
      ((tiled_append_cons.mp htiled).2.1.trans hp.2)
    subst htt
    split at h
    · next hfit =>
      cases h
      have hgrain := hz.laid.grain_of_le hn heq hfit
      obtain ⟨k, hk, hedit⟩ := hz.edited_join heq hfit hgrain fun hl => by
        -- nothing lies before the block of a `LARGE` zone
        have hb : t'.addr ∈ z.blocks := mem_blocks.mpr ⟨t', ht, rfl⟩
        rw [hz.owned hl, List.mem_singleton] at hb
        have := (hz.laid.inside (t := e) (by simp [heq])).1
        have := hp.2
        simp only [Tile.stop, headerSize, zoneHeaderSize] at *
        omega
      have hold : {w | w ∈ useds [e, t']} = ({t'} : Set Tile) := by
        ext w
        simp [useds_cons, hu, hp.1]
      exact ⟨k, hk, hold ▸ hedit⟩
    · cases h
  · cases h

/-- Let the block `b` grow to `n` bytes in place, forward if possible. -/
def grow (b n : ℕ) (z : TiledZone) : Option (ℕ × TiledZone) :=
  match z.growForward b n with
  | some z' => some (b, z')
  | none => z.growBack b n

/-- Growing in place keeps one block that serves the request. -/
theorem WellFormed.grow (hz : z.WellFormed P) (ht : t ∈ z.live) (hn : GrainSize n)
    (h : z.grow t.addr n = some (b, z')) :
    ∃ k, Snug n k ∧ Edited P z z' {t} {⟨b, k, true⟩} := by
  rw [TiledZone.grow] at h
  cases hfwd : z.growForward t.addr n with
  | some w =>
    rw [hfwd] at h
    cases h
    exact hz.growForward ht hn hfwd
  | none =>
    rw [hfwd] at h
    exact hz.growBack ht hn h

end TiledZone

end FtMalloc
