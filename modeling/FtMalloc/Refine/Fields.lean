import FtMalloc.Refine.Lists

/-!
# Fields, counters and scans of a zone

What the getters of both headers return in a zone in memory, the assignments of the counters, and
the read-only scans over the two lists. A scan over the empty spaces is computed on the tiles that
the list stands for.
-/

namespace FtMalloc

open HeapLib

variable {s : Heap} {m : Memory} {z : TiledZone} {num rem v : ℕ} {bs es pre post : List ℕ}
  {t : Tile} {fs : List Tile}

/-! ## Getters -/

section Getters

variable {a : ℕ} {Q : ℕ → Heap → Prop}

/-- The zone header is mapped. -/
theorem ZoneCore.validHeader (h : ZoneCore m z num rem bs es) (hv : s.Valid z.addr z.len) {o n : ℕ}
    (ho : o + n ≤ 80) : s.Valid (z.addr + o) n := by
  have := h.geo.room
  exact hv.sub (by omega) (by omega)

/-- The header of a tile is mapped. -/
theorem ZoneCore.validTile (h : ZoneCore m z num rem bs es) (hv : s.Valid z.addr z.len)
    (ha : a ∈ z.headers) {o n : ℕ} (ho : o + n ≤ 32) : s.Valid (a + o) n := by
  have := h.geo.header ha
  exact hv.sub (by omega) (by omega)

theorem ZoneCore.wp_getType (h : ZoneCore s.mem z num rem bs es) (hv : s.Valid z.addr z.len) :
    wp (Zone.getType z.addr) Q s ↔ Q z.type.code s := by
  rw [Zone.getType, wp_load (h.validHeader hv (by omega)), h.scalars.type]

theorem ZoneCore.wp_getStart (h : ZoneCore s.mem z num rem bs es) (hv : s.Valid z.addr z.len) :
    wp (Zone.getStart z.addr) Q s ↔ Q z.addr s := by
  have hz : s.Valid z.addr 8 := h.validHeader (o := 0) hv (by omega)
  rw [Zone.getStart, wp_loadWord hz, h.scalars.start]

theorem ZoneCore.wp_getStop (h : ZoneCore s.mem z num rem bs es) (hv : s.Valid z.addr z.len) :
    wp (Zone.getEnd z.addr) Q s ↔ Q (z.addr + z.len) s := by
  rw [Zone.getEnd, wp_loadWord (h.validHeader hv (by omega)), h.scalars.stop]

theorem ZoneCore.wp_getTotal (h : ZoneCore s.mem z num rem bs es) (hv : s.Valid z.addr z.len) :
    wp (Zone.getTotalSpace z.addr) Q s ↔ Q (z.len - 80) s := by
  rw [Zone.getTotalSpace, wp_loadWord (h.validHeader hv (by omega)), h.scalars.total]

theorem ZoneCore.wp_getNum (h : ZoneCore s.mem z num rem bs es) (hv : s.Valid z.addr z.len) :
    wp (Zone.getBlocksNum z.addr) Q s ↔ Q num s := by
  rw [Zone.getBlocksNum, wp_load (h.validHeader hv (by omega)), h.scalars.num]

theorem ZoneCore.wp_getRemaining (h : ZoneCore s.mem z num rem bs es) (hv : s.Valid z.addr z.len) :
    wp (Zone.getRemainingSpace z.addr) Q s ↔ Q rem s := by
  rw [Zone.getRemainingSpace, wp_loadWord (h.validHeader hv (by omega)), h.scalars.rem]

theorem ZoneCore.wp_getMaxFree (h : ZoneCore s.mem z num rem bs es) (hv : s.Valid z.addr z.len) :
    wp (Zone.getMaxFreeSpaceSize z.addr) Q s ↔ Q z.cache s := by
  rw [Zone.getMaxFreeSpaceSize, wp_loadWord (h.validHeader hv (by omega)), h.scalars.cache]

theorem ZoneCore.wp_getBlocks (h : ZoneCore s.mem z num rem bs es) (hv : s.Valid z.addr z.len) :
    wp (Zone.getBlocks z.addr) Q s ↔ Q (bs.headD 0) s := by
  rw [Zone.getBlocks, wp_loadWord (h.validHeader hv (by omega)), h.blocks.head]

theorem ZoneAt.wp_getEmpties (h : ZoneAt s.mem z num rem bs es) (hv : s.Valid z.addr z.len) :
    wp (Zone.getEmptySpaces z.addr) Q s ↔ Q (es.headD 0) s := by
  rw [Zone.getEmptySpaces, wp_loadWord (h.validHeader hv (by omega)), h.empties.head]

theorem ZoneCore.wp_getSize (h : ZoneCore s.mem z num rem bs es) (hv : s.Valid z.addr z.len)
    (ht : t ∈ z.tiles) : wp (Block.getDataSize t.addr) Q s ↔ Q t.size s := by
  have hvt : s.Valid t.addr 8 :=
    h.validTile (o := 0) hv (List.mem_map.mpr ⟨t, ht, rfl⟩) (by omega)
  rw [Block.getDataSize, wp_loadWord hvt, (h.data t ht).1]

theorem ZoneCore.wp_getEnd (h : ZoneCore s.mem z num rem bs es) (hv : s.Valid z.addr z.len)
    (ht : t ∈ z.tiles) : wp (Block.getEnd t.addr) Q s ↔ Q (t.stop 32) s := by
  rw [Block.getEnd, wp_loadWord (h.validTile hv (List.mem_map.mpr ⟨t, ht, rfl⟩) (by omega)),
    (h.data t ht).2]

/-- The successor of a block. -/
theorem ZoneCore.wp_getNext (h : ZoneCore s.mem z num rem (pre ++ a :: post) es)
    (hv : s.Valid z.addr z.len) : wp (Block.getNext a) Q s ↔ Q (post.headD 0) s := by
  have ha : a ∈ z.headers := h.geo.blocks.subset (by simp)
  have hnext : word s.mem (a + 24) = post.headD 0 := h.blocks.next
  rw [Block.getNext, wp_loadWord (h.validTile hv ha (by omega)), hnext]

/-- The successor of an empty space. -/
theorem ZoneAt.wp_getNext (h : ZoneAt s.mem z num rem bs (pre ++ a :: post))
    (hv : s.Valid z.addr z.len) : wp (Block.getNext a) Q s ↔ Q (post.headD 0) s := by
  have ha : a ∈ z.headers := h.geo.empties.subset (by simp)
  have hnext : word s.mem (a + 24) = post.headD 0 := h.empties.next
  rw [Block.getNext, wp_loadWord (h.validTile hv ha (by omega)), hnext]

/-- The predecessor of an empty space. -/
theorem ZoneAt.wp_getPrev (h : ZoneAt s.mem z num rem bs (pre ++ a :: post))
    (hv : s.Valid z.addr z.len) : wp (Block.getPrev a) Q s ↔ Q (pre.getLastD 0) s := by
  have ha : a ∈ z.headers := h.geo.empties.subset (by simp)
  have hprev : word s.mem (a + 16) = pre.getLastD 0 := h.empties.prev
  rw [Block.getPrev, wp_loadWord (h.validTile hv ha (by omega)), hprev]

/-- The end of a block, computed. -/
theorem wp_blockEnd (hv : s.Valid a 8) (hlt : a + 32 + word s.mem a < 2 ^ 64) :
    wp (blockEnd a) Q s ↔ Q (a + 32 + word s.mem a) s := by
  simp only [blockEnd, wp_bind, headerSize]
  rw [wp_szAdd (by omega), wp_bind, Block.getDataSize, wp_loadWord hv, wp_szAdd hlt]

end Getters

/-! ## Counters -/

/-- The zone header bytes of the counters and the cached maximum. -/
theorem counter_bytes {a b n : ℕ} (hb : a + 16 ≤ b) (hn : b + n ≤ a + 48) :
    ∀ x, b ≤ x → x < b + n → x ∈ headerBytes a [] :=
  fun x hx hx' => .inl ⟨by omega, by omega⟩

/-- Assigning `remaining_space`. -/
theorem ZoneAt.wp_setRemaining (h : ZoneAt s.mem z num rem bs es) (hv : s.Valid z.addr z.len)
    (hlt : v < 2 ^ 64) :
    wp (Zone.setRemainingSpace z.addr v) (fun _ s' =>
      s.Writes (headerBytes z.addr []) s' ∧ ZoneAt s'.mem z num v bs es) s := by
  rw [Zone.setRemainingSpace, wp_storeWord (h.validHeader hv (by omega))]
  refine ⟨(Heap.Writes.refl _ s).write (counter_bytes (by omega) (by omega)), ?_⟩
  refine h.rescale ((AgreeOff.refl _ _).write fun x hx hx' => .inr ⟨by omega, by omega⟩) ?_
    (readLE_writeLE_same hlt) ?_
  · exact (readLE_writeLE_disjoint (by omega)).trans h.scalars.num
  · exact (readLE_writeLE_disjoint (by omega)).trans h.scalars.cache

/-- Assigning `blocks_num`. -/
theorem ZoneAt.wp_setNum (h : ZoneAt s.mem z num rem bs es) (hv : s.Valid z.addr z.len)
    (hlt : v < 2 ^ 32) :
    wp (Zone.setBlocksNum z.addr v) (fun _ s' =>
      s.Writes (headerBytes z.addr []) s' ∧ ZoneAt s'.mem z v rem bs es) s := by
  rw [Zone.setBlocksNum, wp_store (h.validHeader hv (by omega))]
  refine ⟨(Heap.Writes.refl _ s).write (counter_bytes (by omega) (by omega)), ?_⟩
  refine h.rescale ((AgreeOff.refl _ _).write fun x hx hx' => .inl ⟨by omega, by omega⟩)
    (readLE_writeLE_same hlt) ?_ ?_
  · exact (readLE_writeLE_disjoint (by omega)).trans h.scalars.rem
  · exact (readLE_writeLE_disjoint (by omega)).trans h.scalars.cache

/-- Assigning `max_free_space_size`. -/
theorem ZoneAt.setMaxFree (h : ZoneAt m z num rem bs es) (hlt : v < 2 ^ 64) :
    ZoneAt (setWord m (z.addr + 40) v) { z with cache := v } num rem bs es := by
  refine h.rescale ((AgreeOff.refl _ _).write fun x hx hx' => .inr ⟨by omega, by omega⟩) ?_ ?_
    (readLE_writeLE_same hlt)
  · exact (readLE_writeLE_disjoint (by omega)).trans h.scalars.num
  · exact (readLE_writeLE_disjoint (by omega)).trans h.scalars.rem

/-- Data sizes are words. -/
theorem Geometry.size_lt (hg : Geometry z bs es) (ht : t ∈ z.tiles) :
    t.addr + 32 + t.size < 2 ^ 64 := by
  have := hg.inside t ht
  have := hg.bound
  simp only [Tile.stop] at *
  omega

/-! ## The cached maximum -/

section Cache

variable {zone : ℕ} {Q : ℕ → Heap → Prop}

/-- What `update_empty_stats` goes through: a list of empty spaces away from the cached maximum of
the zone. -/
structure Scannable (s : Heap) (zone : ℕ) (fs : List Tile) : Prop where
  header : s.Valid zone 80
  list : ListAt blockLinks s.mem (zone + 56) (fs.map Tile.addr)
  data : DataAt s.mem fs
  valid : ∀ f ∈ fs, s.Valid f.addr 32
  node : ∀ f ∈ fs, f.addr ≠ null ∧ f.size < 2 ^ 64
  off : ∀ f ∈ fs, f.addr + 32 ≤ zone + 40 ∨ zone + 48 ≤ f.addr

namespace Scannable

theorem wp_getEmpties (h : Scannable s zone fs) :
    wp (Zone.getEmptySpaces zone) Q s ↔ Q ((fs.map Tile.addr).headD 0) s := by
  rw [Zone.getEmptySpaces, wp_loadWord (h.header.sub (by omega) (by omega)), h.list.head]

theorem wp_getMaxFree (h : Scannable s zone fs) :
    wp (Zone.getMaxFreeSpaceSize zone) Q s ↔ Q (word s.mem (zone + 40)) s :=
  wp_loadWord (h.header.sub (by omega) (by omega))

theorem wp_setMaxFree {Q : Unit → Heap → Prop} (h : Scannable s zone fs) :
    wp (Zone.setMaxFreeSpaceSize zone v) Q s ↔ Q () (s.withMem (setWord s.mem (zone + 40) v)) :=
  wp_storeWord (h.header.sub (by omega) (by omega))

theorem wp_getSize {f : Tile} (h : Scannable s zone fs) (hf : f ∈ fs) :
    wp (Block.getDataSize f.addr) Q s ↔ Q f.size s := by
  rw [Block.getDataSize, wp_loadWord ((h.valid f hf).sub (by omega) (by omega)), (h.data f hf).1]

theorem wp_getNext {d r : List Tile} {f : Tile} (h : Scannable s zone fs) (hfs : fs = d ++ f :: r) :
    wp (Block.getNext f.addr) Q s ↔ Q ((r.map Tile.addr).headD 0) s := by
  have hlist := h.list
  rw [hfs, List.map_append, List.map_cons] at hlist
  have hnext : word s.mem (f.addr + 24) = (r.map Tile.addr).headD 0 := hlist.next
  have hvalid := h.valid f (by simp [hfs])
  rw [Block.getNext, wp_loadWord (hvalid.sub (by omega) (by omega)), hnext]

/-- The cached maximum may be assigned. -/
theorem setMaxFree (h : Scannable s zone fs) (v : ℕ) :
    Scannable (s.withMem (setWord s.mem (zone + 40) v)) zone fs := by
  have hS : AgreeOff {x | zone + 40 ≤ x ∧ x < zone + 48} s.mem (setWord s.mem (zone + 40) v) :=
    (AgreeOff.refl _ _).write fun x hx hx' => ⟨hx, hx'⟩
  refine ⟨h.header, h.list.agreeOff hS ?_, h.data.agreeOff hS ?_, h.valid, h.node, h.off⟩
  · rintro x (hx | ⟨a, ha, hx, hx'⟩) ⟨hxz, hxz'⟩
    · omega
    · obtain ⟨f, hf, rfl⟩ := List.mem_map.mp ha
      have := h.off f hf
      simp only [blockLinks_prev, blockLinks_next] at hx hx'
      omega
  · rintro x ⟨hxz, hxz'⟩ f hf hx
    have := h.off f hf
    omega

end Scannable

/-- The memory once the cached maximum has been refreshed over the empty spaces `fs`. -/
def refreshedMem (m : Memory) (zone : ℕ) (fs : List Tile) : Memory :=
  if fs = [] then m else setWord m (zone + 40) (largest fs)

/-- Refreshing again changes nothing. -/
theorem refreshedMem_refreshedMem :
    refreshedMem (refreshedMem m zone fs) zone fs = refreshedMem m zone fs := by
  rw [refreshedMem, refreshedMem]
  split
  · rfl
  · exact writeLE_writeLE_same

/-- `update_empty_stats` caches the largest size among the empty spaces, if there is one. -/
theorem Scannable.wp_updateEmptyStats (h : Scannable s zone fs) (hz : zone ≠ null)
    (hlen : fs.length < 2 ^ 64) :
    wp (updateEmptyStats zone) (fun _ s' => s' = s.withMem (refreshedMem s.mem zone fs)) s := by
  rw [updateEmptyStats, wp_ite_neg hz, wp_bind, h.wp_getEmpties]
  cases fs with
  | nil =>
    rw [wp_ite_pos (by rfl), wp_pure]
    rfl
  | cons f fs =>
    have hf := h.node f List.mem_cons_self
    rw [List.map_cons, List.headD_cons, wp_ite_neg hf.1, wp_bind, h.wp_getEmpties, List.map_cons,
      List.headD_cons, wp_bind, h.wp_getSize List.mem_cons_self, wp_bind, h.wp_setMaxFree, wp_bind,
      (h.setMaxFree f.size).wp_getEmpties]
    -- the cached value and the spaces still ahead have the largest size between them
    refine wp_forever (fun n iter s' => ∃ d r c, f :: fs = d ++ r ∧ r.length = n ∧
      iter = (r.map Tile.addr).headD 0 ∧ s' = s.withMem (setWord s.mem (zone + 40) c) ∧
      c < 2 ^ 64 ∧ max c (largest r) = largest (f :: fs)) ?_ hlen
      ⟨[], f :: fs, f.size, rfl, rfl, rfl, rfl, hf.2, Nat.max_eq_right (Nat.le_max_left _ _)⟩
    rintro n iter s' ⟨d, r, c, hsplit, rfl, rfl, rfl, hc, hmax⟩
    have h' := h.setMaxFree c
    have hcache : word (s.withMem (setWord s.mem (zone + 40) c)).mem (zone + 40) = c :=
      readLE_writeLE_same hc
    cases r with
    | nil =>
      rw [List.map_nil, List.headD_nil, wp_ite_pos (by rfl), wp_pure, Sum.elim_inr]
      rw [largest, List.foldr_nil, Nat.max_zero] at hmax
      rw [hmax, refreshedMem, if_neg (List.cons_ne_nil _ _)]
    | cons e r =>
      have hmem : e ∈ f :: fs := hsplit ▸ by simp
      have he := h.node e hmem
      rw [List.map_cons, List.headD_cons, wp_ite_neg he.1, wp_bind, h'.wp_getSize hmem, wp_bind,
        h'.wp_getMaxFree, hcache]
      have hnext : max (max c e.size) (largest r) = largest (f :: fs) := by
        rw [← hmax, Nat.max_assoc]
        rfl
      by_cases hlt : e.size > c
      · rw [wp_ite_pos hlt, wp_bind, h'.wp_getSize hmem, wp_bind, h'.wp_setMaxFree, withMem_mem,
          withMem_withMem, setWord, writeLE_writeLE_same, wp_bind,
          (h.setMaxFree e.size).wp_getNext hsplit, wp_pure, Sum.elim_inl]
        rw [Nat.max_eq_right (Nat.le_of_lt hlt)] at hnext
        exact ⟨r.length, Nat.lt_succ_self _, d ++ [e], r, e.size, by simp [hsplit], rfl, rfl, rfl,
          he.2, hnext⟩
      · rw [wp_ite_neg hlt, wp_bind, h'.wp_getNext hsplit, wp_pure, Sum.elim_inl]
        rw [Nat.max_eq_left (Nat.le_of_not_lt hlt)] at hnext
        exact ⟨r.length, Nat.lt_succ_self _, d ++ [e], r, c, by simp [hsplit], rfl, rfl, rfl, hc,
          hnext⟩

/-- The empty spaces of a zone can be gone through. -/
theorem ZoneAt.scannable (h : ZoneAt s.mem z num rem bs (fs.map Tile.addr))
    (hv : s.Valid z.addr z.len) (hfs : ∀ t ∈ fs, t ∈ z.tiles) : Scannable s z.addr fs where
  header := h.validHeader (o := 0) hv (by omega)
  list := h.empties
  data := fun t ht => h.data t (hfs t ht)
  valid := fun t ht => h.validTile (o := 0) hv (List.mem_map_of_mem (hfs t ht)) (by omega)
  node := by
    intro t ht
    have hin := h.geo.inside t (hfs t ht)
    have hlt := h.geo.size_lt (hfs t ht)
    exact ⟨by simp only [null]; omega, by omega⟩
  off := by
    intro t ht
    have hin := h.geo.inside t (hfs t ht)
    omega

end Cache

/-! ## Scans -/

/-- A search with one kind of answer. -/
theorem findSome?_ite {α β : Type} {l : List α} {p : α → Prop} [DecidablePred p] {f : α → β} :
    (l.findSome? fun a => if p a then some (f a) else none) = (l.find? fun a => p a).map f := by
  induction l with
  | nil => rfl
  | cons a l ih =>
    rw [List.findSome?_cons, List.find?_cons]
    by_cases ha : p a <;> simp [ha, ih]

/-- Giving up as soon as a strictly increasing key has passed `k` misses no element with key `k`. -/
theorem findSome?_increasing {α : Type} {l : List α} {g f : α → ℕ} {k : ℕ}
    (hl : l.Pairwise fun a b => g a < g b) :
    (l.findSome? fun a => if g a > k then some 0 else if g a = k then some (f a) else none).getD 0 =
      ((l.find? fun a => g a = k).map f).getD 0 := by
  induction l with
  | nil => rfl
  | cons a l ih =>
    obtain ⟨ha, hl⟩ := List.pairwise_cons.mp hl
    rw [List.findSome?_cons, List.find?_cons]
    rcases Nat.lt_trichotomy (g a) k with hlt | heq | hgt
    · simp [Nat.not_lt.mpr (Nat.le_of_lt hlt), Nat.ne_of_lt hlt, ih hl]
    · simp [heq]
    · have hnone : l.find? (fun a => g a = k) = none := by
        rw [List.find?_eq_none]
        intro b hb
        have := ha b hb
        simp only [decide_eq_true_eq]
        omega
      simp [hgt, Nat.ne_of_gt hgt, hnone]

section Scans

variable {n : ℕ} {Q : ℕ → Heap → Prop}

/-- Empty spaces are fewer than any loop bound. -/
theorem ZoneAt.empties_length_lt (h : ZoneAt m z num rem bs (fs.map Tile.addr)) :
    fs.length < 2 ^ 64 := by
  have := h.geo.length_lt h.geo.empties
  rwa [List.length_map] at this

/-- No header is at the null address. -/
theorem Geometry.header_ne_null (hg : Geometry z bs es) {a : ℕ} (ha : a ∈ z.headers) :
    ¬ a = null := by
  have := hg.header ha
  simp only [null]
  omega

/-- `find_empty_space` returns the first empty space of at least `n` bytes. -/
theorem ZoneAt.wp_findEmptySpace (h : ZoneAt s.mem z num rem bs (fs.map Tile.addr))
    (hv : s.Valid z.addr z.len) (hfs : ∀ t ∈ fs, t ∈ z.tiles)
    (hQ : Q (((fs.find? fun t => n ≤ t.size).map Tile.addr).getD 0) s) :
    wp (findEmptySpace z.addr n) Q s := by
  rw [findEmptySpace, wp_bind, h.wp_getEmpties hv]
  cases fs with
  | nil =>
    rw [wp_ite_pos (by rfl), wp_pure]
    exact hQ
  | cons f fs =>
    rw [wp_ite_neg (h.geo.header_ne_null (h.geo.empties.subset (by simp))), wp_bind,
      h.wp_getEmpties hv]
    refine wp_iterate_scan (p := fun t => if n ≤ t.size then some t.addr else none) ?_ ?_
      h.empties_length_lt (by rwa [findSome?_ite])
    · rw [wp_ite_pos (by rfl), wp_pure]
      exact ⟨rfl, rfl⟩
    · intro pre e post hsplit
      have he := hfs e (hsplit ▸ by simp)
      rw [hsplit, List.map_append, List.map_cons] at h
      rw [wp_ite_neg (h.geo.header_ne_null (List.mem_map.mpr ⟨e, he, rfl⟩)), wp_bind,
        h.wp_getSize hv he]
      by_cases hle : n ≤ e.size
      · rw [wp_ite_pos hle, wp_pure, if_pos hle]
        exact ⟨rfl, rfl⟩
      · rw [wp_ite_neg hle, wp_bind, h.wp_getNext hv, wp_pure, if_neg hle]
        exact ⟨rfl, rfl⟩

/-- `is_valid_block` decides membership in the block list. -/
theorem ZoneCore.wp_isValidBlock {Q : Bool → Heap → Prop} {b : ℕ}
    (h : ZoneCore s.mem z num rem bs es) (hv : s.Valid z.addr z.len) (hb : b ≠ 0)
    (hQ : Q (decide (b ∈ bs)) s) : wp (isValidBlock b z.addr) Q s := by
  have hpos := h.geo.pos
  rw [isValidBlock, wp_ite_neg (by simp only [null]; omega), wp_bind, h.wp_getBlocks hv]
  have hfuel := h.geo.length_lt h.geo.blocks
  have hhead : bs.headD 0 = (bs.map id).headD 0 := by rw [List.map_id]
  have hfind : (bs.findSome? fun a => if a = b then some true else none).getD false =
      decide (b ∈ bs) := by
    rw [findSome?_ite]
    by_cases hmem : b ∈ bs
    · obtain ⟨a, ha⟩ := Option.isSome_iff_exists.mp
        (List.find?_isSome.mpr ⟨b, hmem, by simp⟩ : (bs.find? fun a => a = b).isSome = true)
      simp [ha, hmem]
    · have hnone : bs.find? (fun a => a = b) = none := by
        rw [List.find?_eq_none]
        intro a ha
        simp only [decide_eq_true_eq]
        exact fun heq => hmem (heq ▸ ha)
      simp [hnone, hmem]
  rw [hhead]
  refine wp_iterate_scan (p := fun a => if a = b then some true else none) ?_ ?_ hfuel
    (by rwa [hfind])
  · rw [wp_ite_pos (by rfl), wp_pure]
    exact ⟨rfl, rfl⟩
  · intro pre a post hsplit
    subst hsplit
    rw [id_eq, wp_ite_neg (h.geo.header_ne_null (h.geo.blocks.subset (by simp)))]
    by_cases hab : a = b
    · rw [wp_ite_pos hab, wp_pure, if_pos hab]
      exact ⟨rfl, rfl⟩
    · rw [wp_ite_neg hab, wp_bind, h.wp_getNext hv, wp_pure, if_neg hab, List.map_id]
      exact ⟨rfl, rfl⟩

/-- `find_empty_after` returns the empty space that starts where `t` ends, if there is one. -/
theorem ZoneAt.wp_findEmptyAfter (h : ZoneAt s.mem z num rem bs (fs.map Tile.addr))
    (hv : s.Valid z.addr z.len) (hfs : ∀ t ∈ fs, t ∈ z.tiles) (ht : t ∈ z.tiles)
    (hinc : fs.Pairwise fun e f => e.addr < f.addr)
    (hQ : Q (((fs.find? fun e => e.addr = t.stop 32).map Tile.addr).getD 0) s) :
    wp (findEmptyAfter z.addr t.addr) Q s := by
  rw [findEmptyAfter, wp_bind, h.wp_getEmpties hv]
  cases fs with
  | nil =>
    rw [wp_ite_pos (by rfl), wp_pure]
    exact hQ
  | cons f fs =>
    rw [wp_ite_neg (h.geo.header_ne_null (h.geo.empties.subset (by simp))), wp_bind,
      h.wp_getEmpties hv]
    refine wp_iterate_scan (p := fun e => if e.addr > t.stop 32 then some 0 else
      if e.addr = t.stop 32 then some e.addr else none) ?_ ?_ h.empties_length_lt
      (by rwa [findSome?_increasing hinc])
    · rw [wp_ite_pos (by rfl), wp_pure]
      exact ⟨rfl, rfl⟩
    · intro pre e post hsplit
      have he := hfs e (hsplit ▸ by simp)
      rw [hsplit, List.map_append, List.map_cons] at h
      rw [wp_ite_neg (h.geo.header_ne_null (List.mem_map.mpr ⟨e, he, rfl⟩)), wp_bind,
        h.wp_getEnd hv ht]
      rcases Nat.lt_trichotomy e.addr (t.stop 32) with hlt | heq | hgt
      · have hngt : ¬ e.addr > t.stop 32 := Nat.not_lt.mpr (Nat.le_of_lt hlt)
        rw [wp_ite_neg hngt, wp_bind, h.wp_getEnd hv ht, wp_ite_neg (Nat.ne_of_gt hlt), wp_bind,
          h.wp_getNext hv, wp_pure, if_neg hngt, if_neg (Nat.ne_of_lt hlt)]
        exact ⟨rfl, rfl⟩
      · have hngt : ¬ e.addr > t.stop 32 := by omega
        rw [wp_ite_neg hngt, wp_bind, h.wp_getEnd hv ht, wp_ite_pos heq.symm, wp_pure,
          if_neg hngt, if_pos heq]
        exact ⟨rfl, rfl⟩
      · rw [wp_ite_pos hgt, wp_pure, if_pos hgt]
        exact ⟨rfl, rfl⟩

/-- `find_empty_before` returns the empty space that ends at `b`, if there is one. -/
theorem ZoneAt.wp_findEmptyBefore {b : ℕ} (h : ZoneAt s.mem z num rem bs (fs.map Tile.addr))
    (hv : s.Valid z.addr z.len) (hfs : ∀ t ∈ fs, t ∈ z.tiles)
    (hinc : fs.Pairwise fun e f => e.stop 32 < f.stop 32)
    (hQ : Q (((fs.find? fun e => e.stop 32 = b).map Tile.addr).getD 0) s) :
    wp (findEmptyBefore z.addr b) Q s := by
  rw [findEmptyBefore, wp_bind, h.wp_getEmpties hv]
  cases fs with
  | nil =>
    rw [wp_ite_pos (by rfl), wp_pure]
    exact hQ
  | cons f fs =>
    rw [wp_ite_neg (h.geo.header_ne_null (h.geo.empties.subset (by simp))), wp_bind,
      h.wp_getEmpties hv]
    refine wp_iterate_scan (p := fun e => if e.stop 32 > b then some 0 else
      if e.stop 32 = b then some e.addr else none) ?_ ?_ h.empties_length_lt
      (by rwa [findSome?_increasing hinc])
    · rw [wp_ite_pos (by rfl), wp_pure]
      exact ⟨rfl, rfl⟩
    · intro pre e post hsplit
      have he := hfs e (hsplit ▸ by simp)
      rw [hsplit, List.map_append, List.map_cons] at h
      rw [wp_ite_neg (h.geo.header_ne_null (List.mem_map.mpr ⟨e, he, rfl⟩)), wp_bind,
        h.wp_getEnd hv he]
      rcases Nat.lt_trichotomy (e.stop 32) b with hlt | heq | hgt
      · have hngt : ¬ e.stop 32 > b := Nat.not_lt.mpr (Nat.le_of_lt hlt)
        rw [wp_ite_neg hngt, wp_bind, h.wp_getEnd hv he, wp_ite_neg (Nat.ne_of_gt hlt), wp_bind,
          h.wp_getNext hv, wp_pure, if_neg hngt, if_neg (Nat.ne_of_lt hlt)]
        exact ⟨rfl, rfl⟩
      · have hngt : ¬ e.stop 32 > b := by omega
        rw [wp_ite_neg hngt, wp_bind, h.wp_getEnd hv he, wp_ite_pos heq.symm, wp_pure,
          if_neg hngt, if_pos heq]
        exact ⟨rfl, rfl⟩
      · rw [wp_ite_pos hgt, wp_pure, if_pos hgt]
        exact ⟨rfl, rfl⟩

/-- Between operations the scan after a block goes through all empty spaces. -/
theorem ZoneRep.wp_findEmptyAfter (h : ZoneRep s.mem z) (hv : s.Valid z.addr z.len) (hz : z.Laid)
    (ht : t ∈ z.tiles)
    (hQ : Q ((((frees z.tiles).find? fun e => e.addr = t.stop 32).map Tile.addr).getD 0) s) :
    wp (findEmptyAfter z.addr t.addr) Q s := by
  refine ZoneAt.wp_findEmptyAfter h hv (fun u hu => (mem_frees.mp hu).1) ht ?_ hQ
  refine (hz.tiled.pairwise.sublist List.filter_sublist).imp fun {a b} hab => ?_
  simp only [Tile.stop, headerSize] at hab
  omega

/-- Between operations the scan before a block goes through all empty spaces. -/
theorem ZoneRep.wp_findEmptyBefore {b : ℕ} (h : ZoneRep s.mem z) (hv : s.Valid z.addr z.len)
    (hz : z.Laid)
    (hQ : Q ((((frees z.tiles).find? fun e => e.stop 32 = b).map Tile.addr).getD 0) s) :
    wp (findEmptyBefore z.addr b) Q s := by
  refine ZoneAt.wp_findEmptyBefore h hv (fun u hu => (mem_frees.mp hu).1) ?_ hQ
  refine (hz.tiled.pairwise.sublist List.filter_sublist).imp fun {a b} hab => ?_
  simp only [Tile.stop, headerSize] at hab ⊢
  omega

end Scans

end FtMalloc
