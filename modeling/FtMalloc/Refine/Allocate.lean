import FtMalloc.Refine.Merge
import FtMalloc.Abstract.Operations

/-!
# Allocation in memory

`allocate_block` refines `TiledZone.alloc`. The free node is overwritten in place before it is
unlinked through a copy on the stack, so between these two steps the list of empty spaces is only
known as the two parts around it.
-/

namespace FtMalloc

open HeapLib

variable {s s' : Heap} {z : TiledZone} {n k : ℕ} {t : Tile} {pre post : List Tile}

/-- Storing a size and the end that belongs to it. -/
theorem wp_setSizeEnd {α : Type} {b : ℕ} {rest : M α} {Q : α → Heap → Prop} (hv : s.Valid b 32)
    (hlt : b + 32 + n < 2 ^ 64)
    (hrest : ∀ s₁, s.Writes (fieldBytes [b] []) s₁ → word s₁.mem b = n →
      word s₁.mem (b + 8) = b + 32 + n → wp rest Q s₁) :
    wp (do
      Block.setDataSize b n
      Block.setEnd b (← blockEnd b)
      rest) Q s := by
  have hsize : word (s.withMem (setWord s.mem b n)).mem b = n := readLE_writeLE_same (by omega)
  rw [wp_bind, Block.setDataSize, wp_storeWord (hv.sub (by omega) (by omega)), wp_bind,
    wp_blockEnd (valid_withMem.mpr (hv.sub (by omega) (by omega))) (by omega), hsize, wp_bind,
    Block.setEnd, wp_storeWord (valid_withMem.mpr (hv.sub (by omega) (by omega))),
    withMem_withMem, withMem_mem]
  refine hrest _ (((Heap.Writes.refl _ s).write ?_).write ?_)
    ((readLE_writeLE_disjoint (by omega)).trans hsize) (readLE_writeLE_same hlt) <;>
    exact fun x hx hx' => .inl ⟨b, List.mem_singleton_self _, by omega, by omega⟩

/-- Sizes and ends of headers are header bytes. -/
theorem Heap.Writes.ofFields {a : ℕ} {hs ns ks : List ℕ} (hw : s.Writes (fieldBytes ns ks) s')
    (hns : ∀ b ∈ ns, b ∈ hs) (hks : ∀ b ∈ ks, b ∈ hs) : s.Writes (headerBytes a hs) s' := by
  refine hw.mono ?_
  rintro x (⟨b, hb, hx, hx'⟩ | ⟨b, hb, hx, hx'⟩)
  · exact .inr ⟨b, hns b hb, by omega, by omega⟩
  · exact .inr ⟨b, hks b hb, by omega, by omega⟩

/-- The size of the new block is stored in one or two steps. -/
theorem wp_storeSize {e old leftover : ℕ} (hv : s.Valid e 32)
    (hk : k = if old = 0 then n + leftover else n) (hlt : k < 2 ^ 64) :
    wp (do
      Block.setDataSize e n
      (do if old = 0 then
            Block.setDataSize e (← szAdd (← Block.getDataSize e) leftover)))
      (fun _ s₁ => s.Writes (fieldBytes [e] [e]) s₁ ∧ word s₁.mem e = k) s := by
  have hsize : ∀ x, e ≤ x → x < e + 8 → x ∈ fieldBytes [e] [e] :=
    fun x hx hx' => .inl ⟨e, List.mem_singleton_self e, by omega, by omega⟩
  have hv8 : s.Valid e 8 := hv.sub (by omega) (by omega)
  rw [wp_bind, Block.setDataSize, wp_storeWord hv8]
  have hw := (Heap.Writes.refl (fieldBytes [e] [e]) s).write (v := n) hsize
  by_cases hold : old = 0
  · rw [if_pos hold] at hk
    have hread : word (s.withMem (setWord s.mem e n)).mem e = n := readLE_writeLE_same (by omega)
    rw [wp_ite_pos hold, wp_bind, Block.getDataSize, wp_loadWord (valid_withMem.mpr hv8), hread,
      wp_bind, wp_szAdd (by omega), Block.setDataSize, wp_storeWord (valid_withMem.mpr hv8)]
    exact ⟨hw.write hsize, hk ▸ readLE_writeLE_same (by omega)⟩
  · rw [if_neg hold] at hk
    rw [wp_ite_neg hold, wp_pure]
    exact ⟨hw, hk ▸ readLE_writeLE_same (by omega)⟩

/-- The stores of `allocate_from_empty` into the header of the new block. -/
theorem wp_stampBlock {α : Type} {e old leftover : ℕ} {rest : M α} {Q : α → Heap → Prop}
    (hv : s.Valid e 32) (hk : k = if old = 0 then n + leftover else n)
    (hlt : e + 32 + k < 2 ^ 64)
    (hrest : ∀ s₁, s.Writes (fieldBytes [e] [e]) s₁ → word s₁.mem e = k →
      word s₁.mem (e + 8) = e + 32 + k → wp rest Q s₁) :
    wp (do
      Block.setDataSize e n
      (do if old = 0 then
            Block.setDataSize e (← szAdd (← Block.getDataSize e) leftover))
      Block.setEnd e (← blockEnd e)
      Block.setPrev e null
      Block.setNext e null
      rest) Q s := by
  have hstore := wp_storeSize hv hk (by omega)
  rw [wp_bind] at hstore ⊢
  refine wp_mono hstore fun _ s₀ h₀ => ?_
  rw [wp_bind]
  refine wp_mono h₀ fun _ s₁ hpost => ?_
  obtain ⟨hw₁, hk₁⟩ := hpost
  have hv₁ : s₁.Valid e 32 := hw₁.valid.mpr hv
  have hvw {m : Memory} {o : ℕ} (ho : o + 8 ≤ 32) : (s₁.withMem m).Valid (e + o) 8 :=
    valid_withMem.mpr (hv₁.sub (by omega) (by omega))
  rw [wp_bind, wp_blockEnd (hv₁.sub (by omega) (by omega)) (by omega), hk₁, wp_bind, Block.setEnd,
    wp_storeWord (hv₁.sub (by omega) (by omega)), wp_bind, Block.setPrev,
    wp_storeWord (hvw (by omega)), wp_bind, Block.setNext, withMem_withMem,
    wp_storeWord (hvw (by omega)), withMem_withMem, withMem_mem, withMem_mem]
  refine hrest _ (((hw₁.write ?_).write ?_).write ?_) ?_ ?_
  · exact fun x hx hx' => .inl ⟨e, List.mem_singleton_self e, by omega, by omega⟩
  · exact fun x hx hx' => .inr ⟨e, List.mem_singleton_self e, by omega, by omega⟩
  · exact fun x hx hx' => .inr ⟨e, List.mem_singleton_self e, by omega, by omega⟩
  · rw [word, withMem_mem, readLE_writeLE_disjoint (by omega), readLE_writeLE_disjoint (by omega),
      readLE_writeLE_disjoint (by omega)]
    exact hk₁
  · rw [word, withMem_mem, readLE_writeLE_disjoint (by omega), readLE_writeLE_disjoint (by omega)]
    exact readLE_writeLE_same hlt

/-! ## Carving the free node -/

/-- The data size of the rest of an empty space, zero when the rest stays with the block. -/
theorem wp_restSize {k : ℕ} {Q : ℕ → Heap → Prop} :
    wp (if k ≥ minSplitSize then szSub k headerSize else pure 0) Q s ↔
      Q (if k < minSplitSize then 0 else k - headerSize) s := by
  by_cases hrest : k < minSplitSize
  · rw [wp_ite_neg (Nat.not_le.mpr hrest), wp_pure, if_pos hrest]
  · rw [wp_ite_pos (Nat.not_lt.mp hrest), wp_szSub, if_neg hrest]
    simp only [minSplitSize, headerSize, alignment] at *
    omega

/-- When a tile is replaced by tiles whose headers are stored, the tiles around them keep theirs. -/
theorem TiledZone.Laid.data_around {m : Memory} {cs : List Tile}
    (hz : (z.retile (pre ++ (cs ++ post))).Laid) (ht : z.tiles = pre ++ t :: post)
    (hd : DataAt m cs) : ∀ u ∈ pre ++ (cs ++ post), u ∈ z.tiles ∧ u.addr ∉ cs.map Tile.addr ∨
      word m u.addr = u.size ∧ word m (u.addr + 8) = u.stop 32 := by
  obtain ⟨-, hmid, hpre⟩ := List.pairwise_append.mp hz.tiled.pairwise
  obtain ⟨-, -, hpost⟩ := List.pairwise_append.mp hmid
  intro u hu
  rcases List.mem_append.mp hu with hu | hu
  · refine .inl ⟨by simp [ht, hu], fun hmem => ?_⟩
    obtain ⟨v, hv, heq⟩ := List.mem_map.mp hmem
    have := hpre u hu v (List.mem_append_left _ hv)
    simp only [Tile.stop, headerSize] at this
    omega
  · rcases List.mem_append.mp hu with hu | hu
    · exact .inr (hd u hu)
    · refine .inl ⟨by simp [ht, hu], fun hmem => ?_⟩
      obtain ⟨v, hv, heq⟩ := List.mem_map.mp hmem
      have := hpost v hv u hu
      simp only [Tile.stop, headerSize] at this
      omega

section Carve

variable {num rem : ℕ} (hz : z.Laid) (ht : z.tiles = pre ++ t :: post) (hfree : t.used = false)
  (hle : n ≤ t.size) (hn : alignment ≤ n ∧ alignment ∣ n)

include ht hfree

/-- The empty spaces around a free tile. -/
theorem TiledZone.empties_around :
    z.empties = (frees pre).map Tile.addr ++ t.addr :: (frees post).map Tile.addr := by
  simp [TiledZone.empties, ht, frees_cons, hfree]

/-- The blocks around a free tile. -/
theorem TiledZone.blocks_around :
    z.blocks = (useds pre).map Tile.addr ++ (useds post).map Tile.addr := by
  simp [TiledZone.blocks, ht, useds_cons, hfree]

include hz hle hn

/-- A zone around its free node, once the headers of the carved tiles are stored and the links of
the node are overwritten. -/
theorem ZoneAt.carved (h : ZoneAt s.mem z num rem z.blocks z.empties)
    (hw : s.Writes (fieldBytes ((carve headerSize minSplitSize n t).map Tile.addr) [t.addr]) s')
    (hd : DataAt s'.mem (carve headerSize minSplitSize n t)) :
    ZoneCore s'.mem (z.retile (pre ++ (carve headerSize minSplitSize n t ++ post))) num rem z.blocks
        (z.retile (pre ++ (carve headerSize minSplitSize n t ++ post))).empties ∧
      Front blockLinks s'.mem (z.addr + 56) ((frees pre).map Tile.addr) t.addr ∧
      Segment blockLinks s'.mem t.addr ((frees post).map Tile.addr) 0 := by
  set cs := carve headerSize minSplitSize n t with hcs
  set zc := z.retile (pre ++ (cs ++ post)) with hzc
  have hlaid : zc.Laid := hz.retile_carve ht hle hn
  have hg := hlaid.geometry
  have hblocks : zc.blocks =
      (useds pre).map Tile.addr ++ t.addr :: (useds post).map Tile.addr := by
    simp [hzc, hcs, TiledZone.blocks, useds_carve]
  have hold : z.blocks.Sublist zc.blocks := by
    rw [hblocks, TiledZone.blocks_around ht hfree]
    exact List.Sublist.append_left (List.sublist_cons_self _ _) _
  have hgeo : Geometry zc z.blocks zc.empties :=
    hg.relist (hold.trans hg.blocks) hg.empties fun b hb => hg.disjoint b (hold.subset hb)
  have htb : t.addr ∉ z.blocks := by
    have hsub := hg.blocks
    rw [hblocks] at hsub
    rw [TiledZone.blocks_around ht hfree]
    exact hg.notMem hsub
  have hns : ∀ a ∈ (cs).map Tile.addr, a ∈ zc.headers := by
    intro a ha
    obtain ⟨u, hu, rfl⟩ := List.mem_map.mp ha
    exact List.mem_map_of_mem (by simp [hzc, hu])
  have hth : t.addr ∈ zc.headers := hg.blocks.subset (by simp [hblocks])
  obtain ⟨hfront, -, -, hback⟩ := listAt_append_cons.mp
    (TiledZone.empties_around ht hfree ▸ h.empties)
  have hsub : ((frees pre).map Tile.addr ++ (frees post).map Tile.addr).Sublist zc.headers := by
    refine List.Sublist.trans ?_ hg.empties
    simp only [hzc, TiledZone.empties, TiledZone.retile_tiles, frees_append, List.map_append]
    exact List.Sublist.append_left (List.sublist_append_right _ _) _
  have hoff : ∀ x ∈ linkBytes blockLinks (z.addr + 56)
      ((frees pre).map Tile.addr ++ (frees post).map Tile.addr),
      x ∉ fieldBytes ((cs).map Tile.addr) [t.addr] := by
    refine hg.fields_off (fun b hb => hsub.subset hb) (by simp [hzc]) hns fun a ha => ?_
    obtain rfl := List.mem_singleton.mp ha
    refine ⟨hth, ?_⟩
    have := h.geo.notMem (TiledZone.empties_around ht hfree ▸ h.geo.empties)
    exact this
  refine ⟨h.toZoneCore.retile hw.agreeOff hgeo hns ?_ (hlaid.data_around ht hd), ?_, ?_⟩
  · intro a ha
    obtain rfl := List.mem_singleton.mp ha
    exact ⟨hth, htb⟩
  · refine hfront.agreeOff hw.agreeOff fun x hx => hoff x ?_
    rcases hx with hx | ⟨b, hb, hx⟩
    · exact .inl hx
    · exact .inr ⟨b, List.mem_append_left _ hb, hx⟩
  · refine hback.agreeOff hw.agreeOff fun b hb x hx hx' => hoff x ?_
    exact .inr ⟨b, List.mem_append_right _ hb, hx, hx'⟩

omit hfree in
/-- The stores of carving hit headers of the carved zone. -/
theorem writes_carve (hw : s.Writes (fieldBytes ((carve headerSize minSplitSize n t).map Tile.addr)
      [t.addr]) s') :
    s.Writes (headerBytes z.addr
      (z.retile (pre ++ (carve headerSize minSplitSize n t ++ post))).headers) s' := by
  have hlaid := hz.retile_carve ht hle hn
  have hcarve : ∀ a ∈ (carve headerSize minSplitSize n t).map Tile.addr,
      a ∈ (z.retile (pre ++ (carve headerSize minSplitSize n t ++ post))).headers := by
    intro a ha
    obtain ⟨u, hu, rfl⟩ := List.mem_map.mp ha
    exact List.mem_map_of_mem (List.mem_append_right _ (List.mem_append_left _ hu))
  have htc : t.addr ∈ (carve headerSize minSplitSize n t).map Tile.addr := by
    rw [carve]
    split <;> simp
  refine hw.ofFields hcarve fun a ha => ?_
  rw [List.mem_singleton.mp ha]
  exact hcarve _ htc

/-- The node of a space that is used up is dropped. -/
theorem ZoneAt.wp_dropNode (h : ZoneAt s.mem z num rem z.blocks z.empties)
    (hv : s.Valid z.addr z.len) (hw : s.Writes (fieldBytes [t.addr] [t.addr]) s')
    (hrest : t.size - n < minSplitSize) (hsize : word s'.mem t.addr = t.size)
    (hend : word s'.mem (t.addr + 8) = t.addr + 32 + t.size) :
    wp (removeBlock z.addr (.stack ⟨0, t.stop 32, ((frees pre).map Tile.addr).getLastD 0,
        ((frees post).map Tile.addr).headD 0⟩) .empty)
      (fun _ s₂ => s.Writes (headerBytes z.addr
          (z.retile (pre ++ (carve headerSize minSplitSize n t ++ post))).headers) s₂ ∧
        ZoneAt s₂.mem (z.retile (pre ++ (carve headerSize minSplitSize n t ++ post))) num rem
          z.blocks (z.retile (pre ++ (carve headerSize minSplitSize n t ++ post))).empties) s' := by
  have hcs : carve headerSize minSplitSize n t = [{ t with used := true }] := by
    rw [carve, if_pos hrest]
  have hd : DataAt s'.mem (carve headerSize minSplitSize n t) := by
    rw [hcs]
    intro u hu
    obtain rfl := List.mem_singleton.mp hu
    exact ⟨hsize, hend⟩
  have hw' : s.Writes (fieldBytes ((carve headerSize minSplitSize n t).map Tile.addr)
      [t.addr]) s' := by
    rw [hcs]
    exact hw
  have hempties : (z.retile (pre ++ (carve headerSize minSplitSize n t ++ post))).empties =
      (frees pre).map Tile.addr ++ (frees post).map Tile.addr := by
    rw [TiledZone.empties, TiledZone.retile_tiles, frees_append, frees_append, frees_carve,
      if_pos hrest, List.map_append]
    rfl
  obtain ⟨hcore, hfront, hback⟩ := h.carved hz ht hfree hle hn hw' hd
  have hwc := writes_carve hz ht hle hn hw'
  have hsub := (hz.retile_carve ht hle hn).geometry.empties
  rw [hempties] at hsub hcore ⊢
  refine wp_mono (hcore.geo.wp_closeCut (hw.valid.mpr hv) (listCell_empty z.addr).symm hfront hback
    hsub ⟨rfl, rfl⟩ trivial) fun _ s₂ hpost => ?_
  obtain ⟨hw₂, hlist⟩ := hpost
  exact ⟨hwc.trans (Geometry.writes_headers (listCell_empty _).symm hsub hw₂),
    hcore.relistEmpties hlist hw₂.agreeOff hsub hcore.geo.disjoint⟩

omit hz ht hfree hle hn in
/-- Both headers of a cut tile, once size and end of the rest are stored behind the block. -/
theorem dataAt_carve (hrest : ¬ t.size - n < minSplitSize) (hlt : t.stop 32 < 2 ^ 64)
    (hw : s.Writes (fieldBytes [t.addr] [t.addr]) s') (hsize : word s'.mem t.addr = n)
    (hend : word s'.mem (t.addr + 8) = t.addr + 32 + n) :
    s.Writes (fieldBytes ((carve headerSize minSplitSize n t).map Tile.addr) [t.addr])
      (s'.withMem (setWord (setWord s'.mem (t.addr + 32 + n) (t.size - n - headerSize))
        (t.addr + 32 + n + 8) (t.stop 32))) ∧
    DataAt (setWord (setWord s'.mem (t.addr + 32 + n) (t.size - n - headerSize))
      (t.addr + 32 + n + 8) (t.stop 32)) (carve headerSize minSplitSize n t) := by
  have hcs : carve headerSize minSplitSize n t =
      [⟨t.addr, n, true⟩, ⟨t.addr + 32 + n, t.size - n - headerSize, false⟩] := by
    rw [carve, if_neg hrest]
    rfl
  simp only [minSplitSize, headerSize, alignment] at hrest
  have hstop : t.stop 32 = t.addr + 32 + n + 32 + (t.size - n - headerSize) := by
    simp only [Tile.stop, headerSize]
    omega
  rw [hcs]
  constructor
  · refine ((hw.mono ?_).write ?_).write ?_
    · rintro x (⟨a, ha, hx⟩ | hx)
      · obtain rfl := List.mem_singleton.mp ha
        exact .inl ⟨t.addr, by simp, hx⟩
      · exact .inr hx
    · exact fun x hx hx' => .inl ⟨t.addr + 32 + n, by simp, by omega, by omega⟩
    · exact fun x hx hx' => .inl ⟨t.addr + 32 + n, by simp, by omega, by omega⟩
  · intro u hu
    rcases List.mem_cons.mp hu with rfl | hu
    · constructor
      · exact ((readLE_writeLE_disjoint (.inl (by simp only; omega))).trans
          (readLE_writeLE_disjoint (.inl (by simp only; omega)))).trans hsize
      · exact ((readLE_writeLE_disjoint (.inl (by simp only; omega))).trans
          (readLE_writeLE_disjoint (.inl (by simp only; omega)))).trans hend
    · obtain rfl := List.mem_singleton.mp hu
      constructor
      · refine (readLE_writeLE_disjoint (.inl (by simp only; omega))).trans ?_
        exact readLE_writeLE_same (by omega)
      · exact (readLE_writeLE_same (by omega)).trans hstop

/-- The rest of a space becomes an empty space in the place of its node. -/
theorem ZoneAt.wp_fillNode (h : ZoneAt s.mem z num rem z.blocks z.empties)
    (hv : s.Valid z.addr z.len) (hw : s.Writes (fieldBytes [t.addr] [t.addr]) s')
    (hrest : ¬ t.size - n < minSplitSize) (hsize : word s'.mem t.addr = n)
    (hend : word s'.mem (t.addr + 8) = t.addr + 32 + n) :
    wp (do
      let newEmpty ← Block.getEnd t.addr
      Block.setDataSize newEmpty (t.size - n - headerSize)
      Block.setEnd newEmpty (t.stop 32)
      replaceBlock z.addr (.stack ⟨t.size - n - headerSize, t.stop 32,
        ((frees pre).map Tile.addr).getLastD 0, ((frees post).map Tile.addr).headD 0⟩) newEmpty
        .empty)
      (fun _ s₂ => s.Writes (headerBytes z.addr
          (z.retile (pre ++ (carve headerSize minSplitSize n t ++ post))).headers) s₂ ∧
        ZoneAt s₂.mem (z.retile (pre ++ (carve headerSize minSplitSize n t ++ post))) num rem
          z.blocks (z.retile (pre ++ (carve headerSize minSplitSize n t ++ post))).empties) s' := by
  have hvt : s.Valid t.addr 32 := h.validTile (o := 0) hv (by simp [TiledZone.headers, ht])
    (by omega)
  have htin := h.geo.inside t (by simp [ht])
  have hbound := h.geo.bound
  obtain ⟨hw₁, hd⟩ := dataAt_carve hrest (by omega) hw hsize hend
  have hempties : (z.retile (pre ++ (carve headerSize minSplitSize n t ++ post))).empties =
      (frees pre).map Tile.addr ++ (t.addr + 32 + n) :: (frees post).map Tile.addr := by
    rw [TiledZone.empties, TiledZone.retile_tiles, frees_append, frees_append, frees_carve,
      if_neg hrest, List.map_append]
    rfl
  have hrest' : n + 48 ≤ t.size := by
    simp only [minSplitSize, headerSize, alignment] at hrest
    omega
  simp only [Tile.stop] at htin
  have hve : s'.Valid (t.addr + 32 + n) 32 := hw.valid.mpr (hv.sub (by omega) (by omega))
  rw [wp_bind, Block.getEnd, wp_loadWord ((hw.valid.mpr hvt).sub (by omega) (by omega)), hend,
    wp_bind, Block.setDataSize, wp_storeWord (hve.sub (by omega) (by omega)), wp_bind, Block.setEnd,
    wp_storeWord (valid_withMem.mpr (hve.sub (by omega) (by omega))), withMem_withMem, withMem_mem]
  obtain ⟨hcore, hfront, hback⟩ := h.carved hz ht hfree hle hn hw₁ hd
  have hwc := writes_carve hz ht hle hn hw₁
  have hsub := (hz.retile_carve ht hle hn).geometry.empties
  rw [hempties] at hsub hcore ⊢
  refine wp_mono (hcore.geo.wp_fillCut (hw₁.valid.mpr hv) (listCell_empty z.addr).symm hfront hback
    hsub ⟨rfl, rfl⟩ trivial) fun _ s₂ hpost => ?_
  obtain ⟨hw₂, hlist⟩ := hpost
  exact ⟨hwc.trans (Geometry.writes_headers (listCell_empty _).symm hsub hw₂),
    hcore.relistEmpties hlist hw₂.agreeOff hsub hcore.geo.disjoint⟩

/-- `update_empty_spaces` puts the rest of the carved node in its place, or nothing. -/
theorem ZoneAt.wp_updateEmptySpaces (h : ZoneAt s.mem z num rem z.blocks z.empties)
    (hv : s.Valid z.addr z.len) (hw : s.Writes (fieldBytes [t.addr] [t.addr]) s')
    (hsize : word s'.mem t.addr = if t.size - n < minSplitSize then t.size else n)
    (hend : word s'.mem (t.addr + 8) =
      t.addr + 32 + if t.size - n < minSplitSize then t.size else n) :
    wp (updateEmptySpaces z.addr
        ⟨if t.size - n < minSplitSize then 0 else t.size - n - headerSize, t.stop 32,
          ((frees pre).map Tile.addr).getLastD 0, ((frees post).map Tile.addr).headD 0⟩ t.addr)
      (fun _ s₂ => s.Writes (headerBytes z.addr
          (z.retile (pre ++ (carve headerSize minSplitSize n t ++ post))).headers) s₂ ∧
        ZoneAt s₂.mem (z.retile (pre ++ (carve headerSize minSplitSize n t ++ post))) num rem
          z.blocks (z.retile (pre ++ (carve headerSize minSplitSize n t ++ post))).empties) s' := by
  rw [updateEmptySpaces]
  by_cases hrest : t.size - n < minSplitSize
  · rw [if_pos hrest] at hsize hend
    rw [if_pos hrest, wp_ite_neg (by simp)]
    exact h.wp_dropNode hz ht hfree hle hn hv hw hrest hsize hend
  · rw [if_neg hrest] at hsize hend
    have hleft : t.size - n - headerSize ≠ 0 := by
      simp only [minSplitSize, headerSize, alignment] at *
      omega
    rw [if_neg hrest, wp_ite_pos hleft]
    exact h.wp_fillNode hz ht hfree hle hn hv hw hrest hsize hend

omit hz ht hfree hn in
/-- Nothing is kept for a rest exactly when the block gets the whole tile. -/
theorem stampedSize :
    (if t.size - n < minSplitSize then t.size else n) =
      if (if t.size - n < minSplitSize then 0 else t.size - n - headerSize) = 0
        then n + (t.size - n) else n := by
  by_cases hrest : t.size - n < minSplitSize
  · rw [if_pos hrest, if_pos hrest, if_pos rfl, Nat.add_sub_cancel' hle]
  · rw [if_neg hrest, if_neg hrest, if_neg]
    simp only [minSplitSize, headerSize, alignment] at *
    omega

omit hz ht hfree hle hn in
/-- The counters follow a new block. -/
theorem ZoneAt.wp_countBlock {bs : List ℕ} (h : ZoneAt s.mem z num rem bs z.empties)
    (hv : s.Valid z.addr z.len) (hmem : t ∈ z.tiles) (hle : t.size + headerSize ≤ rem)
    (hlt : rem < 2 ^ 64) :
    wp (do
      Zone.setBlocksNum z.addr (← uAdd (← Zone.getBlocksNum z.addr) 1)
      Zone.setRemainingSpace z.addr (← szSub (← Zone.getRemainingSpace z.addr)
        (← szAdd (← Block.getDataSize t.addr) headerSize))
      updateEmptyStats z.addr
      return t.addr) (fun r s' => r = t.addr ∧
        s.Counts (num + 1 < 2 ^ 32) (headerBytes z.addr []) s' ∧
        ZoneAt s'.mem z.refresh ((num + 1) % 2 ^ 32) (rem - (t.size + headerSize)) bs
          z.refresh.empties) s := by
  rw [wp_bind, h.wp_getNum hv, wp_bind]
  refine wp_uAdd fun s₀ hc₀ hmem₀ => ?_
  have h₀ : ZoneAt s₀.mem z num rem bs z.empties := hmem₀ ▸ h
  rw [wp_bind]
  refine wp_mono (h₀.wp_setNum (hc₀.valid.mpr hv) (Nat.mod_lt _ (by decide))) fun _ s₁ hpost => ?_
  obtain ⟨hw₁, h₁⟩ := hpost
  have hv₁ := hw₁.valid.mpr (hc₀.valid.mpr hv)
  rw [wp_bind, h₁.wp_getRemaining hv₁, wp_bind, h₁.wp_getSize hv₁ hmem, wp_bind,
    wp_szAdd (Nat.lt_of_le_of_lt hle hlt), wp_bind, wp_szSub hle, wp_bind]
  refine wp_mono (h₁.wp_setRemaining hv₁ (Nat.lt_of_le_of_lt (Nat.sub_le _ _) hlt))
    fun _ s₂ hpost => ?_
  obtain ⟨hw₂, h₂⟩ := hpost
  rw [wp_bind]
  refine wp_mono (h₂.wp_refresh (hw₂.valid.mpr hv₁)) fun _ s₃ hpost => ?_
  obtain ⟨hw₃, h₃⟩ := hpost
  rw [wp_pure]
  exact ⟨rfl, (hc₀.mono (Set.empty_subset _)).trans ((hw₁.trans hw₂).trans hw₃).counts, h₃⟩

/-- `allocate_from_empty` carves the block off the free node. -/
theorem ZoneRep.wp_allocateFromEmpty (h : ZoneRep s.mem z) (hv : s.Valid z.addr z.len)
    (hc : Coalesced z.tiles) :
    wp (allocateFromEmpty z.addr t.addr n) (fun r s' => r = t.addr ∧
      ZoneRep s'.mem (z.splice pre (carve headerSize minSplitSize n t) post) ∧
      s.Counts (z.blocks.length + 1 < 2 ^ 32) (headerBytes z.addr (z.headers ++
        (z.retile (pre ++ (carve headerSize minSplitSize n t ++ post))).headers)) s') s := by
  have hlaid := hz.retile_carve ht hle hn
  obtain ⟨num, hnum⟩ : ∃ num, num = z.blocks.length % 2 ^ 32 := ⟨_, rfl⟩
  have hrep : ZoneAt s.mem z num z.remaining z.blocks z.empties := hnum ▸ h
  have htm : t ∈ z.tiles := by simp [ht]
  have hvt : s.Valid t.addr 32 := h.validTile (o := 0) hv (List.mem_map_of_mem htm) (by omega)
  have htin := h.geo.inside t htm
  have hbound := h.geo.bound
  have hemp := hrep
  rw [TiledZone.empties_around ht hfree] at hemp
  rw [TiledZone.splice_of_coalesced (coalesced_carve (ht ▸ hc) hfree)]
  have hocc := hz.remaining_retile [t] _ ht hlaid
  rw [occupied_carve, occupied_singleton, hfree, if_neg Bool.false_ne_true, Nat.add_zero] at hocc
  set zc := z.retile (pre ++ (carve headerSize minSplitSize n t ++ post)) with hzc
  have hblocks : zc.blocks =
      (useds pre).map Tile.addr ++ t.addr :: (useds post).map Tile.addr := by
    simp [hzc, TiledZone.blocks, useds_carve]
  have hnum' : (num + 1) % 2 ^ 32 = zc.blocks.length % 2 ^ 32 := by
    rw [hblocks, hnum, TiledZone.blocks_around ht hfree]
    simp only [List.length_append, List.length_cons]
    omega
  -- the size the block gets
  obtain ⟨k, hk⟩ : ∃ k, k = if t.size - n < minSplitSize then t.size else n := ⟨_, rfl⟩
  have hkle : k ≤ t.size := by
    rw [hk]
    split <;> omega
  have hblock : (⟨t.addr, k, true⟩ : Tile) ∈ zc.tiles := by
    refine List.mem_append_right _ (List.mem_append_left _ ?_)
    rw [hk]
    exact mem_carve
  rw [← hk] at hocc
  simp only [Tile.stop] at htin
  rw [allocateFromEmpty, wp_bind, hrep.wp_getSize hv htm, wp_bind, wp_szSub hle, wp_bind, wp_restSize,
    wp_bind, hrep.wp_getEnd hv htm, wp_bind, hemp.wp_getPrev hv, wp_bind, hemp.wp_getNext hv]
  refine wp_stampBlock hvt (hk.trans (stampedSize hle)) (by omega) fun s₁ hw₁ hsize₁ hend₁ => ?_
  rw [hk] at hsize₁ hend₁
  rw [wp_bind]
  refine wp_mono (hrep.wp_updateEmptySpaces hz ht hfree hle hn hv hw₁ hsize₁ hend₁)
    fun _ s₂ hpost => ?_
  obtain ⟨hw₂, h₂⟩ := hpost
  have hgeo := hlaid.geometry
  rw [TiledZone.blocks_around ht hfree] at h₂
  rw [wp_bind, addBlockToList]
  refine wp_mono (h₂.wp_insertBlock (hw₂.valid.mpr hv) (hblocks ▸ hgeo.blocks)
    (hgeo.disjoint _ (by rw [hblocks]; simp))) fun _ s₃ hpost => ?_
  obtain ⟨hw₃, h₃⟩ := hpost
  rw [← hblocks] at h₃
  have hw₃ := hw₂.trans hw₃
  refine wp_mono (h₃.wp_countBlock (t := ⟨t.addr, k, true⟩) (hw₃.valid.mpr hv) hblock
    (show k + headerSize ≤ z.remaining by omega) hz.remaining_lt) fun r s₄ hpost => ?_
  obtain ⟨hr, hw₄, h₄⟩ := hpost
  have hsucc : z.blocks.length + 1 < 2 ^ 32 → num + 1 < 2 ^ 32 := by
    intro hlt
    rw [hnum]
    omega
  have hw₄ := hw₃.counts.trans ((hw₄.mono headerBytes_nil_subset).imp hsucc)
  have hrem : z.remaining - (k + headerSize) = zc.remaining := by omega
  refine ⟨hr, ?_, hw₄.mono (headerBytes_mono fun b hb => List.mem_append_right _ hb)⟩
  rw [ZoneRep, TiledZone.refresh_blocks, TiledZone.refresh_remaining, ← hnum', ← hrem]
  exact h₄

end Carve

/-- The first free tile that is large enough is the first empty space that is. -/
theorem TiledZone.find?_empties (z : TiledZone) (n : ℕ) :
    ((frees z.tiles).find? fun t => n ≤ t.size) =
      (cutAt (fun t => !t.used && decide (n ≤ t.size)) z.tiles).map fun c => c.2.1 := by
  rw [frees, List.find?_filter, ← find?_eq_cutAt]
  simp only [Bool.decide_and, Bool.decide_eq_true]

/-- `allocate_block` refines `TiledZone.alloc`. -/
theorem ZoneRep.wp_allocateBlock (h : ZoneRep s.mem z) (hv : s.Valid z.addr z.len) (hz : z.Laid)
    (hc : Coalesced z.tiles) (hn : alignment ≤ n ∧ alignment ∣ n) :
    wp (allocateBlock z.addr n) (fun r s' =>
      match z.alloc n with
      | none => r = 0 ∧ s' = s
      | some (b, z') => r = b ∧ ZoneRep s'.mem z' ∧
        s.Counts (z.blocks.length + 1 < 2 ^ 32) (z.churn z') s') s := by
  have hrep : ZoneAt s.mem z _ _ z.blocks z.empties := h
  rw [allocateBlock, wp_bind]
  refine hrep.wp_findEmptySpace hv (fun t ht => (mem_frees.mp ht).1) ?_
  rw [z.find?_empties, TiledZone.alloc]
  cases hcut : cutAt (fun t : Tile => !t.used && decide (n ≤ t.size)) z.tiles with
  | none =>
    rw [wp_ite_pos (by rfl), wp_pure]
    exact ⟨rfl, rfl⟩
  | some c =>
    obtain ⟨pre, t, post⟩ := c
    obtain ⟨ht, hp, -⟩ := cutAt_eq_some.mp hcut
    simp only [Bool.and_eq_true, Bool.not_eq_true', decide_eq_true_eq] at hp
    have hth : t.addr ∈ z.headers := List.mem_map_of_mem (by simp [ht])
    refine (wp_ite_neg (hrep.geo.header_ne_null hth)).mpr ?_
    refine wp_mono (h.wp_allocateFromEmpty hz ht hp.1 hp.2 hn hv hc) ?_
    rintro r s' ⟨rfl, hrep', hw⟩
    exact ⟨rfl, hrep', hw.mono (hz.headerBytes_subset_churn (hz.retile_carve ht hp.2 hn))⟩

end FtMalloc
