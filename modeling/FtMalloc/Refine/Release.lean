import FtMalloc.Refine.Allocate

/-!
# Release and shrinking in memory

`convert_block_to_empty` refines `TiledZone.release` and `split_block` refines the cut of a block.
Both end with an insertion into the list of empty spaces followed by a merge, which together turn
a tiling with neighbouring empty spaces into a coalesced one.
-/

namespace FtMalloc

open HeapLib

variable {s : Heap} {z : TiledZone} {n num rem : ℕ} {t : Tile} {pre mid post : List Tile}

/-- The use of a tile is not stored in its header. -/
theorem ZoneAt.mark {bs es : List ℕ} (h : ZoneAt s.mem z num rem bs es)
    (ht : z.tiles = pre ++ t :: post) (v : Bool) :
    ZoneAt s.mem (z.retile (pre ++ ([{ t with used := v }] ++ post))) num rem bs es := by
  have hheads : (z.retile (pre ++ ([{ t with used := v }] ++ post))).headers = z.headers := by
    simp [TiledZone.headers, ht]
  have hinside : ∀ u ∈ pre ++ ([{ t with used := v }] ++ post), ∃ w ∈ z.tiles,
      u.addr = w.addr ∧ u.size = w.size := by
    intro u hu
    rcases List.mem_append.mp hu with hu | hu
    · exact ⟨u, by simp [ht, hu], rfl, rfl⟩
    · rcases List.mem_cons.mp hu with rfl | hu
      · exact ⟨t, by simp [ht], rfl, rfl⟩
      · exact ⟨u, by simp [ht, show u ∈ post from hu], rfl, rfl⟩
  refine h.retile [] (AgreeOff.refl _ _) ?_ (fun _ ha => absurd ha List.not_mem_nil) ?_
  · refine ⟨h.geo.pos, h.geo.bound, h.geo.room, fun u hu => ?_, ?_, ?_, ?_, h.geo.disjoint⟩
    · obtain ⟨w, hw, haddr, hsize⟩ := hinside u hu
      have := h.geo.inside w hw
      simp only [Tile.stop, haddr, hsize] at this ⊢
      exact this
    · rw [hheads]
      exact h.geo.spaced
    · rw [hheads]
      exact h.geo.blocks
    · rw [hheads]
      exact h.geo.empties
  · intro u hu
    obtain ⟨w, hw, haddr, hsize⟩ := hinside u hu
    obtain ⟨hs, he⟩ := h.data w hw
    exact .inr ⟨haddr ▸ hsize ▸ hs, by simpa only [Tile.stop, haddr, hsize] using he⟩

/-- Merging finishes an edit of a zone. -/
theorem ZoneAt.wp_mergeSplice
    (h : ZoneAt s.mem (z.retile (pre ++ (mid ++ post))) num rem
      (z.retile (pre ++ (mid ++ post))).blocks (z.retile (pre ++ (mid ++ post))).empties)
    (hv : s.Valid z.addr z.len) (hz : (z.retile (pre ++ (mid ++ post))).Laid)
    (hnum : num = (z.retile (pre ++ (mid ++ post))).blocks.length % 2 ^ 32)
    (hrem : rem = (z.retile (pre ++ (mid ++ post))).remaining) :
    wp (mergeEmptySpaces z.addr) (fun _ s' => ZoneRep s'.mem (z.splice pre mid post) ∧
      s.Writes (headerBytes z.addr (z.retile (pre ++ (mid ++ post))).headers) s') s := by
  refine wp_mono (h.wp_mergeEmptySpaces hv hz) fun _ s' hpost => ?_
  obtain ⟨hw, h'⟩ := hpost
  refine ⟨?_, hw⟩
  rw [ZoneRep, hz.remaining_splice, ← hrem, TiledZone.splice, TiledZone.refresh_blocks,
    TiledZone.coalesced_blocks, ← hnum]
  rw [TiledZone.refresh_blocks, TiledZone.coalesced_blocks] at h'
  exact h'

/-- Listing a tile as an empty space and merging completes a splice. -/
theorem ZoneAt.wp_insertSplice {e : ℕ} {es₁ es₂ : List ℕ}
    (h : ZoneAt s.mem (z.retile (pre ++ (mid ++ post))) num rem
      (z.retile (pre ++ (mid ++ post))).blocks (es₁ ++ es₂))
    (hv : s.Valid z.addr z.len) (hz : (z.retile (pre ++ (mid ++ post))).Laid)
    (hempties : (z.retile (pre ++ (mid ++ post))).empties = es₁ ++ e :: es₂)
    (hnum : num = (z.retile (pre ++ (mid ++ post))).blocks.length % 2 ^ 32)
    (hrem : rem = (z.retile (pre ++ (mid ++ post))).remaining) :
    wp (do
      insertSorted (z.addr + 56) e
      mergeEmptySpaces z.addr) (fun _ s' => ZoneRep s'.mem (z.splice pre mid post) ∧
        s.Writes (headerBytes z.addr (z.retile (pre ++ (mid ++ post))).headers) s') s := by
  have hgeo := hz.geometry
  rw [wp_bind]
  refine wp_mono (h.wp_insertEmpty (x := e) hv (hempties ▸ hgeo.empties) fun hb => ?_)
    fun _ s₁ hpost => ?_
  · exact hgeo.disjoint _ hb (by rw [hempties]; simp)
  obtain ⟨hw₁, h₁⟩ := hpost
  rw [← hempties] at h₁
  refine wp_mono (h₁.wp_mergeSplice (hw₁.valid.mpr hv) hz hnum hrem) fun _ s₂ hpost => ?_
  obtain ⟨hw₂, h₂⟩ := hpost
  exact ⟨hw₂, hw₁.trans h₂⟩

/-- `convert_block_to_empty` turns the block into an empty space and joins it with its
neighbours. -/
theorem ZoneRep.wp_convertBlockToEmpty (h : ZoneRep s.mem z) (hv : s.Valid z.addr z.len)
    (hz : z.Laid) (ht : z.tiles = pre ++ t :: post) (hused : t.used = true) :
    wp (convertBlockToEmpty z.addr t.addr) (fun _ s' =>
      ZoneRep s'.mem (z.splice pre [{ t with used := false }] post) ∧
      s.Counts (z.blocks.length < 2 ^ 32) (z.churn (z.splice pre [{ t with used := false }] post))
        s') s := by
  have hlaid := hz.retile_mark ht false
  set zf := z.retile (pre ++ ([{ t with used := false }] ++ post)) with hzf
  obtain ⟨num, hnum⟩ : ∃ num, num = z.blocks.length % 2 ^ 32 := ⟨_, rfl⟩
  have hrep : ZoneAt s.mem z num z.remaining z.blocks z.empties := hnum ▸ h
  have htm : t ∈ z.tiles := by simp [ht]
  have hblocks : z.blocks =
      (useds pre).map Tile.addr ++ t.addr :: (useds post).map Tile.addr := by
    simp [TiledZone.blocks, ht, useds_cons, hused]
  have hempties : z.empties = (frees pre).map Tile.addr ++ (frees post).map Tile.addr := by
    simp [TiledZone.empties, ht, frees_cons, hused]
  have hzblocks : zf.blocks = (useds pre).map Tile.addr ++ (useds post).map Tile.addr := by
    simp [hzf, TiledZone.blocks, useds_cons]
  have hzempties : zf.empties =
      (frees pre).map Tile.addr ++ t.addr :: (frees post).map Tile.addr := by
    simp [hzf, TiledZone.empties, frees_cons]
  have hin := h.geo.inside t htm
  have hbound := h.geo.bound
  have hrem : zf.remaining = z.remaining + (t.size + headerSize) := by
    have := hz.remaining_retile [t] _ ht hlaid
    rwa [occupied_singleton, occupied_singleton, if_pos hused, if_neg Bool.false_ne_true] at this
  have hremlt := hlaid.remaining_lt
  have hpos : z.blocks.length < 2 ^ 32 → 1 ≤ num := by
    intro hlt
    rw [hnum, Nat.mod_eq_of_lt hlt, hblocks, List.length_append, List.length_cons]
    omega
  rw [convertBlockToEmpty, wp_bind]
  rw [hblocks, hempties] at hrep
  refine wp_mono (hrep.wp_removeBlock hv) fun _ s₁ hpost => ?_
  obtain ⟨hw₁, h₁⟩ := hpost
  rw [wp_bind, h₁.wp_getNum (hw₁.valid.mpr hv), wp_bind]
  refine wp_uSub (hnum ▸ Nat.mod_lt _ (by decide)) Nat.one_pos fun s₀ hc₀ hmem₀ => ?_
  have hc₀ := hw₁.counts.trans ((hc₀.imp hpos).mono (Set.empty_subset _))
  rw [← hmem₀] at h₁
  rw [wp_bind]
  refine wp_mono (h₁.wp_setNum (hc₀.valid.mpr hv) (Nat.mod_lt _ (by decide)))
    fun _ s₂ hpost => ?_
  obtain ⟨hw₂, h₂⟩ := hpost
  have hw₂ := hc₀.trans (hw₂.mono headerBytes_nil_subset).counts
  have hv₂ := hw₂.valid.mpr hv
  rw [wp_bind, h₂.wp_getRemaining hv₂, wp_bind, h₂.wp_getSize hv₂ htm, wp_bind,
    wp_szAdd (by simp only [Tile.stop, headerSize] at *; omega), wp_bind,
    wp_szAdd (by rw [← hrem]; exact hremlt), wp_bind, ← hrem]
  refine wp_mono (h₂.wp_setRemaining hv₂ hremlt) fun _ s₃ hpost => ?_
  obtain ⟨hw₃, h₃⟩ := hpost
  have hw₃ := hw₂.trans (hw₃.mono headerBytes_nil_subset).counts
  have h₃ := h₃.mark ht false
  rw [← hzblocks] at h₃
  refine wp_mono (h₃.wp_insertSplice (hw₃.valid.mpr hv) hlaid hzempties ?_ rfl) fun _ s₄ hpost => ?_
  · rw [hnum, ← hzf, hzblocks, hblocks]
    simp only [List.length_append, List.length_cons]
    omega
  · obtain ⟨h₄, hw₄⟩ := hpost
    refine ⟨h₄, ((hw₃.mono ?_).trans (hw₄.mono ?_).counts).mono (hz.headerBytes_subset_churn hlaid)⟩
    · exact headerBytes_mono fun b hb => List.mem_append_left _ hb
    · exact headerBytes_mono fun b hb => List.mem_append_right _ hb

/-- Tiles that carry no node may be dropped. -/
theorem ZoneAt.thin {bs es : List ℕ} (h : ZoneAt s.mem z num rem bs es) (ts : List Tile)
    (ht : ts.Sublist z.tiles) (hb : bs.Sublist (ts.map Tile.addr))
    (he : es.Sublist (ts.map Tile.addr)) : ZoneAt s.mem (z.retile ts) num rem bs es :=
  h.retile [] (AgreeOff.refl _ _) (h.geo.thin ht hb he)
    (fun _ ha => absurd ha List.not_mem_nil) fun _ hmem =>
      .inl ⟨ht.subset hmem, List.not_mem_nil⟩

/-- Changing the size of a tile in its header. -/
theorem ZoneAt.resize {bs es : List ℕ} {s' : Heap} (h : ZoneAt s.mem z num rem bs es)
    (ht : z.tiles = pre ++ t :: post) (hfit : t.addr + 32 + n ≤ z.addr + z.len)
    (hw : s.Writes (fieldBytes [t.addr] []) s') (hsize : word s'.mem t.addr = n)
    (hend : word s'.mem (t.addr + 8) = t.addr + 32 + n) :
    ZoneAt s'.mem (z.retile (pre ++ { t with size := n } :: post)) num rem bs es := by
  have hheads : (z.retile (pre ++ { t with size := n } :: post)).headers = z.headers := by
    simp [TiledZone.headers, ht]
  have hgeo : Geometry (z.retile (pre ++ { t with size := n } :: post)) bs es := by
    refine ⟨h.geo.pos, h.geo.bound, h.geo.room, fun u hu => ?_, ?_, ?_, ?_, h.geo.disjoint⟩
    · rcases List.mem_append.mp hu with hu | hu
      · exact h.geo.inside u (by simp [ht, hu])
      · rcases List.mem_cons.mp hu with rfl | hu
        · have := h.geo.inside t (by simp [ht])
          simp only [Tile.stop, TiledZone.retile_addr, TiledZone.retile_len] at this ⊢
          exact ⟨this.1, hfit⟩
        · exact h.geo.inside u (by simp [ht, hu])
    · rw [hheads]
      exact h.geo.spaced
    · rw [hheads]
      exact h.geo.blocks
    · rw [hheads]
      exact h.geo.empties
  have hspaced := h.geo.spaced
  rw [TiledZone.headers, ht, List.map_append, List.map_cons] at hspaced
  obtain ⟨-, hcons, hcross⟩ := List.pairwise_append.mp hspaced
  refine h.retile [t.addr] hw.agreeOff hgeo (fun a ha => ?_) fun u hu => ?_
  · rw [hheads, List.mem_singleton.mp ha]
    exact List.mem_map_of_mem (by simp [ht])
  · rcases List.mem_append.mp hu with hu | hu
    · refine .inl ⟨by simp [ht, hu], fun hmem => ?_⟩
      have := hcross u.addr (List.mem_map_of_mem hu) t.addr List.mem_cons_self
      rw [List.mem_singleton.mp hmem] at this
      omega
    · rcases List.mem_cons.mp hu with rfl | hu
      · exact .inr ⟨hsize, hend⟩
      · refine .inl ⟨by simp [ht, hu], fun hmem => ?_⟩
        have := (List.pairwise_cons.mp hcons).1 u.addr (List.mem_map_of_mem hu)
        rw [List.mem_singleton.mp hmem] at this
        omega

/-- A block is shortened, and the bytes that it gives up are counted as free. -/
theorem ZoneAt.wp_shorten {α : Type} {bs es : List ℕ} {rest : M α} {Q : α → Heap → Prop}
    (h : ZoneAt s.mem z num rem bs es) (hv : s.Valid z.addr z.len) (ht : z.tiles = pre ++ t :: post)
    (hle : n ≤ t.size) (hrem : rem + (t.size - n) < 2 ^ 64)
    (hrest : ∀ s', s.Writes (headerBytes z.addr z.headers) s' →
      ZoneAt s'.mem (z.retile (pre ++ { t with size := n } :: post)) num (rem + (t.size - n)) bs es →
      wp rest Q s') :
    wp (do
      Block.setDataSize t.addr n
      Block.setEnd t.addr (← blockEnd t.addr)
      Zone.setRemainingSpace z.addr (← szAdd (← Zone.getRemainingSpace z.addr) (t.size - n))
      rest) Q s := by
  have htm : t ∈ z.tiles := by simp [ht]
  have hin := h.geo.inside t htm
  have hbound := h.geo.bound
  have hvt : s.Valid t.addr 32 := h.validTile (o := 0) hv (List.mem_map_of_mem htm) (by omega)
  simp only [Tile.stop] at hin
  refine wp_setSizeEnd hvt (by omega) fun s₁ hw₁ hsize₁ hend₁ => ?_
  have h₁ := h.resize (n := n) ht (by omega) hw₁ hsize₁ hend₁
  have hw₁' : s.Writes (headerBytes z.addr z.headers) s₁ := by
    refine hw₁.ofFields (fun b hb => ?_) fun b hb => absurd hb List.not_mem_nil
    rw [List.mem_singleton.mp hb]
    exact List.mem_map_of_mem htm
  have hv₁ := hw₁.valid.mpr hv
  rw [wp_bind]
  refine (h₁.wp_getRemaining hv₁).mpr ?_
  rw [wp_bind, wp_szAdd hrem, wp_bind]
  refine wp_mono (h₁.wp_setRemaining hv₁ hrem) fun _ s₂ hpost => ?_
  obtain ⟨hw₂, h₂⟩ := hpost
  exact hrest s₂ (hw₁'.trans (hw₂.mono headerBytes_nil_subset)) h₂

/-- The header of the rest of a shortened block joins the tiles of the zone. -/
theorem ZoneAt.addEmpty {s' : Heap} {e k : ℕ}
    (h : ZoneAt s.mem (z.retile (pre ++ { t with size := n } :: post)) num rem z.blocks z.empties)
    (hz : (z.retile (pre ++ ([⟨t.addr, n, true⟩, ⟨e, k, false⟩] ++ post))).Laid)
    (hblocks : (z.retile (pre ++ ([⟨t.addr, n, true⟩, ⟨e, k, false⟩] ++ post))).blocks = z.blocks)
    (hempties : z.empties.Sublist
      (z.retile (pre ++ ([⟨t.addr, n, true⟩, ⟨e, k, false⟩] ++ post))).empties)
    (hused : t.used = true) (hw : s.Writes (fieldBytes [e] []) s') (hsize : word s'.mem e = k)
    (hend : word s'.mem (e + 8) = e + 32 + k) :
    ZoneAt s'.mem (z.retile (pre ++ ([⟨t.addr, n, true⟩, ⟨e, k, false⟩] ++ post))) num rem
      z.blocks z.empties := by
  have hgeo := hz.geometry
  refine h.retile [e]
    hw.agreeOff ?_ (fun a ha => ?_) fun u hu => ?_
  · exact hblocks ▸ hgeo.relist hgeo.blocks (hempties.trans hgeo.empties)
      fun b hb hb' => hgeo.disjoint b hb (hempties.subset hb')
  · rw [List.mem_singleton.mp ha]
    exact List.mem_map_of_mem (List.mem_append_right pre
      (List.mem_append_left post (List.mem_cons_of_mem _ (List.mem_singleton_self ⟨e, k, false⟩))))
  · by_cases hue : u = ⟨e, k, false⟩
    · subst hue
      exact .inr ⟨hsize, hend⟩
    · refine .inl ⟨?_, fun hmem => ?_⟩
      · simp only [List.mem_append, List.mem_cons, List.not_mem_nil, or_false] at hu
        simp only [TiledZone.retile_tiles, List.mem_append, List.mem_cons]
        rcases hu with hu | (hu | hu) | hu
        · exact .inl hu
        · exact .inr (.inl (hu.trans (by rw [← hused])))
        · exact absurd hu hue
        · exact .inr (.inr hu)
      · -- tiles at one address are one tile
        refine hue (hz.tiled.eq_of_addr_eq (by decide) hu (by simp) ?_)
        exact List.mem_singleton.mp hmem

/-- The bytes behind a shortened block get a header, and are joined with the space behind them. -/
theorem ZoneAt.wp_addRest {e l : ℕ} {zc : TiledZone}
    (hzc : zc = z.retile (pre ++ ([⟨t.addr, n, true⟩, ⟨e, l - headerSize, false⟩] ++ post)))
    (h : ZoneAt s.mem (z.retile (pre ++ { t with size := n } :: post)) num zc.remaining z.blocks
      z.empties) (hv : s.Valid z.addr z.len) (ht : z.tiles = pre ++ t :: post)
    (hused : t.used = true) (hlaid : zc.Laid) (he : e = t.addr + headerSize + n)
    (hl : headerSize ≤ l) (hnum : num = z.blocks.length % 2 ^ 32) :
    wp (do
      let newEmpty ← Block.getEnd t.addr
      Block.setDataSize newEmpty (← szSub l headerSize)
      Block.setEnd newEmpty (← blockEnd newEmpty)
      insertSorted (z.addr + 56) newEmpty
      mergeEmptySpaces z.addr) (fun _ s' =>
        ZoneRep s'.mem (z.splice pre [⟨t.addr, n, true⟩, ⟨e, l - headerSize, false⟩] post) ∧
        s.Writes (headerBytes z.addr zc.headers) s') s := by
  subst hzc
  set zc := z.retile (pre ++ ([⟨t.addr, n, true⟩, ⟨e, l - headerSize, false⟩] ++ post)) with hzc
  have hmem : (⟨e, l - headerSize, false⟩ : Tile) ∈ zc.tiles := by simp [hzc]
  have hin := hlaid.inside hmem
  have hbound := hlaid.bound
  have hblocks : zc.blocks = z.blocks := by
    simp [hzc, TiledZone.blocks, ht, useds_cons, hused]
  have hempties : z.empties = (frees pre).map Tile.addr ++ (frees post).map Tile.addr := by
    simp [TiledZone.empties, ht, frees_cons, hused]
  have hzempties : zc.empties = (frees pre).map Tile.addr ++ e :: (frees post).map Tile.addr := by
    simp [hzc, TiledZone.empties, frees_cons]
  simp only [Tile.stop, hzc, TiledZone.retile_addr, TiledZone.retile_len] at hin hbound
  rw [wp_bind]
  refine (h.wp_getEnd (t := { t with size := n }) hv (by simp)).mpr ?_
  rw [wp_bind, wp_szSub hl]
  have hstop : ({ t with size := n } : Tile).stop 32 = e := he.symm
  rw [hstop]
  refine wp_setSizeEnd (b := e) (hv.sub (by omega) (by omega)) (by omega)
    fun s₁ hw₁ hsize₁ hend₁ => ?_
  have h₁ := h.addEmpty hlaid hblocks (by
    rw [← hzc, hempties, hzempties]
    exact List.Sublist.append_left (List.sublist_cons_self _ _) _) hused hw₁ hsize₁ hend₁
  have hw₁' : s.Writes (headerBytes z.addr zc.headers) s₁ := by
    refine hw₁.ofFields (fun b hb => ?_) fun b hb => absurd hb List.not_mem_nil
    rw [List.mem_singleton.mp hb]
    exact List.mem_map_of_mem hmem
  have hv₁ := hw₁.valid.mpr hv
  rw [← hzc, hempties, ← hblocks] at h₁
  refine wp_mono (h₁.wp_insertSplice hv₁ hlaid hzempties ?_ rfl) fun _ s₂ hpost => ?_
  · rw [hnum, ← hzc, hblocks]
  · obtain ⟨h₂, hw₂⟩ := hpost
    exact ⟨h₂, hw₁'.trans hw₂⟩

/-- `split_block` keeps `n` bytes of a block and joins the rest with the space behind it. -/
theorem ZoneRep.wp_splitBlock (h : ZoneRep s.mem z) (hv : s.Valid z.addr z.len) (hz : z.Laid)
    (ht : z.tiles = pre ++ t :: post) (hused : t.used = true) (hle : n ≤ t.size)
    (hrest : ¬ t.size - n < minSplitSize) (hn : alignment ≤ n ∧ alignment ∣ n) :
    wp (splitBlock z.addr t.addr n) (fun _ s' =>
      ZoneRep s'.mem (z.splice pre (carve headerSize minSplitSize n t) post) ∧
      s.Writes (headerBytes z.addr (z.headers ++
        (z.retile (pre ++ (carve headerSize minSplitSize n t ++ post))).headers)) s') s := by
  have hlaid := hz.retile_carve ht hle hn
  set e' := t.addr + headerSize + n with he'
  have hcs : carve headerSize minSplitSize n t =
      [⟨t.addr, n, true⟩, ⟨e', t.size - n - headerSize, false⟩] := by
    rw [carve, if_neg hrest]
  have hocc := hz.remaining_retile [t] _ ht hlaid
  rw [occupied_carve, occupied_singleton, if_pos hused, if_neg hrest] at hocc
  rw [hcs] at hlaid hocc ⊢
  set zc := z.retile (pre ++ ([⟨t.addr, n, true⟩, ⟨e', t.size - n - headerSize, false⟩] ++ post))
    with hzc
  obtain ⟨num, hnum⟩ : ∃ num, num = z.blocks.length % 2 ^ 32 := ⟨_, rfl⟩
  have hrep : ZoneAt s.mem z num z.remaining z.blocks z.empties := hnum ▸ h
  have htm : t ∈ z.tiles := by simp [ht]
  have hrem : z.remaining + (t.size - n) = zc.remaining := by
    simp only [minSplitSize, headerSize, alignment] at *
    omega
  have hsub : headerSize ≤ t.size - n := by
    simp only [minSplitSize, headerSize, alignment] at *
    omega
  rw [splitBlock, wp_bind, hrep.wp_getSize hv htm, wp_bind, wp_szSub hle, wp_ite_neg hrest]
  refine hrep.wp_shorten hv ht hle (hrem ▸ hlaid.remaining_lt) fun s₁ hw₁ h₁ => ?_
  rw [hrem] at h₁
  refine wp_mono (h₁.wp_addRest hzc (hw₁.valid.mpr hv) ht hused hlaid he' hsub hnum)
    fun _ s₂ hpost => ?_
  obtain ⟨h₂, hw₂⟩ := hpost
  refine ⟨h₂, (hw₁.mono (headerBytes_mono fun b hb => ?_)).trans
    (hw₂.mono (headerBytes_mono fun b hb => ?_))⟩
  · exact List.mem_append_left _ hb
  · exact List.mem_append_right _ hb

end FtMalloc
