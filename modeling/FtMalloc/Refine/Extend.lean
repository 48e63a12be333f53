import FtMalloc.Abstract.Growth
import FtMalloc.Refine.Release
import FtMalloc.Refine.Copy

/-!
# Growing a block in place in memory

`extend_block` refines `TiledZone.growForward` and `extend_block_back` refines
`TiledZone.growBack`. Both first build the joined block, with the neighbour gone from the list of
empty spaces, and then trim it to the requested size; the backward path also moves the payload to
the front of the joined block.
-/

namespace FtMalloc

open HeapLib

variable {s : Heap} {z : TiledZone} {n num rem : ℕ} {t e : Tile} {pre post : List Tile}

/-- A search finds the only element with the property. -/
theorem find?_eq_some_of_unique {α : Type} {p : α → Bool} {l : List α} {a : α} (ha : a ∈ l)
    (hp : p a = true) (huniq : ∀ b ∈ l, p b = true → b = a) : l.find? p = some a := by
  cases hfind : l.find? p with
  | none => exact absurd hp (List.find?_eq_none.mp hfind a ha)
  | some b => rw [huniq b (List.mem_of_find?_eq_some hfind) (List.find?_some hfind)]

/-- The empty space that starts where a tile ends is its right neighbour. -/
theorem TiledZone.Laid.find?_after (hz : z.Laid) {rest : List Tile}
    (ht : z.tiles = pre ++ t :: rest) :
    ((frees z.tiles).find? fun e => e.addr = t.stop 32) =
      rest.head?.filter fun e => !e.used := by
  have htiled := hz.tiled
  rw [ht] at htiled
  have hrest := (tiled_append_cons.mp htiled).2
  cases rest with
  | nil =>
    -- nothing starts at the end of the zone
    refine List.find?_eq_none.mpr fun u hu => ?_
    have := hz.inside (mem_frees.mp hu).1
    have : t.stop 32 = z.addr + z.len := hrest
    simp only [decide_eq_true_eq]
    omega
  | cons e rest =>
    have he : e.addr = t.stop 32 := hrest.1
    have hem : e ∈ z.tiles := by simp [ht]
    cases hu : e.used with
    | true =>
      rw [List.head?_cons, Option.filter_some_neg (by simp [hu])]
      refine List.find?_eq_none.mpr fun u hmem => ?_
      obtain ⟨hut, huf⟩ := mem_frees.mp hmem
      simp only [decide_eq_true_eq]
      intro heq
      rw [hz.tiled.eq_of_addr_eq (by decide) hut hem (heq.trans he.symm), hu] at huf
      cases huf
    | false =>
      rw [List.head?_cons, Option.filter_some_pos (by simp [hu])]
      refine find?_eq_some_of_unique (mem_frees.mpr ⟨hem, hu⟩) (by simpa using he) ?_
      intro u hmem heq
      simp only [decide_eq_true_eq] at heq
      exact hz.tiled.eq_of_addr_eq (by decide) (mem_frees.mp hmem).1 hem (heq.trans he.symm)

/-- Trimming a block that has just grown: the rest is split off, or the cached maximum refreshed. -/
theorem ZoneRep.wp_trim (h : ZoneRep s.mem z) (hv : s.Valid z.addr z.len) (hz : z.Laid)
    (hc : Coalesced z.tiles) (ht : z.tiles = pre ++ t :: post) (hused : t.used = true)
    (hle : n ≤ t.size) (hn : alignment ≤ n ∧ alignment ∣ n) :
    wp (do
      if (← szSub (← Block.getDataSize t.addr) n) ≥ minSplitSize then
        splitBlock z.addr t.addr n
      else
        updateEmptyStats z.addr) (fun _ s' =>
      ZoneRep s'.mem (z.splice pre (carve headerSize minSplitSize n t) post) ∧
      s.Writes (headerBytes z.addr (z.headers ++
        (z.retile (pre ++ (carve headerSize minSplitSize n t ++ post))).headers)) s') s := by
  have hrep : ZoneAt s.mem z _ _ z.blocks z.empties := h
  rw [wp_bind, hrep.wp_getSize hv (by simp [ht]), wp_bind, wp_szSub hle]
  by_cases hrest : t.size - n < minSplitSize
  · rw [wp_ite_neg (Nat.not_le.mpr hrest)]
    have hcs : carve headerSize minSplitSize n t = [t] := by
      rw [carve, if_pos hrest, ← hused]
    have hself : z.retile (pre ++ ([t] ++ post)) = z := by
      rw [TiledZone.retile, List.singleton_append, ← ht]
    refine wp_mono (hrep.wp_refresh hv) fun _ s' hpost => ?_
    obtain ⟨hw, h'⟩ := hpost
    rw [hcs, TiledZone.splice_of_coalesced (by rwa [List.singleton_append, ← ht]), hself, ZoneRep,
      TiledZone.refresh_blocks, TiledZone.refresh_remaining]
    exact ⟨h', hw.mono headerBytes_nil_subset⟩
  · rw [wp_ite_pos (Nat.not_lt.mp hrest)]
    exact h.wp_splitBlock hv hz ht hused hle hrest hn

/-- A block that is joined with an empty space takes its header too. -/
theorem TiledZone.Laid.remaining_join {k : ℕ} (hz : z.Laid) (ht : z.tiles = pre ++ t :: e :: post)
    (hk : occupied headerSize [t, e] + k = t.size + headerSize + e.size) :
    (z.retile (pre ++ join headerSize t e :: post)).remaining = z.remaining - (headerSize + k) ∧
      headerSize + k ≤ z.remaining := by
  have hocc := hz.remaining_retile [t, e] [join headerSize t e] ht (hz.retile_join ht)
  rw [occupied_join] at hocc
  change (z.retile (pre ++ join headerSize t e :: post)).remaining + _ = _ at hocc
  omega

/-- The joined block keeps the header of its left part. -/
theorem TiledZone.headers_join (ht : z.tiles = pre ++ t :: e :: post) :
    ∀ b ∈ (z.retile (pre ++ join headerSize t e :: post)).headers, b ∈ z.headers := by
  intro b hb
  simp only [TiledZone.headers, ht, join, TiledZone.retile_tiles, List.map_append, List.map_cons,
    List.mem_append, List.mem_cons] at hb ⊢
  rcases hb with hb | hb | hb
  · exact .inl hb
  · exact .inr (.inl hb)
  · exact .inr (.inr (.inr hb))

/-- The header bytes of the joined block are bytes of the two old headers. -/
theorem TiledZone.headerBytes_join_subset {bs : List ℕ} (ht : z.tiles = pre ++ t :: e :: post) :
    headerBytes z.addr ((z.retile (pre ++ join headerSize t e :: post)).headers ++ bs) ⊆
      headerBytes z.addr (z.headers ++ bs) := by
  refine headerBytes_mono fun b hb => ?_
  rcases List.mem_append.mp hb with hb | hb
  · exact List.mem_append_left _ (headers_join ht b hb)
  · exact List.mem_append_right _ hb

/-- An empty space leaves its list, and its bytes with those of its header are no longer counted. -/
theorem ZoneAt.wp_takeEmpty {α : Type} {bs es₁ es₂ : List ℕ} {rest : M α} {Q : α → Heap → Prop}
    (h : ZoneAt s.mem z num rem bs (es₁ ++ e.addr :: es₂)) (hv : s.Valid z.addr z.len)
    (he : e ∈ z.tiles) (hle : headerSize + e.size ≤ rem) (hlt : rem < 2 ^ 64)
    (hrest : ∀ s₁, s.Writes (headerBytes z.addr z.headers) s₁ →
      ZoneAt s₁.mem z num (rem - (headerSize + e.size)) bs (es₁ ++ es₂) → wp rest Q s₁) :
    wp (do
      removeBlock z.addr (.heap e.addr) .empty
      Zone.setRemainingSpace z.addr (← szSub (← Zone.getRemainingSpace z.addr)
        (← szAdd headerSize (← Block.getDataSize e.addr)))
      rest) Q s := by
  rw [wp_bind]
  refine wp_mono (h.wp_removeEmpty hv) fun _ s₁ hpost => ?_
  obtain ⟨hw₁, h₁⟩ := hpost
  have hv₁ := hw₁.valid.mpr hv
  rw [wp_bind, h₁.wp_getRemaining hv₁, wp_bind, h₁.wp_getSize hv₁ he, wp_bind,
    wp_szAdd (Nat.lt_of_le_of_lt hle hlt), wp_bind, wp_szSub hle, wp_bind]
  refine wp_mono (h₁.wp_setRemaining hv₁ (Nat.lt_of_le_of_lt (Nat.sub_le _ _) hlt))
    fun _ s₂ hpost => ?_
  obtain ⟨hw₂, h₂⟩ := hpost
  exact hrest s₂ (hw₁.trans (hw₂.mono headerBytes_nil_subset)) h₂

/-! ## Forward -/

/-- The zone with the joined block, once the empty space behind it has left its list. -/
theorem ZoneAt.joinForward {s' : Heap}
    (h : ZoneAt s.mem z num rem z.blocks ((frees pre).map Tile.addr ++ (frees post).map Tile.addr))
    (hz : z.Laid) (ht : z.tiles = pre ++ t :: e :: post) (hused : t.used = true)
    (hfree : e.used = false) (hw : s.Writes (fieldBytes [t.addr] []) s')
    (hsize : word s'.mem t.addr = t.size + headerSize + e.size)
    (hend : word s'.mem (t.addr + 8) = t.addr + 32 + (t.size + headerSize + e.size)) :
    ZoneAt s'.mem (z.retile (pre ++ join headerSize t e :: post)) num rem
      (z.retile (pre ++ join headerSize t e :: post)).blocks
      (z.retile (pre ++ join headerSize t e :: post)).empties := by
  have htiled := hz.tiled
  rw [ht] at htiled
  have he : e.addr = t.stop 32 := (tiled_append_cons.mp htiled).2.1
  have hein := hz.inside (t := e) (by simp [ht])
  simp only [Tile.stop] at he hein
  have h₁ := h.resize (n := t.size + headerSize + e.size) ht
    (by simp only [headerSize]; omega) hw hsize hend
  have hjoin : join headerSize t e = { t with size := t.size + headerSize + e.size } := by
    rw [join, ← hused]
  have hblocks : z.blocks = (z.retile (pre ++ join headerSize t e :: post)).blocks := by
    simp [TiledZone.blocks, ht, useds_cons, hused, hfree, join]
  have hempties : (frees pre).map Tile.addr ++ (frees post).map Tile.addr =
      (z.retile (pre ++ join headerSize t e :: post)).empties := by
    simp [TiledZone.empties, frees_cons, join]
  rw [hblocks, hempties] at h₁
  have hgeo := (hz.retile_join ht).geometry
  refine h₁.thin (pre ++ join headerSize t e :: post) ?_ hgeo.blocks hgeo.empties
  rw [hjoin]
  exact List.Sublist.append_left ((List.sublist_cons_self e post).cons_cons _) _

/-- The empty space behind a block becomes part of it. -/
theorem ZoneRep.wp_joinForward {α : Type} {rest : M α} {Q : α → Heap → Prop} (h : ZoneRep s.mem z)
    (hv : s.Valid z.addr z.len) (hz : z.Laid) (ht : z.tiles = pre ++ t :: e :: post)
    (hused : t.used = true) (hfree : e.used = false)
    (hrest : ∀ s', s.Writes (headerBytes z.addr z.headers) s' →
      ZoneRep s'.mem (z.retile (pre ++ join headerSize t e :: post)) → wp rest Q s') :
    wp (do
      removeBlock z.addr (.heap e.addr) .empty
      Zone.setRemainingSpace z.addr (← szSub (← Zone.getRemainingSpace z.addr)
        (← szAdd headerSize (← Block.getDataSize e.addr)))
      Block.setDataSize t.addr (t.size + headerSize + e.size)
      Block.setEnd t.addr (← blockEnd t.addr)
      rest) Q s := by
  have hrem := hz.remaining_join (k := e.size) ht (by
    simp [occupied, useds_cons, hused, hfree])
  set zj := z.retile (pre ++ join headerSize t e :: post) with hzj
  obtain ⟨num, hnum⟩ : ∃ num, num = z.blocks.length % 2 ^ 32 := ⟨_, rfl⟩
  have hrep : ZoneAt s.mem z num z.remaining z.blocks z.empties := hnum ▸ h
  have htm : t ∈ z.tiles := by simp [ht]
  have hem : e ∈ z.tiles := by simp [ht]
  have hempties : z.empties =
      (frees pre).map Tile.addr ++ e.addr :: (frees post).map Tile.addr := by
    simp [TiledZone.empties, ht, frees_cons, hused, hfree]
  have hblocks : zj.blocks = z.blocks := by
    simp [hzj, TiledZone.blocks, ht, useds_cons, hused, hfree, join]
  have hvt : s.Valid t.addr 32 := h.validTile (o := 0) hv (List.mem_map_of_mem htm) (by omega)
  have hein := hz.inside hem
  have hbound := hz.bound
  have htiled := hz.tiled
  rw [ht] at htiled
  have he : e.addr = t.stop 32 := (tiled_append_cons.mp htiled).2.1
  simp only [Tile.stop] at hein he
  rw [hempties] at hrep
  refine hrep.wp_takeEmpty hv hem hrem.2 hz.remaining_lt fun s₁ hw₁ h₁ => ?_
  rw [← hrem.1] at h₁
  refine wp_setSizeEnd (hw₁.valid.mpr hvt) (by simp only [headerSize]; omega)
    fun s₂ hw₂ hsize₂ hend₂ => ?_
  have h₂ := h₁.joinForward hz ht hused hfree hw₂ hsize₂ hend₂
  have hw₂ := hw₁.trans (hw₂.ofFields (fun b hb => by
    rw [List.mem_singleton.mp hb]
    exact List.mem_map_of_mem htm) fun b hb => absurd hb List.not_mem_nil)
  refine hrest s₂ hw₂ ?_
  rw [ZoneRep, hblocks, ← hnum, ← hblocks]
  exact h₂

/-- `extend_block` grows the block over the empty space behind it. -/
theorem ZoneRep.wp_extendBlock_of_le (h : ZoneRep s.mem z) (hv : s.Valid z.addr z.len)
    (hz : z.Laid) (hc : Coalesced z.tiles) (ht : z.tiles = pre ++ t :: e :: post)
    (hused : t.used = true) (hfree : e.used = false)
    (hle : n ≤ t.size + headerSize + e.size) (hn : alignment ≤ n ∧ alignment ∣ n) :
    wp (extendBlock z.addr t.addr n) (fun r s' => r = t.addr + 32 ∧
      ZoneRep s'.mem (z.splice pre (carve headerSize minSplitSize n (join headerSize t e)) post) ∧
      s.Writes (z.churn
        (z.splice pre (carve headerSize minSplitSize n (join headerSize t e)) post)) s') s := by
  have hlaid := hz.retile_join ht
  have hrep : ZoneAt s.mem z _ z.remaining z.blocks z.empties := h
  have htm : t ∈ z.tiles := by simp [ht]
  have hem : e ∈ z.tiles := by simp [ht]
  have hfind := hz.find?_after ht
  rw [List.head?_cons, Option.filter_some_pos (by simp [hfree])] at hfind
  have hein := hz.inside hem
  have hbound := hz.bound
  have htiled := hz.tiled
  rw [ht] at htiled
  have he : e.addr = t.stop 32 := (tiled_append_cons.mp htiled).2.1
  simp only [Tile.stop] at hein he
  rw [extendBlock, wp_bind]
  refine h.wp_findEmptyAfter hv hz htm ?_
  rw [hfind, Option.map_some, Option.getD_some,
    wp_ite_neg (hrep.geo.header_ne_null (List.mem_map_of_mem hem)), wp_bind, hrep.wp_getSize hv htm,
    wp_bind, wp_szAdd (by simp only [headerSize]; omega), wp_bind, hrep.wp_getSize hv hem, wp_bind,
    wp_szAdd (by simp only [headerSize]; omega), wp_ite_neg (Nat.not_lt.mpr hle)]
  refine h.wp_joinForward hv hz ht hused hfree fun s₂ hw₂ h₂ => ?_
  have htrim := h₂.wp_trim (hw₂.valid.mpr hv) hlaid (coalesced_join (ht ▸ hc)) rfl rfl hle hn
  have hcarve := hlaid.retile_carve (t := join headerSize t e) rfl hle hn
  rw [wp_bind]
  refine wp_mono htrim fun _ s₃ hpost => ?_
  obtain ⟨h₃, hw₃⟩ := hpost
  rw [blockPayload, wp_szAdd (by simp only [headerSize]; omega)]
  have hchurn := hz.headerBytes_subset_churn hcarve
  have hw₂' := (hw₂.mono (headerBytes_mono fun b hb => List.mem_append_left _ hb)).mono hchurn
  have hw₃' := (hw₃.mono (TiledZone.headerBytes_join_subset (z := z) ht)).mono hchurn
  exact ⟨rfl, h₃, hw₂'.trans hw₃'⟩

/-- Without an empty space behind the block, or with too little room, nothing happens. -/
theorem ZoneRep.wp_extendBlock_miss {rest : List Tile} (h : ZoneRep s.mem z)
    (hv : s.Valid z.addr z.len) (hz : z.Laid) (ht : z.tiles = pre ++ t :: rest)
    (hmiss : ∀ e post, rest = e :: post → e.used = false → t.size + headerSize + e.size < n) :
    wp (extendBlock z.addr t.addr n) (fun r s' => r = 0 ∧ s' = s) s := by
  have hrep : ZoneAt s.mem z _ _ z.blocks z.empties := h
  have htm : t ∈ z.tiles := by simp [ht]
  rw [extendBlock, wp_bind]
  refine h.wp_findEmptyAfter hv hz htm ?_
  rw [hz.find?_after ht]
  cases hfree : rest.head?.filter fun e => !e.used with
  | none =>
    rw [wp_ite_pos (by rfl), wp_pure]
    exact ⟨rfl, rfl⟩
  | some e =>
    obtain ⟨hhead, hu⟩ := Option.filter_eq_some_iff.mp hfree
    obtain ⟨post, rfl⟩ : ∃ post, rest = e :: post := by
      cases rest with
      | nil => cases hhead
      | cons a post => exact ⟨post, by rw [Option.some.inj hhead]⟩
    have hem : e ∈ z.tiles := by simp [ht]
    have hsmall := hmiss e post rfl (by simpa using hu)
    have hein := hz.inside hem
    have hbound := hz.bound
    have htiled := hz.tiled
    rw [ht] at htiled
    have he : e.addr = t.stop 32 := (tiled_append_cons.mp htiled).2.1
    simp only [Tile.stop] at hein he
    rw [Option.map_some, Option.getD_some,
      wp_ite_neg (hrep.geo.header_ne_null (List.mem_map_of_mem hem)), wp_bind,
      hrep.wp_getSize hv htm, wp_bind, wp_szAdd (by simp only [headerSize]; omega), wp_bind,
      hrep.wp_getSize hv hem, wp_bind, wp_szAdd (by simp only [headerSize]; omega),
      wp_ite_pos hsmall, wp_pure]
    exact ⟨rfl, rfl⟩

/-- `extend_block` refines `TiledZone.growForward`. -/
theorem ZoneRep.wp_extendBlock {rest : List Tile} (h : ZoneRep s.mem z)
    (hv : s.Valid z.addr z.len) (hz : z.Laid) (hc : Coalesced z.tiles)
    (ht : z.tiles = pre ++ t :: rest) (hused : t.used = true) (hn : GrainSize n) :
    wp (extendBlock z.addr t.addr n) (fun r s' =>
      match z.growForward t.addr n with
      | none => r = 0 ∧ s' = s
      | some z' => r = t.addr + 32 ∧ ZoneRep s'.mem z' ∧ s.Writes (z.churn z') s') s := by
  rw [TiledZone.growForward, hz.cutBlock_eq ht hused]
  cases rest with
  | nil => exact h.wp_extendBlock_miss hv hz ht fun e post heq => by cases heq
  | cons e post =>
    by_cases hfit : e.used = false ∧ n ≤ t.size + headerSize + e.size
    · simp only [hfit, and_self, if_true]
      exact h.wp_extendBlock_of_le hv hz hc ht hused hfit.1 hfit.2 (hz.grain_of_le hn ht hfit.2)
    · simp only [hfit, if_false]
      refine h.wp_extendBlock_miss hv hz ht fun e' post' heq hu => ?_
      cases heq
      exact Nat.not_le.mp fun hle => hfit ⟨hu, hle⟩

/-! ## Backward -/

/-- The zone with the joined block in the place of its right part, once the empty space has left
its list, its header holds the joined size and the block list has been relinked. -/
theorem ZoneAt.joinBack
    (h : ZoneAt s.mem (z.retile (pre ++ { e with size := e.size + headerSize + t.size } ::
        t :: post)) num rem ((useds pre).map Tile.addr ++ e.addr :: (useds post).map Tile.addr)
      ((frees pre).map Tile.addr ++ (frees post).map Tile.addr))
    (hz : z.Laid) (ht : z.tiles = pre ++ e :: t :: post) :
    ZoneAt s.mem (z.retile (pre ++ join headerSize e t :: post)) num rem
      (z.retile (pre ++ join headerSize e t :: post)).blocks
      (z.retile (pre ++ join headerSize e t :: post)).empties := by
  have hgeo := (hz.retile_join ht).geometry
  have hblocks : (z.retile (pre ++ join headerSize e t :: post)).blocks =
      (useds pre).map Tile.addr ++ e.addr :: (useds post).map Tile.addr := by
    simp [TiledZone.blocks, useds_cons, join]
  have hempties : (z.retile (pre ++ join headerSize e t :: post)).empties =
      (frees pre).map Tile.addr ++ (frees post).map Tile.addr := by
    simp [TiledZone.empties, frees_cons, join]
  have hheads : (pre ++ { e with size := e.size + headerSize + t.size } :: post).map Tile.addr =
      (pre ++ join headerSize e t :: post).map Tile.addr := by
    simp [join]
  have h₁ := h.thin (pre ++ { e with size := e.size + headerSize + t.size } :: post)
    (List.Sublist.append_left ((List.sublist_cons_self t post).cons_cons _) _)
    (by rw [hheads, ← hblocks]; exact hgeo.blocks) (by rw [hheads, ← hempties]; exact hgeo.empties)
  have h₂ := ZoneAt.mark h₁ (TiledZone.retile_tiles _ (pre ++ _ :: post)) true
  rw [hblocks, hempties]
  exact h₂

/-- The destination of the move belongs to no kept block. -/
theorem TiledZone.Laid.moved_subset_churn (hz : z.Laid) (ht : z.tiles = pre ++ e :: t :: post)
    (hfree : e.used = false) : {x | e.addr + 32 ≤ x ∧ x < e.addr + 32 + t.size} ⊆
      z.churn (z.splice pre (carve headerSize minSplitSize n (join headerSize e t)) post) := by
  have htm : t ∈ z.tiles := by simp [ht]
  have hem : e ∈ z.tiles := by simp [ht]
  have htin := hz.inside htm
  have hein := hz.inside hem
  have htiled := hz.tiled
  rw [ht] at htiled
  have he : t.addr = e.stop 32 := (tiled_append_cons.mp htiled).2.1
  obtain ⟨-, hmid, hpre⟩ := List.pairwise_append.mp htiled.pairwise
  have hpost := (List.pairwise_cons.mp (List.pairwise_cons.mp hmid).2).1
  rintro x ⟨hx, hx'⟩
  simp only [Tile.stop, headerSize] at *
  refine ⟨by omega, by omega, by omega, ?_⟩
  rintro ⟨u, hu, u', hu', heq, hlo, hhi, -⟩
  obtain ⟨hum, huu⟩ := mem_useds.mp hu
  simp only [Tile.stop, headerSize] at hlo hhi
  have hue : u ≠ e := fun h => by simp [h, hfree] at huu
  have hape := hz.tiled.apart hum hem hue
  by_cases hut : u = t
  · -- the moved block is at another address now
    subst hut
    rw [TiledZone.useds_splice, useds_carve] at hu'
    simp only [List.mem_append, List.mem_singleton] at hu'
    rcases hu' with hu' | rfl | hu'
    · have := hpre u' (mem_useds.mp hu').1 e List.mem_cons_self
      omega
    · have : u.addr = e.addr := heq
      omega
    · have := hpost u' (mem_useds.mp hu').1
      omega
  · have hapt := hz.tiled.apart hum htm hut
    simp only [Tile.stop, headerSize] at hape hapt
    omega

/-- Storing a size, and an end that is read from another header. -/
theorem wp_setSizeEndOf {α : Type} {b c : ℕ} {rest : M α} {Q : α → Heap → Prop}
    (hv : s.Valid b 32) (hvc : s.Valid c 32) (hbc : b + 8 ≤ c) (hlt : b + 32 + n < 2 ^ 64)
    (hstop : word s.mem (c + 8) = b + 32 + n)
    (hrest : ∀ s₁, s.Writes (fieldBytes [b] []) s₁ → word s₁.mem b = n →
      word s₁.mem (b + 8) = b + 32 + n → wp rest Q s₁) :
    wp (do
      Block.setDataSize b n
      Block.setEnd b (← Block.getEnd c)
      rest) Q s := by
  rw [wp_bind, Block.setDataSize, wp_storeWord (hv.sub (by omega) (by omega)), wp_bind,
    Block.getEnd, wp_loadWord (valid_withMem.mpr (hvc.sub (by omega) (by omega))), withMem_mem,
    word, readLE_writeLE_disjoint (by omega), ← word, hstop, wp_bind, Block.setEnd,
    wp_storeWord (valid_withMem.mpr (hv.sub (by omega) (by omega))), withMem_withMem, withMem_mem]
  refine hrest _ (((Heap.Writes.refl _ s).write ?_).write ?_)
    ((readLE_writeLE_disjoint (by omega)).trans (readLE_writeLE_same (by omega)))
    (readLE_writeLE_same hlt) <;>
    exact fun x hx hx' => .inl ⟨b, List.mem_singleton_self _, by omega, by omega⟩

/-- The data of a block is moved behind another header. -/
theorem wp_movePayload {α : Type} {a b k lo len : ℕ} {rest : M α} {Q : α → Heap → Prop}
    (hv : s.Valid lo len) (hlt : lo + len < 2 ^ 64) (hb : lo ≤ b ∧ b + 32 + k ≤ lo + len)
    (ha : lo ≤ a ∧ a + 32 + k ≤ lo + len) (hsize : word s.mem b = k)
    (hrest : ∀ s', s.Writes {x | a + 32 ≤ x ∧ x < a + 32 + k} s' →
      (∀ i < k, s'.mem (a + 32 + i) = s.mem (b + 32 + i)) → wp rest Q s') :
    wp (do
      let oldPayload ← blockPayload b
      let newPayload ← blockPayload a
      let _ ← ftMemmove newPayload oldPayload (← Block.getDataSize b)
      rest) Q s := by
  rw [wp_bind, blockPayload, wp_szAdd (by simp only [headerSize]; omega), wp_bind, blockPayload,
    wp_szAdd (by simp only [headerSize]; omega), wp_bind, Block.getDataSize,
    wp_loadWord (hv.sub (by omega) (by omega)), hsize, wp_bind]
  refine wp_mono (wp_ftMemmove (hv.sub (by simp only [headerSize]; omega)
    (by simp only [headerSize]; omega)) (hv.sub (by simp only [headerSize]; omega)
    (by simp only [headerSize]; omega)) (by simp only [headerSize]; omega) (by omega)) ?_
  rintro _ s' ⟨rfl, rfl⟩
  refine hrest _ ⟨_, rfl, fun x hx => moved_apply_of_outside ?_⟩ fun i hi => moved_apply hi
  by_contra hin
  exact hx ⟨by simp only [headerSize] at hin; omega, by simp only [headerSize] at hin; omega⟩

/-- The first bytes of a block are payload before and after it is cut. -/
theorem TiledZone.Laid.carve_payload_off {i : ℕ} (hz : z.Laid) (ht : z.tiles = pre ++ t :: post)
    (hle : n ≤ t.size) (hn : alignment ≤ n ∧ alignment ∣ n) (hi : i < n) :
    t.addr + 32 + i ∉ headerBytes z.addr (z.headers ++
      (z.retile (pre ++ (carve headerSize minSplitSize n t ++ post))).headers) := by
  obtain ⟨k, hk, hkn⟩ : ∃ k, (⟨t.addr, k, true⟩ : Tile) ∈ carve headerSize minSplitSize n t ∧
      n ≤ k := by
    refine ⟨_, mem_carve, ?_⟩
    split
    · exact hle
    · exact Nat.le_refl n
  have htm : t ∈ z.tiles := by simp [ht]
  have hwhole := hz.payload_off htm (x := t.addr + 32 + i) (Nat.le_add_right _ i)
    (by simp only [Tile.stop]; omega)
  have hcut := (hz.retile_carve ht hle hn).payload_off (t := ⟨t.addr, k, true⟩)
    (List.mem_append_right _ (List.mem_append_left _ hk)) (x := t.addr + 32 + i)
    (Nat.le_add_right _ i) (by simp only [Tile.stop]; omega)
  rintro (hx | ⟨b, hb, hx⟩)
  · exact hwhole (.inl hx)
  · rcases List.mem_append.mp hb with hb | hb
    · exact hwhole (.inr ⟨b, hb, hx⟩)
    · exact hcut (.inr ⟨b, hb, hx⟩)

/-- Replacing the node of the block by that of the empty space before it completes the joined
block. -/
theorem ZoneAt.wp_replaceJoined
    (h : ZoneAt s.mem (z.retile (pre ++ { e with size := e.size + headerSize + t.size } ::
        t :: post)) num rem z.blocks ((frees pre).map Tile.addr ++ (frees post).map Tile.addr))
    (hv : s.Valid z.addr z.len) (hz : z.Laid) (ht : z.tiles = pre ++ e :: t :: post)
    (hused : t.used = true) (hfree : e.used = false) (hne : t.addr ≠ e.addr)
    (hnum : num = z.blocks.length % 2 ^ 32)
    (hrem : (z.retile (pre ++ join headerSize e t :: post)).remaining = rem) :
    wp (replaceBlock z.addr (.heap t.addr) e.addr .block) (fun _ s' =>
      s.Writes (headerBytes z.addr z.headers) s' ∧
      ZoneRep s'.mem (z.retile (pre ++ join headerSize e t :: post)) ∧ word s'.mem t.addr = t.size)
      s := by
  have hgeo := (hz.retile_join ht).geometry
  set zj := z.retile (pre ++ join headerSize e t :: post) with hzj
  have hblocks : z.blocks = (useds pre).map Tile.addr ++ t.addr :: (useds post).map Tile.addr := by
    simp [TiledZone.blocks, ht, useds_cons, hused, hfree]
  have hjblocks : zj.blocks =
      (useds pre).map Tile.addr ++ e.addr :: (useds post).map Tile.addr := by
    simp [hzj, TiledZone.blocks, useds_cons, join]
  have hjempties : zj.empties = (frees pre).map Tile.addr ++ (frees post).map Tile.addr := by
    simp [hzj, TiledZone.empties, frees_cons, join]
  have hjsub : zj.headers.Sublist (z.retile (pre ++
      { e with size := e.size + headerSize + t.size } :: t :: post)).headers := by
    simp only [hzj, TiledZone.headers, TiledZone.retile_tiles, List.map_append, List.map_cons, join]
    exact List.Sublist.append_left ((List.sublist_cons_self _ _).cons_cons _) _
  have hheads : (z.retile (pre ++ { e with size := e.size + headerSize + t.size } ::
      t :: post)).headers = z.headers := by
    simp [TiledZone.headers, ht]
  rw [hblocks] at h
  refine wp_mono (h.wp_replaceBlock (x := e.addr) hv ?_ ?_ hne) fun _ s' hpost => ?_
  · rw [← hjblocks]
    exact hgeo.blocks.trans hjsub
  · rw [← hjempties]
    exact hgeo.disjoint _ (by rw [hjblocks]; simp)
  obtain ⟨hw, h'⟩ := hpost
  rw [hheads] at hw
  have hlen : num = zj.blocks.length % 2 ^ 32 := by
    rw [hnum, hblocks, hjblocks]
    simp
  refine ⟨hw, ?_, (h'.data t (by simp)).1⟩
  rw [ZoneRep, ← hlen, hrem]
  exact h'.joinBack hz ht

/-- The empty space before a block becomes the header of both. -/
theorem ZoneRep.wp_joinBack {α : Type} {rest : M α} {Q : α → Heap → Prop} (h : ZoneRep s.mem z)
    (hv : s.Valid z.addr z.len) (hz : z.Laid) (ht : z.tiles = pre ++ e :: t :: post)
    (hused : t.used = true) (hfree : e.used = false)
    (hrest : ∀ s', s.Writes (headerBytes z.addr z.headers) s' →
      ZoneRep s'.mem (z.retile (pre ++ join headerSize e t :: post)) →
      word s'.mem t.addr = t.size → wp rest Q s') :
    wp (do
      removeBlock z.addr (.heap e.addr) .empty
      Zone.setRemainingSpace z.addr (← szSub (← Zone.getRemainingSpace z.addr)
        (← szAdd headerSize (← Block.getDataSize e.addr)))
      Block.setDataSize e.addr (e.size + headerSize + t.size)
      Block.setEnd e.addr (← Block.getEnd t.addr)
      replaceBlock z.addr (.heap t.addr) e.addr .block
      rest) Q s := by
  have hrem := hz.remaining_join (k := e.size) ht (by
    simp [occupied, useds_cons, hused, hfree]
    omega)
  obtain ⟨num, hnum⟩ : ∃ num, num = z.blocks.length % 2 ^ 32 := ⟨_, rfl⟩
  have hrep : ZoneAt s.mem z num z.remaining z.blocks z.empties := hnum ▸ h
  have htm : t ∈ z.tiles := by simp [ht]
  have hem : e ∈ z.tiles := by simp [ht]
  have hempties : z.empties =
      (frees pre).map Tile.addr ++ e.addr :: (frees post).map Tile.addr := by
    simp [TiledZone.empties, ht, frees_cons, hused, hfree]
  have hve : s.Valid e.addr 32 := h.validTile (o := 0) hv (List.mem_map_of_mem hem) (by omega)
  have hvt : s.Valid t.addr 32 := h.validTile (o := 0) hv (List.mem_map_of_mem htm) (by omega)
  have htin := hz.inside htm
  have hbound := hz.bound
  have htiled := hz.tiled
  rw [ht] at htiled
  have he : t.addr = e.addr + 32 + e.size := (tiled_append_cons.mp htiled).2.1
  have hend : t.stop 32 = t.addr + 32 + t.size := rfl
  have hstop : t.stop 32 = e.addr + 32 + (e.size + headerSize + t.size) := by
    simp only [headerSize]
    omega
  rw [hempties] at hrep
  refine hrep.wp_takeEmpty hv hem hrem.2 hz.remaining_lt fun s₁ hw₁ h₁ => ?_
  rw [← hrem.1] at h₁
  refine wp_setSizeEndOf (hw₁.valid.mpr hve) (hw₁.valid.mpr hvt) (by omega) (by omega)
    ((h₁.data t htm).2.trans hstop) fun s₂ hw₂ hsize₂ hend₂ => ?_
  have h₂ := h₁.resize (n := e.size + headerSize + t.size) ht (by omega) hw₂ hsize₂ hend₂
  have hw₂ := hw₁.trans (hw₂.ofFields (fun b hb => by
    rw [List.mem_singleton.mp hb]
    exact List.mem_map_of_mem hem) fun b hb => absurd hb List.not_mem_nil)
  rw [wp_bind]
  refine wp_mono (h₂.wp_replaceJoined (hw₂.valid.mpr hv) hz ht hused hfree (by omega) hnum rfl)
    fun _ s₃ hpost => ?_
  obtain ⟨hw₃, h₃, hsize₃⟩ := hpost
  exact hrest s₃ (hw₂.trans hw₃) h₃ hsize₃

/-- `extend_block_back` grows the block over the empty space before it and moves its payload. -/
theorem ZoneRep.wp_extendBlockBack_of_le (h : ZoneRep s.mem z) (hv : s.Valid z.addr z.len)
    (hz : z.Laid) (hc : Coalesced z.tiles) (ht : z.tiles = pre ++ e :: t :: post)
    (hused : t.used = true) (hfree : e.used = false)
    (hle : n ≤ e.size + headerSize + t.size) (hn : alignment ≤ n ∧ alignment ∣ n)
    (hfind : (frees z.tiles).find? (fun e => e.stop 32 = t.addr) = some e) :
    wp (extendBlockBack z.addr t.addr n) (fun r s' => r = e.addr + 32 ∧
      ZoneRep s'.mem (z.splice pre (carve headerSize minSplitSize n (join headerSize e t)) post) ∧
      s.Writes (z.churn
        (z.splice pre (carve headerSize minSplitSize n (join headerSize e t)) post)) s' ∧
      ∀ i < t.size, i < n → s'.mem (e.addr + 32 + i) = s.mem (t.addr + 32 + i)) s := by
  have hlaid := hz.retile_join ht
  set zj := z.retile (pre ++ join headerSize e t :: post) with hzj
  have hrep : ZoneAt s.mem z _ z.remaining z.blocks z.empties := h
  have htm : t ∈ z.tiles := by simp [ht]
  have hem : e ∈ z.tiles := by simp [ht]
  have htin := hz.inside htm
  have hbound := hz.bound
  have htiled := hz.tiled
  rw [ht] at htiled
  have he : t.addr = e.addr + 32 + e.size := (tiled_append_cons.mp htiled).2.1
  have hein := (hz.inside hem).1
  have hend : t.stop 32 = t.addr + 32 + t.size := rfl
  rw [extendBlockBack, wp_bind]
  refine h.wp_findEmptyBefore hv hz ?_
  rw [hfind, Option.map_some, Option.getD_some,
    wp_ite_neg (hrep.geo.header_ne_null (List.mem_map_of_mem hem)), wp_bind, hrep.wp_getSize hv hem,
    wp_bind, wp_szAdd (by simp only [headerSize]; omega), wp_bind, hrep.wp_getSize hv htm, wp_bind,
    wp_szAdd (by simp only [headerSize]; omega), wp_ite_neg (Nat.not_lt.mpr hle)]
  refine h.wp_joinBack hv hz ht hused hfree fun s₃ hw₃ h₃ hsize₃ => ?_
  have hv₃ := hw₃.valid.mpr hv
  -- the payload moves to the front of the joined block
  refine wp_movePayload hv₃ hbound ⟨by omega, by omega⟩ ⟨by omega, by omega⟩ hsize₃
    fun s₄ hmoved hpayload => ?_
  have hjoin : join headerSize e t ∈ zj.tiles := by simp [hzj]
  have h₄ : ZoneRep s₄.mem zj := by
    refine ZoneAt.writePayload h₃ hlaid hjoin hmoved.agreeOff fun x hx => ⟨hx.1, ?_⟩
    refine Nat.lt_of_lt_of_le hx.2 ?_
    simp only [Tile.stop, join, headerSize]
    omega
  have htrim := h₄.wp_trim (hmoved.valid.mpr hv₃) hlaid (coalesced_join (ht ▸ hc)) rfl rfl hle hn
  have hcarve := hlaid.retile_carve (t := join headerSize e t) rfl hle hn
  rw [wp_bind]
  refine wp_mono htrim fun _ s' hpost => ?_
  obtain ⟨h₅, hw₅⟩ := hpost
  rw [blockPayload, wp_szAdd (by simp only [headerSize]; omega)]
  refine ⟨rfl, h₅, ?_, fun i hi hin => ?_⟩
  · have hchurn := hz.headerBytes_subset_churn hcarve
    have hw₃' := (hw₃.mono (headerBytes_mono fun b hb => List.mem_append_left _ hb)).mono hchurn
    have hw₄' := hmoved.mono (hz.moved_subset_churn (n := n) ht hfree)
    have hw₅' := (hw₅.mono (TiledZone.headerBytes_join_subset (z := z) ht)).mono hchurn
    exact (hw₃'.trans hw₄').trans hw₅'
  · have hoff := hlaid.carve_payload_off (t := join headerSize e t) rfl hle hn hin
    have hoff₃ := hz.payload_off htm (x := t.addr + 32 + i) (by omega) (by omega)
    calc s'.mem (e.addr + 32 + i) = s₄.mem (e.addr + 32 + i) := hw₅.agreeOff _ hoff
      _ = s₃.mem (t.addr + 32 + i) := hpayload i hi
      _ = s.mem (t.addr + 32 + i) := hw₃.agreeOff _ hoff₃

/-- Without an empty space before the block, or with too little room, nothing happens. -/
theorem ZoneRep.wp_extendBlockBack_miss (h : ZoneRep s.mem z) (hv : s.Valid z.addr z.len)
    (hz : z.Laid) (htm : t ∈ z.tiles)
    (hmiss : ∀ e, (frees z.tiles).find? (fun e => e.stop 32 = t.addr) = some e →
      e.size + headerSize + t.size < n) :
    wp (extendBlockBack z.addr t.addr n) (fun r s' => r = 0 ∧ s' = s) s := by
  have hrep : ZoneAt s.mem z _ _ z.blocks z.empties := h
  rw [extendBlockBack, wp_bind]
  refine h.wp_findEmptyBefore hv hz ?_
  cases hfind : (frees z.tiles).find? fun e => e.stop 32 = t.addr with
  | none =>
    rw [wp_ite_pos (by rfl), wp_pure]
    exact ⟨rfl, rfl⟩
  | some e =>
    have hem : e ∈ z.tiles := (mem_frees.mp (List.mem_of_find?_eq_some hfind)).1
    have hstop : e.stop 32 = t.addr := by simpa using List.find?_some hfind
    have hsmall := hmiss e hfind
    have htin := hz.inside htm
    have hbound := hz.bound
    simp only [Tile.stop] at hstop htin
    rw [Option.map_some, Option.getD_some,
      wp_ite_neg (hrep.geo.header_ne_null (List.mem_map_of_mem hem)), wp_bind,
      hrep.wp_getSize hv hem, wp_bind, wp_szAdd (by simp only [headerSize]; omega), wp_bind,
      hrep.wp_getSize hv htm, wp_bind, wp_szAdd (by simp only [headerSize]; omega),
      wp_ite_pos hsmall, wp_pure]
    exact ⟨rfl, rfl⟩

/-- The empty space that ends where a block starts is where the zone is cut for it. -/
theorem TiledZone.find?_before (z : TiledZone) (b : ℕ) :
    ((frees z.tiles).find? fun e => e.stop 32 = b) =
      (cutAt (fun e => !e.used && decide (e.stop headerSize = b)) z.tiles).map fun c => c.2.1 := by
  rw [frees, List.find?_filter, ← find?_eq_cutAt]
  simp only [Bool.decide_and, Bool.decide_eq_true, headerSize]
  rfl

/-- `extend_block_back` refines `TiledZone.growBack`. -/
theorem ZoneRep.wp_extendBlockBack (h : ZoneRep s.mem z) (hv : s.Valid z.addr z.len)
    (hz : z.Laid) (hc : Coalesced z.tiles) (htm : t ∈ z.tiles) (hused : t.used = true)
    (hn : GrainSize n) :
    wp (extendBlockBack z.addr t.addr n) (fun r s' =>
      match z.growBack t.addr n with
      | none => r = 0 ∧ s' = s
      | some (b, z') => r = b + 32 ∧ ZoneRep s'.mem z' ∧ s.Writes (z.churn z') s' ∧
        ∀ i < t.size, i < n → s'.mem (b + 32 + i) = s.mem (t.addr + 32 + i)) s := by
  have hfind := z.find?_before t.addr
  rw [TiledZone.growBack]
  cases hcut : cutAt (fun e => !e.used && decide (e.stop headerSize = t.addr)) z.tiles with
  | none =>
    rw [hcut] at hfind
    exact h.wp_extendBlockBack_miss hv hz htm fun e he => by simp [hfind] at he
  | some c =>
    obtain ⟨pre, e, rest⟩ := c
    rw [hcut, Option.map_some] at hfind
    obtain ⟨ht, hp, -⟩ := cutAt_eq_some.mp hcut
    simp only [Bool.and_eq_true, Bool.not_eq_true', decide_eq_true_eq] at hp
    obtain ⟨post, rfl⟩ := hz.exists_cons_of_stop ht htm hp.2
    by_cases hfit : n ≤ e.size + headerSize + t.size
    · simp only [hfit, if_true]
      exact h.wp_extendBlockBack_of_le hv hz hc ht hused hp.1 hfit (hz.grain_of_le hn ht hfit) hfind
    · simp only [hfit, if_false]
      refine h.wp_extendBlockBack_miss hv hz htm fun e' he' => ?_
      rw [hfind, Option.some.injEq] at he'
      exact he' ▸ Nat.not_le.mp hfit

/-- `try_to_extend_block` refines `TiledZone.grow`; the first bytes of the block go with it. -/
theorem ZoneRep.wp_tryToExtendBlock (h : ZoneRep s.mem z) (hv : s.Valid z.addr z.len)
    (hz : z.Laid) (hc : Coalesced z.tiles) (htm : t ∈ z.tiles) (hused : t.used = true)
    (hn : GrainSize n) :
    wp (tryToExtendBlock z.addr t.addr n) (fun r s' =>
      match z.grow t.addr n with
      | none => r = 0 ∧ s' = s
      | some (b, z') => r = b + 32 ∧ ZoneRep s'.mem z' ∧ s.Writes (z.churn z') s' ∧
        (b = t.addr ∨ ∀ i < t.size, i < n → s'.mem (b + 32 + i) = s.mem (t.addr + 32 + i))) s := by
  obtain ⟨pre, post, ht⟩ := List.append_of_mem htm
  rw [tryToExtendBlock, wp_bind]
  refine wp_mono (h.wp_extendBlock hv hz hc ht hused hn) fun r s' hr => ?_
  rw [TiledZone.grow]
  cases hfwd : z.growForward t.addr n with
  | some z' =>
    rw [hfwd] at hr
    obtain ⟨rfl, hrep, hw⟩ := hr
    rw [wp_ite_pos (by simp), wp_pure]
    exact ⟨rfl, hrep, hw, .inl rfl⟩
  | none =>
    rw [hfwd] at hr
    obtain ⟨rfl, rfl⟩ := hr
    rw [wp_ite_neg (by simp)]
    refine wp_mono (h.wp_extendBlockBack hv hz hc htm hused hn) fun r s' hr => ?_
    cases hback : z.growBack t.addr n with
    | none =>
      rw [hback] at hr
      exact hr
    | some c =>
      rw [hback] at hr
      obtain ⟨hres, hrep, hw, hmove⟩ := hr
      exact ⟨hres, hrep, hw, .inr hmove⟩

end FtMalloc
