import FtMalloc.Properties.Undo

/-!
# Shrinking a block and growing it again

A block that has been shrunk leaves an empty space behind it, joined with the one that was there. It
can always grow back into it, so that `realloc` keeps it at its place; growing it to its old size
restores the zone.
-/

namespace FtMalloc

open HeapLib TiledZone

/-- From `s` to `s'` the zone `v` has become `w`, and nothing but its block at `b` is concerned: the
other zones are the same, and so are the other blocks with their contents. -/
structure Beside (s s' : Heap) (v w : ZoneView) (b : ℕ) : Prop where
  zones : ∃ pre post, view s = pre ++ v :: post ∧ view s' = pre ++ w :: post
  live : ∀ c n, c ≠ b → (Live s' c n ↔ Live s c n)
  content : ∀ c n, c ≠ b → Live s c n → ∀ i < n,
    s'.mem (c + headerSize + i) = s.mem (c + headerSize + i)

variable {P : Platform} {s s' : Heap} {A A' : Arena P} {kernel : ℕ → Option ℕ} {z z' : TiledZone}
  {pre post : List TiledZone} {t : Tile} {v : ZoneView} {e : RegionView} {k m n size : ℕ}

/-! ## On one zone -/

/-- The empty space that a shrunk block leaves behind reaches at least to its old end, and beyond it
only by an empty space that was there. -/
theorem TiledZone.Carved.exists_rest (hz : z.Laid) (h : z.Carved z' t.addr t.size m)
    (hrest : m + minSplitSize ≤ t.size) : ⟨t.addr, m, true⟩ ∈ z'.live ∧ ∃ f ∈ frees z'.tiles,
      f.addr = t.addr + headerSize + m ∧ (m + headerSize + f.size = t.size ∨
        t.size + minSplitSize ≤ m + headerSize + f.size) := by
  obtain ⟨hlive, f, hf, haddr, hjoin, halone⟩ := h.split (by omega)
  refine ⟨hlive, f, hf, haddr, ?_⟩
  simp only [Tile.stop] at hjoin halone
  by_cases hq : ∃ q ∈ frees z.tiles, q.addr = t.addr + headerSize + t.size
  · obtain ⟨q, hq, hqa⟩ := hq
    have hstop := hjoin q hq hqa
    have hgrain := hz.grain q (mem_frees.mp hq).1
    simp only [headerSize, minSplitSize, alignment] at *
    omega
  · have hstop := halone fun u hu hua => hq ⟨u, hu, hua⟩
    omega

/-- A block that has been shrunk grows back at its place, and to its old size without a trace. -/
theorem TiledZone.WellFormed.shrink_grow (hz : z.WellFormed P) (ht : t ∈ z.live)
    (hm : alignment ≤ m ∧ alignment ∣ m) (hrest : m + minSplitSize ≤ t.size) (hn : GrainSize n)
    (hle : n ≤ t.size) : ∃ w k, Edited P z (z.shrink t.addr m) {t} {⟨t.addr, m, true⟩} ∧
      (z.shrink t.addr m).grow t.addr n = some (t.addr, w) ∧ Snug n k ∧
      Edited P z w {t} {⟨t.addr, k, true⟩} ∧ (n = t.size → w.tiles = z.tiles) := by
  have hmle : m ≤ t.size := by omega
  obtain ⟨hlive, f, hf, haddr, hsize⟩ := (hz.carved_shrink ht hmle).exists_rest hz.laid hrest
  obtain ⟨k₁, -, -, hedit₁⟩ := hz.shrink ht hmle hm
  have hk₁ : (⟨t.addr, k₁, true⟩ : Tile) = ⟨t.addr, m, true⟩ :=
    hedit₁.wf.laid.tiled.eq_of_addr_eq (by decide)
      (mem_live.mp (hedit₁.live ▸ .inl rfl)).1 (mem_live.mp hlive).1 rfl
  rw [hk₁] at hedit₁
  have hfit : n ≤ m + headerSize + f.size := by omega
  obtain ⟨w, hgrow, hcarved⟩ := hedit₁.wf.grow_forward hlive hf haddr hfit
  have hcarved : (z.shrink t.addr m).Carved w t.addr (m + headerSize + f.size) n := hcarved
  obtain ⟨k, hk, hedit₂⟩ := hedit₁.wf.grow hlive hn hgrow
  have hedit := hedit₁.trans hedit₂
  refine ⟨w, k, hedit₁, hgrow, hk, hedit, fun heq => ?_⟩
  have hself : (⟨t.addr, n, true⟩ : Tile) = t := by rw [heq, ← (mem_live.mp ht).2]
  have hback : (⟨t.addr, n, true⟩ : Tile) ∈ w.live := by
    rcases hsize with hexact | hmore
    · rw [hexact, ← heq] at hcarved
      exact hcarved.whole (by simp)
    · exact (hcarved.split (by omega)).1
  have hkn : (⟨t.addr, k, true⟩ : Tile) = t := hself ▸ hedit.wf.laid.tiled.eq_of_addr_eq (by decide)
    (mem_live.mp (hedit.live ▸ .inl rfl)).1 (mem_live.mp hback).1 rfl
  refine hedit.wf.tiles_eq hz hedit.addr hedit.len ?_
  rw [hedit.live, hkn, Set.union_sdiff_self, Set.union_eq_right.mpr (Set.singleton_subset_iff.mpr ht)]

/-! ## In the program -/

/-- `realloc` of a block that stays in its zone. -/
theorem Holds.wp_resize {b : ℕ} (h : Holds s A) (hk : s.KernelOk P kernel) (hsize : 0 < size)
    (ht : t ∈ A.live) (hout : Zones.realloc P kernel (t.addr + headerSize) size A.zones =
      ⟨b + headerSize, pre ++ z' :: post, []⟩) :
    wp (realloc P kernel (t.addr + headerSize) size) (fun r s' => r = b + headerSize ∧
      s.Became P s' A.zones (pre ++ z' :: post) [] ∧
      (∃ A' : Arena P, Holds s' A' ∧ A'.zones = pre ++ z' :: post) ∧
      ∀ i < t.size, i < roundUp size →
        s'.mem (b + headerSize + i) = s.mem (t.addr + headerSize + i)) s := by
  have houtcome := h.wp_outcome hk (.realloc (t.addr + headerSize) size)
  rw [Call.outcome, hout] at houtcome
  refine wp_mono (wp_and houtcome (h.rep.wp_realloc A h.unlocked hk)) ?_
  rintro r s' ⟨⟨rfl, hbecame, hholds⟩, -, -, -, hcontent⟩
  exact ⟨rfl, hbecame, hholds, hcontent t ht rfl hsize (by simp)⟩

/-- An edit of one block keeps the blocks elsewhere. -/
theorem Arena.mem_live_edit (A A' : Arena P) (heq : A.zones = pre ++ z :: post)
    (heq' : A'.zones = pre ++ z' :: post) (ht : t ∈ z.live)
    (hedit : Edited P z z' {t} {⟨t.addr, k, true⟩}) {u : Tile} (hu : u.addr ≠ t.addr) :
    u ∈ A'.live ↔ u ∈ A.live := by
  have hsame : A'.live = (A.replace heq hedit).live := congrArg Zones.live heq'
  rw [hsame, A.live_replace heq hedit (Set.singleton_subset_iff.mpr ht)]
  constructor
  · rintro (rfl | hold)
    · exact absurd rfl hu
    · exact hold.1
  · exact fun hmem => .inr ⟨hmem, fun hold => hu (congrArg Tile.addr hold)⟩

/-- An edit of one block in one zone concerns nothing else. -/
theorem Holds.beside (h : Holds s A) (h' : Holds s' A') (heq : A.zones = pre ++ z :: post)
    (heq' : A'.zones = pre ++ z' :: post) (ht : t ∈ z.live)
    (hedit : Edited P z z' {t} {⟨t.addr, k, true⟩})
    (hspared : ∀ u ∈ A.live, u.addr ≠ t.addr → ∀ x, u.addr + headerSize ≤ x →
      x < u.stop headerSize → s'.mem x = s.mem x) :
    Beside s s' (.ofZone z) (.ofZone z') t.addr := by
  constructor
  · refine ⟨pre.map .ofZone, post.map .ofZone, ?_, ?_⟩
    · rw [h.rep.view_eq A.spread, heq, List.map_append, List.map_cons]
    · rw [h'.rep.view_eq A'.spread, heq', List.map_append, List.map_cons]
  · intro c n hc
    rw [h'.rep.live_iff A'.spread, h.rep.live_iff A.spread]
    exact A.mem_live_edit A' heq heq' ht hedit hc
  · intro c n hc hmem i hi
    refine hspared _ ((h.rep.live_iff A.spread).mp hmem) hc _ (Nat.le_add_right _ _) ?_
    simp only [Tile.stop]
    omega

/-- The payloads of blocks that are kept are kept. -/
theorem Heap.Became.spared_self {calls : List Syscall} (h : s.Became P s' A.zones A'.zones calls)
    {u : Tile} (hu : u ∈ A.live) (hu' : u ∈ A'.live) {x : ℕ} (hlo : u.addr + headerSize ≤ x)
    (hhi : x < u.stop headerSize) : s'.mem x = s.mem x :=
  h.spared u hu u hu' rfl x hlo hhi hhi

/-- In every reachable state, `realloc` of a block to a size that leaves at least `MIN_SPLIT_SIZE` of
it, and then back to a larger size that it had room for, keeps it at its place with its first bytes,
and concerns nothing else. Going back to the old size restores the lists and counters of its zone. -/
theorem shrink_regrow (h : Reachable P s) (hk : s.KernelOk P kernel) (hv : v ∈ view s)
    (he : e ∈ v.blocks) (hpos : 0 < m) (hrest : roundUp m + minSplitSize ≤ e.size)
    (hlt : roundUp m < roundUp n) (hle : roundUp n ≤ e.size)
    (htype : v.type = (getZoneType (roundUp n)).code) :
    wp (realloc P kernel (e.addr + headerSize) m) (fun p s₁ => p = e.addr + headerSize ∧
      (∀ i < roundUp m, s₁.mem (p + i) = s.mem (p + i)) ∧ (∃ w, Beside s s₁ v w e.addr) ∧
      ∀ kernel', s₁.KernelOk P kernel' → wp (realloc P kernel' p n) (fun q s₂ =>
        q = e.addr + headerSize ∧ (∀ i < roundUp m, s₂.mem (q + i) = s.mem (q + i)) ∧
        ∃ w, Beside s s₂ v w e.addr ∧ (roundUp n = e.size → w.SameLists v)) s₁) s := by
  obtain ⟨A, hA⟩ := h.exists_holds
  obtain ⟨pre, z, post, t, rfl, rfl, hz, ht, hloc⟩ := hA.exists_locate hv he
  have heq := (A.locate_eq_some.mp hloc).1
  have hwf := A.wf z hz
  have htype : getZoneType (roundUp n) = z.type := (EType.code_injective htype).symm
  simp only [RegionView.ofTile] at hrest hle hloc ⊢
  have hgrain := A.grain_of_le_size hz ht (grainSize_roundUp hpos) (by omega)
  have hnpos := pos_of_lt_roundUp hlt
  obtain ⟨w, k, hedit₁, hgrow, -, hedit₂, hexact⟩ :=
    hwf.shrink_grow ht hgrain hrest (grainSize_roundUp hnpos) hle
  have hout : Zones.realloc P kernel (t.addr + headerSize) m A.zones =
      ⟨t.addr + headerSize, pre ++ z.shrink t.addr (roundUp m) :: post, []⟩ := by
    rw [Zones.realloc_of_locate P kernel (by simp) hpos hloc, if_pos (by omega)]
  refine wp_mono (hA.wp_resize hk hpos ⟨z, hz, ht⟩ hout) ?_
  rintro p s₁ ⟨rfl, hbecame₁, ⟨A₁, hA₁, hzones₁⟩, hcontent₁⟩
  have ht₁ : (⟨t.addr, roundUp m, true⟩ : Tile) ∈ (z.shrink t.addr (roundUp m)).live :=
    hedit₁.live ▸ .inl rfl
  have hloc₁ := A₁.locate_eq_some.mpr ⟨hzones₁, ht₁, rfl⟩
  rw [← hzones₁] at hbecame₁
  have hkept₁ {u : Tile} (hu : u ∈ A.live) (hne : u.addr ≠ t.addr) : u ∈ A₁.live :=
    (A.mem_live_edit A₁ heq hzones₁ ht hedit₁ hne).mpr hu
  refine ⟨rfl, fun i hi => hcontent₁ i (by omega) hi,
    ⟨_, hA.beside hA₁ heq hzones₁ ht hedit₁ fun u hu hne x => hbecame₁.spared_self hu (hkept₁ hu hne)⟩,
    fun kernel' hk' => ?_⟩
  have hout₁ : Zones.realloc P kernel' (t.addr + headerSize) n A₁.zones =
      ⟨t.addr + headerSize, pre ++ w :: post, []⟩ := by
    rw [Zones.realloc_of_locate P kernel' (by simp) hnpos hloc₁, if_neg (Nat.not_le.mpr hlt),
      Zones.growIn, if_pos (htype.trans hedit₁.type.symm), hgrow]
  refine wp_mono (hA₁.wp_resize (t := ⟨t.addr, roundUp m, true⟩) hk' hnpos
    ⟨_, by simp [hzones₁], ht₁⟩ hout₁) ?_
  rintro q s₂ ⟨rfl, hbecame₂, ⟨A₂, hA₂, hzones₂⟩, hcontent₂⟩
  rw [← hzones₂] at hbecame₂
  refine ⟨rfl, fun i hi => ?_, .ofZone w, ?_, fun hsame => ?_⟩
  · rw [hcontent₂ i hi (by omega)]
    exact hcontent₁ i (by omega) hi
  · refine hA.beside hA₂ heq hzones₂ ht hedit₂ fun u hu hne x hlo hhi => ?_
    have hu₂ := (A.mem_live_edit A₂ heq hzones₂ ht hedit₂ hne).mpr hu
    rw [hbecame₂.spared_self (hkept₁ hu hne) hu₂ hlo hhi,
      hbecame₁.spared_self hu (hkept₁ hu hne) hlo hhi]
  · have htiles := hexact hsame
    exact ⟨hedit₂.addr, by simp only [ZoneView.ofZone, htiles],
      by simp only [ZoneView.ofZone, htiles], by simp only [ZoneView.ofZone, blocks, htiles],
      by simp only [ZoneView.ofZone, remaining, htiles]⟩

/-- A block of 112 bytes that shrinks to 16 bytes and grows back. -/
theorem shrink_regrow_witness : ∃ s, Reachable .unlimited s ∧ ∃ v ∈ view s,
    wp (realloc .unlimited (fun _ => none) (65616 + headerSize) 16) (fun p s₁ =>
      p = 65616 + headerSize ∧
      (∀ i < roundUp 16, s₁.mem (p + i) = s.mem (p + i)) ∧ (∃ w, Beside s s₁ v w 65616) ∧
      ∀ kernel, s₁.KernelOk .unlimited kernel → wp (realloc .unlimited kernel p 100) (fun q s₂ =>
        q = 65616 + headerSize ∧ (∀ i < roundUp 16, s₂.mem (q + i) = s.mem (q + i)) ∧
        ∃ w, Beside s s₂ v w 65616 ∧ (roundUp 100 = 112 → w.SameLists v)) s₁) s := by
  obtain ⟨s, A, h, hA, hzones⟩ := exists_reachable (P := .unlimited) 65536 (.malloc 100) []
    (by decide) (by decide) (by decide) (by decide) (by decide)
  obtain ⟨v, hv, htype, ⟨_, _, stop⟩, he, rfl, rfl⟩ : ∃ v ∈ view s, v.type = EType.tiny.code ∧
      ∃ e ∈ v.blocks, e.addr = 65616 ∧ e.size = 112 := by
    rw [hA.rep.view_eq A.spread, hzones]
    decide +kernel
  have hk : s.KernelOk .unlimited fun _ => none := fun _ _ hans => by cases hans
  have hrest : roundUp 16 + minSplitSize ≤ 112 := by decide
  have hlt : roundUp 16 < roundUp 100 := by decide
  have hle : roundUp 100 ≤ 112 := by decide
  have hboth := shrink_regrow h hk hv he (by decide) hrest hlt hle htype
  dsimp only at hboth
  exact ⟨s, h, v, hv, hboth⟩

end FtMalloc
