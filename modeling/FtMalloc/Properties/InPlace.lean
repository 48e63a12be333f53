import FtMalloc.Properties.Pointers

/-!
# Growing in place

`realloc` lets a block grow into the empty space behind it whenever that is possible, else into the
one before it, and moves the block only where neither is. What the block does not need becomes an
empty space again.
-/

namespace FtMalloc

open HeapLib TiledZone

/-- The region of `c` bytes at `b` in `v` is in `w` a block of `n` bytes, and what is left of it an
empty space, joined with the one behind the region if there is one; or all of it is a block, when too
little would be left. -/
structure ZoneView.Carved (v w : ZoneView) (b c n : ℕ) : Prop where
  addr : w.addr = v.addr
  split : minSplitSize ≤ c - n → (∃ e ∈ w.blocks, e.addr = b ∧ e.size = n) ∧
    ∃ f ∈ w.emptySpaces, f.addr = b + headerSize + n ∧
      (∀ q ∈ v.emptySpaces, q.addr = b + headerSize + c → f.stop = q.stop) ∧
      ((∀ q ∈ v.emptySpaces, q.addr ≠ b + headerSize + c) → f.stop = b + headerSize + c)
  whole : c - n < minSplitSize → ∃ e ∈ w.blocks, e.addr = b ∧ e.size = c

variable {P : Platform} {s : Heap} {A : Arena P} {kernel : ℕ → Option ℕ} {z z' : TiledZone}
  {pre post : List TiledZone} {t : Tile} {v : ZoneView} {e f : RegionView} {b c n ptr size : ℕ}

/-! ## On the arena -/

/-- A carved region is seen as one. -/
theorem carved_ofZone (h : z.Carved z' b c n) (haddr : z'.addr = z.addr) :
    (ZoneView.ofZone z).Carved (.ofZone z') b c n where
  addr := haddr
  split := by
    intro hrest
    obtain ⟨hlive, f, hf, hfa, hjoin, halone⟩ := h.split hrest
    refine ⟨⟨_, List.mem_map_of_mem hlive, rfl, rfl⟩, _, List.mem_map_of_mem hf, hfa,
      fun q hq hqa => ?_, fun hnone => ?_⟩
    · obtain ⟨u, hu, rfl⟩ := List.mem_map.mp hq
      exact hjoin u hu hqa
    · exact halone fun u hu => hnone _ (List.mem_map_of_mem hu)
  whole := fun hrest => ⟨_, List.mem_map_of_mem (h.whole hrest), rfl, rfl⟩

/-- `realloc` of a block that grows in place, in the program. -/
theorem Holds.wp_grown (h : Holds s A) (hk : s.KernelOk P kernel) (hsize : 0 < size)
    (hloc : Zones.locate ptr A.zones = some (pre, z, post, t)) (hlt : t.size < roundUp size)
    (htype : getZoneType (roundUp size) = z.type)
    (hgrow : z.grow t.addr (roundUp size) = some (b, z')) (hcarved : z.Carved z' b c (roundUp size)) :
    wp (realloc P kernel ptr size) (fun r s' => r = b + headerSize ∧
      ∃ w ∈ view s', (ZoneView.ofZone z).Carved w b c (roundUp size)) s := by
  obtain ⟨heq, ht, rfl⟩ := A.locate_eq_some.mp hloc
  have hwf := A.wf z (by simp [heq])
  obtain ⟨k, -, hedit⟩ := hwf.grow ht (grainSize_roundUp hsize) hgrow
  have hout : Zones.realloc P kernel (t.addr + headerSize) size A.zones =
      ⟨b + headerSize, pre ++ z' :: post, []⟩ := by
    rw [Zones.realloc_of_locate P kernel (by simp) hsize hloc, if_neg (by omega), Zones.growIn,
      if_pos htype, hgrow]
  refine wp_mono (h.wp_outcome hk (.realloc (t.addr + headerSize) size)) ?_
  rintro r s' ⟨hres, -, A', hA', hzones⟩
  rw [Call.outcome, hout] at hres hzones
  refine ⟨hres, .ofZone z', ?_, carved_ofZone hcarved hedit.addr⟩
  exact (hA'.rep.mem_view A'.spread).mpr ⟨z', by simp [hzones], rfl⟩

/-- `realloc` of a block that cannot grow in place ends as its moving path does. -/
theorem Holds.realloc_eq_reallocMove (h : Holds s A) (hk : s.KernelOk P kernel) (hsize : 0 < size)
    (hloc : Zones.locate ptr A.zones = some (pre, z, post, t)) (hlt : t.size < roundUp size)
    (hnone : Zones.growIn z t.addr (roundUp size) = none) :
    ∃ r s', reallocMove P kernel ptr (roundUp size) t.size { s with gMallocLock := true } =
      some (r, s') ∧ realloc P kernel ptr size s = some (r, s') := by
  obtain ⟨heq, ht, hptr⟩ := A.locate_eq_some.mp hloc
  have hzmem : z ∈ A.zones := by simp [heq]
  have hrep := h.rep.setLock (b := true)
  obtain ⟨r, s', hrun, -⟩ := h.rep.wp_reallocMove A hloc h.unlocked hk hlt
  refine ⟨r, s', hrun, run_of_wp ?_⟩
  rw [realloc, wp_ite_neg (by simp [hptr]), wp_ite_neg (by omega), wp_bind, wp_alignSize, wp_bind,
    wp_lockMutex h.unlocked]
  refine hrep.wp_lookup A (fun hmiss => ?_) fun pre' w post' u hfound => ?_
  · rw [hloc] at hmiss
    cases hmiss
  · rw [hloc] at hfound
    cases hfound
    rw [reallocBlock, wp_bind, (hrep.zone z hzmem).wp_getSize (hrep.valid hzmem)
      (mem_live.mp ht).1, wp_ite_neg (by omega), wp_bind]
    refine wp_mono (hrep.wp_growIn A hloc (grainSize_roundUp hsize)) fun q s₁ hq => ?_
    rw [hnone] at hq
    obtain ⟨rfl, rfl⟩ := hq
    rw [wp_ite_neg (by simp)]
    exact (wp_of_run hrun).mpr ⟨rfl, rfl⟩

/-! ## The scans -/

/-- `find_empty_after` and `find_empty_before` find what a search of the whole list finds. -/
theorem Holds.wp_scans (h : Holds s A) (hv : v ∈ view s) (he : e ∈ v.blocks) :
    wp (findEmptyAfter v.addr e.addr) (fun r s' => s' = s ∧
      r = ((v.emptySpaces.find? fun f => f.addr = e.stop).map RegionView.addr).getD null) s ∧
    wp (findEmptyBefore v.addr e.addr) (fun r s' => s' = s ∧
      r = ((v.emptySpaces.find? fun f => f.stop = e.addr).map RegionView.addr).getD null) s := by
  obtain ⟨z, hz, t, ht, rfl, rfl⟩ := h.rep.exists_tile A.spread hv he
  have hlaid := (A.wf z hz).laid
  constructor
  · refine (h.rep.zone z hz).wp_findEmptyAfter (h.rep.valid hz) hlaid (mem_live.mp ht).1 ⟨rfl, ?_⟩
    simp only [ZoneView.ofZone, List.find?_map, Option.map_map]
    rfl
  · refine (h.rep.zone z hz).wp_findEmptyBefore (h.rep.valid hz) hlaid ⟨rfl, ?_⟩
    simp only [ZoneView.ofZone, List.find?_map, Option.map_map]
    rfl

/-- In every reachable state, `realloc` of a block to a larger size of the class of its zone keeps
the block at its place if an empty space behind it makes room, else moves it to the front of an empty
space before it if that makes room, and else ends as its moving path does. A block that grows is
carved out of what it was joined with. The two scans find what a search of the whole list finds. -/
theorem growth_in_place (h : Reachable P s) (hk : s.KernelOk P kernel) (hv : v ∈ view s)
    (he : e ∈ v.blocks) (hlt : e.size < roundUp size)
    (htype : v.type = (getZoneType (roundUp size)).code) :
    (∀ f ∈ v.emptySpaces, f.addr = e.stop → roundUp size ≤ e.size + headerSize + f.size →
      wp (realloc P kernel (e.addr + headerSize) size) (fun r s' => r = e.addr + headerSize ∧
        ∃ w ∈ view s', v.Carved w e.addr (e.size + headerSize + f.size) (roundUp size)) s) ∧
    (¬ v.Forward e (roundUp size) → ∀ f ∈ v.emptySpaces, f.stop = e.addr →
      roundUp size ≤ f.size + headerSize + e.size →
      wp (realloc P kernel (e.addr + headerSize) size) (fun r s' => r = f.addr + headerSize ∧
        ∃ w ∈ view s', v.Carved w f.addr (f.size + headerSize + e.size) (roundUp size)) s) ∧
    (¬ v.Forward e (roundUp size) → ¬ v.Backward e (roundUp size) → ∃ r s',
      reallocMove P kernel (e.addr + headerSize) (roundUp size) e.size
        { s with gMallocLock := true } = some (r, s') ∧
      realloc P kernel (e.addr + headerSize) size s = some (r, s')) ∧
    wp (findEmptyAfter v.addr e.addr) (fun r s' => s' = s ∧
      r = ((v.emptySpaces.find? fun f => f.addr = e.stop).map RegionView.addr).getD null) s ∧
    wp (findEmptyBefore v.addr e.addr) (fun r s' => s' = s ∧
      r = ((v.emptySpaces.find? fun f => f.stop = e.addr).map RegionView.addr).getD null) s := by
  obtain ⟨A, hA⟩ := h.exists_holds
  have hscans := hA.wp_scans hv he
  obtain ⟨pre, z, post, t, rfl, rfl, hz, ht, hloc⟩ := hA.exists_locate hv he
  have hwf := A.wf z hz
  have hpos := pos_of_lt_roundUp hlt
  have htype : getZoneType (roundUp size) = z.type := (EType.code_injective htype).symm
  refine ⟨fun f hf haddr hfit => ?_, fun hnot f hf hstop hfit => ?_, fun hnot hnot' => ?_, hscans⟩
  · obtain ⟨u, hu, rfl⟩ := List.mem_map.mp hf
    obtain ⟨z', hgrow, hcarved⟩ := hwf.grow_forward ht hu haddr hfit
    exact hA.wp_grown hk hpos hloc hlt htype hgrow hcarved
  · obtain ⟨u, hu, rfl⟩ := List.mem_map.mp hf
    rw [forward_ofZone] at hnot
    obtain ⟨z', hgrow, hcarved⟩ := hwf.grow_back ht hnot hu hstop hfit
    exact hA.wp_grown hk hpos hloc hlt htype hgrow hcarved
  · rw [forward_ofZone] at hnot
    rw [backward_ofZone] at hnot'
    refine hA.realloc_eq_reallocMove hk hpos hloc hlt ?_
    exact (hwf.laid.growIn_eq_none ht).mpr (.inr ⟨hnot, hnot'⟩)

/-- A block that grows into the empty space behind it. -/
theorem growth_in_place_witness : ∃ s, Reachable .unlimited s ∧ ∃ v ∈ view s, ∃ c,
    wp (realloc .unlimited (fun _ => none) 65648 150) (fun r s' => r = 65648 ∧
      ∃ w ∈ view s', v.Carved w 65616 c 160) s := by
  obtain ⟨s, A, h, hA, hzones⟩ := exists_reachable (P := .unlimited) 65536 (.malloc 100) []
    (by decide) (by decide) (by decide) (by decide) (by decide)
  obtain ⟨v, hv, htype, ⟨_, d, stop⟩, he, rfl, hd, f, hf, haddr, hfit⟩ : ∃ v ∈ view s,
      v.type = EType.tiny.code ∧ ∃ e ∈ v.blocks, e.addr = 65616 ∧ e.size < 160 ∧
        ∃ f ∈ v.emptySpaces, f.addr = e.stop ∧ 160 ≤ e.size + headerSize + f.size := by
    rw [hA.rep.view_eq A.spread, hzones]
    decide +kernel
  have hk : s.KernelOk .unlimited fun _ => none := fun _ _ hans => by cases hans
  exact ⟨s, h, v, hv, _,
    (growth_in_place h hk hv he (show d < roundUp 150 from hd) htype).1 f hf haddr hfit⟩

end FtMalloc
