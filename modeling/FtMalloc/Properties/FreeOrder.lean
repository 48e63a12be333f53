import FtMalloc.Properties.Pointers

/-!
# Free lists do not depend on the history

The empty spaces of a zone are the maximal gaps between its live blocks, so the live blocks of a
zone determine its list of empty spaces and its counters, whatever happened before. In particular
two releases commute.
-/

namespace FtMalloc

open HeapLib TiledZone

/-- Two zones over the same range, of the same type, with the same blocks. -/
structure ZoneView.SameBlocks (v w : ZoneView) : Prop where
  addr : v.addr = w.addr
  stop : v.stop = w.stop
  type : v.type = w.type
  blocks : ∀ b n, (∃ e ∈ v.blocks, e.addr = b ∧ e.size = n) ↔
    ∃ e ∈ w.blocks, e.addr = b ∧ e.size = n

variable {P : Platform} {s s' : Heap} {z w : TiledZone} {A : Arena P} {t u : Tile} {lo hi : ℕ}
  {ts us : List Tile}

/-! ## Zones with the same blocks -/

/-- The used tiles of a tiling are determined by which they are. -/
theorem useds_eq_of_mem_iff (ht : Tiled headerSize lo ts hi) (hu : Tiled headerSize lo us hi)
    (h : ∀ t, t ∈ useds ts ↔ t ∈ useds us) : useds ts = useds us := by
  have hsorted {l : List Tile} (hl : Tiled headerSize lo l hi) :
      (useds l).Pairwise fun s t => s.addr < t.addr := by
    refine (hl.pairwise.sublist List.filter_sublist).imp fun {s t} hst => ?_
    simp only [Tile.stop, headerSize] at hst
    omega
  have : Std.Irrefl fun s t : Tile => s.addr < t.addr := ⟨fun s => Nat.lt_irrefl s.addr⟩
  have : Std.Antisymm fun s t : Tile => s.addr < t.addr :=
    ⟨fun s t hst hts => absurd hst (Nat.lt_asymm hts)⟩
  exact (hsorted ht).eq_of_mem_iff (hsorted hu) h

/-- The blocks of a zone determine its tiling. -/
theorem TiledZone.WellFormed.tiles_eq (hz : z.WellFormed P) (hw : w.WellFormed P)
    (haddr : z.addr = w.addr) (hlen : z.len = w.len) (hlive : z.live = w.live) :
    z.tiles = w.tiles := by
  have hzt := hz.laid.tiled
  have hwt := hw.laid.tiled
  rw [← haddr, ← hlen] at hwt
  have huseds := useds_eq_of_mem_iff hzt hwt (Set.ext_iff.mp hlive)
  exact hzt.unique hwt hz.coalesced hw.coalesced (by decide) huseds

/-- The blocks of a zone with an empty space determine all of it. -/
theorem TiledZone.WellFormed.eq_of_live (hz : z.WellFormed P) (hw : w.WellFormed P)
    (hframe : z.frame = w.frame) (hlive : z.live = w.live) (hne : frees z.tiles ≠ []) : z = w := by
  simp only [TiledZone.frame, Prod.mk.injEq] at hframe
  obtain ⟨haddr, hlen, htype⟩ := hframe
  have htiles := hz.tiles_eq hw haddr hlen hlive
  have hcache : z.cache = w.cache := by
    rw [hz.cache hne, hw.cache (htiles ▸ hne), htiles]
  cases z
  cases w
  simp only at haddr hlen htype htiles hcache
  subst haddr hlen htype htiles hcache
  rfl

/-- Zones seen with the same blocks have the same blocks. -/
theorem ZoneView.SameBlocks.live_eq (h : (ZoneView.ofZone z).SameBlocks (.ofZone w)) :
    z.live = w.live := by
  have hmem (x : TiledZone) (t : Tile) (ht : t.used = true) : t ∈ x.live ↔
      ∃ e ∈ (ZoneView.ofZone x).blocks, e.addr = t.addr ∧ e.size = t.size := by
    constructor
    · exact fun hx => ⟨.ofTile t, List.mem_map_of_mem hx, rfl, rfl⟩
    · rintro ⟨e, he, haddr, hsize⟩
      obtain ⟨u, hu, rfl⟩ := List.mem_map.mp he
      have hut : u = t := by
        have huu := (mem_useds.mp hu).2
        cases u
        cases t
        simp only [RegionView.ofTile] at haddr hsize ht huu
        rw [haddr, hsize, ht, huu]
      exact hut ▸ hu
  ext t
  by_cases ht : t.used = true
  · rw [hmem z t ht, hmem w t ht]
    exact h.blocks t.addr t.size
  · exact iff_of_false (fun hz => ht (mem_live.mp hz).2) fun hw => ht (mem_live.mp hw).2

/-! ## Two releases -/

/-- What the release of the block `t` leaves of a zone. -/
def giveBack (t : Tile) (z : TiledZone) : Option TiledZone :=
  if t ∈ useds z.tiles then if z.type = .large then none else some (z.release t.addr) else some z

/-- Giving back a block of another zone. -/
theorem giveBack_of_not_mem (h : t ∉ z.live) : giveBack t z = some z := if_neg h

/-- Giving back the block of a `LARGE` zone. -/
theorem giveBack_of_large (h : t ∈ z.live) (hl : z.type = .large) : giveBack t z = none :=
  (if_pos h).trans (if_pos hl)

/-- Giving back a block of a zone of a small class. -/
theorem giveBack_of_small (h : t ∈ z.live) (hl : z.type ≠ .large) :
    giveBack t z = some (z.release t.addr) :=
  (if_pos h).trans (if_neg hl)

/-- `free` gives the block back in every zone. -/
theorem Arena.free_zones (A : Arena P) (ht : t ∈ A.live) :
    (Zones.free (t.addr + headerSize) A.zones).zones = A.zones.filterMap (giveBack t) := by
  obtain ⟨pre, z, post, heq, htz, hloc⟩ := A.exists_locate ht
  have hothers {l : List TiledZone} (hl : ∀ w ∈ l, w ∈ pre ++ post) :
      l.filterMap (giveBack t) = l := by
    have hsame : ∀ w ∈ l, giveBack t w = some w := fun w hw =>
      giveBack_of_not_mem (A.not_live_of_apart heq (hl w hw) htz)
    rw [List.filterMap_congr hsame, List.filterMap_some]
  rw [Zones.free, hloc, heq, List.filterMap_append, List.filterMap_cons,
    hothers fun w hw => List.mem_append_left _ hw, hothers fun w hw => List.mem_append_right _ hw]
  simp only
  split
  · next hl => rw [giveBack_of_large htz hl]
  · next hl => rw [giveBack_of_small htz hl]

/-- A zone has an empty space where it has no block. -/
theorem TiledZone.Laid.frees_ne_nil {x : ℕ} (hz : z.Laid) (hlo : z.addr + zoneHeaderSize ≤ x)
    (hhi : x < z.addr + z.len)
    (hnone : ∀ t ∈ z.live, ¬(t.addr ≤ x ∧ x < t.stop headerSize)) : frees z.tiles ≠ [] := by
  obtain ⟨t, ht, hx⟩ := hz.tiled.exists_mem hlo hhi
  have hfree : t.used = false := by
    by_contra hused
    exact hnone t (mem_live.mpr ⟨ht, by simpa using hused⟩) hx
  exact List.ne_nil_of_mem (mem_frees.mpr ⟨ht, hfree⟩)

/-- Giving two blocks of one zone back commutes. -/
theorem TiledZone.WellFormed.release_comm (hz : z.WellFormed P) (hl : z.type ≠ .large)
    (ht : t ∈ z.live) (hu : u ∈ z.live) (hne : t ≠ u) :
    (z.release t.addr).release u.addr = (z.release u.addr).release t.addr := by
  have h₁ := hz.release hl ht
  have h₂ := hz.release hl hu
  have hu₁ : u ∈ (z.release t.addr).live := h₁.live ▸ .inr ⟨hu, Ne.symm hne⟩
  have ht₂ : t ∈ (z.release u.addr).live := h₂.live ▸ .inr ⟨ht, hne⟩
  have h₁₂ := h₁.wf.release (h₁.type.trans_ne hl) hu₁
  have h₂₁ := h₂.wf.release (h₂.type.trans_ne hl) ht₂
  have hlive : ((z.release t.addr).release u.addr).live = (z.live \ {t}) \ {u} := by
    rw [h₁₂.live, h₁.live, Set.empty_union, Set.empty_union]
  have hin := hz.laid.inside (mem_live.mp ht).1
  refine h₁₂.wf.eq_of_live h₂₁.wf ?_ ?_ ?_
  · simp only [TiledZone.frame, h₁₂.addr, h₁₂.len, h₁₂.type, h₁.addr, h₁.len, h₁.type, h₂₁.addr,
      h₂₁.len, h₂₁.type, h₂.addr, h₂.len, h₂.type]
  · rw [hlive, h₂₁.live, h₂.live, Set.empty_union, Set.empty_union]
    exact Set.sdiff_sdiff_comm
  · -- no block is left where the first one was
    refine h₁₂.wf.laid.frees_ne_nil (x := t.addr) ?_ ?_ fun v hv hx => ?_
    · rw [h₁₂.addr, h₁.addr]
      exact hin.1
    · rw [h₁₂.addr, h₁.addr, h₁₂.len, h₁.len]
      omega
    · rw [hlive] at hv
      have := hz.laid.tiled.apart (mem_live.mp hv.1.1).1 (mem_live.mp ht).1 hv.1.2
      simp only [Tile.stop, headerSize] at *
      omega

/-- Giving back a block and then one of another zone. -/
theorem TiledZone.WellFormed.giveBack_comm_of_not_mem (hz : z.WellFormed P) (hu : u ∉ z.live) :
    (giveBack t z).bind (giveBack u) = giveBack t z := by
  by_cases ht : t ∈ z.live
  · by_cases hl : z.type = .large
    · rw [giveBack_of_large ht hl, Option.bind_none]
    · have hu' : u ∉ (z.release t.addr).live := by
        rw [(hz.release hl ht).live, Set.empty_union]
        exact fun hmem => hu hmem.1
      rw [giveBack_of_small ht hl, Option.bind_some, giveBack_of_not_mem hu']
  · rw [giveBack_of_not_mem ht, Option.bind_some, giveBack_of_not_mem hu]

/-- Giving two blocks back commutes on every zone. -/
theorem Arena.giveBack_comm (A : Arena P) (hmem : z ∈ A.zones) (hne : t ≠ u) :
    (giveBack t z).bind (giveBack u) = (giveBack u z).bind (giveBack t) := by
  have hz := A.wf z hmem
  by_cases ht : t ∈ z.live
  · by_cases hu : u ∈ z.live
    · by_cases hl : z.type = .large
      · have hsingle := A.live_of_large hmem hl ht
        rw [hsingle] at hu
        exact absurd hu.symm hne
      · have ht₂ : t ∈ (z.release u.addr).live := (hz.release hl hu).live ▸ .inr ⟨ht, hne⟩
        have hu₁ : u ∈ (z.release t.addr).live := (hz.release hl ht).live ▸ .inr ⟨hu, Ne.symm hne⟩
        rw [giveBack_of_small ht hl, giveBack_of_small hu hl, Option.bind_some, Option.bind_some,
          giveBack_of_small hu₁ ((hz.release hl ht).type.trans_ne hl),
          giveBack_of_small ht₂ ((hz.release hl hu).type.trans_ne hl), hz.release_comm hl ht hu hne]
    · rw [hz.giveBack_comm_of_not_mem hu, giveBack_of_not_mem hu, Option.bind_some]
  · rw [hz.giveBack_comm_of_not_mem ht, giveBack_of_not_mem ht, Option.bind_some]

/-- `free` of a live block leads to an arena without it. -/
theorem Holds.wp_free_block (h : Holds s A) (ht : t ∈ A.live) :
    wp (free P (t.addr + headerSize)) (fun _ s' => ∃ A' : Arena P, Holds s' A' ∧
      A'.zones = A.zones.filterMap (giveBack t) ∧ A'.live = A.live \ {t}) s := by
  obtain ⟨A', calls, heq, hturn⟩ := A.free_turn ht
  have hzones := A.free_zones ht
  apply wp_mono (h.rep.wp_free A h.unlocked)
  intro _ s' hpost
  have hbecame := hpost.1
  simp only [heq] at hbecame hzones
  refine ⟨A', h.turn hturn hbecame, hzones, ?_⟩
  rw [hturn.live, Set.empty_union]

/-- `free` of two live blocks. -/
theorem Holds.wp_free_two (h : Holds s A) (ht : t ∈ A.live) (hu : u ∈ A.live) (hne : t ≠ u) :
    wp (free P (t.addr + headerSize) >>= fun _ => free P (u.addr + headerSize)) (fun _ s' =>
      ∃ A' : Arena P, Holds s' A' ∧
        A'.zones = A.zones.filterMap fun z => (giveBack t z).bind (giveBack u)) s := by
  rw [wp_bind]
  apply wp_mono (h.wp_free_block ht)
  intro _ s₁ hpost
  obtain ⟨A₁, hA₁, hzones, hlive⟩ := hpost
  have hu₁ : u ∈ A₁.live := hlive ▸ ⟨hu, Ne.symm hne⟩
  apply wp_mono (hA₁.wp_free_block hu₁)
  intro _ s₂ hpost
  obtain ⟨A₂, hA₂, hzones₂, -⟩ := hpost
  exact ⟨A₂, hA₂, by rw [hzones₂, hzones, List.filterMap_filterMap]⟩

/-- Two releases of live blocks lead to the same view in either order. -/
theorem Reachable.wp_free_comm {p q : ℕ} (h : Reachable P s) (hp : Payload s p) (hq : Payload s q)
    (hne : p ≠ q) :
    wp (free P p >>= fun _ => free P q) (fun _ s₁ =>
      wp (free P q >>= fun _ => free P p) (fun _ s₂ => view s₁ = view s₂) s) s := by
  obtain ⟨A, hA⟩ := h.exists_holds
  obtain ⟨t, ht, rfl⟩ := hA.payload_iff.mp hp
  obtain ⟨u, hu, rfl⟩ := hA.payload_iff.mp hq
  have htu : t ≠ u := fun heq => hne (heq ▸ rfl)
  apply wp_mono (hA.wp_free_two ht hu htu)
  intro _ s₁ h₁
  obtain ⟨A₁, hA₁, hzones₁⟩ := h₁
  apply wp_mono (hA.wp_free_two hu ht (Ne.symm htu))
  intro _ s₂ h₂
  obtain ⟨A₂, hA₂, hzones₂⟩ := h₂
  have hsame : A₁.zones = A₂.zones := by
    rw [hzones₁, hzones₂]
    exact List.filterMap_congr fun z hz => A.giveBack_comm hz htu
  rw [hA₁.rep.view_eq A₁.spread, hA₂.rep.view_eq A₂.spread, hsame]

/-- In any two reachable states, zones over the same range, of the same type and with the same live
blocks have the same list of empty spaces and the same counters. Two releases of distinct live
pointers lead to the same zones, lists and counters in either order. -/
theorem free_lists_determined (h : Reachable P s) :
    (∀ s', Reachable P s' → ∀ v ∈ view s, ∀ w ∈ view s', v.SameBlocks w →
      v.emptySpaces = w.emptySpaces ∧ v.blocksNum = w.blocksNum ∧
        v.remainingSpace = w.remainingSpace) ∧
    ∀ p q, Payload s p → Payload s q → p ≠ q →
      wp (free P p >>= fun _ => free P q) (fun _ s₁ =>
        wp (free P q >>= fun _ => free P p) (fun _ s₂ => view s₁ = view s₂) s) s := by
  refine ⟨fun s' h' v hv w hw hsame => ?_, fun p q hp hq hne => h.wp_free_comm hp hq hne⟩
  obtain ⟨A, hA⟩ := h.exists_holds
  obtain ⟨A', hA'⟩ := h'.exists_holds
  obtain ⟨x, hx, rfl⟩ := (hA.rep.mem_view A.spread).mp hv
  obtain ⟨y, hy, rfl⟩ := (hA'.rep.mem_view A'.spread).mp hw
  have haddr : x.addr = y.addr := hsame.addr
  have hstop : x.addr + x.len = y.addr + y.len := hsame.stop
  have htiles := (A.wf x hx).tiles_eq (A'.wf y hy) haddr (by omega) hsame.live_eq
  simp only [ZoneView.ofZone, TiledZone.blocks, TiledZone.remaining, htiles, and_self]

/-- Two histories that end with the same block. -/
theorem free_lists_determined_witness : ∃ s s', Reachable .unlimited s ∧ Reachable .unlimited s' ∧
    (∃ v ∈ view s, ∃ w ∈ view s', v.SameBlocks w ∧ v.emptySpaces = w.emptySpaces ∧
      v.blocksNum = w.blocksNum ∧ v.remainingSpace = w.remainingSpace) ∧
    wp (free .unlimited 65648 >>= fun _ => free .unlimited 65792) (fun _ s₁ =>
      wp (free .unlimited 65792 >>= fun _ => free .unlimited 65648)
        (fun _ s₂ => view s₁ = view s₂) s) s := by
  obtain ⟨s, A, h, hA, hzones⟩ := exists_reachable (P := .unlimited) 65536 (.malloc 100)
    [.malloc 64, .malloc 64, .free 65888] (by decide) (by decide) (by decide) (by decide)
    (by decide)
  obtain ⟨s', A', h', hA', hzones'⟩ := exists_reachable (P := .unlimited) 65536 (.malloc 16)
    [.realloc 65648 100, .malloc 30, .realloc 65792 64] (by decide) (by decide) (by decide)
    (by decide) (by decide)
  have hview := hA.rep.view_eq A.spread
  have hview' := hA'.rep.view_eq A'.spread
  rw [hzones] at hview
  rw [hzones'] at hview'
  have hlive : Live s 65616 112 ∧ Live s 65760 64 := by
    rw [Live, Live, hview]
    decide +kernel
  obtain ⟨v, hv, w, hw, haddr, hstop, htype, hblocks⟩ : ∃ v ∈ view s, ∃ w ∈ view s',
      v.addr = w.addr ∧ v.stop = w.stop ∧ v.type = w.type ∧ v.blocks = w.blocks := by
    rw [hview, hview']
    decide +kernel
  have hsame : v.SameBlocks w := ⟨haddr, hstop, htype, fun b n => by rw [hblocks]⟩
  have hboth := free_lists_determined h
  exact ⟨s, s', h, h', ⟨v, hv, w, hw, hsame, hboth.1 s' h' v hv w hw hsame⟩,
    hboth.2 65648 65792 ⟨_, _, hlive.1, rfl⟩ ⟨_, _, hlive.2, rfl⟩ (by decide)⟩

end FtMalloc
