import FtMalloc.Runs

/-!
# Owners of the `LARGE` zones

A `LARGE` zone belongs to one block. It is unmapped together with this block, over the range that
was mapped for it, and no other zone is ever unmapped.
-/

namespace FtMalloc

open HeapLib TiledZone

/-- The zone has one block, right behind its header, and at most one empty space, from the end of
the block to the end of the zone. -/
def ZoneView.Owned (v : ZoneView) : Prop :=
  ∃ e, v.blocks = [e] ∧ e.addr = v.addr + zoneHeaderSize ∧
    (v.emptySpaces = [] ∨ ∃ f, v.emptySpaces = [f] ∧ f.addr = e.stop ∧ f.stop = v.stop)

/-- What stays of a zone as long as it is mapped. -/
def ZoneView.frame (v : ZoneView) : ℕ × ℕ × ℕ := (v.addr, v.stop, v.type)

/-- From `s` to `s'`, the call unmaps nothing but whole `LARGE` zones that belong to the block of
its argument. -/
structure UnmapsOwned (c : Call) (s s' : Heap) : Prop where
  owned : ∃ new, s'.calls = new ++ s.calls ∧ ∀ a len, Syscall.munmap a len ∈ new →
    Syscall.mmap len (some a) ∈ s.calls ∧ (a, len) ∈ replayAll s.calls [] ∧
      ∃ v ∈ view s, v.type = EType.large.code ∧ v.addr = a ∧ v.stop = a + len ∧
        ∃ e, v.blocks = [e] ∧ c.ptr = e.addr + headerSize
  others : ∀ b n, Live s b n → c.ptr ≠ b + headerSize → Live s' b n
  kept : ∀ v ∈ view s, v.type ≠ EType.large.code → v.frame ∈ (view s').map ZoneView.frame

variable {P : Platform} {s s' : Heap} {z : TiledZone} {A A' : Arena P} {kernel : ℕ → Option ℕ}
  {c : Call} {e : Event} {r a len : ℕ} {calls : List Syscall} {old new : Set Tile} {v : ZoneView}

/-! ## The block of a zone -/

/-- The block of a `LARGE` zone is its first tile, and at most one empty space follows. -/
theorem TiledZone.WellFormed.tiles_of_large (hz : z.WellFormed P) (hl : z.type = .large) :
    ∃ t ts, z.tiles = t :: ts ∧ t.used = true ∧ t.addr = z.addr + zoneHeaderSize ∧
      (ts = [] ∨ ∃ u, ts = [u] ∧ u.used = false) := by
  have howned := hz.owned hl
  have hmem : z.addr + zoneHeaderSize ∈ z.blocks := by
    rw [howned]
    exact List.mem_singleton_self _
  obtain ⟨b, hb, haddr⟩ := mem_blocks.mp hmem
  obtain ⟨hbt, hbu⟩ := mem_live.mp hb
  cases htiles : z.tiles with
  | nil =>
    rw [htiles] at hbt
    exact absurd hbt List.not_mem_nil
  | cons t ts =>
    have htiled := hz.laid.tiled
    have hcoal := hz.coalesced
    have htm : t ∈ z.tiles := by simp [htiles]
    rw [htiles] at htiled hcoal
    have hbt' : t = b := hz.laid.tiled.eq_of_addr_eq (by decide) htm hbt
      (htiled.1.trans haddr.symm)
    subst hbt'
    refine ⟨t, ts, rfl, hbu, haddr, ?_⟩
    have hnone : useds ts = [] := by
      rw [blocks, htiles, useds_cons, if_pos hbu, List.map_cons, List.cons.injEq] at howned
      exact List.map_eq_nil_iff.mp howned.2
    by_cases hts : ts = []
    · exact .inl hts
    · exact .inr (Coalesced.eq_singleton hcoal.tail hnone hts)

/-- A `LARGE` zone belongs to one block. -/
theorem TiledZone.WellFormed.owned_view (hz : z.WellFormed P) (hl : z.type = .large) :
    (ZoneView.ofZone z).Owned := by
  obtain ⟨t, ts, htiles, hused, haddr, hrest⟩ := hz.tiles_of_large hl
  have htiled := hz.laid.tiled
  rw [htiles] at htiled
  refine ⟨.ofTile t, ?_, haddr, ?_⟩
  · change (useds z.tiles).map RegionView.ofTile = _
    rw [htiles, useds_cons, if_pos hused]
    rcases hrest with rfl | ⟨u, rfl, hu⟩
    · rfl
    · rw [useds_cons, hu]
      rfl
  · change (frees z.tiles).map RegionView.ofTile = [] ∨
      ∃ f, (frees z.tiles).map RegionView.ofTile = [f] ∧ _
    rw [htiles, frees_cons, if_pos hused]
    rcases hrest with rfl | ⟨u, rfl, hu⟩
    · exact .inl rfl
    · refine .inr ⟨.ofTile u, ?_, htiled.2.1, htiled.2.2⟩
      rw [frees_cons, hu]
      rfl

/-- The block that owns a `LARGE` zone is seen alone on its list. -/
theorem TiledZone.WellFormed.blocks_of_live {t : Tile} (hz : z.WellFormed P)
    (hl : z.type = .large) (ht : t ∈ z.live) :
    (ZoneView.ofZone z).blocks = [.ofTile t] := by
  obtain ⟨e, hblocks, -⟩ := hz.owned_view hl
  have hmem : RegionView.ofTile t ∈ (ZoneView.ofZone z).blocks := List.mem_map_of_mem ht
  rw [hblocks, List.mem_singleton] at hmem
  rw [hblocks, hmem]

/-! ## Kernel calls -/

/-- A range is mapped only when a call has mapped it. -/
theorem mem_of_mem_replayAll (h : (a, len) ∈ replayAll calls []) :
    Syscall.mmap len (some a) ∈ calls := by
  induction calls with
  | nil => exact absurd h List.not_mem_nil
  | cons c cs ih =>
    rw [replayAll_cons] at h
    cases c with
    | mmap len' answer =>
      cases answer with
      | none => exact List.mem_cons_of_mem _ (ih h)
      | some b =>
        rcases List.mem_cons.mp h with heq | h
        · cases heq
          exact List.mem_cons_self
        · exact List.mem_cons_of_mem _ (ih h)
    | munmap b len' => exact List.mem_cons_of_mem _ (ih (List.mem_of_mem_erase h))

/-- The frame of a zone is seen. -/
theorem frame_ofZone : (ZoneView.ofZone z).frame = (z.addr, z.addr + z.len, z.type.code) := rfl

/-- A call keeps every zone of a small class. -/
theorem Effect.frame_mem (h : Effect c r s s' A A' calls old new) (hA : Holds s A)
    (hv : v ∈ view s) (hsmall : v.type ≠ EType.large.code) :
    v.frame ∈ (view s').map ZoneView.frame := by
  obtain ⟨z, hz, rfl⟩ := (hA.rep.mem_view A.spread).mp hv
  rcases h.turn.kept z hz with ⟨z', hz', hframe⟩ | ⟨hl, -, -⟩
  · refine List.mem_map.mpr ⟨.ofZone z', (h.holds.rep.mem_view A'.spread).mpr ⟨z', hz', rfl⟩, ?_⟩
    simp only [TiledZone.frame, Prod.mk.injEq] at hframe
    rw [frame_ofZone, frame_ofZone, hframe.1, hframe.2.1, hframe.2.2]
  · exact absurd (congrArg EType.code hl) hsmall

/-- A call keeps every live block other than that of its argument. -/
theorem Effect.live_of_ne (h : Effect c r s s' A A' calls old new) (hA : Holds s A) {b n : ℕ}
    (hlive : Live s b n) (hne : c.ptr ≠ b + headerSize) : Live s' b n := by
  have ht := (hA.rep.live_iff A.spread).mp hlive
  refine (h.holds.rep.live_iff A'.spread).mpr ?_
  change _ ∈ A'.live
  rw [h.turn.live]
  exact .inr ⟨ht, fun hold => hne (h.gone _ hold).2⟩

/-- A call unmaps only `LARGE` zones that belong to the block of its argument. -/
theorem Effect.unmapsOwned (h : Effect c r s s' A A' calls old new) (hA : Holds s A) :
    UnmapsOwned c s s' where
  owned := by
    refine ⟨calls, h.became.calls, fun a len hmem => ?_⟩
    obtain ⟨z, hz, hl, rfl, rfl, hold⟩ := h.turn.unmapped a len hmem
    obtain ⟨t, ht⟩ := A.exists_live_of_large hz hl
    have hrange : (z.addr, z.len) ∈ replayAll s.calls [] := by
      rw [hA.ledger]
      exact List.mem_map_of_mem (f := fun z : TiledZone => (z.addr, z.len)) hz
    refine ⟨mem_of_mem_replayAll hrange, hrange, .ofZone z,
      (hA.rep.mem_view A.spread).mpr ⟨z, hz, rfl⟩, congrArg EType.code hl, rfl, rfl, .ofTile t,
      (A.wf z hz).blocks_of_live hl ht, (h.gone t (hold ht)).2⟩
  others := fun _ _ hlive hne => h.live_of_ne hA hlive hne
  kept := fun _ hv hsmall => h.frame_mem hA hv hsmall

/-! ## Runs -/

/-- A step keeps every zone of a small class. -/
theorem Holds.frame_step (h : Holds s A) (hstep : Step P s e s') (hv : v ∈ view s)
    (hsmall : v.type ≠ EType.large.code) : v.frame ∈ (view s').map ZoneView.frame := by
  cases hstep with
  | call c _ hk hrun =>
    obtain ⟨A', _, _, _, heffect⟩ := h.exists_effect hk hrun
    exact heffect.frame_mem h hv hsmall
  | store w hlive hx =>
    rw [(h.store w hlive hx).rep.view_eq A.spread, ← h.rep.view_eq A.spread]
    exact List.mem_map_of_mem hv

/-- A run keeps every zone of a small class. -/
theorem Reachable.frame_run {tr : List (Transition Heap Event)} (h : Reachable P s)
    (hrun : Run (Step P) s tr s') (hv : v ∈ view s) (hsmall : v.type ≠ EType.large.code) :
    v.frame ∈ (view s').map ZoneView.frame := by
  have hinv := hrun.preserves (I := fun t => (∃ A : Arena P, Holds t A) ∧
    v.frame ∈ (view t).map ZoneView.frame) ⟨h.exists_holds, List.mem_map_of_mem hv⟩
    fun t ht hbefore hstep => by
      obtain ⟨⟨A, hA⟩, hmem⟩ := hbefore
      obtain ⟨w, hw, hframe⟩ := List.mem_map.mp hmem
      have htype : w.type = v.type := congrArg (fun f => f.2.2) hframe
      rw [← hframe]
      exact ⟨hA.step hstep, hA.frame_step hstep hw (htype ▸ hsmall)⟩
  exact hinv.2

/-- In every reachable state a `LARGE` zone has one block, right behind its header, and at most one
empty space, behind the block. A call that unmaps a range unmaps a whole `LARGE` zone, as it was
mapped, whose block is that of its argument, and every other block lives on. Zones of the small
classes stay mapped in every run. -/
theorem large_zones_owned (h : Reachable P s) :
    (∀ v ∈ view s, v.type = EType.large.code → v.Owned) ∧
    (∀ kernel c, s.KernelOk P kernel → wp (c.run P kernel) (fun _ s' => UnmapsOwned c s s') s) ∧
    ∀ tr s', Run (Step P) s tr s' → ∀ v ∈ view s, v.type ≠ EType.large.code →
      v.frame ∈ (view s').map ZoneView.frame := by
  obtain ⟨A, hA⟩ := h.exists_holds
  refine ⟨fun v hv hl => ?_, fun kernel c hk => ?_, fun tr s' hrun v hv hsmall =>
    h.frame_run hrun hv hsmall⟩
  · obtain ⟨z, hz, rfl⟩ := (hA.rep.mem_view A.spread).mp hv
    exact (A.wf z hz).owned_view (EType.code_injective hl)
  · refine wp_mono (hA.wp_call hk c) ?_
    rintro r s' ⟨A', calls, old, new, heffect⟩
    exact heffect.unmapsOwned hA

/-- A `LARGE` block that has been shrunk below its class. -/
theorem large_zones_owned_witness : ∃ s, Reachable .unlimited s ∧
    (∃ v ∈ view s, v.type = EType.large.code ∧ v.emptySpaces.length = 1) ∧
    (∀ v ∈ view s, v.type = EType.large.code → v.Owned) ∧
    wp ((Call.free 65648).run .unlimited fun _ => none)
      (fun _ s' => UnmapsOwned (.free 65648) s s') s := by
  obtain ⟨s, A, h, hA, hzones⟩ := exists_reachable (P := .unlimited) 65536 (.malloc 5000)
    [.realloc 65648 200] (by decide) (by decide) (by decide) (by decide) (by decide)
  have hk : s.KernelOk .unlimited fun _ => none := fun _ _ hans => by cases hans
  have hall := large_zones_owned h
  refine ⟨s, h, ?_, hall.1, hall.2.1 _ _ hk⟩
  rw [hA.rep.view_eq A.spread, hzones]
  decide +kernel

end FtMalloc
