import FtMalloc.Properties.FreeOrder
import FtMalloc.Properties.Mappings

/-!
# `free` undoes `malloc`

Giving back the block that was allocated last brings the zones back to what they were, except that a
`TINY` or `SMALL` zone that had to be mapped for it stays. The next request of the same size is
served at the same place.
-/

namespace FtMalloc

open HeapLib TiledZone

/-- The same zone with the same lists and counters. -/
structure ZoneView.SameLists (v w : ZoneView) : Prop where
  addr : v.addr = w.addr
  blocks : v.blocks = w.blocks
  emptySpaces : v.emptySpaces = w.emptySpaces
  blocksNum : v.blocksNum = w.blocksNum
  remainingSpace : v.remainingSpace = w.remainingSpace

/-- A zone with no block and one empty space that covers all its usable bytes. -/
structure ZoneView.Vacant (v : ZoneView) : Prop where
  blocks : v.blocks = []
  emptySpaces : v.emptySpaces = [⟨v.addr + zoneHeaderSize, v.totalSpace - headerSize, v.stop⟩]

/-- From `s` the request `malloc(size)` has returned `p` in `s₁`, and `free(p)` has led to `s₂`. -/
structure Undone (P : Platform) (size p : ℕ) (s s₁ s₂ : Heap) : Prop where
  kept : ∀ v ∈ view s, ∃ w ∈ view s₂, w.SameLists v
  large : getZoneType (roundUp size) = .large → view s₂ = view s
  reused : ¬ Mapped s s₁ → view s₂ = view s
  mapped : getZoneType (roundUp size) ≠ .large → Mapped s s₁ → ∃ v, view s₂ = v :: view s ∧
    v.type = (getZoneType (roundUp size)).code ∧ v.Vacant
  again : getZoneType (roundUp size) ≠ .large → ∀ kernel, s₂.KernelOk P kernel →
    wp (malloc P kernel size) (fun q s₃ => q = p ∧ s₃.calls = s₂.calls) s₂

variable {P : Platform} {s s₁ s₂ : Heap} {A A₁ A₂ : Arena P} {kernel : ℕ → Option ℕ}
  {z z' w : TiledZone} {a b n p size : ℕ} {o : Outcome}

/-! ## Zones without blocks -/

/-- The empty space of a zone that has just been mapped. -/
theorem frees_fresh {type : EType} {len : ℕ} : frees (fresh type a len).tiles =
    [⟨a + zoneHeaderSize, len - zoneHeaderSize - headerSize, false⟩] := rfl

/-- A zone of a small class that has been given back its only block. -/
theorem wellFormed_refresh_fresh (hn : alignment ≤ n ∧ alignment ∣ n)
    (hclass : getZoneType n ≠ .large) (hlen : 0 < P.zoneLength (getZoneType n) n)
    (hpage : P.pagesize ∣ a) (hpos : 0 < a) (hbound : a + P.zoneLength (getZoneType n) n < 2 ^ 64) :
    (fresh (getZoneType n) a (P.zoneLength (getZoneType n) n)).refresh.WellFormed P := by
  have hframed := framed_fresh hn hlen hpage hpos hbound
  exact
    { laid := hframed.laid.refresh
      page := by
        rw [refresh_addr]
        exact hframed.page
      sized := by
        rw [refresh_type, refresh_len]
        exact hframed.sized
      coalesced := by
        rw [refresh_tiles]
        exact List.isChain_singleton _
      cache := by
        intro hne
        rw [refresh_tiles] at hne ⊢
        exact refresh_cache hne
      owned := by
        rw [refresh_type]
        exact fun hl => absurd hl hclass }

/-- Releasing the block that was added last restores a zone that had an empty space. -/
theorem TiledZone.WellFormed.release_edited {t : Tile} (hw : w.WellFormed P)
    (hne : frees w.tiles ≠ []) (hl : w.type ≠ .large) (he : Edited P w z' ∅ {t}) :
    z'.release t.addr = w := by
  have ht : t ∈ z'.live := he.live ▸ .inl rfl
  have hold : t ∉ w.live := fun hmem =>
    Set.disjoint_left.mp he.fresh rfl ⟨hmem, Set.notMem_empty t⟩
  have hback := he.wf.release (he.type.trans_ne hl) ht
  refine (hw.eq_of_live hback.wf ?_ ?_ hne).symm
  · simp only [TiledZone.frame, hback.addr, hback.len, hback.type, he.addr, he.len, he.type]
  · rw [hback.live, he.live, Set.empty_union, Set.sdiff_empty, Set.singleton_union,
      Set.insert_sdiff_self_of_notMem hold]

/-- What is allocated in a zone is allocated in it with a refreshed maximum as well. -/
theorem TiledZone.Edited.of_refresh {old new : Set Tile} (he : Edited P w z' old new) :
    Edited P w.refresh z' old new where
  wf := he.wf
  addr := he.addr.trans (refresh_addr w).symm
  len := he.len.trans (refresh_len w).symm
  type := he.type.trans (refresh_type w).symm
  live := by
    rw [he.live, TiledZone.live, TiledZone.live, refresh_tiles]
  fresh := by
    rw [TiledZone.live, refresh_tiles]
    exact he.fresh

/-! ## Allocating and giving back -/

/-- Giving back what was just allocated restores the zones, behind the zone that was mapped for it if
it is one of a small class. -/
theorem Arena.Allocated.free_zones (h : A.Allocated kernel n o)
    (hk : Zones.KernelFresh P A.zones kernel) (hn : GrainSize n) (hne : o.result ≠ null)
    (hA₁ : A₁.zones = o.zones) :
    ((getZoneType n = .large ∨ ¬ o.Maps) ∧ (Zones.free o.result A₁.zones).zones = A.zones) ∨
    ∃ a, getZoneType n ≠ .large ∧ o.Maps ∧ kernel (P.zoneLength (getZoneType n) n) = some a ∧
      (Zones.free o.result A₁.zones).zones =
        (fresh (getZoneType n) a (P.zoneLength (getZoneType n) n)).refresh :: A.zones := by
  cases h with
  | @found pre post z z' b hsearch halloc =>
    obtain ⟨heq, htype, hl, -⟩ := Arena.search_eq_some hsearch
    have hwf := A.wf z (by simp [heq])
    obtain ⟨k, -, he⟩ :=
      hwf.toFramed.alloc (fun h => absurd h hl) (Arena.grain_of_class hn (htype ▸ hl)) halloc
    refine .inl ⟨.inr ?_, ?_⟩
    · rintro ⟨len, a, hmem⟩
      exact List.not_mem_nil hmem
    · have hfree := A₁.free_of_mem hA₁ (t := ⟨b, k, true⟩) (he.live ▸ .inl rfl)
      rw [if_neg (he.type.trans_ne hl),
        hwf.release_edited (Arena.frees_ne_nil_of_alloc halloc) hl he, ← heq] at hfree
      exact congrArg Outcome.zones hfree
  | full => exact absurd rfl hne
  | huge => exact absurd rfl hne
  | refused => exact absurd rfl hne
  | @mapped a b z hsearch hans hgrain halloc =>
    obtain ⟨hlen, hpage, hpos, hbound, -⟩ := hk _ a hans
    obtain ⟨k, -, he⟩ := alloc_fresh hgrain hlen hpage hpos hbound halloc
    have hfree := A₁.free_of_mem (show A₁.zones = [] ++ _ from hA₁) (t := ⟨b, k, true⟩)
      (he.live ▸ .inl rfl)
    by_cases hl : getZoneType n = .large
    · refine .inl ⟨.inl hl, ?_⟩
      rw [if_pos (he.type.trans hl)] at hfree
      exact congrArg Outcome.zones hfree
    · refine .inr ⟨a, hl, ⟨_, _, List.mem_singleton_self _⟩, hans, ?_⟩
      have hwf := wellFormed_refresh_fresh hgrain hl hlen hpage hpos hbound
      rw [if_neg (he.type.trans_ne hl), hwf.release_edited (by simp [frees_fresh])
        (by simpa using hl) he.of_refresh] at hfree
      exact congrArg Outcome.zones hfree

/-- A zone that is only refreshed serves a request at the same place. -/
theorem exists_alloc_refresh (h : z.alloc n = some (b, z')) :
    ∃ w, z.refresh.alloc n = some (b, w) := by
  obtain ⟨⟨pre, t, post⟩, hcut, heq⟩ := Option.map_eq_some_iff.mp h
  cases heq
  rw [TiledZone.alloc, refresh_tiles, hcut]
  exact ⟨_, rfl⟩

/-- A vacant zone of a small class promises room for every size of the class. -/
theorem fits_refresh_fresh (hclass : getZoneType n ≠ .large)
    (hlen : 0 < P.zoneLength (getZoneType n) n) : Zones.fits (getZoneType n) n
      (fresh (getZoneType n) a (P.zoneLength (getZoneType n) n)).refresh = true := by
  have hge := P.pagesize_ge
  have hroom : n + 144 ≤ P.zoneLength (getZoneType n) n := by
    rcases getZoneType_cases n with ⟨ht, -, hle⟩ | ⟨ht, -, hle⟩ | ⟨ht, -⟩
    · rw [ht] at hlen ⊢
      have := Nat.le_of_dvd hlen P.dvd_tinyZoneSize
      simp only [Platform.zoneLength] at *
      omega
    · rw [ht] at hlen ⊢
      have := Nat.le_of_dvd hlen P.dvd_smallZoneSize
      simp only [Platform.zoneLength] at *
      omega
    · exact absurd ht hclass
  refine Zones.fits_iff.mpr ⟨refresh_type _, ?_⟩
  rw [refresh_cache (by simp [frees_fresh]), frees_fresh]
  simp only [largest, List.foldr_cons, List.foldr_nil, headerSize, zoneHeaderSize]
  omega

/-- After the block has been given back, the same request of a small class is served at the same
place, without the kernel. -/
theorem Arena.Allocated.again (h : A.Allocated kernel n o)
    (hk : Zones.KernelFresh P A.zones kernel) (hn : GrainSize n) (hne : o.result ≠ null)
    (hA₁ : A₁.zones = o.zones) (hclass : getZoneType n ≠ .large) (kernel' : ℕ → Option ℕ) :
    (Zones.allocate P kernel' n (Zones.free o.result A₁.zones).zones).result = o.result ∧
      (Zones.allocate P kernel' n (Zones.free o.result A₁.zones).zones).calls = [] := by
  rcases h.free_zones hk hn hne hA₁ with ⟨hstay, hzones⟩ | ⟨a, -, hmaps, hans, hzones⟩
  · have hidle := hstay.resolve_left hclass
    rw [hzones]
    cases h with
    | found hsearch halloc =>
      rw [Arena.allocate_of_search P kernel' hsearch halloc]
      exact ⟨rfl, rfl⟩
    | full => exact absurd rfl hne
    | huge => exact absurd rfl hne
    | refused => exact absurd rfl hne
    | mapped => exact absurd ⟨_, _, List.mem_singleton_self _⟩ hidle
  · rw [hzones]
    cases h with
    | found =>
      obtain ⟨len, a, hmem⟩ := hmaps
      exact absurd hmem List.not_mem_nil
    | full => exact absurd rfl hne
    | huge => exact absurd rfl hne
    | refused => exact absurd rfl hne
    | @mapped a' b z hsearch hans' hgrain halloc =>
      rw [hans, Option.some.injEq] at hans'
      subst hans'
      obtain ⟨w, hw⟩ := exists_alloc_refresh halloc
      have hfound : Zones.search (getZoneType n) n
          ((fresh (getZoneType n) a (P.zoneLength (getZoneType n) n)).refresh :: A.zones) =
          some ([], (fresh (getZoneType n) a (P.zoneLength (getZoneType n) n)).refresh, A.zones) := by
        rw [Zones.search, if_neg hclass]
        exact cutAt_eq_some.mpr ⟨rfl, fits_refresh_fresh hclass (hk _ a hans).1,
          fun w hw => absurd hw List.not_mem_nil⟩
      rw [Arena.allocate_of_search P kernel' hfound hw]
      exact ⟨rfl, rfl⟩

/-! ## In the program -/

/-- `free` leads to a state that holds the zones of its outcome. -/
theorem Holds.wp_free_zones (h : Holds s A) (ptr : ℕ) :
    wp (free P ptr) (fun _ s' => ∃ A' : Arena P, Holds s' A' ∧
      A'.zones = (Zones.free ptr A.zones).zones) s := by
  have hnone : s.KernelOk P fun _ => none := fun _ _ hans => by cases hans
  have hfree := h.wp_outcome hnone (.free ptr)
  rw [Call.run, wp_bind] at hfree
  apply wp_mono hfree
  intro _ s' hpost
  rw [wp_pure] at hpost
  exact hpost.2.2

/-- A vacant zone is seen as one. -/
theorem vacant_refresh_fresh {type : EType} {len : ℕ} (hlen : 112 ≤ len) :
    (ZoneView.ofZone (fresh type a len).refresh).Vacant where
  blocks := by
    simp [ZoneView.ofZone, fresh, useds]
  emptySpaces := by
    have hstop : a + zoneHeaderSize + headerSize + (len - zoneHeaderSize - headerSize) = a + len := by
      simp only [headerSize, zoneHeaderSize]
      omega
    simp only [ZoneView.ofZone, refresh_tiles, refresh_addr, refresh_len, frees_fresh, fresh_addr,
      fresh_len, List.map_cons, List.map_nil, RegionView.ofTile, Tile.stop, hstop]

/-- Giving back what `malloc` has just returned undoes it. -/
theorem Holds.undone (h : Holds s A) (hk : s.KernelOk P kernel) (hp : p ≠ null)
    (hres : p = (Zones.malloc P kernel size A.zones).result)
    (hbecame : s.Became P s₁ A.zones (Zones.malloc P kernel size A.zones).zones
      (Zones.malloc P kernel size A.zones).calls)
    (hA₁ : A₁.zones = (Zones.malloc P kernel size A.zones).zones) (hA₂ : Holds s₂ A₂)
    (hfree : A₂.zones = (Zones.free p A₁.zones).zones) : Undone P size p s s₁ s₂ := by
  have hok : ¬(size = 0 ∨ size > P.maxAllocSize) := by
    intro hbad
    rw [Zones.malloc, Zones.mallocWithin, if_pos hbad] at hres
    exact hp hres
  have hpos : 0 < size := by omega
  have hmalloc (kernel : ℕ → Option ℕ) (zs : List TiledZone) :
      Zones.malloc P kernel size zs = Zones.allocate P kernel (roundUp size) zs := if_neg hok
  have hkA := h.rep.kernelFresh A.spread hk
  have hcases := A.allocate_cases hkA (grainSize_roundUp hpos)
  rw [hmalloc] at hres hbecame hA₁
  have hview := h.rep.view_eq A.spread
  have hview₂ := hA₂.rep.view_eq A₂.spread
  rw [hfree, hres] at hview₂
  have hagain := hcases.again hkA (grainSize_roundUp hpos) (hres ▸ hp) hA₁
  have hstay : getZoneType (roundUp size) = .large ∨ ¬ Mapped s s₁ → view s₂ = view s := by
    intro hor
    rw [hview₂, hview]
    rcases hcases.free_zones hkA (grainSize_roundUp hpos) (hres ▸ hp) hA₁ with
      ⟨-, hzones⟩ | ⟨a, hclass, hmaps, -⟩
    · rw [hzones]
    · rw [hbecame.mapped_iff] at hor
      exact absurd hmaps (hor.resolve_left hclass)
  have hopened : getZoneType (roundUp size) ≠ .large → Mapped s s₁ → ∃ v, view s₂ = v :: view s ∧
      v.type = (getZoneType (roundUp size)).code ∧ v.Vacant := by
    intro hclass hmaps
    rw [hbecame.mapped_iff] at hmaps
    rcases hcases.free_zones hkA (grainSize_roundUp hpos) (hres ▸ hp) hA₁ with
      ⟨hidle, -⟩ | ⟨a, -, -, hans, hzones⟩
    · exact absurd hmaps (hidle.resolve_left hclass)
    · rw [hview₂, hview, hzones]
      refine ⟨_, List.map_cons, congrArg EType.code (refresh_type _), vacant_refresh_fresh ?_⟩
      have := (zoneLength_room (Arena.grain_of_class (grainSize_roundUp hpos) hclass)
        (hkA _ a hans).1).1
      omega
  exact
    { kept := by
        intro v hv
        have hself : v.SameLists v := ⟨rfl, rfl, rfl, rfl, rfl⟩
        by_cases hor : getZoneType (roundUp size) = .large ∨ ¬ Mapped s s₁
        · exact ⟨v, (hstay hor).symm ▸ hv, hself⟩
        · rw [not_or, not_not] at hor
          obtain ⟨w, hw, -⟩ := hopened hor.1 hor.2
          exact ⟨v, hw ▸ List.mem_cons_of_mem _ hv, hself⟩
      large := fun hl => hstay (.inl hl)
      reused := fun hidle => hstay (.inr hidle)
      mapped := hopened
      again := by
        intro hclass kernel' hk'
        obtain ⟨hsame, hcalls⟩ := hagain hclass kernel'
        refine wp_mono (hA₂.wp_outcome hk' (.malloc size)) ?_
        rintro q s₃ ⟨hq, hbecame₃, -⟩
        rw [Call.outcome, hmalloc, hfree, hres] at hq hbecame₃
        refine ⟨?_, ?_⟩
        · rw [hq, hres, hsame]
        · rw [hbecame₃.calls, hcalls, List.nil_append] }

/-- In every reachable state, `free` of what `malloc(size)` has returned restores the lists and
counters of all zones. The zones are exactly those from before if the size is `LARGE` or nothing was
mapped; otherwise the new zone stays in front of them, without blocks. A further `malloc(size)` of a
small class returns the same pointer and needs no kernel call. -/
theorem free_undoes_malloc (h : Reachable P s) (hk : s.KernelOk P kernel) (size : ℕ) :
    wp (malloc P kernel size) (fun p s₁ => p ≠ null →
      wp (free P p) (fun _ s₂ => Undone P size p s s₁ s₂) s₁) s := by
  obtain ⟨A, hA⟩ := h.exists_holds
  refine wp_mono (hA.wp_outcome hk (.malloc size)) ?_
  rintro p s₁ ⟨hres, hbecame, A₁, hA₁, hzones⟩ hp
  apply wp_mono (hA₁.wp_free_zones p)
  rintro _ s₂ ⟨A₂, hA₂, hfree⟩
  exact hA.undone hk hp hres hbecame hzones hA₂ hfree

/-- The first request of a process, with a zone to map. -/
theorem free_undoes_malloc_witness :
    wp (malloc .unlimited (kernelAt 65536) 100) (fun p s₁ => p ≠ null →
      wp (free .unlimited p) (fun _ s₂ => Undone .unlimited 100 p Heap.blank s₁ s₂) s₁)
      Heap.blank :=
  free_undoes_malloc ⟨_, [], ⟨rfl, rfl, rfl, rfl⟩, .nil⟩
    (kernelOk_kernelAt (by decide) (by decide) (by decide) fun _ _ => rfl) 100

end FtMalloc
