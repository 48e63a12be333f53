import FtMalloc.Abstract.Turns
import FtMalloc.Refine.Extend
import FtMalloc.Refine.Zones

/-!
# The public calls refine the calls on the arena

`malloc`, `free` and `realloc` run without fault from every state that represents an arena, and
do to the memory what the functions of `Zones` do to the arena: the same result, the same kernel
calls, a representation of the resulting zones, and no byte of a staying payload changed.
-/

namespace FtMalloc

open HeapLib TiledZone

variable {P : Platform} {s s' : Heap} {m m' : Memory} {z z' w : TiledZone}
  {zs pre post : List TiledZone} {n a len size ptr : ℕ} {kernel : ℕ → Option ℕ}

/-! ## Sizes -/

/-- Masking with `-alignment` rounds down to a multiple of it. -/
theorem land_mask {x : ℕ} (hx : x < 2 ^ 64) : x &&& (2 ^ 64 - alignment) = x / 16 * 16 := by
  have hmask : 2 ^ 64 - alignment = (2 ^ 60 - 1) * 2 ^ 4 := by decide
  have hdiv : x / 16 * 16 = x / 2 ^ 4 * 2 ^ 4 := rfl
  rw [hmask, hdiv]
  refine Nat.eq_of_testBit_eq fun i => ?_
  rw [Nat.testBit_and, Nat.testBit_mul_two_pow, Nat.testBit_mul_two_pow, Nat.testBit_two_pow_sub_one,
    Nat.testBit_div_two_pow]
  by_cases hlo : 4 ≤ i
  · by_cases hhi : i < 64
    · simp [hlo, show i - 4 < 60 by omega]
    · have hbit : x.testBit i = false :=
        Nat.testBit_lt_two_pow (hx.trans_le (Nat.pow_le_pow_right (by decide) (by omega)))
      simp [hlo, hbit]
  · simp [hlo]

/-- `align_size` computes `roundUp` and nothing wraps. -/
theorem wp_alignSize {Q : ℕ → Heap → Prop} : wp (alignSize n) Q s ↔ Q (roundUp n) s := by
  rw [alignSize, roundUp]
  by_cases hle : n > sizeMax - alignment
  · rw [wp_ite_pos hle, wp_pure, if_pos hle]
  · simp only [sizeMax, alignment] at hle
    rw [wp_ite_neg (by simpa using hle), if_neg (by simpa using hle), wp_bind,
      wp_szAdd (by simp only [alignment]; omega), wp_bind, wp_szSub (by simp only [alignment]; omega),
      wp_pure, land_mask (by simp only [alignment]; omega)]
    exact Iff.rfl

/-! ## Zones for an allocation -/

/-- Pages that the kernel picks among the unmapped ones are apart from all zones. -/
theorem Heap.Rep.kernelFresh (h : s.Rep P zs) (hsp : Zones.Spread P zs)
    (hk : s.KernelOk P kernel) : Zones.KernelFresh P zs kernel := by
  intro len a ha
  obtain ⟨hlen, hpage, hpos, hbound, hunmapped⟩ := hk len a ha
  refine ⟨hlen, hpage, hpos, hbound, fun z hz => ?_⟩
  have hroom := (hsp.laid z hz).room
  have := P.le_pageUp len
  have := P.le_pageUp z.len
  by_contra hmeet
  -- an address on pages of both would be mapped and unmapped
  have hmapped := h.mapped z hz (max a z.addr - z.addr) (by omega)
  have hfresh := hunmapped (max a z.addr) (by omega) (by omega)
  rw [show z.addr + (max a z.addr - z.addr) = max a z.addr by omega, hfresh] at hmapped
  cases hmapped

/-- Nothing but a refused mapping happens. -/
theorem Heap.Rep.became_refused {calls : List Syscall} (h : s.Rep P zs)
    (hcalls : ∀ c ∈ calls, ∃ len, c = .mmap len none) :
    s.Became P { s with calls := calls ++ s.calls } zs zs calls where
  rep := ⟨h.head, h.links, h.zone, h.mapped⟩
  spared := spared_of_off (S := ∅) (AgreeOff.refl _ _) fun _ _ _ hx => absurd hx (Set.notMem_empty _)
  lock := rfl
  mapped := (remapAll_idle s.mapped hcalls).symm
  calls := rfl
  wrapped := fun _ => rfl

/-- Nothing happens at all. -/
theorem Heap.Rep.became_refl (h : s.Rep P zs) : s.Became P s zs zs [] :=
  h.became_refused fun _ hc => absurd hc List.not_mem_nil

/-- A zone has been mapped and set up, or the kernel has refused it. -/
def Heap.Opened (P : Platform) (kernel : ℕ → Option ℕ) (s : Heap) (zs : List TiledZone)
    (type : EType) (len r : ℕ) (s' : Heap) : Prop :=
  match kernel len with
  | none => r = null ∧ s' = { s with calls := .mmap len none :: s.calls }
  | some a => r = a ∧ s.Became P s' zs (fresh type a len :: zs) [.mmap len (some a)]

/-- A zone is mapped and set up, or the kernel refuses. -/
theorem Heap.Rep.wp_openZone {type : EType} (h : s.Rep P zs) (hsp : Zones.Spread P zs)
    (hk : s.KernelOk P kernel) (hlaid : ∀ a, kernel len = some a → (fresh type a len).Laid) :
    wp (do
      let newZone ← mmap P kernel len
      if newZone = mapFailed then
        return null
      zoneInit newZone type len
      return newZone) (s.Opened P kernel zs type len) s := by
  unfold Heap.Opened
  rw [wp_bind]
  cases hans : kernel len with
  | none =>
    rw [wp_mmap_none hans, wp_ite_pos (by rfl), wp_pure]
    exact ⟨rfl, rfl⟩
  | some a =>
    obtain ⟨hlen, hpage, hpos, hbound, hfar⟩ := h.kernelFresh hsp hk len a hans
    rw [wp_mmap_some hans, wp_ite_neg (by simp only [mapFailed]; omega), wp_bind]
    have hmap := h.became_map hsp hfar
    have hsp' : Zones.Spread P (fresh type a len :: zs) :=
      ⟨fun w hw => (List.mem_cons.mp hw).elim (fun heq => heq ▸ hlaid a hans) (hsp.laid w),
        List.pairwise_cons.mpr ⟨hfar, hsp.apart⟩⟩
    have hvalid : (s.map P a len).Valid a (P.pageUp len) :=
      valid_map.mpr fun i hi => .inl ⟨by omega, by omega⟩
    refine wp_mono (hmap.rep.wp_zoneInit hsp' hvalid) fun _ s' hinit => ?_
    rw [wp_pure]
    exact ⟨rfl, hmap.trans hinit fun t ht => ht⟩

/-- The zones that the kernel grants for `n` bytes are laid out. -/
theorem Heap.KernelOk.laid_fresh (hk : s.KernelOk P kernel) (hgrain : alignment ≤ n ∧ alignment ∣ n)
    {a : ℕ} (hans : kernel (P.zoneLength (getZoneType n) n) = some a) :
    (fresh (getZoneType n) a (P.zoneLength (getZoneType n) n)).Laid := by
  obtain ⟨hlen, hpage, hpos, hbound, -⟩ := hk _ a hans
  exact (framed_fresh hgrain hlen hpage hpos hbound).laid

/-- `create_large_zone` refuses a size that does not fit with its headers. -/
theorem wp_createLargeZone_of_gt (hbig : sizeMax - headerSize - zoneHeaderSize < n) :
    wp (createLargeZone P kernel n) (fun r s' => r = null ∧ s' = s) s := by
  rw [createLargeZone, wp_ite_pos hbig, wp_pure]
  exact ⟨rfl, rfl⟩

/-- `create_large_zone` opens a zone. -/
theorem Heap.Rep.wp_createLargeZone (A : Arena P) (h : s.Rep P A.zones) (hk : s.KernelOk P kernel)
    (hl : getZoneType n = .large) (hgrain : alignment ≤ n ∧ alignment ∣ n)
    (hmax : n ≤ sizeMax - headerSize - zoneHeaderSize) : wp (createLargeZone P kernel n)
      (s.Opened P kernel A.zones (getZoneType n) (P.zoneLength (getZoneType n) n)) s := by
  have hopen := h.wp_openZone A.spread hk fun a => hk.laid_fresh hgrain
  have hfit : n + 112 < 2 ^ 64 := by
    simp only [sizeMax, headerSize, zoneHeaderSize] at hmax
    omega
  rw [hl] at hopen ⊢
  rw [createLargeZone, wp_ite_neg (Nat.not_lt.mpr hmax), wp_bind,
    wp_szAdd (by simp only [headerSize]; omega), wp_bind,
    wp_szAdd (by simp only [headerSize, zoneHeaderSize]; omega)]
  exact hopen

/-- `create_zone` opens a zone. -/
theorem Heap.Rep.wp_createZone (A : Arena P) (h : s.Rep P A.zones) (hk : s.KernelOk P kernel)
    (hl : getZoneType n ≠ .large) (hgrain : alignment ≤ n ∧ alignment ∣ n) :
    wp (createZone P kernel (getZoneType n))
      (s.Opened P kernel A.zones (getZoneType n) (P.zoneLength (getZoneType n) n)) s := by
  have hopen := h.wp_openZone A.spread hk fun a => hk.laid_fresh hgrain
  rcases getZoneType_cases n with ⟨hclass, -⟩ | ⟨hclass, -⟩ | ⟨hclass, -⟩
  · rw [hclass] at hopen ⊢
    rw [createZone, wp_ite_neg fun h => h.1 rfl]
    exact hopen
  · rw [hclass] at hopen ⊢
    rw [createZone, wp_ite_neg fun h => h.2 rfl]
    exact hopen
  · exact absurd hclass hl

/-- A size of a small class has room for a header. -/
theorem add_headerSize_lt (hl : getZoneType n ≠ .large) : n + headerSize < 2 ^ 64 := by
  rcases getZoneType_cases n with ⟨-, hc⟩ | ⟨-, hc⟩ | ⟨hc, -⟩
  · simp only [headerSize]
    omega
  · simp only [headerSize]
    omega
  · exact absurd hc hl

/-- `find_zone` finds the zone that `Zones.search` finds. -/
theorem Heap.Rep.wp_findZone_of_search (A : Arena P) (h : s.Rep P A.zones)
    (hsearch : Zones.search (getZoneType n) n A.zones = some (pre, z, post)) :
    wp (findZone P kernel (getZoneType n) n) (fun r s' => r = z.addr ∧ s' = s) s := by
  obtain ⟨heq, htype, hsmall, -⟩ := Arena.search_eq_some hsearch
  have hl : getZoneType n ≠ .large := htype ▸ hsmall
  have hmem : z ∈ A.zones := by simp [heq]
  rw [Zones.search, if_neg hl] at hsearch
  rw [findZone, wp_ite_neg hl, wp_bind]
  refine h.wp_searchZone A.spread (add_headerSize_lt hl) ?_
  rw [find?_eq_cutAt, hsearch, wp_ite_pos (by exact A.spread.ne_null hmem), wp_pure]
  exact ⟨rfl, rfl⟩

/-- `find_zone` refuses a size that does not fit with its headers. -/
theorem wp_findZone_of_gt (hl : getZoneType n = .large)
    (hbig : sizeMax - headerSize - zoneHeaderSize < n) :
    wp (findZone P kernel (getZoneType n) n) (fun r s' => r = null ∧ s' = s) s := by
  rw [findZone, wp_ite_pos hl]
  exact wp_createLargeZone_of_gt hbig

/-- `find_zone` opens a zone when no zone promises room. -/
theorem Heap.Rep.wp_findZone_of_none (A : Arena P) (h : s.Rep P A.zones) (hk : s.KernelOk P kernel)
    (hsearch : Zones.search (getZoneType n) n A.zones = none)
    (hgrain : alignment ≤ n ∧ alignment ∣ n)
    (hmax : getZoneType n = .large → n ≤ sizeMax - headerSize - zoneHeaderSize) :
    wp (findZone P kernel (getZoneType n) n)
      (s.Opened P kernel A.zones (getZoneType n) (P.zoneLength (getZoneType n) n)) s := by
  rw [findZone]
  by_cases hl : getZoneType n = .large
  · rw [wp_ite_pos hl]
    exact h.wp_createLargeZone A hk hl hgrain (hmax hl)
  · rw [Zones.search, if_neg hl] at hsearch
    rw [wp_ite_neg hl, wp_bind]
    refine h.wp_searchZone A.spread (add_headerSize_lt hl) ?_
    rw [find?_eq_cutAt, hsearch, wp_ite_neg (by simp)]
    exact h.wp_createZone A hk hl hgrain

/-! ## Allocation -/

/-- `allocate_block` in a zone of the list that has room for the block, or the call fails. -/
theorem Heap.Rep.wp_allocateIn {α : Type} {fail : M α} {done : ℕ → M α} {Q : α → Heap → Prop}
    {b k : ℕ} (h : s.Rep P (pre ++ z :: post)) (hsp : Zones.Spread P (pre ++ z :: post))
    (hc : Coalesced z.tiles) (hn : alignment ≤ n ∧ alignment ∣ n)
    (halloc : z.alloc n = some (b, z')) (hedit : Edited P z z' ∅ {⟨b, k, true⟩})
    (hcount : P.IntPages → z.blocks.length + 1 < 2 ^ 32) (hdone : ∀ s', b + headerSize < 2 ^ 64 →
      s.Became P s' (pre ++ z :: post) (pre ++ z' :: post) [] → wp (done b) Q s') :
    wp (do
      let block ← allocateBlock z.addr n
      if block = null then
        fail
      else
        done block) Q s := by
  have hz : z ∈ pre ++ z :: post := by simp
  obtain ⟨hpos, hlt⟩ := hedit.block_bounds
  rw [wp_bind]
  refine wp_mono ((h.zone z hz).wp_allocateBlock (h.valid hz) (hsp.laid z hz) hc hn) fun r s' hr => ?_
  rw [halloc] at hr
  obtain ⟨rfl, hrep, hw⟩ := hr
  rw [wp_ite_neg (by exact Nat.ne_of_gt hpos)]
  exact hdone s' hlt (h.became_edit hsp hrep hedit.wf.laid hedit.addr hedit.len (hw.imp hcount))

/-- `allocate_block` in a zone that has just been mapped. -/
theorem Heap.Became.wp_allocateNew {α : Type} {fail : M α} {done : ℕ → M α} {Q : α → Heap → Prop}
    (A : Arena P) {s₁ : Heap} {calls : List Syscall} {a b : ℕ}
    (hopened : s.Became P s₁ A.zones
      (fresh (getZoneType n) a (P.zoneLength (getZoneType n) n) :: A.zones) calls)
    (hk : Zones.KernelFresh P A.zones kernel)
    (hans : kernel (P.zoneLength (getZoneType n) n) = some a)
    (hgrain : alignment ≤ n ∧ alignment ∣ n)
    (halloc : (fresh (getZoneType n) a (P.zoneLength (getZoneType n) n)).alloc n = some (b, z))
    (hdone : ∀ s', b + headerSize < 2 ^ 64 → s.Became P s' A.zones (z :: A.zones) calls →
      wp (done b) Q s') :
    wp (if a = null then fail else do
      let block ← allocateBlock a n
      if block = null then
        fail
      else
        done block) Q s₁ := by
  obtain ⟨hlen, hpage, hpos, hbound, hfar⟩ := hk _ a hans
  have hframed := framed_fresh hgrain hlen hpage hpos hbound
  obtain ⟨k, -, hedit⟩ := alloc_fresh hgrain hlen hpage hpos hbound halloc
  set z₀ := fresh (getZoneType n) a (P.zoneLength (getZoneType n) n)
  have hsp : Zones.Spread P ([] ++ z₀ :: A.zones) :=
    ⟨fun w hw => (List.mem_cons.mp hw).elim (fun heq => heq ▸ hframed.laid) (A.spread.laid w),
      List.pairwise_cons.mpr ⟨hfar, A.apart⟩⟩
  have hrep : s₁.Rep P ([] ++ z₀ :: A.zones) := hopened.rep
  rw [wp_ite_neg (by exact Nat.ne_of_gt hpos)]
  refine hrep.wp_allocateIn hsp (List.isChain_singleton _) hgrain halloc hedit
    (fun _ => by rw [fresh_blocks]; decide) fun s' hlt hbecame => hdone s' hlt ?_
  refine hopened.trans hbecame fun t ht => ?_
  obtain ⟨w, hw, hlive⟩ := ht
  exact ⟨w, List.mem_cons_of_mem _ hw, hlive⟩

/-- The search for a zone and the allocation in it, as `malloc` and `realloc_malloc` do them. -/
theorem Heap.Rep.wp_serve {α : Type} {fail : M α} {done : ℕ → M α} {Q : α → Heap → Prop}
    (A : Arena P) (h : s.Rep P A.zones) (hk : s.KernelOk P kernel) (hn : GrainSize n)
    (hfail : (Zones.allocate P kernel n A.zones).result = null →
      wp fail Q { s with calls := (Zones.allocate P kernel n A.zones).calls ++ s.calls })
    (hdone : ∀ b s', (Zones.allocate P kernel n A.zones).result = b + headerSize →
      b + headerSize < 2 ^ 64 →
      s.Became P s' A.zones (Zones.allocate P kernel n A.zones).zones
        (Zones.allocate P kernel n A.zones).calls → wp (done b) Q s') :
    wp (do
      let zone ← findZone P kernel (getZoneType n) n
      if zone = null then
        fail
      else
        let block ← allocateBlock zone n
        if block = null then
          fail
        else
          done block) Q s := by
  have hfresh := h.kernelFresh A.spread hk
  have hcases := A.allocate_cases hfresh hn
  generalize hout : Zones.allocate P kernel n A.zones = o at hcases hfail hdone
  -- the kernel is asked only for sizes that fit
  have hfits (hsearch : Zones.search (getZoneType n) n A.zones = none) (hcalls : o.calls ≠ [])
      (hl : getZoneType n = .large) : n ≤ sizeMax - headerSize - zoneHeaderSize := by
    by_contra hbig
    rw [← hout, Zones.allocate, hsearch] at hcalls
    simp only [hl, Nat.not_le.mp hbig, and_self, if_true, ne_eq, not_true_eq_false] at hcalls
  have hopen (hsearch : Zones.search (getZoneType n) n A.zones = none) (hcalls : o.calls ≠ []) :=
    h.wp_findZone_of_none A hk hsearch (Arena.grain_of_fits hn (hfits hsearch hcalls))
      (hfits hsearch hcalls)
  rw [wp_bind]
  cases hcases with
  | @found pre post z z' b hsearch halloc =>
    refine wp_mono (h.wp_findZone_of_search A hsearch) ?_
    rintro r s₁ ⟨rfl, rfl⟩
    obtain ⟨heq, htype, hl, -⟩ := Arena.search_eq_some hsearch
    have hzmem : z ∈ A.zones := by simp [heq]
    have hgrain := Arena.grain_of_class hn (htype ▸ hl)
    obtain ⟨k, -, hedit⟩ := (A.wf z hzmem).toFramed.alloc (fun h => absurd h hl) hgrain halloc
    rw [wp_ite_neg (A.spread.ne_null hzmem)]
    rw [heq] at h hdone
    exact h.wp_allocateIn (A.spread_around heq) (A.wf z hzmem).coalesced hgrain halloc hedit
      (A.wf z hzmem).length_blocks_lt fun s' hlt hbecame => hdone b s' rfl hlt hbecame
  | @full pre post z hsearch hfull =>
    refine wp_mono (h.wp_findZone_of_search A hsearch) ?_
    rintro r s₁ ⟨rfl, rfl⟩
    obtain ⟨heq, htype, hl, hcache⟩ := Arena.search_eq_some hsearch
    have hzmem : z ∈ A.zones := by simp [heq]
    have hwf := A.wf z hzmem
    rw [wp_ite_neg (A.spread.ne_null hzmem), wp_bind]
    refine wp_mono ((h.zone z hzmem).wp_allocateBlock (h.valid hzmem) hwf.laid hwf.coalesced
      (Arena.grain_of_class hn (htype ▸ hl))) fun b s₂ hb => ?_
    rw [(hwf.alloc_eq_none_iff hcache).mpr hfull] at hb
    obtain ⟨rfl, rfl⟩ := hb
    rw [wp_ite_pos (by rfl)]
    exact hfail rfl
  | huge hsearch hl hbig =>
    refine wp_mono (wp_findZone_of_gt hl hbig) ?_
    rintro r s₁ ⟨rfl, rfl⟩
    rw [wp_ite_pos (by rfl)]
    exact hfail rfl
  | refused hsearch hans =>
    refine wp_mono (hopen hsearch (List.cons_ne_nil _ _)) fun r s₁ hr => ?_
    rw [Heap.Opened, hans] at hr
    obtain ⟨rfl, rfl⟩ := hr
    rw [wp_ite_pos (by rfl)]
    exact hfail rfl
  | @mapped a b z hsearch hans hgrain halloc =>
    refine wp_mono (hopen hsearch (List.cons_ne_nil _ _)) fun r s₁ hr => ?_
    rw [Heap.Opened, hans] at hr
    obtain ⟨rfl, hopened⟩ := hr
    exact hopened.wp_allocateNew A hfresh hans hgrain halloc fun s' hlt hbecame =>
      hdone b s' rfl hlt hbecame

/-! ## `malloc` -/

/-- What the postconditions of `malloc` and `realloc` have in common: the outcome `o` is the one
of the arena, and a refused call leaves the state as it was. -/
structure Heap.Called (P : Platform) (s s' : Heap) (zs : List TiledZone) (o : Outcome) (r : ℕ) :
    Prop where
  result : r = o.result
  became : s.Became P s' zs o.zones o.calls
  refused : o.result = null → s' = { s with calls := o.calls ++ s.calls }

/-- The zones are represented whether the lock is held or not. -/
theorem Heap.Rep.setLock {b : Bool} (h : s.Rep P zs) :
    Heap.Rep P { s with gMallocLock := b } zs := ⟨h.head, h.links, h.zone, h.mapped⟩

/-- What a locked stretch does, seen from outside the lock. -/
theorem Heap.Became.unlock {zs' : List TiledZone} {calls : List Syscall}
    (h : Heap.Became P { s with gMallocLock := true } s' zs zs' calls)
    (hlock : s.gMallocLock = false) :
    s.Became P { s' with gMallocLock := false } zs zs' calls where
  rep := h.rep.setLock
  spared := h.spared
  lock := hlock.symm
  mapped := h.mapped
  calls := h.calls
  wrapped := h.wrapped

/-- Locking and unlocking without any effect in between. -/
theorem setLock_self {calls : List Syscall} (hlock : s.gMallocLock = false) :
    ({ s with gMallocLock := false, calls := calls } : Heap) = { s with calls := calls } := by
  rw [← hlock]

/-- `malloc` refines `Zones.malloc`. -/
theorem Heap.Rep.wp_malloc (A : Arena P) (h : s.Rep P A.zones) (hlock : s.gMallocLock = false)
    (hk : s.KernelOk P kernel) :
    wp (malloc P kernel size) (fun r s' =>
      s.Called P s' A.zones (Zones.malloc P kernel size A.zones) r) s := by
  rw [malloc, Zones.malloc, Zones.mallocWithin]
  by_cases hbad : size = 0 ∨ size > P.maxAllocSize
  · rw [wp_ite_pos hbad, wp_pure, if_pos hbad]
    exact ⟨rfl, h.became_refl, fun _ => rfl⟩
  · rw [wp_ite_neg hbad, if_neg hbad, wp_bind, wp_alignSize, wp_bind, wp_lockMutex hlock]
    refine h.setLock.wp_serve A hk (grainSize_roundUp (by omega)) ?_ ?_
    · intro hres
      have hserved := A.allocate_served (h.kernelFresh A.spread hk)
        (grainSize_roundUp (n := size) (by omega))
      rw [wp_bind, wp_unlockMutex (by rfl), wp_pure]
      refine ⟨hres.symm, ?_, fun _ => setLock_self hlock⟩
      rw [hserved.zones_eq hres]
      exact (h.setLock.became_refused (A.allocate_idle (h.kernelFresh A.spread hk)
        (grainSize_roundUp (by omega)) hres)).unlock hlock
    · intro b s' hres hlt hbecame
      rw [wp_bind, blockPayload, wp_szAdd hlt, wp_bind, wp_unlockMutex hbecame.lock, wp_pure]
      refine ⟨hres.symm, hbecame.unlock hlock, fun hnull => ?_⟩
      rw [hres] at hnull
      simp only [null, headerSize] at hnull
      omega

/-! ## `free` -/

/-- The lookup of the zone and the block of a pointer, as `free` and `realloc` do them. -/
theorem Heap.Rep.wp_lookup {α : Type} {fail : M α} {done : ℕ → ℕ → M α} {Q : α → Heap → Prop}
    (A : Arena P) (h : s.Rep P A.zones) (hfail : Zones.locate ptr A.zones = none → wp fail Q s)
    (hdone : ∀ pre z post t, Zones.locate ptr A.zones = some (pre, z, post, t) →
      wp (done z.addr t.addr) Q s) :
    wp (do
      let zone ← findZoneForPtr ptr
      if zone = null then
        fail
      else
        let block ← blockFromPayload ptr
        if !(← isValidBlock block zone) then
          fail
        else
          done zone block) Q s := by
  rw [wp_bind]
  refine h.wp_findZoneForPtr A.spread ?_
  cases howner : Zones.owner ptr A.zones with
  | none =>
    rw [wp_ite_pos (by rfl)]
    exact hfail (by rw [Zones.locate, howner])
  | some c =>
    obtain ⟨pre, z, post⟩ := c
    obtain ⟨heq, hin, -⟩ := cutAt_eq_some.mp howner
    have hzmem : z ∈ A.zones := by simp [heq]
    have hwf := A.wf z hzmem
    have hlow : 4096 ≤ z.addr := P.pagesize_ge.trans (Nat.le_of_dvd hwf.laid.pos hwf.page)
    simp only [decide_eq_true_eq] at hin
    rw [wp_ite_neg (by exact A.spread.ne_null hzmem), wp_bind, blockFromPayload,
      wp_szSub (by simp only [headerSize]; omega), wp_bind]
    refine (h.zone z hzmem).wp_isValidBlock (h.valid hzmem) (by simp only [headerSize]; omega) ?_
    by_cases hmem : ptr - headerSize ∈ z.blocks
    · obtain ⟨t, ht, haddr⟩ := mem_blocks.mp hmem
      have hptr : ptr = t.addr + headerSize := by
        simp only [headerSize] at *
        omega
      rw [wp_ite_neg (by simp only [hmem]; simp), ← haddr]
      exact hdone pre z post t (A.locate_eq_some.mpr ⟨heq, ht, hptr⟩)
    · have hcut : z.cutBlock (ptr - headerSize) = none := by
        refine cutAt_eq_none.mpr fun u hu => ?_
        rw [Bool.and_eq_false_imp]
        intro hused
        rw [decide_eq_false_iff_not]
        exact fun haddr => hmem (mem_blocks.mpr ⟨u, mem_live.mpr ⟨hu, hused⟩, haddr⟩)
      rw [wp_ite_pos (by simp only [hmem]; simp)]
      exact hfail (by rw [Zones.locate, howner]; simp only [hcut, Option.map_none])

/-- A located block of a `LARGE` zone is given back with its zone. -/
theorem Heap.Rep.wp_giveBackZone {t : Tile} (A : Arena P) (h : s.Rep P A.zones)
    (hloc : Zones.locate ptr A.zones = some (pre, z, post, t)) (hl : z.type = .large) :
    wp (freeLargeZone P z.addr) (fun _ s' => s.Became P s' A.zones (Zones.free ptr A.zones).zones
      (Zones.free ptr A.zones).calls) s := by
  obtain ⟨heq, -, -⟩ := A.locate_eq_some.mp hloc
  have hout : Zones.free ptr A.zones = ⟨null, pre ++ post, [.munmap z.addr z.len]⟩ := by
    rw [Zones.free, hloc]
    exact if_pos hl
  rw [hout, heq]
  rw [heq] at h
  exact h.wp_freeLargeZone (A.spread_around heq)

/-- A located block of another zone is given back to its zone. -/
theorem Heap.Rep.wp_giveBackBlock {t : Tile} (A : Arena P) (h : s.Rep P A.zones)
    (hloc : Zones.locate ptr A.zones = some (pre, z, post, t)) (hl : z.type ≠ .large) :
    wp (convertBlockToEmpty z.addr t.addr) (fun _ s' => s.Became P s' A.zones
      (Zones.free ptr A.zones).zones (Zones.free ptr A.zones).calls) s := by
  obtain ⟨heq, ht, -⟩ := A.locate_eq_some.mp hloc
  have hzmem : z ∈ A.zones := by simp [heq]
  have hwf := A.wf z hzmem
  obtain ⟨p, q, htiles, hcut⟩ := hwf.laid.exists_cutBlock ht
  have hedit := hwf.release hl ht
  have hrel : z.release t.addr = z.splice p [{ t with used := false }] q := by
    rw [TiledZone.release, hcut]
  have hout : Zones.free ptr A.zones = ⟨null, pre ++ z.release t.addr :: post, []⟩ := by
    rw [Zones.free, hloc]
    exact if_neg hl
  refine wp_mono ((h.zone z hzmem).wp_convertBlockToEmpty (h.valid hzmem) hwf.laid htiles
    (mem_live.mp ht).2) fun _ s' hpost => ?_
  obtain ⟨hrep, hw⟩ := hpost
  rw [← hrel] at hrep hw
  rw [hout, heq]
  rw [heq] at h
  exact h.became_edit (A.spread_around heq) hrep hedit.wf.laid hedit.addr hedit.len
    (hw.imp fun hpage => Nat.lt_of_succ_lt (hwf.length_blocks_lt hpage))

/-- `free` refines `Zones.free`, and changes nothing for a pointer that is not located. -/
theorem Heap.Rep.wp_free (A : Arena P) (h : s.Rep P A.zones) (hlock : s.gMallocLock = false) :
    wp (free P ptr) (fun _ s' =>
      s.Became P s' A.zones (Zones.free ptr A.zones).zones (Zones.free ptr A.zones).calls ∧
        (Zones.locate ptr A.zones = none → s' = s)) s := by
  have hnone : Zones.locate ptr A.zones = none →
      s.Became P s A.zones (Zones.free ptr A.zones).zones (Zones.free ptr A.zones).calls := by
    intro hloc
    rw [Zones.free, hloc]
    exact h.became_refl
  rw [free]
  by_cases hptr : ptr = null
  · have hloc : Zones.locate ptr A.zones = none := by
      refine A.locate_eq_none.mpr fun t _ heq => ?_
      simp only [null, headerSize] at *
      omega
    rw [wp_ite_pos hptr, wp_pure]
    exact ⟨hnone hloc, fun _ => rfl⟩
  · rw [wp_ite_neg hptr, wp_bind, wp_lockMutex hlock]
    refine h.setLock.wp_lookup A (fun hloc => ?_) fun pre z post t hloc => ?_
    · rw [wp_bind, wp_unlockMutex (by rfl), wp_pure]
      have hself : ({ s with gMallocLock := false } : Heap) = s := setLock_self hlock
      rw [hself]
      exact ⟨hnone hloc, fun _ => rfl⟩
    · have hzmem : z ∈ A.zones := by simp [(A.locate_eq_some.mp hloc).1]
      have hsome : Zones.locate ptr A.zones = none → ∀ s' : Heap, s' = s := by
        rw [hloc]
        exact fun h => by cases h
      have hrep := h.setLock (b := true)
      rw [wp_bind, (hrep.zone z hzmem).wp_getType (hrep.valid hzmem)]
      by_cases hl : z.type = .large
      · rw [wp_ite_pos (by rw [hl]), wp_bind]
        refine wp_mono (hrep.wp_giveBackZone A hloc hl) fun _ s' hbecame => ?_
        rw [wp_bind, wp_unlockMutex hbecame.lock, wp_pure]
        exact ⟨hbecame.unlock hlock, fun hnone => hsome hnone _⟩
      · rw [wp_ite_neg fun hcode => hl (EType.code_injective hcode), wp_bind]
        refine wp_mono (hrep.wp_giveBackBlock A hloc hl) fun _ s' hbecame => ?_
        rw [wp_unlockMutex hbecame.lock]
        exact ⟨hbecame.unlock hlock, fun hnone => hsome hnone _⟩

/-! ## `realloc` -/

/-- `realloc_free` does to a located block what `free` does. -/
theorem Heap.Rep.wp_reallocFree {t : Tile} (A : Arena P) (h : s.Rep P A.zones)
    (hloc : Zones.locate ptr A.zones = some (pre, z, post, t)) :
    wp (reallocFree P ptr) (fun _ s' =>
      s.Became P s' A.zones (Zones.free ptr A.zones).zones (Zones.free ptr A.zones).calls) s := by
  have hptr : ¬ ptr = null := by
    rw [(A.locate_eq_some.mp hloc).2.2]
    simp
  rw [reallocFree, wp_ite_neg hptr]
  refine h.wp_lookup A (fun hnone => ?_) fun pre z post t hloc => ?_
  · rw [hloc] at hnone
    cases hnone
  · have hzmem : z ∈ A.zones := by simp [(A.locate_eq_some.mp hloc).1]
    rw [wp_bind, (h.zone z hzmem).wp_getType (h.valid hzmem)]
    by_cases hl : z.type = .large
    · rw [wp_ite_pos (by rw [hl]), wp_bind]
      exact wp_mono (h.wp_giveBackZone A hloc hl) fun _ s' hbecame => (wp_pure _ _ _).mpr hbecame
    · rw [wp_ite_neg fun hcode => hl (EType.code_injective hcode)]
      exact h.wp_giveBackBlock A hloc hl

/-- `realloc_malloc` refines `Zones.reallocMalloc`. -/
theorem Heap.Rep.wp_reallocMalloc (A : Arena P) (h : s.Rep P A.zones)
    (hk : s.KernelOk P kernel) (size : ℕ) :
    wp (reallocMalloc P kernel size) (fun r s' =>
      s.Called P s' A.zones (Zones.reallocMalloc P kernel size A.zones) r) s := by
  rw [reallocMalloc, Zones.reallocMalloc, Zones.mallocWithin]
  by_cases hbad : size = 0 ∨ size > P.reallocMaxAllocSize
  · rw [wp_ite_pos hbad, wp_pure, if_pos hbad]
    exact ⟨rfl, h.became_refl, fun _ => rfl⟩
  · rw [wp_ite_neg hbad, if_neg hbad, wp_bind, wp_alignSize]
    refine h.wp_serve A hk (grainSize_roundUp (by omega)) ?_ ?_
    · intro hres
      have hserved := A.allocate_served (h.kernelFresh A.spread hk)
        (grainSize_roundUp (n := size) (by omega))
      rw [wp_pure]
      refine ⟨hres.symm, ?_, fun _ => rfl⟩
      rw [hserved.zones_eq hres]
      exact h.became_refused (A.allocate_idle (h.kernelFresh A.spread hk)
        (grainSize_roundUp (by omega)) hres)
    · intro b s' hres hlt hbecame
      rw [blockPayload, wp_szAdd hlt]
      refine ⟨hres.symm, hbecame, fun hnull => ?_⟩
      rw [hres] at hnull
      simp only [null, headerSize] at hnull
      omega

/-- Copying the payload of a block into that of one at least as large. -/
theorem Heap.Rep.wp_copyPayload {t u : Tile} (A : Arena P) (h : s.Rep P A.zones) (ht : t ∈ A.live)
    (hu : u ∈ A.live) (hle : t.size ≤ u.size) :
    wp (ftMemmove (u.addr + headerSize) (t.addr + headerSize) t.size) (fun _ s' =>
      s' = s.withMem (moved s.mem (u.addr + headerSize) (t.addr + headerSize) t.size) ∧
      AgreeOff {x | u.addr + headerSize ≤ x ∧ x < u.stop headerSize} s.mem s'.mem ∧
      s'.Rep P A.zones) s := by
  have hvu := h.valid_payload A.spread hu
  have hvt := h.valid_payload A.spread ht
  have hlt : t.size < 2 ^ 64 := by
    obtain ⟨z, hz, htz⟩ := ht
    have hin := A.live_inside hz htz
    have := (A.wf z hz).laid.bound
    simp only [Tile.stop] at hin
    omega
  refine wp_mono (wp_ftMemmove (hvu.sub (Nat.le_refl _) (by omega)) hvt (by simp) hlt) ?_
  rintro _ s' ⟨-, rfl⟩
  -- the copy writes the payload of the larger block only
  have hcopy : AgreeOff {x | u.addr + headerSize ≤ x ∧ x < u.stop headerSize} s.mem
      (moved s.mem (u.addr + headerSize) (t.addr + headerSize) t.size) := fun x hx =>
    moved_apply_of_outside (by
      rw [Set.mem_ofPred_eq] at hx
      simp only [Tile.stop] at hx
      omega)
  exact ⟨rfl, hcopy, h.write_payload A.spread hu hcopy fun x hx => hx⟩

/-- The payload of a new block may be written. -/
theorem Heap.Became.writeNew {u : Tile} {calls : List Syscall} (A : Arena P)
    (h : s.Became P s' zs A.zones calls) (hsub : Zones.live zs ⊆ A.live) (hu : u ∈ A.live)
    (hnew : u ∉ Zones.live zs)
    (hS : AgreeOff {x | u.addr + headerSize ≤ x ∧ x < u.stop headerSize} s'.mem m) :
    s.Became P (s'.withMem m) zs A.zones calls where
  rep := h.rep.write_payload A.spread hu hS fun x hx => hx
  spared := by
    intro t ht t' ht' haddr x hlo hhi hhi'
    have hne : t ≠ u := fun heq => hnew (heq ▸ ht)
    have hoff := A.live_apart (hsub ht) hu hne ((Nat.le_add_right _ _).trans hlo) hhi
    rw [withMem_mem, hS x fun hin => hoff ⟨(Nat.le_add_right _ _).trans hin.1, hin.2⟩]
    exact h.spared t ht t' ht' haddr x hlo hhi hhi'
  lock := h.lock
  mapped := h.mapped
  calls := h.calls
  wrapped := h.wrapped

section Realloc

variable {t : Tile} (A : Arena P) (hloc : Zones.locate ptr A.zones = some (pre, z, post, t))

include hloc

/-- The block is kept, and what it does not need is split off. -/
theorem Heap.Rep.wp_shrink (h : s.Rep P A.zones) (hn : GrainSize n) (hle : n ≤ t.size) :
    wp (do
      if (← szSub t.size n) ≥ minSplitSize then
        splitBlock z.addr t.addr n) (fun _ s' =>
      s.Became P s' A.zones (pre ++ z.shrink t.addr n :: post) []) s := by
  obtain ⟨heq, ht, -⟩ := A.locate_eq_some.mp hloc
  have hzmem : z ∈ A.zones := by simp [heq]
  have hwf := A.wf z hzmem
  have hgrain := A.grain_of_le_size hzmem ht hn hle
  obtain ⟨p, q, htiles, hcut⟩ := hwf.laid.exists_cutBlock ht
  obtain ⟨k, hk, -, hedit⟩ := hwf.shrink ht hle hgrain
  rw [wp_bind, wp_szSub hle]
  by_cases hrest : t.size - n < minSplitSize
  · have hself : z.shrink t.addr n = z := by
      rw [TiledZone.shrink, hcut]
      exact if_pos hrest
    rw [wp_ite_neg (by exact Nat.not_le.mpr hrest), wp_pure, hself, ← heq]
    exact h.became_refl
  · have hcarve : z.shrink t.addr n = z.splice p (carve headerSize minSplitSize n t) q := by
      rw [TiledZone.shrink, hcut]
      exact if_neg hrest
    rw [wp_ite_pos (by exact Nat.not_lt.mp hrest)]
    refine wp_mono ((h.zone z hzmem).wp_splitBlock (h.valid hzmem) hwf.laid htiles
      (mem_live.mp ht).2 hle hrest hgrain) fun _ s' hpost => ?_
    obtain ⟨hrep, hw⟩ := hpost
    have hchurn :=
      hw.mono (hwf.laid.headerBytes_subset_churn (hwf.laid.retile_carve htiles hle hgrain))
    rw [← hcarve] at hrep hchurn
    rw [heq] at h ⊢
    exact h.became_edit (A.spread_around heq) hrep hedit.wf.laid hedit.addr hedit.len hchurn.counts

/-- The attempt to grow in place. -/
theorem Heap.Rep.wp_growIn (h : s.Rep P A.zones) (hn : GrainSize n) :
    wp (do
      if (getZoneType n).code = (← Zone.getType z.addr) then
        tryToExtendBlock z.addr t.addr n
      else
        pure null) (fun r s' =>
      match Zones.growIn z t.addr n with
      | none => r = null ∧ s' = s
      | some (b, z') => r = b + headerSize ∧
        s.Became P s' A.zones (pre ++ z' :: post) [] ∧
        ∀ i < t.size, i < n → s'.mem (b + headerSize + i) = s.mem (ptr + i)) s := by
  obtain ⟨heq, ht, rfl⟩ := A.locate_eq_some.mp hloc
  have hzmem : z ∈ A.zones := by simp [heq]
  have hwf := A.wf z hzmem
  rw [wp_bind, (h.zone z hzmem).wp_getType (h.valid hzmem), Zones.growIn]
  by_cases htype : getZoneType n = z.type
  · rw [wp_ite_pos (by rw [htype]), if_pos htype]
    refine wp_mono ((h.zone z hzmem).wp_tryToExtendBlock (h.valid hzmem) hwf.laid hwf.coalesced
      (mem_live.mp ht).1 (mem_live.mp ht).2 hn) fun r s' hr => ?_
    cases hgrow : z.grow t.addr n with
    | none =>
      rw [hgrow] at hr
      exact hr
    | some c =>
      obtain ⟨b, z'⟩ := c
      rw [hgrow] at hr
      obtain ⟨hres, hrep, hw, hcontent⟩ := hr
      obtain ⟨k, hk, hedit⟩ := hwf.grow ht hn hgrow
      rw [heq] at h
      have hbecame :=
        h.became_edit (A.spread_around heq) hrep hedit.wf.laid hedit.addr hedit.len hw.counts
      refine ⟨hres, heq ▸ hbecame, ?_⟩
      rcases hcontent with rfl | hmove
      · exact hbecame.spared.content (u := ⟨t.addr, k, true⟩) ⟨z, by simp, ht⟩
          ⟨z', by simp, hedit.live ▸ .inl rfl⟩ rfl hk.1
      · exact hmove
  · rw [wp_ite_neg fun hcode => htype (EType.code_injective hcode), wp_pure, if_neg htype]
    exact ⟨rfl, rfl⟩

/-- Allocating elsewhere, copying the payload and giving the old block back. A refused move changes
nothing. -/
theorem Heap.Rep.wp_reallocMove (h : s.Rep P A.zones) (hlock : s.gMallocLock = false)
    (hk : s.KernelOk P kernel) (hgrow : t.size < n) :
    wp (reallocMove P kernel ptr n t.size) (fun r s' =>
      s.Called P s' A.zones (Zones.move P kernel ptr n A.zones) r ∧
      (r ≠ null → ∀ i < t.size, s'.mem (r + i) = s.mem (ptr + i))) { s with gMallocLock := true } := by
  obtain ⟨heq, ht, rfl⟩ := A.locate_eq_some.mp hloc
  have htA : t ∈ A.live := ⟨z, by simp [heq], ht⟩
  have hrep := h.setLock (b := true)
  have hfresh := h.kernelFresh A.spread hk
  have hserved : Arena.Served A ∅ (roundUp n) (Zones.reallocMalloc P kernel n A.zones) :=
    A.mallocWithin_served hfresh P.reallocMaxAllocSize n
  have hidle (hnull : (Zones.move P kernel (t.addr + headerSize) n A.zones).result = null) :=
    A.move_idle hfresh hnull
  rw [reallocMove, wp_bind]
  refine wp_mono (hrep.wp_reallocMalloc A hk n) fun r s₁ hpost => ?_
  obtain ⟨hres, hbecame, hrefused⟩ := hpost
  rw [Zones.move] at hidle ⊢
  generalize Zones.reallocMalloc P kernel n A.zones = new at *
  cases hserved with
  | refused =>
    rw [hrefused rfl, hres, wp_ite_pos (by rfl), wp_bind, wp_unlockMutex (by rfl), wp_pure]
    simp only [if_true] at hidle ⊢
    refine ⟨⟨rfl, ?_, fun _ => setLock_self hlock⟩, fun hne => absurd rfl hne⟩
    exact (hrep.became_refused (hidle trivial)).unlock hlock
  | @block A₁ u calls hsize hturn =>
    have ht₁ : t ∈ A₁.live := hturn.live ▸ .inr ⟨htA, Set.notMem_empty t⟩
    have hu₁ : u ∈ A₁.live := hturn.live ▸ .inl rfl
    have hnew : u ∉ A.live := fun hmem =>
      Set.disjoint_left.mp hturn.fresh rfl ⟨hmem, Set.notMem_empty u⟩
    have hroom : t.size ≤ u.size := (Nat.le_of_lt hgrow).trans ((le_roundUp n).trans hsize)
    obtain ⟨pre₁, z₁, post₁, -, -, hloc₁⟩ := A₁.exists_locate ht₁
    obtain ⟨A₂, c₂, hfree, hturn₂⟩ := A₁.free_turn ht₁
    have hu₂ : u ∈ A₂.live := hturn₂.live ▸ .inr ⟨hu₁, fun heq => hnew (heq ▸ htA)⟩
    have hne : ¬ u.addr + headerSize = null := by simp
    change r = u.addr + headerSize at hres
    rw [hres, wp_ite_neg hne, wp_bind]
    refine wp_mono (hbecame.rep.wp_copyPayload A₁ ht₁ hu₁ hroom) ?_
    rintro _ s₂ ⟨rfl, hcopy, hrep₂⟩
    rw [wp_bind]
    refine wp_mono (hrep₂.wp_reallocFree A₁ hloc₁) fun _ s₃ hback => ?_
    rw [hfree] at hback
    have hkept : A.live ⊆ A₁.live := fun v hv =>
      hturn.live ▸ .inr ⟨hv, Set.notMem_empty v⟩
    have hdone := (hbecame.writeNew A₁ hkept hu₁ hnew hcopy).trans hback hkept
    rw [wp_bind, wp_unlockMutex hdone.lock, wp_pure]
    simp only [if_neg hne, hfree]
    refine ⟨⟨rfl, hdone.unlock hlock, fun hnull => absurd hnull hne⟩, fun _ i hi => ?_⟩
    rw [hback.spared.content hu₁ hu₂ rfl (Nat.le_refl _) i (by omega) (by omega), withMem_mem,
      moved_apply hi]
    exact hbecame.spared.content htA ht₁ rfl (Nat.le_refl _) i hi hi

/-- `realloc` behind the lookup of a live block. -/
theorem Heap.Rep.wp_reallocBlock (h : s.Rep P A.zones) (hlock : s.gMallocLock = false)
    (hk : s.KernelOk P kernel) (hsize : 0 < size) :
    wp (reallocBlock P kernel z.addr t.addr ptr (roundUp size)) (fun r s' =>
      s.Called P s' A.zones (Zones.realloc P kernel ptr size A.zones) r ∧
      (r ≠ null → ∀ i < t.size, i < roundUp size → s'.mem (r + i) = s.mem (ptr + i)))
      { s with gMallocLock := true } := by
  obtain ⟨heq, ht, hptr⟩ := A.locate_eq_some.mp hloc
  have hzmem : z ∈ A.zones := by simp [heq]
  have htA : t ∈ A.live := ⟨z, hzmem, ht⟩
  have hn := grainSize_roundUp hsize
  have hrep := h.setLock (b := true)
  have hpos : ptr ≠ null := by
    rw [hptr]
    simp
  have hout := Zones.realloc_of_locate P kernel hpos hsize hloc
  rw [hout, reallocBlock, wp_bind, (hrep.zone z hzmem).wp_getSize (hrep.valid hzmem)
    (mem_live.mp ht).1]
  by_cases hle : roundUp size ≤ t.size
  · rw [wp_ite_pos hle, wp_bind]
    refine wp_mono (hrep.wp_shrink A hloc hn hle) fun _ s' hbecame => ?_
    rw [wp_bind, wp_unlockMutex hbecame.lock, wp_pure]
    simp only [if_pos hle]
    refine ⟨⟨rfl, hbecame.unlock hlock, fun hnull => absurd hnull hpos⟩, fun _ => ?_⟩
    obtain ⟨k, hk, -, hedit⟩ :=
      (A.wf z hzmem).shrink ht hle (A.grain_of_le_size hzmem ht hn hle)
    rw [hptr]
    exact hbecame.spared.content (u := ⟨t.addr, k, true⟩) htA
      ⟨z.shrink t.addr (roundUp size), by simp, hedit.live ▸ .inl rfl⟩ rfl hk.1
  · rw [wp_ite_neg hle, wp_bind]
    simp only [if_neg hle]
    refine wp_mono (hrep.wp_growIn A hloc hn) fun r s' hr => ?_
    cases hgrow : Zones.growIn z t.addr (roundUp size) with
    | some c =>
      obtain ⟨b, z'⟩ := c
      rw [hgrow] at hr
      obtain ⟨rfl, hbecame, hcontent⟩ := hr
      rw [wp_ite_pos (by simp), wp_bind, wp_unlockMutex hbecame.lock, wp_pure]
      exact ⟨⟨rfl, hbecame.unlock hlock, fun hnull => by simp at hnull⟩, fun _ => hcontent⟩
    | none =>
      rw [hgrow] at hr
      obtain ⟨rfl, rfl⟩ := hr
      rw [wp_ite_neg (by simp)]
      refine wp_mono (h.wp_reallocMove A hloc hlock hk (Nat.not_le.mp hle)) fun r s' hpost => ?_
      exact ⟨hpost.1, fun hne i hi _ => hpost.2 hne i hi⟩

end Realloc

/-- `realloc` refines `Zones.realloc`. A refused call changes nothing, unless it was a call of
`free`, and the contents of a resized block are kept. -/
theorem Heap.Rep.wp_realloc (A : Arena P) (h : s.Rep P A.zones) (hlock : s.gMallocLock = false)
    (hk : s.KernelOk P kernel) :
    wp (realloc P kernel ptr size) (fun r s' =>
      r = (Zones.realloc P kernel ptr size A.zones).result ∧
      s.Became P s' A.zones (Zones.realloc P kernel ptr size A.zones).zones
        (Zones.realloc P kernel ptr size A.zones).calls ∧
      (ptr = null ∨ 0 < size → r = null →
        s' = { s with calls := (Zones.realloc P kernel ptr size A.zones).calls ++ s.calls }) ∧
      ∀ t ∈ A.live, ptr = t.addr + headerSize → 0 < size → r ≠ null →
        ∀ i < t.size, i < roundUp size → s'.mem (r + i) = s.mem (ptr + i)) s := by
  rw [realloc]
  by_cases hptr : ptr = null
  · have hout : Zones.realloc P kernel ptr size A.zones = Zones.malloc P kernel size A.zones := by
      rw [Zones.realloc, if_pos hptr]
    rw [hout, wp_ite_pos hptr]
    refine wp_mono (h.wp_malloc A hlock hk) fun r s' hpost => ?_
    obtain ⟨hres, hbecame, hrefused⟩ := hpost
    refine ⟨hres, hbecame, fun _ hnull => hrefused (hres ▸ hnull), fun t _ heq => ?_⟩
    rw [hptr] at heq
    simp at heq
  · rw [wp_ite_neg hptr]
    by_cases hzero : size = 0
    · have hout : Zones.realloc P kernel ptr size A.zones = Zones.free ptr A.zones := by
        rw [Zones.realloc, if_neg hptr, if_pos hzero]
      rw [hout, wp_ite_pos hzero, wp_bind]
      refine wp_mono (h.wp_free A hlock) fun _ s' hpost => ?_
      obtain ⟨hbecame, _⟩ := hpost
      rw [wp_pure]
      refine ⟨Zones.free_result.symm, hbecame, fun hor => ?_, fun t _ _ hpos => ?_⟩
      · rcases hor with hor | hor
        · exact absurd hor hptr
        · omega
      · omega
    · rw [wp_ite_neg hzero, wp_bind, wp_alignSize, wp_bind, wp_lockMutex hlock]
      refine h.setLock.wp_lookup A (fun hloc => ?_) fun pre z post t hloc => ?_
      · have hout : Zones.realloc P kernel ptr size A.zones = ⟨null, A.zones, []⟩ := by
          rw [Zones.realloc, if_neg hptr, if_neg hzero, hloc]
        rw [hout, wp_bind, wp_unlockMutex (by rfl), wp_pure]
        refine ⟨rfl, ?_, fun _ _ => setLock_self hlock, fun t ht heq => ?_⟩
        · exact (h.setLock.became_refl).unlock hlock
        · exact absurd heq (A.locate_eq_none.mp hloc t ht)
      · refine wp_mono (h.wp_reallocBlock A hloc hlock hk (by omega))
          fun r s' hpost => ?_
        obtain ⟨⟨hres, hbecame, hrefused⟩, hcontent⟩ := hpost
        refine ⟨hres, hbecame, fun _ hnull => hrefused (hres ▸ hnull), fun u hu heq _ hne => ?_⟩
        -- the pointer determines the block
        obtain ⟨pre', z', post', -, -, hloc'⟩ := A.exists_locate hu
        rw [← heq, hloc] at hloc'
        cases hloc'
        exact hcontent hne

end FtMalloc
