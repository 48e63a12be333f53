import FtMalloc.Properties.InPlace
import FtMalloc.Properties.Mappings

/-!
# Moving a block is allocating, copying and freeing

`realloc` has copies of `malloc` and `free` of its own, which run with the lock held. They do what
the public calls do, with two exceptions: `realloc_malloc` compares the size with `MAX_ALLOC_SIZE`
when it has been rounded already, and with the value that `realloc.c` keeps, not with that of
`malloc.c`.
-/

namespace FtMalloc

open HeapLib TiledZone

/-- The client copies `n` bytes between payloads. -/
def copyBytes (dest src n : ℕ) : M Unit := fun s => some ((), s.withMem (moved s.mem dest src n))

/-- What `realloc` of a block of `d` bytes should amount to when the block has to move. -/
def composedMove (P : Platform) (kernel : ℕ → Option ℕ) (ptr size d : ℕ) : M ℕ := do
  let q ← malloc P kernel size
  if q = null then
    return null
  copyBytes q ptr d
  free P ptr
  return q

/-- `realloc` and the composition return the same pointer and leave the same state, up to the list of
kernel calls. -/
def SameMove (P : Platform) (kernel : ℕ → Option ℕ) (ptr size d : ℕ) (s : Heap) : Prop :=
  ∃ r s₁ s₂, realloc P kernel ptr size s = some (r, s₁) ∧
    composedMove P kernel ptr size d s = some (r, s₂) ∧ s₁ = { s₂ with calls := s₁.calls }

/-- A block of `n` bytes can be had: the first zone of the class that promises room has an empty
space, or no zone does and the kernel grants a zone. -/
def Obtainable (P : Platform) (kernel : ℕ → Option ℕ) (s : Heap) (n : ℕ) : Prop :=
  (getZoneType n ≠ .large ∧
    ∃ v, (view s).find? (ZoneView.promises n) = some v ∧ v.emptySpaces ≠ []) ∨
  (if getZoneType n = .large then n ≤ sizeMax - headerSize - zoneHeaderSize
    else ∀ v ∈ view s, v.promises n = false) ∧ kernel (P.zoneLength (getZoneType n) n) ≠ none

variable {P : Platform} {s s₁ s₂ : Heap} {A : Arena P} {kernel : ℕ → Option ℕ} {z : TiledZone}
  {pre post : List TiledZone} {t : Tile} {v : ZoneView} {e : RegionView} {n r ptr size : ℕ}

/-! ## The copies of the public calls -/

/-- `malloc` runs as `realloc_malloc` of the rounded size does under the lock. -/
theorem malloc_of_reallocMalloc (hpos : 0 < size) (hle : size ≤ P.maxAllocSize)
    (hmax : roundUp size ≤ P.reallocMaxAllocSize)
    (hlock : s.gMallocLock = false)
    (hrun : reallocMalloc P kernel (roundUp size) { s with gMallocLock := true } = some (r, s₁))
    (hlock₁ : s₁.gMallocLock = true) :
    malloc P kernel size s = some (r, { s₁ with gMallocLock := false }) := by
  have hround := le_roundUp size
  have hinner := (wp_of_run (Q := fun a b => a = r ∧ b = s₁) hrun).mpr ⟨rfl, rfl⟩
  rw [reallocMalloc, wp_ite_neg (by omega), wp_bind, wp_alignSize, roundUp_roundUp, wp_bind] at hinner
  apply run_of_wp
  rw [malloc, wp_ite_neg (by omega), wp_bind, wp_alignSize, wp_bind, wp_lockMutex hlock, wp_bind]
  apply wp_mono hinner
  intro zone s' hzone
  by_cases hz : zone = null
  · rw [wp_ite_pos hz, wp_pure] at hzone
    obtain ⟨rfl, rfl⟩ := hzone
    rw [wp_ite_pos hz, wp_bind, wp_unlockMutex hlock₁, wp_pure]
    exact ⟨rfl, rfl⟩
  · rw [wp_ite_neg hz, wp_bind] at hzone
    rw [wp_ite_neg hz, wp_bind]
    apply wp_mono hzone
    intro block s'' hblock
    by_cases hb : block = null
    · rw [wp_ite_pos hb, wp_pure] at hblock
      obtain ⟨rfl, rfl⟩ := hblock
      rw [wp_ite_pos hb, wp_bind, wp_unlockMutex hlock₁, wp_pure]
      exact ⟨rfl, rfl⟩
    · rw [wp_ite_neg hb] at hblock
      rw [wp_ite_neg hb, wp_bind]
      apply wp_mono hblock
      rintro a b ⟨rfl, rfl⟩
      rw [wp_bind, wp_unlockMutex hlock₁, wp_pure]
      exact ⟨rfl, rfl⟩

/-- `free` runs as `realloc_free` does under the lock. -/
theorem free_of_reallocFree (hptr : ptr ≠ null) (hlock : s.gMallocLock = false)
    (hrun : reallocFree P ptr { s with gMallocLock := true } = some ((), s₁))
    (hlock₁ : s₁.gMallocLock = true) :
    free P ptr s = some ((), { s₁ with gMallocLock := false }) := by
  have hinner := (wp_of_run (Q := fun a b => a = () ∧ b = s₁) hrun).mpr ⟨rfl, rfl⟩
  have hdone : wp (do unlockMutex; return ()) (fun a b => a = () ∧
      b = { s₁ with gMallocLock := false }) s₁ := by
    rw [wp_bind, wp_unlockMutex hlock₁, wp_pure]
    exact ⟨rfl, rfl⟩
  rw [reallocFree, wp_ite_neg hptr, wp_bind] at hinner
  apply run_of_wp
  rw [free, wp_ite_neg hptr, wp_bind, wp_lockMutex hlock, wp_bind]
  apply wp_mono hinner
  intro zone s' hzone
  by_cases hz : zone = null
  · rw [wp_ite_pos hz, wp_pure] at hzone
    obtain ⟨-, rfl⟩ := hzone
    rw [wp_ite_pos hz]
    exact hdone
  · rw [wp_ite_neg hz, wp_bind] at hzone
    rw [wp_ite_neg hz, wp_bind]
    apply wp_mono hzone
    intro block s'' hblock
    rw [wp_bind] at hblock ⊢
    apply wp_mono hblock
    intro valid s''' hvalid
    by_cases hv : (!valid) = true
    · rw [wp_ite_pos hv, wp_pure] at hvalid
      obtain ⟨-, rfl⟩ := hvalid
      rw [wp_ite_pos hv]
      exact hdone
    · rw [wp_ite_neg hv, wp_bind] at hvalid
      rw [wp_ite_neg hv, wp_bind]
      apply wp_mono hvalid
      intro type s'''' htype
      by_cases hl : type = EType.large.code
      · rw [wp_ite_pos hl, wp_bind] at htype
        rw [wp_ite_pos hl, wp_bind]
        apply wp_mono htype
        intro _ b hb
        rw [wp_pure] at hb
        obtain ⟨-, rfl⟩ := hb
        exact hdone
      · rw [wp_ite_neg hl] at htype
        rw [wp_ite_neg hl, wp_bind]
        apply wp_mono htype
        rintro _ b ⟨-, rfl⟩
        rw [wp_unlockMutex hlock₁]
        exact ⟨rfl, rfl⟩

/-- Releasing the lock and taking it again, with a copy in between. -/
theorem relock {m : Memory} (hlock : s.gMallocLock = true) :
    ({ ({ s with gMallocLock := false } : Heap).withMem m with gMallocLock := true } : Heap) =
      s.withMem m := by
  rw [← hlock]
  rfl

/-! ## The moving path -/

/-- The end of `realloc` runs as the composition when both accept the size. -/
theorem Holds.composedMove_of_accepted (h : Holds s A) (hk : s.KernelOk P kernel)
    (hloc : Zones.locate ptr A.zones = some (pre, z, post, t)) (hlt : t.size < roundUp size)
    (hle : size ≤ P.maxAllocSize) (hmax : roundUp size ≤ P.reallocMaxAllocSize) : ∃ r s',
      reallocMove P kernel ptr (roundUp size) t.size { s with gMallocLock := true } =
        some (r, s') ∧ composedMove P kernel ptr size t.size s = some (r, s') := by
  obtain ⟨heq, ht, rfl⟩ := A.locate_eq_some.mp hloc
  have htA : t ∈ A.live := ⟨z, by simp [heq], ht⟩
  have hrep := h.rep.setLock (b := true)
  obtain ⟨r, s₁, hrun₁, hres, hbecame, -⟩ := hrep.wp_reallocMalloc A hk (roundUp size)
  have hlock₁ : s₁.gMallocLock = true := hbecame.lock
  have hmalloc := malloc_of_reallocMalloc (pos_of_lt_roundUp hlt) hle hmax h.unlocked hrun₁ hlock₁
  have hserved : Arena.Served A ∅ (roundUp (roundUp size))
      (Zones.reallocMalloc P kernel (roundUp size) A.zones) :=
    A.mallocWithin_served (h.rep.kernelFresh A.spread hk) _ _
  generalize Zones.reallocMalloc P kernel (roundUp size) A.zones = new at hres hbecame hserved
  cases hserved with
  | refused =>
    obtain rfl : r = null := hres
    refine ⟨null, { s₁ with gMallocLock := false }, run_of_wp ?_, run_of_wp ?_⟩
    · rw [reallocMove, wp_bind, wp_of_run hrun₁, wp_ite_pos rfl, wp_bind, wp_unlockMutex hlock₁,
        wp_pure]
      exact ⟨rfl, rfl⟩
    · rw [composedMove, wp_bind, wp_of_run hmalloc, wp_ite_pos rfl, wp_pure]
      exact ⟨rfl, rfl⟩
  | @block A₁ u calls hsize hturn =>
    obtain rfl : r = u.addr + headerSize := hres
    have hne : ¬ u.addr + headerSize = null := by simp
    have ht₁ : t ∈ A₁.live := hturn.live ▸ .inr ⟨htA, Set.notMem_empty t⟩
    have hu₁ : u ∈ A₁.live := hturn.live ▸ .inl rfl
    have hroom : t.size ≤ u.size := by
      rw [roundUp_roundUp] at hsize
      omega
    obtain ⟨pre₁, z₁, post₁, -, -, hloc₁⟩ := A₁.exists_locate ht₁
    obtain ⟨_, s₂, hrun₂, rfl, -, hrep₂⟩ := hbecame.rep.wp_copyPayload A₁ ht₁ hu₁ hroom
    obtain ⟨_, s₃, hrun₃, hback⟩ := hrep₂.wp_reallocFree A₁ hloc₁
    have hlock₃ : s₃.gMallocLock = true := hback.lock.trans hlock₁
    refine ⟨u.addr + headerSize, { s₃ with gMallocLock := false }, run_of_wp ?_, run_of_wp ?_⟩
    · rw [reallocMove, wp_bind, wp_of_run hrun₁, wp_ite_neg hne, wp_bind, wp_of_run hrun₂, wp_bind,
        wp_of_run hrun₃, wp_bind, wp_unlockMutex hlock₃, wp_pure]
      exact ⟨rfl, rfl⟩
    · have hptr : t.addr + headerSize ≠ null := by simp
      have hfree := free_of_reallocFree
        (s := ({ s₁ with gMallocLock := false } : Heap).withMem
          (moved s₁.mem (u.addr + headerSize) (t.addr + headerSize) t.size)) hptr rfl
        ((congrArg _ (relock hlock₁)).trans hrun₃) hlock₃
      rw [composedMove, wp_bind, wp_of_run hmalloc, wp_ite_neg hne, wp_bind, wp_of_run rfl, wp_bind,
        wp_of_run hfree, wp_pure]
      exact ⟨rfl, rfl⟩

/-- The end of `realloc` returns null exactly when its allocation does, and then it changes nothing
but the list of kernel calls. -/
theorem Holds.reallocMove_of_refused (h : Holds s A) (hk : s.KernelOk P kernel)
    (hloc : Zones.locate ptr A.zones = some (pre, z, post, t)) (hlt : t.size < n) :
    (∃ s', reallocMove P kernel ptr n t.size { s with gMallocLock := true } = some (null, s') ∧
      s = { s' with calls := s.calls }) ↔
      (Zones.reallocMalloc P kernel n A.zones).result = null := by
  obtain ⟨q, s₁, hrun, ⟨hres, -, hrefused⟩, -⟩ := h.rep.wp_reallocMove A hloc h.unlocked hk hlt
  rw [Zones.move_result] at hres hrefused
  constructor
  · rintro ⟨s', hrun', -⟩
    rw [hrun] at hrun'
    cases hrun'
    exact hres.symm
  · intro hnull
    refine ⟨s₁, ?_, by rw [hrefused hnull]⟩
    rw [hrun, hres, hnull]

/-- The composition returns null exactly when its allocation does, and then it changes nothing but
the list of kernel calls. -/
theorem Holds.composedMove_of_refused (h : Holds s A) (hk : s.KernelOk P kernel) (ptr size n : ℕ) :
    (∃ s', composedMove P kernel ptr size n s = some (null, s') ∧
      s = { s' with calls := s.calls }) ↔ (Zones.malloc P kernel size A.zones).result = null := by
  obtain ⟨q, s₁, hrun, hres, -, hrefused⟩ := h.rep.wp_malloc A h.unlocked hk
  constructor
  · rintro ⟨s', hcomposed, -⟩
    by_contra hne
    have hq : ¬ q = null := hres ▸ hne
    have hinner := (wp_of_run (Q := fun a _ => a = null) hcomposed).mpr rfl
    rw [composedMove, wp_bind, wp_of_run hrun, wp_ite_neg hq, wp_bind, wp_of_run rfl,
      wp_bind] at hinner
    obtain ⟨_, _, -, hnull⟩ := hinner
    rw [wp_pure] at hnull
    exact hq hnull
  · intro hnull
    refine ⟨s₁, run_of_wp ?_, by rw [hrefused hnull]⟩
    rw [composedMove, wp_bind, wp_of_run hrun, wp_ite_pos (hres.trans hnull), wp_pure]
    exact ⟨rfl, rfl⟩

/-! ## Requests that are granted -/

/-- A request is granted exactly when a zone with an empty space is found, or no zone is found and
the kernel grants one. -/
theorem Arena.Allocated.granted_iff {o : Outcome} (h : A.Allocated kernel n o)
    (hk : Zones.KernelFresh P A.zones kernel) : o.result ≠ null ↔
      (∃ pre z post, Zones.search (getZoneType n) n A.zones = some (pre, z, post) ∧
        frees z.tiles ≠ []) ∨
      Zones.search (getZoneType n) n A.zones = none ∧
        (getZoneType n = .large → n ≤ sizeMax - headerSize - zoneHeaderSize) ∧
        kernel (P.zoneLength (getZoneType n) n) ≠ none := by
  cases h with
  | found hsearch halloc =>
    exact iff_of_true (by simp) (.inl ⟨_, _, _, hsearch, Arena.frees_ne_nil_of_alloc halloc⟩)
  | full hsearch hfull =>
    refine iff_of_false (fun hne => hne rfl) ?_
    rw [hsearch]
    rintro (⟨pre, z, post, hsome, hne⟩ | ⟨hnone, -⟩)
    · cases hsome
      exact hne hfull
    · cases hnone
  | huge hsearch hl hbig =>
    refine iff_of_false (fun hne => hne rfl) ?_
    rw [hsearch]
    rintro (⟨pre, z, post, hsome, -⟩ | ⟨-, hfit, -⟩)
    · cases hsome
    · exact absurd (hfit hl) (Nat.not_le.mpr hbig)
  | refused hsearch hans =>
    refine iff_of_false (fun hne => hne rfl) ?_
    rw [hsearch]
    rintro (⟨pre, z, post, hsome, -⟩ | ⟨-, -, hgrant⟩)
    · cases hsome
    · exact hgrant hans
  | @mapped a b z hsearch hans hgrain halloc =>
    refine iff_of_true (by simp) (.inr ⟨hsearch, fun hl => ?_, by simp [hans]⟩)
    obtain ⟨-, -, -, hbound, -⟩ := hk _ _ hans
    rw [hl] at hbound
    change a + (n + headerSize + zoneHeaderSize) < 2 ^ 64 at hbound
    simp only [sizeMax, headerSize, zoneHeaderSize] at *
    omega

/-- What can be had is what the arena grants. -/
theorem Holds.obtainable_iff (h : Holds s A) (hk : s.KernelOk P kernel) (hn : GrainSize n) :
    Obtainable P kernel s n ↔ (Zones.allocate P kernel n A.zones).result ≠ null := by
  have hkA := h.rep.kernelFresh A.spread hk
  rw [(A.allocate_cases hkA hn).granted_iff hkA, Obtainable]
  by_cases hl : getZoneType n = .large
  · simp [hl, Zones.search]
  · rw [h.search_eq_none_iff hl, h.find?_promises, find?_eq_cutAt, Zones.search, if_neg hl, if_neg hl]
    refine or_congr ?_ (by simp [hl])
    cases cutAt (Zones.fits (getZoneType n) n) A.zones with
    | none => simp
    | some found =>
      obtain ⟨pre, z, post⟩ := found
      constructor
      · rintro ⟨-, v, heq, hne⟩
        cases heq
        exact ⟨pre, z, post, rfl, emptySpaces_ofZone_eq_nil.not.mp hne⟩
      · rintro ⟨pre', z', post', heq, hne⟩
        cases heq
        exact ⟨hl, _, rfl, emptySpaces_ofZone_eq_nil.not.mpr hne⟩

/-- A request is refused exactly when its size is, or no block can be had. -/
theorem Holds.mallocWithin_refused_iff (h : Holds s A) (hk : s.KernelOk P kernel) (hpos : 0 < size)
    (limit : ℕ) : (Zones.mallocWithin limit P kernel size A.zones).result = null ↔
      ¬(size ≤ limit ∧ Obtainable P kernel s (roundUp size)) := by
  rw [Zones.mallocWithin, h.obtainable_iff hk (grainSize_roundUp hpos)]
  by_cases hle : size ≤ limit
  · rw [if_neg (by omega)]
    tauto
  · rw [if_pos (by omega)]
    exact iff_of_true rfl fun hall => hle hall.1

/-- `realloc` of a block that has to move ends as the composition exactly when both accept the size
or both refuse it, or no block can be had. -/
theorem Holds.sameMove_iff (h : Holds s A) (hk : s.KernelOk P kernel)
    (hloc : Zones.locate ptr A.zones = some (pre, z, post, t)) (hlt : t.size < roundUp size)
    (hnone : Zones.growIn z t.addr (roundUp size) = none) :
    SameMove P kernel ptr size t.size s ↔
      (size ≤ P.maxAllocSize ↔ roundUp size ≤ P.reallocMaxAllocSize) ∨
        ¬ Obtainable P kernel s (roundUp size) := by
  have hpos := pos_of_lt_roundUp hlt
  have hround := le_roundUp size
  obtain ⟨r, s₁, hmove, hrealloc⟩ := h.realloc_eq_reallocMove hk hpos hloc hlt hnone
  by_cases hboth : size ≤ P.maxAllocSize ∧ roundUp size ≤ P.reallocMaxAllocSize
  · obtain ⟨r', s', hmove', hcomposed⟩ := h.composedMove_of_accepted hk hloc hlt hboth.1 hboth.2
    rw [hmove] at hmove'
    cases hmove'
    exact iff_of_true ⟨r, s₁, s₁, hrealloc, hcomposed, rfl⟩ (.inl (iff_of_true hboth.1 hboth.2))
  · have hpublic := h.composedMove_of_refused hk ptr size t.size
    have hprivate := h.reallocMove_of_refused hk hloc hlt
    have hm := h.mallocWithin_refused_iff hk hpos P.maxAllocSize
    have hr := h.mallocWithin_refused_iff hk (Nat.lt_of_lt_of_le hpos hround) P.reallocMaxAllocSize
    rw [roundUp_roundUp] at hr
    rw [hmove] at hprivate
    -- one of the two refuses the size, so that they agree when both return null
    have hsame : SameMove P kernel ptr size t.size s ↔
        (Zones.malloc P kernel size A.zones).result = null ∧
          (Zones.reallocMalloc P kernel (roundUp size) A.zones).result = null := by
      constructor
      · rintro ⟨q, s₂, s₃, hrun, hcomposed, heq⟩
        rw [hrealloc] at hrun
        cases hrun
        by_cases hle : size ≤ P.maxAllocSize
        · have hnull := hr.mpr fun hall => hboth ⟨hle, hall.1⟩
          obtain ⟨s', hsome, hback⟩ := hprivate.mpr hnull
          cases hsome
          refine ⟨hpublic.mp ⟨s₃, hcomposed, ?_⟩, hnull⟩
          rw [hback, heq]
        · have hnull := hm.mpr fun hall => hle hall.1
          obtain ⟨s', hsome, hback⟩ := hpublic.mpr hnull
          rw [hcomposed] at hsome
          cases hsome
          refine ⟨hnull, hprivate.mp ⟨s₁, rfl, ?_⟩⟩
          rw [hback, heq]
      · rintro ⟨hnull, hnull'⟩
        obtain ⟨s₂, hcomposed, hback⟩ := hpublic.mpr hnull
        obtain ⟨s', hsome, hback'⟩ := hprivate.mpr hnull'
        cases hsome
        refine ⟨null, s₁, s₂, hrealloc, hcomposed, ?_⟩
        rw [hback'] at hback
        have hcalls := congrArg (fun s : Heap => { s with calls := s₁.calls }) hback
        exact hcalls
    rw [hsame]
    change _ = null ∧ _ = null ↔ _
    rw [hm, hr]
    tauto

/-- Pages of 4096 bytes and an odd limit on the sizes. -/
def Platform.capped : Platform :=
  { Platform.unlimited with
    maxAllocSize := 5001, reallocMaxAllocSize := 5001
    maxAllocSize_lt := by decide, reallocMaxAllocSize_lt := by decide }

/-- A block that is to grow to exactly the limit: `malloc` accepts 5001 bytes, and `realloc` refuses
the 5008 bytes that they are rounded to. -/
theorem moving_realloc_counterexample : ∃ s kernel, Reachable .capped s ∧
    s.KernelOk .capped kernel ∧ ∃ v ∈ view s, ∃ e ∈ v.blocks, e.size < roundUp 5001 ∧
      v.type ≠ (getZoneType (roundUp 5001)).code ∧
      ¬ SameMove .capped kernel (e.addr + headerSize) 5001 e.size s := by
  obtain ⟨s, A, h, hA, hzones, hfar⟩ := exists_reachable_far (P := .capped) 65536 (.malloc 100) []
    (by decide) (by decide) (by decide) (by decide) (by decide)
  have hk : s.KernelOk .capped (kernelAt (2 ^ 40)) :=
    kernelOk_kernelAt (by decide) (by decide) (by decide) fun x hx =>
      hfar x (Nat.le_trans (by decide) hx)
  obtain ⟨v, hv, e, he, hlt, htype⟩ : ∃ v ∈ view s, ∃ e ∈ v.blocks, e.size < roundUp 5001 ∧
      v.type ≠ (getZoneType (roundUp 5001)).code := by
    rw [hA.rep.view_eq A.spread, hzones]
    decide +kernel
  refine ⟨s, _, h, hk, v, hv, e, he, hlt, htype, fun hsame => ?_⟩
  obtain ⟨pre, z, post, t, rfl, rfl, hz, ht, hloc⟩ := hA.exists_locate hv he
  have hnone : Zones.growIn z t.addr (roundUp 5001) = none :=
    if_neg fun heq => htype (congrArg EType.code heq.symm)
  rcases (hA.sameMove_iff hk hloc hlt hnone).mp hsame with hagree | hnot
  · exact absurd (hagree.mp (by decide)) (by decide)
  · refine hnot (.inr ⟨?_, by decide⟩)
    rw [if_pos (by decide)]
    decide

/-- In every reachable state, for every live block and every larger size for which it cannot grow in
place: `realloc` returns what allocating, copying the old data and freeing return, and leaves the
same state, exactly when `malloc` accepts the size if and only if `realloc_malloc` accepts the rounded
size, or no block of that size can be had. -/
theorem moving_realloc (h : Reachable P s) (hk : s.KernelOk P kernel) (hv : v ∈ view s)
    (he : e ∈ v.blocks) (hlt : e.size < roundUp size)
    (hstuck : v.type ≠ (getZoneType (roundUp size)).code ∨
      ¬ v.Forward e (roundUp size) ∧ ¬ v.Backward e (roundUp size)) :
    SameMove P kernel (e.addr + headerSize) size e.size s ↔
      (size ≤ P.maxAllocSize ↔ roundUp size ≤ P.reallocMaxAllocSize) ∨
        ¬ Obtainable P kernel s (roundUp size) := by
  obtain ⟨A, hA⟩ := h.exists_holds
  obtain ⟨pre, z, post, t, rfl, rfl, hz, ht, hloc⟩ := hA.exists_locate hv he
  refine hA.sameMove_iff hk hloc hlt (((A.wf z hz).laid.growIn_eq_none ht).mpr (hstuck.imp ?_ ?_))
  · exact fun hne heq => hne (congrArg EType.code heq.symm)
  · rw [forward_ofZone, backward_ofZone]
    exact id

/-- A `TINY` block that becomes `SMALL`. -/
theorem moving_realloc_witness : ∃ s, Reachable .unlimited s ∧ ∃ v ∈ view s, ∃ e ∈ v.blocks,
    (SameMove .unlimited (fun _ => none) (e.addr + headerSize) 1000 e.size s ↔
      (1000 ≤ Platform.unlimited.maxAllocSize ↔
        roundUp 1000 ≤ Platform.unlimited.reallocMaxAllocSize) ∨
        ¬ Obtainable .unlimited (fun _ => none) s (roundUp 1000)) := by
  obtain ⟨s, A, h, hA, hzones⟩ := exists_reachable (P := .unlimited) 65536 (.malloc 100) []
    (by decide) (by decide) (by decide) (by decide) (by decide)
  obtain ⟨v, hv, e, he, hlt, htype⟩ : ∃ v ∈ view s, ∃ e ∈ v.blocks, e.size < roundUp 1000 ∧
      v.type ≠ (getZoneType (roundUp 1000)).code := by
    rw [hA.rep.view_eq A.spread, hzones]
    decide +kernel
  have hk : s.KernelOk .unlimited fun _ => none := fun _ _ hans => by cases hans
  exact ⟨s, h, v, hv, e, he, moving_realloc h hk hv he hlt (.inl htype)⟩

end FtMalloc
