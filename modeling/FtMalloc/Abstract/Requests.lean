import FtMalloc.Abstract.Arena
import FtMalloc.Abstract.Growth

/-!
# The outcomes of a request

What `allocate` and `realloc` can do on an arena, case by case, with everything that led to the
case. What a request does is read off from here.
-/

namespace FtMalloc

open HeapLib Zones TiledZone

variable {P : Platform} {z : TiledZone} {zs pre post : List TiledZone} {kernel : ℕ → Option ℕ}
  {n size ptr limit : ℕ}

/-- A well-formed zone that promises room fails to serve exactly when it has no empty space. -/
theorem TiledZone.WellFormed.alloc_eq_none_iff (hz : z.WellFormed P)
    (hcache : n + headerSize ≤ z.cache) : z.alloc n = none ↔ frees z.tiles = [] := by
  rw [alloc_eq_none]
  constructor
  · intro hsmall
    by_contra hne
    obtain ⟨t, ht, hsize⟩ := exists_size_eq_largest hne
    obtain ⟨hmem, hfree⟩ := mem_frees.mp ht
    have hlt := hsmall t hmem hfree
    rw [hz.cache hne, ← hsize] at hcache
    omega
  · intro hnil t hmem hfree
    exact absurd (mem_frees.mpr ⟨hmem, hfree⟩) (hnil ▸ List.not_mem_nil)

namespace Arena

/-- A zone that promises room is no `LARGE` zone, and the size is one of its class. -/
theorem search_eq_some (h : search (getZoneType n) n zs = some (pre, z, post)) :
    zs = pre ++ z :: post ∧ z.type = getZoneType n ∧ z.type ≠ .large ∧
      n + headerSize ≤ z.cache := by
  rw [search] at h
  split at h
  · cases h
  · next hl =>
    obtain ⟨heq, hfit, -⟩ := cutAt_eq_some.mp h
    obtain ⟨htype, hcache⟩ := fits_iff.mp hfit
    exact ⟨heq, htype, htype ▸ hl, hcache⟩

/-- A size of a small class is a whole number of grains. -/
theorem grain_of_class (hn : GrainSize n) (hclass : getZoneType n ≠ .large) :
    alignment ≤ n ∧ alignment ∣ n := by
  refine hn ?_
  simp only [sizeMax, headerSize, zoneHeaderSize]
  rcases getZoneType_cases n with ⟨-, h⟩ | ⟨-, h⟩ | ⟨h, -⟩
  · omega
  · omega
  · exact absurd h hclass

/-- A size that fits with its headers is a whole number of grains. -/
theorem grain_of_fits (hn : GrainSize n)
    (hfits : getZoneType n = .large → n ≤ sizeMax - headerSize - zoneHeaderSize) :
    alignment ≤ n ∧ alignment ∣ n := by
  by_cases hl : getZoneType n = .large
  · exact hn (hfits hl)
  · exact grain_of_class hn hl

/-- What `allocate` does: it takes a block from the first zone that promises room, or finds this
zone full, or needs a new zone, which may be too large, refused by the kernel, or mapped. -/
inductive Allocated (A : Arena P) (kernel : ℕ → Option ℕ) (n : ℕ) : Outcome → Prop
  | found {pre post : List TiledZone} {z z' : TiledZone} {b : ℕ}
      (hsearch : search (getZoneType n) n A.zones = some (pre, z, post))
      (halloc : z.alloc n = some (b, z')) :
      Allocated A kernel n ⟨b + headerSize, pre ++ z' :: post, []⟩
  | full {pre post : List TiledZone} {z : TiledZone}
      (hsearch : search (getZoneType n) n A.zones = some (pre, z, post))
      (hfull : frees z.tiles = []) : Allocated A kernel n ⟨null, A.zones, []⟩
  | huge (hsearch : search (getZoneType n) n A.zones = none) (hl : getZoneType n = .large)
      (hbig : sizeMax - headerSize - zoneHeaderSize < n) : Allocated A kernel n ⟨null, A.zones, []⟩
  | refused (hsearch : search (getZoneType n) n A.zones = none)
      (hans : kernel (P.zoneLength (getZoneType n) n) = none) :
      Allocated A kernel n ⟨null, A.zones, [.mmap (P.zoneLength (getZoneType n) n) none]⟩
  | mapped {a b : ℕ} {z : TiledZone} (hsearch : search (getZoneType n) n A.zones = none)
      (hans : kernel (P.zoneLength (getZoneType n) n) = some a)
      (hgrain : alignment ≤ n ∧ alignment ∣ n)
      (halloc : (fresh (getZoneType n) a (P.zoneLength (getZoneType n) n)).alloc n = some (b, z)) :
      Allocated A kernel n
        ⟨b + headerSize, z :: A.zones, [.mmap (P.zoneLength (getZoneType n) n) (some a)]⟩

/-- Every allocation is one of these. -/
theorem allocate_cases (A : Arena P) (hk : KernelFresh P A.zones kernel) (hn : GrainSize n) :
    A.Allocated kernel n (allocate P kernel n A.zones) := by
  rw [allocate]
  cases hsearch : search (getZoneType n) n A.zones with
  | some found =>
    obtain ⟨pre, z, post⟩ := found
    obtain ⟨heq, -, -, hcache⟩ := search_eq_some hsearch
    cases halloc : z.alloc n with
    | some r =>
      simp only [halloc]
      exact .found hsearch halloc
    | none =>
      simp only [halloc]
      exact .full hsearch (((A.wf z (by simp [heq])).alloc_eq_none_iff hcache).mp halloc)
  | none =>
    by_cases hbig : getZoneType n = .large ∧ n > sizeMax - headerSize - zoneHeaderSize
    · simp only [if_pos hbig]
      exact .huge hsearch hbig.1 hbig.2
    · simp only [if_neg hbig]
      cases hans : kernel (P.zoneLength (getZoneType n) n) with
      | none => exact .refused hsearch hans
      | some a =>
        have hgrain := grain_of_fits hn fun hl => Nat.not_lt.mp fun hlt => hbig ⟨hl, hlt⟩
        obtain ⟨b, z, halloc⟩ := exists_alloc_fresh (a := a) hgrain (hk _ a hans).1
        simp only [halloc]
        exact .mapped hsearch hans hgrain halloc

/-- A zone that serves a request has an empty space. -/
theorem frees_ne_nil_of_alloc {b : ℕ} {z' : TiledZone} (h : z.alloc n = some (b, z')) :
    frees z.tiles ≠ [] := by
  intro hnil
  have hnone : z.alloc n = none := alloc_eq_none.mpr fun t hmem hfree =>
    absurd (mem_frees.mpr ⟨hmem, hfree⟩) (hnil ▸ List.not_mem_nil)
  rw [hnone] at h
  cases h

/-- An allocation that finds room needs no kernel. -/
theorem allocate_of_search {b : ℕ} {z' : TiledZone} (P : Platform) (kernel : ℕ → Option ℕ)
    (hsearch : search (getZoneType n) n zs = some (pre, z, post)) (halloc : z.alloc n = some (b, z')) :
    allocate P kernel n zs = ⟨b + headerSize, pre ++ z' :: post, []⟩ := by
  rw [allocate, hsearch]
  simp only [halloc]

/-- `free` of a block gives its zone back, or the block to its zone. -/
theorem free_of_mem {t : Tile} (A : Arena P) (heq : A.zones = pre ++ z :: post) (ht : t ∈ z.live) :
    free (t.addr + headerSize) A.zones =
      if z.type = .large then ⟨null, pre ++ post, [.munmap z.addr z.len]⟩
      else ⟨null, pre ++ z.release t.addr :: post, []⟩ := by
  rw [free, A.locate_eq_some.mpr ⟨heq, ht, rfl⟩]

/-- An allocation that returns null maps nothing. -/
theorem allocate_idle (A : Arena P) (hk : KernelFresh P A.zones kernel) (hn : GrainSize n)
    (hnull : (allocate P kernel n A.zones).result = null) :
    ∀ c ∈ (allocate P kernel n A.zones).calls, ∃ len, c = .mmap len none := by
  have hcases := A.allocate_cases hk hn
  generalize allocate P kernel n A.zones = o at hcases hnull
  cases hcases with
  | found => simp at hnull
  | full => exact fun c hc => absurd hc List.not_mem_nil
  | huge => exact fun c hc => absurd hc List.not_mem_nil
  | refused => exact fun c hc => ⟨_, List.mem_singleton.mp hc⟩
  | mapped => simp at hnull

/-- A request that is answered with null maps nothing. -/
theorem mallocWithin_idle (A : Arena P) (hk : KernelFresh P A.zones kernel)
    (hnull : (mallocWithin limit P kernel size A.zones).result = null) :
    ∀ c ∈ (mallocWithin limit P kernel size A.zones).calls, ∃ len, c = .mmap len none := by
  rw [mallocWithin] at hnull ⊢
  split at hnull
  · next hbad =>
    rw [if_pos hbad]
    exact fun c hc => absurd hc List.not_mem_nil
  · next hbad =>
    rw [if_neg hbad]
    exact A.allocate_idle hk (grainSize_roundUp (by omega)) hnull

/-- A block that cannot be moved maps nothing. -/
theorem move_idle (A : Arena P) (hk : KernelFresh P A.zones kernel)
    (hnull : (move P kernel ptr n A.zones).result = null) :
    ∀ c ∈ (move P kernel ptr n A.zones).calls, ∃ len, c = .mmap len none := by
  rw [move] at hnull ⊢
  by_cases hnew : (reallocMalloc P kernel n A.zones).result = null
  · rw [if_pos hnew]
    exact A.mallocWithin_idle hk hnew
  · rw [if_neg hnew] at hnull
    exact absurd hnull hnew

end Arena

/-- A block does not grow in place exactly when the new size is of another class, or there is too
little room on both sides. -/
theorem TiledZone.Laid.growIn_eq_none {t : Tile} (hz : z.Laid) (ht : t ∈ z.live) :
    growIn z t.addr n = none ↔
      getZoneType n ≠ z.type ∨ ¬ z.Forward t n ∧ ¬ z.Backward t n := by
  rw [growIn]
  by_cases htype : getZoneType n = z.type
  · rw [if_pos htype, hz.grow_eq_none ht]
    exact ⟨.inr, fun h => h.resolve_left fun hne => hne htype⟩
  · rw [if_neg htype]
    exact iff_of_true rfl (.inl htype)

end FtMalloc
