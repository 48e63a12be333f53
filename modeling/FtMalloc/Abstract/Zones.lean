import FtMalloc.Abstract.Operations

/-!
# The calls on the list of zones

The public calls as functions on the list of all zones. A call looks up a zone, edits it or maps or
unmaps one, and reports the pointer returned and the kernel calls made.
-/

namespace FtMalloc

open HeapLib

/-! ## Sizes -/

/-- `align_size` as arithmetic. -/
def roundUp (n : ℕ) : ℕ :=
  if n > sizeMax - alignment then n else (n + alignment - 1) / alignment * alignment

/-- Rounding never makes a size smaller. -/
theorem le_roundUp (n : ℕ) : n ≤ roundUp n := by
  rw [roundUp]
  split
  · exact Nat.le_refl n
  · simp only [alignment]
    omega

/-- A size that a zone can serve is rounded to whole grains. -/
theorem grain_roundUp {n : ℕ} (hpos : 0 < n)
    (hmax : roundUp n ≤ sizeMax - headerSize - zoneHeaderSize) :
    alignment ≤ roundUp n ∧ alignment ∣ roundUp n := by
  rw [roundUp] at *
  split at hmax
  · simp only [sizeMax, headerSize, zoneHeaderSize, alignment] at *
    omega
  · next hle =>
    rw [if_neg hle]
    simp only [alignment]
    omega

/-- A rounded size is a whole number of grains, unless no zone can serve it. -/
theorem grainSize_roundUp {n : ℕ} (hpos : 0 < n) : GrainSize (roundUp n) := grain_roundUp hpos

/-- Rounding twice is rounding once. -/
theorem roundUp_roundUp (n : ℕ) : roundUp (roundUp n) = roundUp n := by
  by_cases hle : n > sizeMax - alignment
  · have hself : roundUp n = n := if_pos hle
    rw [hself, hself]
  · rw [show roundUp n = (n + alignment - 1) / alignment * alignment from if_neg hle, roundUp]
    split
    · rfl
    · simp only [alignment]
      omega

namespace Platform

variable (P : Platform)

/-- A mapping is not longer than its pages. -/
theorem le_pageUp (len : ℕ) : len ≤ P.pageUp len := by
  have hpos : 0 < P.pagesize := by
    have := P.pagesize_ge
    omega
  have h := Nat.lt_div_mul_add hpos (a := len + P.pagesize - 1)
  rw [pageUp]
  omega

/-- The page size divides the size of the address space. -/
theorem pagesize_dvd : P.pagesize ∣ 2 ^ 64 := by
  obtain ⟨k, hk⟩ := P.pagesize_pow
  have hlt := P.pagesize_lt
  rw [hk] at hlt ⊢
  exact Nat.pow_dvd_pow 2 (Nat.pow_lt_pow_iff_right (by decide) |>.mp hlt).le

/-- Pages are whole grains. -/
theorem alignment_dvd : alignment ∣ P.pagesize := by
  obtain ⟨k, hk⟩ := P.pagesize_pow
  have hge := P.pagesize_ge
  rw [hk] at hge ⊢
  have hk' : 12 ≤ k := (Nat.pow_le_pow_iff_right (a := 2) (by decide)).mp hge
  exact Nat.pow_dvd_pow 2 (by omega : 4 ≤ k)

/-- A `TINY` zone is a number of pages. -/
theorem dvd_tinyZoneSize : P.pagesize ∣ P.tinyZoneSize :=
  (Nat.dvd_mod_iff P.pagesize_dvd).mpr (Nat.dvd_mul_right _ _)

/-- A `SMALL` zone is a number of pages. -/
theorem dvd_smallZoneSize : P.pagesize ∣ P.smallZoneSize :=
  (Nat.dvd_mod_iff P.pagesize_dvd).mpr (P.dvd_tinyZoneSize.mul_right _)

/-- Length of a zone of the type that serves `n` bytes. -/
def zoneLength (type : EType) (n : ℕ) : ℕ :=
  match type with
  | .tiny => P.tinyZoneSize
  | .small => P.smallZoneSize
  | _ => n + headerSize + zoneHeaderSize

end Platform

/-- The type of a size and the range of the size. -/
theorem getZoneType_cases (n : ℕ) : getZoneType n = .tiny ∧ 0 < n ∧ n ≤ 160 ∨
    getZoneType n = .small ∧ 160 < n ∧ n ≤ 3040 ∨ getZoneType n = .large ∧ (n = 0 ∨ 3040 < n) := by
  by_cases htiny : 1 ≤ n ∧ n ≤ 160
  · exact .inl ⟨if_pos htiny, by omega, by omega⟩
  · by_cases hsmall : 161 ≤ n ∧ n ≤ 3040
    · exact .inr (.inl ⟨(if_neg htiny).trans (if_pos hsmall), by omega, by omega⟩)
    · exact .inr (.inr ⟨(if_neg htiny).trans (if_neg hsmall), by omega⟩)

/-! ## Fresh zones -/

namespace TiledZone

/-- A zone that has just been mapped: one empty space, and a cached maximum that counts its
header. -/
def fresh (type : EType) (a len : ℕ) : TiledZone :=
  ⟨a, len, type, len - zoneHeaderSize,
    [⟨a + zoneHeaderSize, len - zoneHeaderSize - headerSize, false⟩]⟩

@[simp] theorem fresh_addr (type : EType) (a len : ℕ) : (fresh type a len).addr = a := rfl

@[simp] theorem fresh_len (type : EType) (a len : ℕ) : (fresh type a len).len = len := rfl

@[simp] theorem fresh_type (type : EType) (a len : ℕ) : (fresh type a len).type = type := rfl

/-- A fresh zone has no block. -/
@[simp] theorem fresh_blocks (type : EType) (a len : ℕ) : (fresh type a len).blocks = [] := rfl

variable {P : Platform} {z : TiledZone} {a len n b : ℕ}

/-- A zone mapped for `n` bytes has room for them. -/
theorem zoneLength_room (hn : alignment ≤ n ∧ alignment ∣ n)
    (hlen : 0 < P.zoneLength (getZoneType n) n) :
    n + 112 ≤ P.zoneLength (getZoneType n) n ∧ alignment ∣ P.zoneLength (getZoneType n) n := by
  have hge := P.pagesize_ge
  have hgrain := P.alignment_dvd
  rcases getZoneType_cases n with ⟨ht, -, hle⟩ | ⟨ht, -, hle⟩ | ⟨ht, -⟩
  · rw [ht] at hlen ⊢
    have := Nat.le_of_dvd hlen P.dvd_tinyZoneSize
    exact ⟨by simp only [Platform.zoneLength] at *; omega, hgrain.trans P.dvd_tinyZoneSize⟩
  · rw [ht] at hlen ⊢
    have := Nat.le_of_dvd hlen P.dvd_smallZoneSize
    exact ⟨by simp only [Platform.zoneLength] at *; omega, hgrain.trans P.dvd_smallZoneSize⟩
  · rw [ht]
    exact ⟨by simp [Platform.zoneLength], Nat.dvd_add (Nat.dvd_add hn.2 (by decide)) (by decide)⟩

/-- A zone mapped for `n` bytes is framed. -/
theorem framed_fresh (hn : alignment ≤ n ∧ alignment ∣ n)
    (hlen : 0 < P.zoneLength (getZoneType n) n) (hpage : P.pagesize ∣ a) (hpos : 0 < a)
    (hbound : a + P.zoneLength (getZoneType n) n < 2 ^ 64) :
    (fresh (getZoneType n) a (P.zoneLength (getZoneType n) n)).Framed P where
  laid :=
    { pos := hpos
      bound := hbound
      tiled := by
        have := (zoneLength_room hn hlen).1
        refine ⟨rfl, ?_⟩
        simp only [Tiled, Tile.stop, fresh, headerSize, zoneHeaderSize] at *
        omega
      grain := by
        obtain ⟨hroom, hdvd⟩ := zoneLength_room hn hlen
        intro t ht
        obtain rfl := List.mem_singleton.mp ht
        simp only [alignment, headerSize, zoneHeaderSize] at *
        omega }
  page := hpage
  sized := by
    rcases getZoneType_cases n with ⟨ht, -⟩ | ⟨ht, -⟩ | ⟨ht, -⟩
    · exact .inl ⟨ht, by rw [ht]; rfl⟩
    · exact .inr (.inl ⟨ht, by rw [ht]; rfl⟩)
    · exact .inr (.inr ht)

/-- A fresh zone has no block. -/
theorem live_fresh {type : EType} : (fresh type a len).live = ∅ := useds_singleton_of_free rfl

/-- A zone mapped for `n` bytes serves them. -/
theorem exists_alloc_fresh (hn : alignment ≤ n ∧ alignment ∣ n)
    (hlen : 0 < P.zoneLength (getZoneType n) n) :
    ∃ b z, (fresh (getZoneType n) a (P.zoneLength (getZoneType n) n)).alloc n = some (b, z) := by
  cases h : (fresh (getZoneType n) a (P.zoneLength (getZoneType n) n)).alloc n with
  | some r => exact ⟨r.1, r.2, rfl⟩
  | none =>
    have := alloc_eq_none.mp h _ List.mem_cons_self rfl
    have := (zoneLength_room hn hlen).1
    simp only [headerSize, zoneHeaderSize] at *
    omega

/-- The first allocation in a fresh zone leaves it well formed, with one block. -/
theorem alloc_fresh (hn : alignment ≤ n ∧ alignment ∣ n)
    (hlen : 0 < P.zoneLength (getZoneType n) n) (hpage : P.pagesize ∣ a) (hpos : 0 < a)
    (hbound : a + P.zoneLength (getZoneType n) n < 2 ^ 64)
    (h : (fresh (getZoneType n) a (P.zoneLength (getZoneType n) n)).alloc n = some (b, z)) :
    ∃ k, Snug n k ∧ Edited P (fresh (getZoneType n) a (P.zoneLength (getZoneType n) n)) z ∅
      {⟨b, k, true⟩} :=
  (framed_fresh hn hlen hpage hpos hbound).alloc (fun _ => ⟨_, rfl⟩) hn h

end TiledZone

/-! ## The calls on the list of zones -/

/-- What a call returns and leaves behind; the kernel calls are listed the latest first. -/
structure Outcome where
  result : ℕ
  zones : List TiledZone
  calls : List Syscall
deriving DecidableEq, Repr

namespace Zones

/-- Does the cached maximum of the zone promise room for `n` bytes? -/
def fits (type : EType) (n : ℕ) (z : TiledZone) : Bool :=
  decide (z.type = type) && decide (n + headerSize ≤ z.cache)

theorem fits_iff {type : EType} {n : ℕ} {z : TiledZone} :
    fits type n z = true ↔ z.type = type ∧ n + headerSize ≤ z.cache := by
  rw [fits, Bool.and_eq_true, decide_eq_true_eq, decide_eq_true_eq]

/-- The first zone that promises room; `LARGE` blocks always get a zone of their own. -/
def search (type : EType) (n : ℕ) (zs : List TiledZone) :
    Option (List TiledZone × TiledZone × List TiledZone) :=
  if type = .large then none else cutAt (fits type n) zs

/-- Take a block of `n` bytes from an existing zone, or from a new one. -/
def allocate (P : Platform) (kernel : ℕ → Option ℕ) (n : ℕ) (zs : List TiledZone) : Outcome :=
  match search (getZoneType n) n zs with
  | some (pre, z, post) =>
    match z.alloc n with
    | some (b, z') => ⟨b + headerSize, pre ++ z' :: post, []⟩
    | none => ⟨null, zs, []⟩
  | none =>
    if getZoneType n = .large ∧ n > sizeMax - headerSize - zoneHeaderSize then ⟨null, zs, []⟩
    else
      let len := P.zoneLength (getZoneType n) n
      match kernel len with
      | none => ⟨null, zs, [.mmap len none]⟩
      | some a =>
        match (TiledZone.fresh (getZoneType n) a len).alloc n with
        | some (b, z') => ⟨b + headerSize, z' :: zs, [.mmap len (some a)]⟩
        | none => ⟨null, TiledZone.fresh (getZoneType n) a len :: zs, [.mmap len (some a)]⟩

/-- Serve a request that is compared with `limit`. -/
def mallocWithin (limit : ℕ) (P : Platform) (kernel : ℕ → Option ℕ) (size : ℕ)
    (zs : List TiledZone) : Outcome :=
  if size = 0 ∨ size > limit then ⟨null, zs, []⟩ else allocate P kernel (roundUp size) zs

/-- `malloc`. -/
abbrev malloc (P : Platform) := mallocWithin P.maxAllocSize P

/-- `realloc_malloc`. -/
abbrev reallocMalloc (P : Platform) := mallocWithin P.reallocMaxAllocSize P

/-- The zone whose interval contains `ptr`. -/
def owner (ptr : ℕ) (zs : List TiledZone) :
    Option (List TiledZone × TiledZone × List TiledZone) :=
  cutAt (fun z => decide (z.addr ≤ ptr ∧ ptr < z.addr + z.len)) zs

/-- The block whose payload starts at `ptr`, with its zone. -/
def locate (ptr : ℕ) (zs : List TiledZone) :
    Option (List TiledZone × TiledZone × List TiledZone × Tile) :=
  match owner ptr zs with
  | none => none
  | some (pre, z, post) => (z.cutBlock (ptr - headerSize)).map fun c => (pre, z, post, c.2.1)

/-- `free`. -/
def free (ptr : ℕ) (zs : List TiledZone) : Outcome :=
  match locate ptr zs with
  | none => ⟨null, zs, []⟩
  | some (pre, z, post, t) =>
    if z.type = .large then ⟨null, pre ++ post, [.munmap z.addr z.len]⟩
    else ⟨null, pre ++ z.release t.addr :: post, []⟩

/-- `free` returns nothing. -/
theorem free_result {ptr : ℕ} {zs : List TiledZone} : (free ptr zs).result = null := by
  rw [free]
  split
  · rfl
  · split <;> rfl

/-- Give the block of `ptr` a new place: allocate, then free. -/
def move (P : Platform) (kernel : ℕ → Option ℕ) (ptr n : ℕ) (zs : List TiledZone) : Outcome :=
  let new := reallocMalloc P kernel n zs
  if new.result = null then new
  else
    let old := free ptr new.zones
    ⟨new.result, old.zones, old.calls ++ new.calls⟩

/-- A block is moved exactly when its allocation is granted. -/
theorem move_result (P : Platform) (kernel : ℕ → Option ℕ) {ptr n : ℕ} {zs : List TiledZone} :
    (move P kernel ptr n zs).result = (reallocMalloc P kernel n zs).result := by
  rw [move]
  split <;> rfl

/-- Grow the block in place when its zone has the type of the new size. -/
def growIn (z : TiledZone) (b n : ℕ) : Option (ℕ × TiledZone) :=
  if getZoneType n = z.type then z.grow b n else none

/-- `realloc`. -/
def realloc (P : Platform) (kernel : ℕ → Option ℕ) (ptr size : ℕ) (zs : List TiledZone) :
    Outcome :=
  if ptr = null then malloc P kernel size zs
  else if size = 0 then free ptr zs
  else
    match locate ptr zs with
    | none => ⟨null, zs, []⟩
    | some (pre, z, post, t) =>
      if roundUp size ≤ t.size then ⟨ptr, pre ++ z.shrink t.addr (roundUp size) :: post, []⟩
      else
        match growIn z t.addr (roundUp size) with
        | some (b, z') => ⟨b + headerSize, pre ++ z' :: post, []⟩
        | none => move P kernel ptr (roundUp size) zs

/-- `realloc` of a located block. -/
theorem realloc_of_locate (P : Platform) (kernel : ℕ → Option ℕ) {ptr size : ℕ}
    {zs pre post : List TiledZone} {z : TiledZone} {t : Tile} (hptr : ptr ≠ null)
    (hsize : 0 < size) (hloc : locate ptr zs = some (pre, z, post, t)) :
    realloc P kernel ptr size zs =
      if roundUp size ≤ t.size then ⟨ptr, pre ++ z.shrink t.addr (roundUp size) :: post, []⟩
      else
        match growIn z t.addr (roundUp size) with
        | some (b, z') => ⟨b + headerSize, pre ++ z' :: post, []⟩
        | none => move P kernel ptr (roundUp size) zs := by
  rw [realloc, if_neg hptr, if_neg (by omega), hloc]

/-! ## The answers of the kernel -/

section Answers

variable {P : Platform} {kernel : ℕ → Option ℕ} {zs : List TiledZone} {len a n ptr size limit : ℕ}

/-- An allocation maps what the kernel grants. -/
theorem allocate_answer (h : .mmap len (some a) ∈ (allocate P kernel n zs).calls) :
    kernel len = some a := by
  rw [allocate] at h
  split at h
  · split at h <;> exact absurd h List.not_mem_nil
  · split at h
    · exact absurd h List.not_mem_nil
    · cases hans : kernel (P.zoneLength (getZoneType n) n) with
      | none => simp [hans] at h
      | some b =>
        simp only [hans] at h
        split at h <;> cases List.mem_singleton.mp h <;> exact hans

/-- A request maps what the kernel grants. -/
theorem mallocWithin_answer (h : .mmap len (some a) ∈ (mallocWithin limit P kernel size zs).calls) :
    kernel len = some a := by
  rw [mallocWithin] at h
  split at h
  · exact absurd h List.not_mem_nil
  · exact allocate_answer h

/-- `free` maps nothing. -/
theorem free_answer : .mmap len (some a) ∉ (free ptr zs).calls := by
  rw [free]
  split
  · exact List.not_mem_nil
  · split
    · simp
    · exact List.not_mem_nil

/-- Moving a block maps what its allocation maps. -/
theorem move_answer : .mmap len (some a) ∈ (move P kernel ptr n zs).calls ↔
    .mmap len (some a) ∈ (reallocMalloc P kernel n zs).calls := by
  rw [move]
  split
  · exact Iff.rfl
  · rw [List.mem_append]
    exact or_iff_right free_answer

/-- `realloc` maps what the kernel grants. -/
theorem realloc_answer (h : .mmap len (some a) ∈ (realloc P kernel ptr size zs).calls) :
    kernel len = some a := by
  rw [realloc] at h
  split at h
  · exact mallocWithin_answer h
  · split at h
    · exact absurd h free_answer
    · split at h
      · exact absurd h List.not_mem_nil
      · split at h
        · exact absurd h List.not_mem_nil
        · split at h
          · exact absurd h List.not_mem_nil
          · exact mallocWithin_answer (move_answer.mp h)

end Answers

/-- The blocks of all zones. -/
def live (zs : List TiledZone) : Set Tile := {t | ∃ z ∈ zs, t ∈ z.live}

/-- The pages of two zones do not meet. -/
def Apart (P : Platform) (z w : TiledZone) : Prop :=
  z.addr + P.pageUp z.len ≤ w.addr ∨ w.addr + P.pageUp w.len ≤ z.addr

/-- Every answer of the kernel is a non-empty range on pages of its own that does not wrap. -/
def KernelFresh (P : Platform) (zs : List TiledZone) (kernel : ℕ → Option ℕ) : Prop :=
  ∀ len a, kernel len = some a → 0 < len ∧ P.pagesize ∣ a ∧ 0 < a ∧ a + len < 2 ^ 64 ∧
    ∀ z ∈ zs, a + P.pageUp len ≤ z.addr ∨ z.addr + P.pageUp z.len ≤ a

end Zones

end FtMalloc
