import FtMalloc.Lib.Bytes
import FtMalloc.Lib.Program

/-!
# The machine the allocator runs on

An LP64 process: a byte memory with mapped and unmapped addresses, the two globals of the
allocator, and the kernel calls made so far. Accessing an unmapped byte, locking a held
mutex and looping forever have no outcome. Arithmetic on `size_t` wraps modulo `2 ^ 64`, that on
`u_int` modulo `2 ^ 32`, and a wrap is recorded, so that its absence can be stated.

The answer of `mmap` is supplied by the kernel for each call of a public function; what is
assumed of it is `Heap.KernelOk`.
-/

namespace FtMalloc

open HeapLib

/-- The null pointer. -/
@[simp] def null : ℕ := 0

/-- `SIZE_MAX`. -/
@[simp] def sizeMax : ℕ := 2 ^ 64 - 1

/-- `HEADER_SIZE`, the size of `t_block`. -/
@[simp] def headerSize : ℕ := 32

/-- `ZONE_HEADER_SIZE`, the size of `t_zone`. -/
@[simp] def zoneHeaderSize : ℕ := 80

/-- `ALIGNMENT`, `alignof(max_align_t)` on LP64. -/
@[simp] def alignment : ℕ := 16

/-- `MIN_SPLIT_SIZE`. -/
@[simp] def minSplitSize : ℕ := headerSize + alignment

/-- `TINY_DATA_MIN`. -/
@[simp] def tinyDataMin : ℕ := 1

/-- `TINY_DATA_MAX`. -/
@[simp] def tinyDataMax : ℕ := alignment * 10

/-- `SMALL_DATA_MIN`. -/
@[simp] def smallDataMin : ℕ := 161

/-- `SMALL_DATA_MAX`. -/
@[simp] def smallDataMax : ℕ := tinyDataMax * 19

/-- `enum e_type`. -/
inductive EType
  | tiny
  | small
  | large
  | empty
  | block
deriving DecidableEq, Repr

/-- The `u_int` that represents a type. -/
def EType.code : EType → ℕ
  | .tiny => 0
  | .small => 1
  | .large => 2
  | .empty => 3
  | .block => 4

/-- Distinct types have distinct representations. -/
theorem EType.code_injective : Function.Injective EType.code := by
  intro s t h
  cases s <;> cases t <;> first | rfl | exact absurd h (by decide)

/-- The constants the process obtains from the system: `PAGESIZE` and `MAX_ALLOC_SIZE`. The limit is
kept in a static variable of a static function, hence once in `malloc.c` and once in `realloc.c`. -/
structure Platform where
  pagesize : ℕ
  maxAllocSize : ℕ
  reallocMaxAllocSize : ℕ
  pagesize_pow : ∃ k, pagesize = 2 ^ k
  pagesize_ge : 4096 ≤ pagesize
  pagesize_lt : pagesize < 2 ^ 64
  maxAllocSize_lt : maxAllocSize < 2 ^ 64
  reallocMaxAllocSize_lt : reallocMaxAllocSize < 2 ^ 64

/-- The page size is a value of type `int`. -/
def Platform.IntPages (P : Platform) : Prop := P.pagesize < 2 ^ 31

/-- `TINY_ZONE_SIZE`. -/
def Platform.tinyZoneSize (P : Platform) : ℕ := P.pagesize * 6 % 2 ^ 64

/-- `SMALL_ZONE_SIZE`. -/
def Platform.smallZoneSize (P : Platform) : ℕ := P.tinyZoneSize * 16 % 2 ^ 64

/-- Length of the whole pages that a mapping of `len` bytes occupies. -/
def Platform.pageUp (P : Platform) (len : ℕ) : ℕ :=
  (len + P.pagesize - 1) / P.pagesize * P.pagesize

/-- A kernel call with its answer. -/
inductive Syscall
  | mmap (len : ℕ) (answer : Option ℕ)
  | munmap (addr : ℕ) (len : ℕ)
deriving DecidableEq, Repr

/-- The state of the process. `calls` lists the kernel calls, the latest first, and `wrapped`
records whether a `size_t` or `u_int` computation has wrapped; the program reads neither. -/
structure Heap where
  mem : Memory
  mapped : ℕ → Bool
  gZones : ℕ
  gMallocLock : Bool
  calls : List Syscall
  wrapped : Bool

/-- A piece of the C program. -/
abbrev M (α : Type) := Program Heap α

/-- All `n` bytes from `a` are mapped. -/
def Heap.Valid (s : Heap) (a n : ℕ) : Prop := ∀ i < n, s.mapped (a + i) = true

instance (s : Heap) (a n : ℕ) : Decidable (s.Valid a n) :=
  inferInstanceAs (Decidable (∀ i < n, s.mapped (a + i) = true))

/-- The state with another memory. -/
def Heap.withMem (s : Heap) (m : Memory) : Heap := { s with mem := m }

/-- Read an `n`-byte object. -/
def load (n : ℕ) (a : ℕ) : M ℕ := fun s =>
  if s.Valid a n then some (readLE s.mem a n, s) else none

/-- Write an `n`-byte object. -/
def store (n : ℕ) (a : ℕ) (v : ℕ) : M Unit := fun s =>
  if s.Valid a n then some ((), s.withMem (writeLE s.mem a n v)) else none

/-- `a + b` in `size_t`. -/
def szAdd (a b : ℕ) : M ℕ := fun s =>
  if a + b < 2 ^ 64 then some (a + b, s) else some ((a + b) % 2 ^ 64, { s with wrapped := true })

/-- `a - b` in `size_t`. -/
def szSub (a b : ℕ) : M ℕ := fun s =>
  if b ≤ a then some (a - b, s) else some (a + 2 ^ 64 - b, { s with wrapped := true })

/-- `a + b` in `u_int`. -/
def uAdd (a b : ℕ) : M ℕ := fun s =>
  if a + b < 2 ^ 32 then some (a + b, s) else some ((a + b) % 2 ^ 32, { s with wrapped := true })

/-- `a - b` in `u_int`. -/
def uSub (a b : ℕ) : M ℕ := fun s =>
  if b ≤ a then some (a - b, s) else some (a + 2 ^ 32 - b, { s with wrapped := true })

/-- Number of iterations no terminating loop of the program reaches: a list has fewer distinct
nodes and a byte count is smaller. -/
def loopBound : ℕ := 2 ^ 64

/-- A loop of the program; `inl` goes round again and `inr` leaves. -/
def forever {α β : Type} (body : β → M (β ⊕ α)) (b : β) : M α := iterate body loopBound b

/-- Read the global `g_zones`. -/
def getGZones : M ℕ := fun s => some (s.gZones, s)

/-- Assign the global `g_zones`. -/
def setGZones (v : ℕ) : M Unit := fun s => some ((), { s with gZones := v })

/-- `pthread_mutex_lock(&g_malloc_lock)` by the only running thread: it never returns when the
lock is already held. -/
def lockMutex : M Unit := fun s =>
  if s.gMallocLock then none else some ((), { s with gMallocLock := true })

/-- `pthread_mutex_unlock(&g_malloc_lock)`, undefined when the lock is not held. -/
def unlockMutex : M Unit := fun s =>
  if s.gMallocLock then some ((), { s with gMallocLock := false }) else none

/-- `MAP_FAILED`. -/
@[simp] def mapFailed : ℕ := 2 ^ 64 - 1

/-- The state after the kernel has mapped zero-filled pages at `a`. -/
def Heap.map (s : Heap) (P : Platform) (a len : ℕ) : Heap :=
  { s with
    mem := fun x => if a ≤ x ∧ x < a + P.pageUp len then 0 else s.mem x
    mapped := fun x => decide (a ≤ x ∧ x < a + P.pageUp len) || s.mapped x
    calls := .mmap len (some a) :: s.calls }

/-- The state after the kernel has unmapped every page that meets the range. -/
def Heap.unmap (s : Heap) (P : Platform) (a len : ℕ) : Heap :=
  { s with
    mapped := fun x => !decide (a ≤ x ∧ x < a + P.pageUp len) && s.mapped x
    calls := .munmap a len :: s.calls }

/-- `mmap(NULL, len, PROT_READ | PROT_WRITE, MAP_PRIVATE | MAP_ANONYMOUS, -1, 0)`. -/
def mmap (P : Platform) (kernel : ℕ → Option ℕ) (len : ℕ) : M ℕ := fun s =>
  match kernel len with
  | none => some (mapFailed, { s with calls := .mmap len none :: s.calls })
  | some a => some (a, s.map P a len)

/-- `munmap(a, len)`. -/
def munmap (P : Platform) (a len : ℕ) : M Unit := fun s => some ((), s.unmap P a len)

/-- What is assumed of the kernel's answers: a mapping is not empty, starts on a page, never at
address zero, does not wrap, and covers only pages that were not mapped. -/
def Heap.KernelOk (P : Platform) (s : Heap) (kernel : ℕ → Option ℕ) : Prop :=
  ∀ len a, kernel len = some a → 0 < len ∧ P.pagesize ∣ a ∧ 0 < a ∧ a + len < 2 ^ 64 ∧
    ∀ x, a ≤ x → x < a + P.pageUp len → s.mapped x = false

/-! ## Fields of the two headers -/

namespace Block

def getDataSize (b : ℕ) : M ℕ := load 8 b
def setDataSize (b : ℕ) (v : ℕ) : M Unit := store 8 b v
def getEnd (b : ℕ) : M ℕ := load 8 (b + 8)
def setEnd (b : ℕ) (v : ℕ) : M Unit := store 8 (b + 8) v
def getPrev (b : ℕ) : M ℕ := load 8 (b + 16)
def setPrev (b : ℕ) (v : ℕ) : M Unit := store 8 (b + 16) v
def getNext (b : ℕ) : M ℕ := load 8 (b + 24)
def setNext (b : ℕ) (v : ℕ) : M Unit := store 8 (b + 24) v

end Block

namespace Zone

def getStart (z : ℕ) : M ℕ := load 8 z
def setStart (z : ℕ) (v : ℕ) : M Unit := store 8 z v
def getEnd (z : ℕ) : M ℕ := load 8 (z + 8)
def setEnd (z : ℕ) (v : ℕ) : M Unit := store 8 (z + 8) v
def getType (z : ℕ) : M ℕ := load 4 (z + 16)
def setType (z : ℕ) (v : ℕ) : M Unit := store 4 (z + 16) v
def getBlocksNum (z : ℕ) : M ℕ := load 4 (z + 20)
def setBlocksNum (z : ℕ) (v : ℕ) : M Unit := store 4 (z + 20) v
def getTotalSpace (z : ℕ) : M ℕ := load 8 (z + 24)
def setTotalSpace (z : ℕ) (v : ℕ) : M Unit := store 8 (z + 24) v
def getRemainingSpace (z : ℕ) : M ℕ := load 8 (z + 32)
def setRemainingSpace (z : ℕ) (v : ℕ) : M Unit := store 8 (z + 32) v
def getMaxFreeSpaceSize (z : ℕ) : M ℕ := load 8 (z + 40)
def setMaxFreeSpaceSize (z : ℕ) (v : ℕ) : M Unit := store 8 (z + 40) v
def getBlocks (z : ℕ) : M ℕ := load 8 (z + 48)
def setBlocks (z : ℕ) (v : ℕ) : M Unit := store 8 (z + 48) v
def getEmptySpaces (z : ℕ) : M ℕ := load 8 (z + 56)
def setEmptySpaces (z : ℕ) (v : ℕ) : M Unit := store 8 (z + 56) v
def getPrev (z : ℕ) : M ℕ := load 8 (z + 64)
def setPrev (z : ℕ) (v : ℕ) : M Unit := store 8 (z + 64) v
def getNext (z : ℕ) : M ℕ := load 8 (z + 72)
def setNext (z : ℕ) (v : ℕ) : M Unit := store 8 (z + 72) v

end Zone

/-! ## Execution rules -/

section Rules

variable {s : Heap} {m : Memory} {a b n v : ℕ}

@[simp] theorem withMem_mem : (s.withMem m).mem = m := rfl

@[simp] theorem withMem_withMem {m' : Memory} : (s.withMem m).withMem m' = s.withMem m' := rfl

@[simp] theorem withMem_self : s.withMem s.mem = s := rfl

@[simp] theorem withMem_gZones : (s.withMem m).gZones = s.gZones := rfl

@[simp] theorem valid_withMem : (s.withMem m).Valid a n ↔ s.Valid a n := Iff.rfl

/-- Part of a valid range is valid. -/
theorem Heap.Valid.sub {a' n' : ℕ} (h : s.Valid a n) (hlo : a ≤ a') (hhi : a' + n' ≤ a + n) :
    s.Valid a' n' := by
  intro i hi
  have := h (a' + i - a) (by omega)
  rwa [show a + (a' + i - a) = a' + i by omega] at this

/-- `s'` is `s` up to memory bytes of `S`. -/
def Heap.Writes (S : Set ℕ) (s s' : Heap) : Prop := ∃ m, s' = s.withMem m ∧ AgreeOff S s.mem m

namespace Heap.Writes

variable {S T : Set ℕ} {s' s'' : Heap}

/-- Nothing has to be written. -/
theorem refl (S : Set ℕ) (s : Heap) : Writes S s s := ⟨s.mem, rfl, AgreeOff.refl _ _⟩

/-- Successive writes. -/
theorem trans (h : Writes S s s') (h' : Writes S s' s'') : Writes S s s'' := by
  obtain ⟨m, rfl, hm⟩ := h
  obtain ⟨m', rfl, hm'⟩ := h'
  exact ⟨m', rfl, hm.trans hm'⟩

/-- A larger footprint is a weaker statement. -/
theorem mono (h : Writes S s s') (hST : S ⊆ T) : Writes T s s' := by
  obtain ⟨m, rfl, hm⟩ := h
  exact ⟨m, rfl, hm.mono hST⟩

/-- The bytes off the footprint are unchanged. -/
theorem agreeOff (h : Writes S s s') : AgreeOff S s.mem s'.mem := by
  obtain ⟨m, rfl, hm⟩ := h
  exact hm

/-- Writes change no mapping. -/
theorem valid (h : Writes S s s') : s'.Valid a n ↔ s.Valid a n := by
  obtain ⟨m, rfl, -⟩ := h
  exact Iff.rfl

/-- One more write inside the footprint. -/
theorem write (h : Writes S s s') (ha : ∀ x, a ≤ x → x < a + n → x ∈ S) :
    Writes S s (s'.withMem (writeLE s'.mem a n v)) := by
  obtain ⟨m, rfl, hm⟩ := h
  exact ⟨_, rfl, hm.write ha⟩

end Heap.Writes

/-- `s'` is `s` up to memory bytes of `S` and, unless `p` holds, up to the record of wraps. -/
structure Heap.Counts (p : Prop) (S : Set ℕ) (s s' : Heap) : Prop where
  eq : s' = { s with mem := s'.mem, wrapped := s'.wrapped }
  agreeOff : AgreeOff S s.mem s'.mem
  wrapped : p → s'.wrapped = s.wrapped

/-- A write counts nothing. -/
theorem Heap.Writes.counts {p : Prop} {S : Set ℕ} {s' : Heap} (h : Writes S s s') :
    Counts p S s s' := by
  obtain ⟨m, rfl, hm⟩ := h
  exact ⟨rfl, hm, fun _ => rfl⟩

namespace Heap.Counts

variable {p q : Prop} {S T : Set ℕ} {s' s'' : Heap}

/-- Successive steps. -/
theorem trans (h : Counts p S s s') (h' : Counts p S s' s'') : Counts p S s s'' where
  eq := by rw [h'.eq, h.eq]
  agreeOff := h.agreeOff.trans h'.agreeOff
  wrapped := fun hp => (h'.wrapped hp).trans (h.wrapped hp)

/-- A larger footprint is a weaker statement. -/
theorem mono (h : Counts p S s s') (hST : S ⊆ T) : Counts p T s s' :=
  ⟨h.eq, h.agreeOff.mono hST, h.wrapped⟩

/-- A stronger condition is a weaker statement. -/
theorem imp (h : Counts p S s s') (hqp : q → p) : Counts q S s s' :=
  ⟨h.eq, h.agreeOff, fun hq => h.wrapped (hqp hq)⟩

/-- Counting changes no mapping. -/
theorem valid (h : Counts p S s s') : s'.Valid a n ↔ s.Valid a n := by
  rw [h.eq]
  exact Iff.rfl

end Heap.Counts

theorem wp_load {Q : ℕ → Heap → Prop} (h : s.Valid a n) :
    wp (load n a) Q s ↔ Q (readLE s.mem a n) s :=
  wp_of_run (if_pos h)

theorem wp_store {Q : Unit → Heap → Prop} (h : s.Valid a n) :
    wp (store n a v) Q s ↔ Q () (s.withMem (writeLE s.mem a n v)) :=
  wp_of_run (if_pos h)

/-- Reading a word. -/
theorem wp_loadWord {Q : ℕ → Heap → Prop} (h : s.Valid a 8) :
    wp (load 8 a) Q s ↔ Q (word s.mem a) s := wp_load h

/-- Writing a word. -/
theorem wp_storeWord {Q : Unit → Heap → Prop} (h : s.Valid a 8) :
    wp (store 8 a v) Q s ↔ Q () (s.withMem (setWord s.mem a v)) := wp_store h

theorem wp_szAdd {Q : ℕ → Heap → Prop} (h : a + b < 2 ^ 64) :
    wp (szAdd a b) Q s ↔ Q (a + b) s :=
  wp_of_run (if_pos h)

theorem wp_szSub {Q : ℕ → Heap → Prop} (h : b ≤ a) :
    wp (szSub a b) Q s ↔ Q (a - b) s :=
  wp_of_run (if_pos h)

/-- Adding in `u_int`, with a wrap or without. -/
theorem wp_uAdd {Q : ℕ → Heap → Prop} (hQ : ∀ s', s.Counts (a + b < 2 ^ 32) ∅ s' → s'.mem = s.mem →
    Q ((a + b) % 2 ^ 32) s') : wp (uAdd a b) Q s := by
  by_cases h : a + b < 2 ^ 32
  · have hrun : uAdd a b s = some (a + b, s) := if_pos h
    rw [wp_of_run hrun, ← Nat.mod_eq_of_lt h]
    exact hQ s (Heap.Writes.refl _ s).counts rfl
  · have hrun : uAdd a b s = some ((a + b) % 2 ^ 32, { s with wrapped := true }) := if_neg h
    rw [wp_of_run hrun]
    exact hQ _ ⟨rfl, AgreeOff.refl _ _, fun hlt => absurd hlt h⟩ rfl

/-- Subtracting in `u_int`, with a wrap or without. -/
theorem wp_uSub {Q : ℕ → Heap → Prop} (ha : a < 2 ^ 32) (hb : 0 < b)
    (hQ : ∀ s', s.Counts (b ≤ a) ∅ s' → s'.mem = s.mem → Q ((a + 2 ^ 32 - b) % 2 ^ 32) s') :
    wp (uSub a b) Q s := by
  by_cases h : b ≤ a
  · have hrun : uSub a b s = some (a - b, s) := if_pos h
    have hmod : (a + 2 ^ 32 - b) % 2 ^ 32 = a - b := by omega
    rw [wp_of_run hrun, ← hmod]
    exact hQ s (Heap.Writes.refl _ s).counts rfl
  · have hrun : uSub a b s = some (a + 2 ^ 32 - b, { s with wrapped := true }) := if_neg h
    have hmod : (a + 2 ^ 32 - b) % 2 ^ 32 = a + 2 ^ 32 - b := Nat.mod_eq_of_lt (by omega)
    rw [wp_of_run hrun, ← hmod]
    exact hQ _ ⟨rfl, AgreeOff.refl _ _, fun hle => absurd hle h⟩ rfl

@[simp] theorem wp_getGZones {Q : ℕ → Heap → Prop} : wp getGZones Q s ↔ Q s.gZones s :=
  wp_of_run rfl

@[simp] theorem wp_setGZones {Q : Unit → Heap → Prop} :
    wp (setGZones v) Q s ↔ Q () { s with gZones := v } :=
  wp_of_run rfl

theorem wp_lockMutex {Q : Unit → Heap → Prop} (h : s.gMallocLock = false) :
    wp lockMutex Q s ↔ Q () { s with gMallocLock := true } :=
  wp_of_run (if_neg (by simp [h]))

theorem wp_unlockMutex {Q : Unit → Heap → Prop} (h : s.gMallocLock = true) :
    wp unlockMutex Q s ↔ Q () { s with gMallocLock := false } :=
  wp_of_run (if_pos h)

theorem wp_mmap_none {P : Platform} {kernel : ℕ → Option ℕ} {Q : ℕ → Heap → Prop}
    (h : kernel n = none) :
    wp (mmap P kernel n) Q s ↔ Q mapFailed { s with calls := .mmap n none :: s.calls } :=
  wp_of_run (by rw [mmap, h])

theorem wp_mmap_some {P : Platform} {kernel : ℕ → Option ℕ} {Q : ℕ → Heap → Prop}
    (h : kernel n = some a) : wp (mmap P kernel n) Q s ↔ Q a (s.map P a n) :=
  wp_of_run (by rw [mmap, h])

@[simp] theorem wp_munmap {P : Platform} {Q : Unit → Heap → Prop} :
    wp (munmap P a n) Q s ↔ Q () (s.unmap P a n) :=
  wp_of_run rfl

/-- Loop rule for the loops of the program. -/
theorem wp_forever {α β : Type} {body : β → M (β ⊕ α)} {Q : α → Heap → Prop}
    (inv : ℕ → β → Heap → Prop)
    (hstep : ∀ n b s, inv n b s →
      wp (body b) (fun r s' => r.elim (fun b' => ∃ k < n, inv k b' s') (fun a => Q a s')) s)
    {n : ℕ} {b : β} (hn : n < 2 ^ 64) (h : inv n b s) : wp (forever body b) Q s :=
  wp_iterate inv hstep hn h

end Rules

end FtMalloc
