import FtMalloc.Lib.Runs
import FtMalloc.Observe
import FtMalloc.Refine.Calls

/-!
# Runs of the process

A run starts with no zone and makes calls with any arguments, between which the client stores into
live payloads. Every call of a run returns, and every state that a run reaches holds an arena: the
zones are represented, the lock is free, and the ranges obtained from the kernel and not yet given
back are exactly the zones.
-/

namespace FtMalloc

open HeapLib TiledZone

/-- A call of a public function. -/
inductive Call
  | malloc (size : ℕ)
  | free (ptr : ℕ)
  | realloc (ptr size : ℕ)
deriving DecidableEq, Repr

namespace Call

/-- The pointer argument of a call. -/
def ptr : Call → ℕ
  | malloc _ => null
  | free ptr => ptr
  | realloc ptr _ => ptr

/-- The size argument of a call. -/
def size : Call → ℕ
  | malloc size => size
  | free _ => 0
  | realloc _ size => size

/-- The arguments are values of their types. -/
def InRange : Call → Prop
  | malloc size => size < 2 ^ 64
  | free ptr => ptr < 2 ^ 64
  | realloc ptr size => ptr < 2 ^ 64 ∧ size < 2 ^ 64

instance : DecidablePred InRange
  | malloc size => inferInstanceAs (Decidable (size < 2 ^ 64))
  | free ptr => inferInstanceAs (Decidable (ptr < 2 ^ 64))
  | realloc ptr size => inferInstanceAs (Decidable (ptr < 2 ^ 64 ∧ size < 2 ^ 64))

/-- The call in the program; `free` returns nothing. -/
def run (P : Platform) (kernel : ℕ → Option ℕ) : Call → M ℕ
  | malloc size => FtMalloc.malloc P kernel size
  | free ptr => do
    FtMalloc.free P ptr
    return null
  | realloc ptr size => FtMalloc.realloc P kernel ptr size

/-- The call on the zones. -/
def outcome (P : Platform) (kernel : ℕ → Option ℕ) (c : Call) (zs : List TiledZone) : Outcome :=
  match c with
  | malloc size => Zones.malloc P kernel size zs
  | free ptr => Zones.free ptr zs
  | realloc ptr size => Zones.realloc P kernel ptr size zs

end Call

/-- What happens to the process: a call that returns, or a store of the client. -/
inductive Event
  | call (c : Call) (result : ℕ)
  | store (x : ℕ) (v : UInt8)

/-- One step of the process; the client stores only into live payloads. -/
inductive Step (P : Platform) : Heap → Event → Heap → Prop
  | call {s s' : Heap} {kernel : ℕ → Option ℕ} {r : ℕ} (c : Call) (hc : c.InRange)
      (hk : s.KernelOk P kernel) (hrun : c.run P kernel s = some (r, s')) :
      Step P s (.call c r) s'
  | store {s : Heap} {b n x : ℕ} (v : UInt8) (hlive : Live s b n)
      (hx : b + headerSize ≤ x ∧ x < b + headerSize + n) :
      Step P s (.store x v) (s.withMem fun y => if y = x then v else s.mem y)

/-- The state before the first call. -/
structure Start (s : Heap) : Prop where
  zones : s.gZones = null
  lock : s.gMallocLock = false
  calls : s.calls = []
  wrapped : s.wrapped = false

/-- The states that runs reach. -/
def Reachable (P : Platform) (s : Heap) : Prop := ∃ s₀ tr, Start s₀ ∧ Run (Step P) s₀ tr s

/-- The state holds the arena between two calls. -/
structure Holds {P : Platform} (s : Heap) (A : Arena P) : Prop where
  rep : s.Rep P A.zones
  unlocked : s.gMallocLock = false
  ledger : replayAll s.calls [] = Zones.ranges A.zones
  unwrapped : P.IntPages → s.wrapped = false

variable {P : Platform} {s s' : Heap} {A A' : Arena P} {kernel : ℕ → Option ℕ} {z : TiledZone}
  {b n r size ptr : ℕ} {c : Call} {e : Event}

/-! ## Calls -/

/-- The call returns null and adds no block, or the payload of the block that it adds, which serves
the size that was asked for. -/
def Call.Grants (c : Call) (A A' : Arena P) (r : ℕ) (new : Set Tile) : Prop :=
  r = null ∧ new = ∅ ∨ ∃ t, new = {t} ∧ r = t.addr + headerSize ∧
    Snug (roundUp c.size) t.size ∧ A.Admitted A' (roundUp c.size) t

/-- A call that grants a block returns its payload. -/
theorem Call.Grants.come {new : Set Tile} (h : c.Grants A A' r new) :
    ∀ t ∈ new, r = t.addr + headerSize := by
  rcases h with ⟨-, rfl⟩ | ⟨t, rfl, hr, -⟩
  · exact fun t ht => absurd ht (Set.notMem_empty t)
  · rintro u rfl
    exact hr

/-- A request that is granted is a turn that exchanges at most one block. -/
theorem Arena.Granted.exists_turn {o : Outcome} {old : Set Tile}
    (h : A.Granted old (roundUp c.size) o) : ∃ A' old' new, o.zones = A'.zones ∧
      A.Turn A' o.calls old' new ∧ old' ⊆ old ∧ c.Grants A A' o.result new := by
  cases h with
  | refused h => exact ⟨A, ∅, ∅, rfl, h, Set.empty_subset _, .inl ⟨rfl, rfl⟩⟩
  | @block A' t calls hsize hzone h =>
    exact ⟨A', old, {t}, rfl, h, fun _ hx => hx, .inr ⟨t, rfl, rfl, hsize, hzone⟩⟩

/-- Every outcome of a call is a turn of the arena that gives up at most the block of its pointer
argument and adds at most the block that it returns. -/
theorem Arena.outcome_turn (A : Arena P) (hk : Zones.KernelFresh P A.zones kernel) (c : Call) :
    ∃ A' old new, (c.outcome P kernel A.zones).zones = A'.zones ∧
      A.Turn A' (c.outcome P kernel A.zones).calls old new ∧
      (∀ t ∈ old, t ∈ A.live ∧ c.ptr = t.addr + headerSize) ∧
      c.Grants A A' (c.outcome P kernel A.zones).result new := by
  have hfree : ∀ ptr, ∃ A' old new, (Zones.free ptr A.zones).zones = A'.zones ∧
      A.Turn A' (Zones.free ptr A.zones).calls old new ∧
      (∀ t ∈ old, t ∈ A.live ∧ ptr = t.addr + headerSize) ∧
      ∀ c : Call, c.Grants A A' (Zones.free ptr A.zones).result new := by
    intro ptr
    by_cases hlive : ∃ t ∈ A.live, ptr = t.addr + headerSize
    · obtain ⟨t, ht, rfl⟩ := hlive
      obtain ⟨A', calls, heq, hturn⟩ := A.free_turn ht
      rw [heq]
      refine ⟨A', {t}, ∅, rfl, hturn, ?_, fun c => .inl ⟨rfl, rfl⟩⟩
      rintro u rfl
      exact ⟨ht, rfl⟩
    · have hnot : ∀ t ∈ A.live, ptr ≠ t.addr + headerSize := fun t ht heq => hlive ⟨t, ht, heq⟩
      rw [A.free_eq_of_not_live hnot]
      exact ⟨A, ∅, ∅, rfl, A.turn_idle fun c hc => absurd hc List.not_mem_nil,
        fun t ht => absurd ht (Set.notMem_empty t), fun c => .inl ⟨rfl, rfl⟩⟩
  cases c with
  | malloc size =>
    obtain ⟨A', old, new, hz, hturn, hold, hnew⟩ :=
      (A.mallocWithin_granted hk P.maxAllocSize size).exists_turn (c := .malloc size)
    exact ⟨A', old, new, hz, hturn, fun t ht => absurd (hold ht) (Set.notMem_empty t), hnew⟩
  | free ptr =>
    obtain ⟨A', old, new, hz, hturn, hold, hnew⟩ := hfree ptr
    exact ⟨A', old, new, hz, hturn, hold, hnew _⟩
  | realloc ptr size =>
    rw [Call.outcome, Call.ptr]
    by_cases hptr : ptr = null
    · have heq : Zones.realloc P kernel ptr size A.zones = Zones.malloc P kernel size A.zones :=
        if_pos hptr
      rw [heq]
      obtain ⟨A', old, new, hz, hturn, hold, hnew⟩ :=
        (A.mallocWithin_granted hk P.maxAllocSize size).exists_turn (c := .realloc ptr size)
      exact ⟨A', old, new, hz, hturn, fun t ht => absurd (hold ht) (Set.notMem_empty t), hnew⟩
    · by_cases hsize : size = 0
      · have heq : Zones.realloc P kernel ptr size A.zones = Zones.free ptr A.zones :=
          (if_neg hptr).trans (if_pos hsize)
        rw [heq]
        obtain ⟨A', old, new, hz, hturn, hold, hnew⟩ := hfree ptr
        exact ⟨A', old, new, hz, hturn, hold, hnew _⟩
      · by_cases hlive : ∃ t ∈ A.live, ptr = t.addr + headerSize
        · obtain ⟨t, ht, rfl⟩ := hlive
          obtain ⟨A', old, new, hz, hturn, hold, hnew⟩ :=
            (A.realloc_granted hk ht (Nat.pos_of_ne_zero hsize)).exists_turn
              (c := .realloc (t.addr + headerSize) size)
          refine ⟨A', old, new, hz, hturn, fun u hu => ?_, hnew⟩
          obtain rfl : u = t := hold hu
          exact ⟨ht, rfl⟩
        · rw [A.realloc_eq_of_not_live hptr (by omega) fun t ht heq => hlive ⟨t, ht, heq⟩]
          exact ⟨A, ∅, ∅, rfl, A.turn_idle fun c hc => absurd hc List.not_mem_nil,
            fun t ht => absurd ht (Set.notMem_empty t), .inl ⟨rfl, rfl⟩⟩

/-- Every call refines its outcome on the zones. -/
theorem Heap.Rep.wp_call (A : Arena P) (h : s.Rep P A.zones) (hlock : s.gMallocLock = false)
    (hk : s.KernelOk P kernel) (c : Call) :
    wp (c.run P kernel) (fun r s' => r = (c.outcome P kernel A.zones).result ∧
      s.Became P s' A.zones (c.outcome P kernel A.zones).zones
        (c.outcome P kernel A.zones).calls) s := by
  cases c with
  | malloc size => exact wp_mono (h.wp_malloc A hlock hk) fun r s' hr => ⟨hr.result, hr.became⟩
  | free ptr =>
    rw [Call.run, wp_bind]
    refine wp_mono (h.wp_free A hlock) fun _ s' hr => ?_
    rw [wp_pure]
    exact ⟨Zones.free_result.symm, hr.1⟩
  | realloc ptr size => exact wp_mono (h.wp_realloc A hlock hk) fun r s' hr => ⟨hr.1, hr.2.1⟩

/-- The call `c` returns `r` and leads from the arena `A` in `s` to the arena `A'` in `s'`, by the
kernel calls `calls`. It puts the blocks `new` in the place of the blocks `old`: at most the block
it returns in the place of the block of its argument. -/
structure Effect (c : Call) (r : ℕ) (s s' : Heap) (A A' : Arena P) (calls : List Syscall)
    (old new : Set Tile) : Prop where
  turn : A.Turn A' calls old new
  gone : ∀ t ∈ old, t ∈ A.live ∧ c.ptr = t.addr + headerSize
  come : ∀ t ∈ new, r = t.addr + headerSize
  became : s.Became P s' A.zones A'.zones calls
  holds : Holds s' A'

/-- A call leads from a state that holds an arena to one that holds the arena of its turn. -/
theorem Holds.turn {calls : List Syscall} {old new : Set Tile} (h : Holds s A)
    (hturn : A.Turn A' calls old new) (hbecame : s.Became P s' A.zones A'.zones calls) :
    Holds s' A' where
  rep := hbecame.rep
  unlocked := hbecame.lock.trans h.unlocked
  ledger := by
    rw [hbecame.calls, replayAll_append, h.ledger, hturn.ledger]
  unwrapped := fun hpage => (hbecame.wrapped hpage).trans (h.unwrapped hpage)

/-- What a call does to a state that holds an arena, and what it grants. -/
theorem Holds.wp_grant (h : Holds s A) (hk : s.KernelOk P kernel) (c : Call) :
    wp (c.run P kernel) (fun r s' => ∃ (A' : Arena P) (calls : List Syscall) (old new : Set Tile),
      Effect c r s s' A A' calls old new ∧ c.Grants A A' r new) s := by
  obtain ⟨A', old, new, hzones, hturn, hold, hnew⟩ :=
    A.outcome_turn (h.rep.kernelFresh A.spread hk) c
  refine wp_mono (h.rep.wp_call A h.unlocked hk c) ?_
  rintro r s' ⟨rfl, hbecame⟩
  rw [hzones] at hbecame
  exact ⟨A', _, old, new, ⟨hturn, hold, hnew.come, hbecame, h.turn hturn hbecame⟩, hnew⟩

/-- A call leads to a state that holds the zones of its outcome. -/
theorem Holds.wp_outcome (h : Holds s A) (hk : s.KernelOk P kernel) (c : Call) :
    wp (c.run P kernel) (fun r s' => r = (c.outcome P kernel A.zones).result ∧
      s.Became P s' A.zones (c.outcome P kernel A.zones).zones
        (c.outcome P kernel A.zones).calls ∧
      ∃ A' : Arena P, Holds s' A' ∧ A'.zones = (c.outcome P kernel A.zones).zones) s := by
  obtain ⟨A', old, new, hzones, hturn, -, -⟩ := A.outcome_turn (h.rep.kernelFresh A.spread hk) c
  refine wp_mono (h.rep.wp_call A h.unlocked hk c) ?_
  rintro r s' ⟨hres, hbecame⟩
  refine ⟨hres, hbecame, A', ?_, hzones.symm⟩
  rw [hzones] at hbecame
  exact h.turn hturn hbecame

/-- What a call does to a state that holds an arena. -/
theorem Holds.wp_call (h : Holds s A) (hk : s.KernelOk P kernel) (c : Call) :
    wp (c.run P kernel) (fun r s' => ∃ (A' : Arena P) (calls : List Syscall) (old new : Set Tile),
      Effect c r s s' A A' calls old new) s := by
  refine wp_mono (h.wp_grant hk c) ?_
  rintro r s' ⟨A', calls, old, new, heffect, -⟩
  exact ⟨A', calls, old, new, heffect⟩

/-! ## Runs -/

/-- The first state of a run holds the empty arena. -/
theorem Start.holds (h : Start s) : Holds s (Arena.empty P) where
  rep := ⟨h.zones, trivial, fun _ hz => absurd hz List.not_mem_nil,
    fun _ hz => absurd hz List.not_mem_nil⟩
  unlocked := h.lock
  ledger := by
    rw [h.calls]
    rfl
  unwrapped := fun _ => h.wrapped

/-- A call that returns has the effect proved of it. -/
theorem Holds.exists_effect (h : Holds s A) (hk : s.KernelOk P kernel)
    (hrun : c.run P kernel s = some (r, s')) : ∃ (A' : Arena P) (calls : List Syscall)
      (old new : Set Tile), Effect c r s s' A A' calls old new :=
  (wp_of_run hrun).mp (h.wp_call hk c)

/-- A call that returns grants what is proved of it. -/
theorem Holds.exists_grant (h : Holds s A) (hk : s.KernelOk P kernel)
    (hrun : c.run P kernel s = some (r, s')) : ∃ (A' : Arena P) (calls : List Syscall)
      (old new : Set Tile), Effect c r s s' A A' calls old new ∧ c.Grants A A' r new :=
  (wp_of_run hrun).mp (h.wp_grant hk c)

/-- A store of the client keeps the arena. -/
theorem Holds.store {x : ℕ} (h : Holds s A) (v : UInt8) (hlive : Live s b n)
    (hx : b + headerSize ≤ x ∧ x < b + headerSize + n) :
    Holds (s.withMem fun y => if y = x then v else s.mem y) A := by
  have ht := (h.rep.live_iff A.spread).mp hlive
  have hS : AgreeOff {y | y = x} s.mem (fun y => if y = x then v else s.mem y) :=
    fun y hy => if_neg hy
  have hrep := h.rep.write_payload A.spread ht hS fun y hy => by
    obtain rfl : y = x := hy
    exact hx
  exact ⟨hrep, h.unlocked, h.ledger, h.unwrapped⟩

/-- One step leads to a state that holds an arena. -/
theorem Holds.step (h : Holds s A) (hstep : Step P s e s') : ∃ A' : Arena P, Holds s' A' := by
  cases hstep with
  | call c _ hk hrun =>
    obtain ⟨A', _, _, _, heffect⟩ := h.exists_effect hk hrun
    exact ⟨A', heffect.holds⟩
  | store v hlive hx => exact ⟨A, h.store v hlive hx⟩

/-- Every reachable state holds an arena. -/
theorem Reachable.exists_holds (h : Reachable P s) : ∃ A : Arena P, Holds s A := by
  obtain ⟨s₀, tr, hstart, hrun⟩ := h
  refine hrun.preserves (I := fun s => ∃ A : Arena P, Holds s A) ⟨_, hstart.holds⟩ ?_
  rintro t - ⟨A, hA⟩ hstep
  exact hA.step hstep

/-- A run from a reachable state reaches reachable states. -/
theorem Reachable.run {tr : List (Transition Heap Event)} (h : Reachable P s)
    (hrun : Run (Step P) s tr s') : Reachable P s' := by
  obtain ⟨s₀, tr₀, hstart, hrun₀⟩ := h
  exact ⟨s₀, _, hstart, hrun₀.append hrun⟩

/-! ## Runs of given calls -/

/-- A call maps what the kernel grants. -/
theorem Call.outcome_answer {zs : List TiledZone} {len a : ℕ}
    (h : .mmap len (some a) ∈ (c.outcome P kernel zs).calls) : kernel len = some a := by
  cases c with
  | malloc size => exact Zones.mallocWithin_answer h
  | free ptr => exact absurd h Zones.free_answer
  | realloc ptr size => exact Zones.realloc_answer h

/-- A call can be made in every state that holds an arena. It maps no more than the kernel grants. -/
theorem Holds.exists_call (hA : Holds s A) (hc : c.InRange) (hk : s.KernelOk P kernel) :
    ∃ (r : ℕ) (s' : Heap) (A' : Arena P), Step P s (.call c r) s' ∧ Holds s' A' ∧
      A'.zones = (c.outcome P kernel A.zones).zones ∧
      s.Became P s' A.zones (c.outcome P kernel A.zones).zones
        (c.outcome P kernel A.zones).calls ∧
      ∀ x, s'.mapped x = true →
        s.mapped x = true ∨ ∃ len a, kernel len = some a ∧ a ≤ x ∧ x < a + P.pageUp len := by
  obtain ⟨r, s', hrun, -, hbecame, A', hA', hzones⟩ := hA.wp_outcome hk c
  refine ⟨r, s', A', .call c hc hk hrun, hA', hzones, hbecame, fun x hx => ?_⟩
  rw [hbecame.mapped] at hx
  refine (mapped_of_remapAll hx).imp_right ?_
  rintro ⟨len, a, hmem, hin⟩
  exact ⟨len, a, Call.outcome_answer hmem, hin⟩

/-- A call can be made in every reachable state. It maps no more than the kernel grants. -/
theorem Reachable.exists_call (h : Reachable P s) (hA : Holds s A) (hc : c.InRange)
    (hk : s.KernelOk P kernel) : ∃ (s' : Heap) (A' : Arena P), Reachable P s' ∧ Holds s' A' ∧
      A'.zones = (c.outcome P kernel A.zones).zones ∧ ∀ x, s'.mapped x = true →
        s.mapped x = true ∨ ∃ len a, kernel len = some a ∧ a ≤ x ∧ x < a + P.pageUp len := by
  obtain ⟨r, s', A', hstep, hA', hzones, -, hmapped⟩ := hA.exists_call hc hk
  exact ⟨s', A', h.run (Run.nil.snoc hstep), hA', hzones, hmapped⟩

/-- The zones after some calls for which the kernel maps nothing. -/
def Zones.script (P : Platform) (cs : List Call) (zs : List TiledZone) : List TiledZone :=
  cs.foldl (fun zs c => (c.outcome P (fun _ => none) zs).zones) zs

/-- Any calls can be made one after the other without new mappings. -/
theorem Reachable.exists_script {cs : List Call} (h : Reachable P s) (hA : Holds s A)
    (hcs : ∀ c ∈ cs, c.InRange) : ∃ (s' : Heap) (A' : Arena P), Reachable P s' ∧ Holds s' A' ∧
      A'.zones = Zones.script P cs A.zones ∧ ∀ x, s'.mapped x = true → s.mapped x = true := by
  induction cs generalizing s A with
  | nil => exact ⟨s, A, h, hA, rfl, fun _ hx => hx⟩
  | cons c cs ih =>
    have hnone : s.KernelOk P fun _ => none := fun _ _ heq => absurd heq (by simp)
    obtain ⟨s₁, A₁, h₁, hA₁, hz₁, hm₁⟩ := h.exists_call hA (hcs c List.mem_cons_self) hnone
    obtain ⟨s', A', h', hA', hz', hm'⟩ := ih h₁ hA₁ fun c hc => hcs c (List.mem_cons_of_mem _ hc)
    rw [hz₁] at hz'
    refine ⟨s', A', h', hA', hz', fun x hx => (hm₁ x (hm' x hx)).resolve_right ?_⟩
    rintro ⟨len, a, hans, -⟩
    cases hans

/-- A process that has mapped nothing. -/
def Heap.blank : Heap := ⟨fun _ => 0, fun _ => false, null, false, [], false⟩

/-- Pages of 4096 bytes and no limit on the sizes. -/
def Platform.unlimited : Platform :=
  ⟨4096, sizeMax, sizeMax, ⟨12, rfl⟩, by decide, by decide, by decide, by decide⟩

/-- A kernel that maps the pages from `a` on, unless too many are asked for. -/
def kernelAt (a len : ℕ) : Option ℕ := if 0 < len ∧ len < 2 ^ 32 then some a else none

/-- Such answers are fresh while none of these pages is mapped. -/
theorem kernelOk_kernelAt {a : ℕ} (hpage : P.pagesize ∣ a) (hpos : 0 < a) (hbound : a < 2 ^ 63)
    (hfree : ∀ x, a ≤ x → s.mapped x = false) : s.KernelOk P (kernelAt a) := by
  intro len b h
  rw [kernelAt] at h
  split at h
  · next hlen =>
    cases h
    exact ⟨hlen.1, hpage, hpos, by omega, fun x hx _ => hfree x hx⟩
  · cases h

/-- What such an answer maps ends less than `2 ^ 32` bytes and a page behind `a`. -/
theorem lt_of_kernelAt {a b len x : ℕ} (h : kernelAt a len = some b) (hx : x < b + P.pageUp len) :
    x < a + 2 ^ 32 + P.pagesize := by
  rw [kernelAt] at h
  split at h
  · next hlen =>
    cases h
    have hpages : P.pageUp len ≤ len + P.pagesize - 1 := Nat.div_mul_le_self _ _
    omega
  · cases h

/-- A run from nothing: a first call that may map a zone at `a`, then calls without mappings.
Nothing is mapped far behind `a`. -/
theorem exists_reachable_far (a : ℕ) (c : Call) (cs : List Call) (hpage : P.pagesize ∣ a)
    (hpos : 0 < a) (hbound : a < 2 ^ 63) (hc : c.InRange) (hcs : ∀ c ∈ cs, c.InRange) :
    ∃ (s : Heap) (A : Arena P), Reachable P s ∧ Holds s A ∧
      A.zones = Zones.script P cs (c.outcome P (kernelAt a) []).zones ∧
      ∀ x, a + 2 ^ 32 + P.pagesize ≤ x → s.mapped x = false := by
  have hstart : Start Heap.blank := ⟨rfl, rfl, rfl, rfl⟩
  have hreach : Reachable P Heap.blank := ⟨_, [], hstart, .nil⟩
  obtain ⟨s₁, A₁, h₁, hA₁, hz₁, hm₁⟩ := hreach.exists_call hstart.holds hc
    (kernelOk_kernelAt hpage hpos hbound fun _ _ => rfl)
  obtain ⟨s', A', h', hA', hz', hm'⟩ := h₁.exists_script hA₁ hcs
  rw [hz₁] at hz'
  refine ⟨s', A', h', hA', hz', fun x hx => Bool.eq_false_iff.mpr fun hmapped => ?_⟩
  obtain hblank | ⟨len, b, hans, -, hlt⟩ := hm₁ x (hm' x hmapped)
  · cases hblank
  · exact absurd (lt_of_kernelAt hans hlt) (Nat.not_lt.mpr hx)

/-- A run from nothing: a first call that may map a zone at `a`, then calls without mappings. -/
theorem exists_reachable (a : ℕ) (c : Call) (cs : List Call) (hpage : P.pagesize ∣ a) (hpos : 0 < a)
    (hbound : a < 2 ^ 63) (hc : c.InRange) (hcs : ∀ c ∈ cs, c.InRange) :
    ∃ (s : Heap) (A : Arena P), Reachable P s ∧ Holds s A ∧
      A.zones = Zones.script P cs (c.outcome P (kernelAt a) []).zones := by
  obtain ⟨s, A, h, hA, hzones, -⟩ := exists_reachable_far a c cs hpage hpos hbound hc hcs
  exact ⟨s, A, h, hA, hzones⟩

end FtMalloc
