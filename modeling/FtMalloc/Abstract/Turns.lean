import FtMalloc.Abstract.Requests

/-!
# What a call does to the arena

A `Turn` leads from one arena to the next: it exchanges live blocks, accounts for every range that
is mapped or unmapped, and gives up a zone only together with its last block. Every outcome of
`malloc`, `free` and `realloc` is a turn that exchanges at most one block.
-/

namespace FtMalloc

open HeapLib Zones TiledZone

/-- What stays of a zone while blocks come and go. -/
def TiledZone.frame (z : TiledZone) : ℕ × ℕ × EType := (z.addr, z.len, z.type)

/-- The ranges of memory that the zones hold. -/
def Zones.ranges (zs : List TiledZone) : List (ℕ × ℕ) := zs.map fun z => (z.addr, z.len)

/-- What a kernel call does to the list of mapped ranges. -/
def Syscall.replay : Syscall → List (ℕ × ℕ) → List (ℕ × ℕ)
  | .mmap len (some a), rs => (a, len) :: rs
  | .mmap _ none, rs => rs
  | .munmap a len, rs => rs.erase (a, len)

/-- The list of mapped ranges after some calls, the latest first. -/
def replayAll (calls : List Syscall) (rs : List (ℕ × ℕ)) : List (ℕ × ℕ) :=
  calls.foldr Syscall.replay rs

@[simp] theorem replayAll_cons (c : Syscall) (cs : List Syscall) (rs : List (ℕ × ℕ)) :
    replayAll (c :: cs) rs = c.replay (replayAll cs rs) := rfl

/-- Calls are replayed one group after the other. -/
theorem replayAll_append (c₂ c₁ : List Syscall) (rs : List (ℕ × ℕ)) :
    replayAll (c₂ ++ c₁) rs = replayAll c₂ (replayAll c₁ rs) := List.foldr_append

namespace Arena

variable {P : Platform} {A A' A₁ A₂ : Arena P} {z z' w : TiledZone} {pre post : List TiledZone}
  {old new : Set Tile} {t u : Tile} {x n len ptr size : ℕ} {calls c₁ c₂ : List Syscall}
  {kernel : ℕ → Option ℕ}

/-- A call that leads from `A` to `A'` with the kernel calls `calls`, and puts the blocks `new` in
the place of the blocks `old`. -/
structure Turn (A A' : Arena P) (calls : List Syscall) (old new : Set Tile) : Prop where
  live : A'.live = new ∪ (A.live \ old)
  fresh : Disjoint new (A.live \ old)
  ledger : ranges A'.zones = replayAll calls (ranges A.zones)
  kept : ∀ z ∈ A.zones, (∃ z' ∈ A'.zones, z'.frame = z.frame) ∨
    z.type = .large ∧ z.live ⊆ old ∧ .munmap z.addr z.len ∈ calls
  unmapped : ∀ a len, .munmap a len ∈ calls →
    ∃ z ∈ A.zones, z.type = .large ∧ z.addr = a ∧ z.len = len ∧ z.live ⊆ old

/-- The zone of a block is unique. -/
theorem eq_of_live (A : Arena P) (hz : z ∈ A.zones) (hw : w ∈ A.zones) (ht : t ∈ z.live)
    (hu : t ∈ w.live) : z = w := by
  have h₁ := A.live_inside hz ht
  have h₂ := A.live_inside hw hu
  exact A.spread.eq_of_inside (x := t.addr) hw hz (by omega) (by omega) (by omega) (by omega)

/-- A `LARGE` zone has one block. -/
theorem live_of_large (A : Arena P) (hz : z ∈ A.zones) (hl : z.type = .large) (ht : t ∈ z.live) :
    z.live = {t} := by
  have howned := (A.wf z hz).owned hl
  ext u
  rw [Set.mem_singleton_iff]
  refine ⟨fun hu => ?_, fun hu => hu ▸ ht⟩
  have hta : t.addr ∈ z.blocks := mem_blocks.mpr ⟨t, ht, rfl⟩
  have hua : u.addr ∈ z.blocks := mem_blocks.mpr ⟨u, hu, rfl⟩
  rw [howned, List.mem_singleton] at hta hua
  exact (A.wf z hz).laid.tiled.eq_of_addr_eq (by decide) (mem_live.mp hu).1 (mem_live.mp ht).1
    (hua.trans hta.symm)

/-! ## Elementary turns -/

/-- Nothing happens but a refused mapping. -/
theorem turn_idle (A : Arena P) (hcalls : ∀ c ∈ calls, ∃ len, c = .mmap len none) :
    Turn A A calls ∅ ∅ where
  live := by simp
  fresh := Set.disjoint_left.mpr fun _ h => absurd h (Set.notMem_empty _)
  ledger := by
    induction calls with
    | nil => rfl
    | cons c cs ih =>
      obtain ⟨len, rfl⟩ := hcalls c List.mem_cons_self
      exact ih fun c hc => hcalls c (List.mem_cons_of_mem _ hc)
  kept := fun z hz => .inl ⟨z, hz, rfl⟩
  unmapped := by
    intro a len h
    obtain ⟨len', h⟩ := hcalls _ h
    cases h

/-- Editing a zone needs no kernel call. -/
theorem turn_replace (A : Arena P) (h : A.zones = pre ++ z :: post) (he : Edited P z z' old new)
    (hold : old ⊆ z.live) : Turn A (A.replace h he) [] old new where
  live := A.live_replace h he hold
  fresh := A.fresh_replace h he
  ledger := by
    change ranges (pre ++ z' :: post) = ranges A.zones
    simp only [ranges, h, List.map_append, List.map_cons, he.addr, he.len]
  kept := by
    intro w hw
    refine .inl ?_
    rw [h] at hw
    rcases List.mem_append.mp hw with hw | hw
    · exact ⟨w, List.mem_append_left _ hw, rfl⟩
    · rcases List.mem_cons.mp hw with rfl | hw
      · exact ⟨z', List.mem_append_right _ List.mem_cons_self, by
          rw [frame, he.addr, he.len, he.type, frame]⟩
      · exact ⟨w, List.mem_append_right _ (List.mem_cons_of_mem _ hw), rfl⟩
  unmapped := fun _ _ h => absurd h List.not_mem_nil

/-- A new zone needs one mapping. -/
theorem turn_push (A : Arena P) (hz : z.WellFormed P) (hfar : ∀ w ∈ A.zones, Apart P z w)
    (haddr : z.addr = x) (hlen : z.len = len) :
    Turn A (A.push hz hfar) [.mmap len (some x)] ∅ z.live where
  live := by
    rw [A.live_push hz hfar, Set.sdiff_empty]
  fresh := by
    refine Set.disjoint_left.mpr fun t ht hold => ?_
    obtain ⟨w, hw, htw⟩ := hold.1
    have hcons : (A.push hz hfar).zones = [] ++ z :: A.zones := rfl
    exact (A.push hz hfar).not_live_of_apart hcons (by simpa using hw) ht htw
  ledger := by
    rw [← haddr, ← hlen]
    rfl
  kept := fun w hw => .inl ⟨w, List.mem_cons_of_mem _ hw, rfl⟩
  unmapped := fun _ _ h => by simp at h

/-- A `LARGE` zone is unmapped with its block. -/
theorem turn_drop (A : Arena P) (h : A.zones = pre ++ z :: post) (hl : z.type = .large) :
    Turn A (A.drop h) [.munmap z.addr z.len] z.live ∅ where
  live := by
    rw [A.live_drop h, Set.empty_union]
  fresh := Set.disjoint_left.mpr fun _ h => absurd h (Set.notMem_empty _)
  ledger := by
    have hnot : (z.addr, z.len) ∉ ranges pre := by
      intro hmem
      obtain ⟨w, hw, heq⟩ := List.mem_map.mp hmem
      rw [Prod.mk.injEq] at heq
      have hpos := (A.wf z (by simp [h])).laid.room
      exact (A.spread_around h).off (List.mem_append_left _ hw) (x := z.addr) (Nat.le_refl _)
        (by omega) ⟨by omega, by omega⟩
    change ranges (pre ++ post) = (ranges A.zones).erase (z.addr, z.len)
    rw [h]
    simp only [ranges, List.map_append, List.map_cons] at hnot ⊢
    rw [List.erase_append_right _ hnot, List.erase_cons_head]
  kept := by
    intro w hw
    rw [h] at hw
    rcases List.mem_append.mp hw with hw | hw
    · exact .inl ⟨w, List.mem_append_left _ hw, rfl⟩
    · rcases List.mem_cons.mp hw with rfl | hw
      · exact .inr ⟨hl, fun _ h => h, List.mem_singleton_self _⟩
      · exact .inl ⟨w, List.mem_append_right _ hw, rfl⟩
  unmapped := by
    intro a len hmem
    obtain ⟨rfl, rfl⟩ : a = z.addr ∧ len = z.len := by simpa using hmem
    exact ⟨z, by simp [h], hl, rfl, rfl, fun _ h => h⟩

/-! ## Composition -/

/-- A zone that keeps its frame keeps its blocks, when the call gives up none. -/
theorem Turn.live_subset (h : Turn A A₁ calls ∅ new) (hz : z ∈ A.zones) (hw : w ∈ A₁.zones)
    (hframe : w.frame = z.frame) : z.live ⊆ w.live := by
  intro t ht
  simp only [frame, Prod.mk.injEq] at hframe
  obtain ⟨v, hv, htv⟩ : t ∈ A₁.live := h.live ▸ .inr ⟨⟨z, hz, ht⟩, Set.notMem_empty t⟩
  have hin := A.live_inside hz ht
  have hin' := A₁.live_inside hv htv
  have hvw := A₁.spread.eq_of_inside (x := t.addr) hw hv (by omega) (by omega) (by omega)
    (by omega)
  exact hvw ▸ htv

/-- A `LARGE` zone has a block. -/
theorem exists_live_of_large (A : Arena P) (hz : z ∈ A.zones) (hl : z.type = .large) :
    ∃ t, t ∈ z.live := by
  have hb : z.addr + zoneHeaderSize ∈ z.blocks := by
    rw [(A.wf z hz).owned hl]
    exact List.mem_singleton_self _
  obtain ⟨t, ht, -⟩ := mem_blocks.mp hb
  exact ⟨t, ht⟩

/-- Allocating a block and then giving another one up. -/
theorem Turn.andFree (h₁ : Turn A A₁ c₁ ∅ new) (h₂ : Turn A₁ A₂ c₂ {t} ∅) (ht : t ∈ A.live) :
    Turn A A₂ (c₂ ++ c₁) {t} new where
  live := by
    have hnew : t ∉ new := fun hmem =>
      Set.disjoint_left.mp h₁.fresh hmem ⟨ht, Set.notMem_empty t⟩
    ext u
    rw [h₂.live, h₁.live]
    simp only [Set.mem_union, Set.mem_sdiff, Set.mem_empty_iff_false, not_false_eq_true, and_true,
      false_or, Set.mem_singleton_iff]
    constructor
    · rintro ⟨hu | hu, hne⟩
      · exact .inl hu
      · exact .inr ⟨hu, hne⟩
    · rintro (hu | hu)
      · exact ⟨.inl hu, fun heq => hnew (heq ▸ hu)⟩
      · exact ⟨.inr hu.1, hu.2⟩
  fresh := Set.disjoint_left.mpr fun u hu hold =>
    Set.disjoint_left.mp h₁.fresh hu ⟨hold.1, Set.notMem_empty u⟩
  ledger := by
    rw [replayAll_append, ← h₁.ledger, h₂.ledger]
  kept := by
    intro z hz
    rcases h₁.kept z hz with ⟨z₁, hz₁, hframe⟩ | ⟨hl, hlive, hmem⟩
    · rcases h₂.kept z₁ hz₁ with ⟨z₂, hz₂, hframe₂⟩ | ⟨hl, hlive, hmem⟩
      · exact .inl ⟨z₂, hz₂, hframe₂.trans hframe⟩
      · have hsub := (h₁.live_subset hz hz₁ hframe).trans hlive
        simp only [frame, Prod.mk.injEq] at hframe
        rw [hframe.1, hframe.2.1] at hmem
        exact .inr ⟨hframe.2.2.symm.trans hl, hsub, List.mem_append_left _ hmem⟩
    · exact .inr ⟨hl, hlive.trans (Set.empty_subset _), List.mem_append_right _ hmem⟩
  unmapped := by
    intro a len hmem
    rcases List.mem_append.mp hmem with hmem | hmem
    · obtain ⟨z₁, hz₁, hl, rfl, rfl, hlive⟩ := h₂.unmapped a len hmem
      obtain ⟨u, hu⟩ := A₁.exists_live_of_large hz₁ hl
      obtain rfl : u = t := hlive hu
      obtain ⟨z, hz, htz⟩ := ht
      -- the zone of the block had the same frame before the allocation
      rcases h₁.kept z hz with ⟨w, hw, hframe⟩ | ⟨-, hempty, -⟩
      · have hsub := h₁.live_subset hz hw hframe
        obtain rfl := A₁.eq_of_live hw hz₁ (hsub htz) hu
        simp only [frame, Prod.mk.injEq] at hframe
        exact ⟨z, hz, hframe.2.2.symm.trans hl, hframe.1.symm, hframe.2.1.symm, hsub.trans hlive⟩
      · exact absurd (hempty htz) (Set.notMem_empty _)
    · obtain ⟨z, hz, hl, ha, hlen, hlive⟩ := h₁.unmapped a len hmem
      exact ⟨z, hz, hl, ha, hlen, hlive.trans (Set.empty_subset _)⟩

/-! ## Allocation -/

/-- The outcomes of a request for `n` bytes in place of the blocks `old`: nothing, or one block. -/
inductive Served (A : Arena P) (old : Set Tile) (n : ℕ) : Outcome → Prop
  | refused {calls : List Syscall} (h : Turn A A calls ∅ ∅) :
      Served A old n ⟨null, A.zones, calls⟩
  | block {A' : Arena P} {t : Tile} {calls : List Syscall} (hsize : n ≤ t.size)
      (h : Turn A A' calls old {t}) : Served A old n ⟨t.addr + headerSize, A'.zones, calls⟩

/-- A refused request leaves the zones as they were. -/
theorem Served.zones_eq {o : Outcome} (h : Served A old n o) (hnull : o.result = null) :
    o.zones = A.zones := by
  cases h with
  | refused => rfl
  | block =>
    simp only [null, headerSize] at hnull
    omega

/-- A new block lies in a zone of the class of the request, or in a zone of a type that already had
a block at least as large. -/
def Admitted (A A' : Arena P) (n : ℕ) (t : Tile) : Prop :=
  ∀ z' ∈ A'.zones, t ∈ z'.live → z'.type = getZoneType n ∨
    ∃ z ∈ A.zones, z.type = z'.type ∧ ∃ u ∈ z.live, t.size ≤ u.size

/-- The outcomes of a request for `n` bytes in place of the blocks `old`, with what is known of the
block granted. -/
inductive Granted (A : Arena P) (old : Set Tile) (n : ℕ) : Outcome → Prop
  | refused {calls : List Syscall} (h : Turn A A calls ∅ ∅) :
      Granted A old n ⟨null, A.zones, calls⟩
  | block {A' : Arena P} {t : Tile} {calls : List Syscall} (hsize : Snug n t.size)
      (hzone : Admitted A A' n t) (h : Turn A A' calls old {t}) :
      Granted A old n ⟨t.addr + headerSize, A'.zones, calls⟩

/-- A request that is granted is served. -/
theorem Granted.served {o : Outcome} (h : Granted A old n o) : Served A old n o := by
  cases h with
  | refused h => exact .refused h
  | block hsize hzone h => exact .block hsize.1 h

/-- A block that a call keeps stays in its zone. -/
theorem Turn.frame_eq (h : Turn A A' calls old new) (hz : z ∈ A.zones) (ht : t ∈ z.live)
    (hold : t ∉ old) (hz' : z' ∈ A'.zones) (ht' : t ∈ z'.live) : z'.frame = z.frame := by
  rcases h.kept z hz with ⟨w, hw, hframe⟩ | ⟨-, hlive, -⟩
  · have hin := A.live_inside hz ht
    have hin' := A'.live_inside hz' ht'
    have hsame := hframe
    simp only [frame, Prod.mk.injEq] at hsame
    have hwz := A'.spread.eq_of_inside (x := t.addr) hw hz' (by omega) (by omega) (by omega)
      (by omega)
    rwa [hwz]
  · exact absurd (hlive ht) hold

/-- A block of an edited zone lies in no other zone. -/
theorem eq_of_live_replace (A : Arena P) (h : A.zones = pre ++ z :: post)
    (he : Edited P z z' old new) (ht : t ∈ z'.live) (hw : w ∈ (A.replace h he).zones)
    (htw : t ∈ w.live) : w = z' :=
  (A.replace h he).eq_of_live hw (List.mem_append_right _ List.mem_cons_self) htw ht

/-- Allocation serves the request or changes nothing. -/
theorem allocate_granted (A : Arena P) (hk : KernelFresh P A.zones kernel) (hn : GrainSize n) :
    Granted A ∅ n (allocate P kernel n A.zones) := by
  have hcases := A.allocate_cases hk hn
  generalize allocate P kernel n A.zones = o at hcases
  cases hcases with
  | @found pre post z z' b hsearch halloc =>
    obtain ⟨heq, htype, hl, -⟩ := search_eq_some hsearch
    have hgrain := grain_of_class hn (htype ▸ hl)
    obtain ⟨k, hk, hedit⟩ :=
      (A.wf z (by simp [heq])).toFramed.alloc (fun h => absurd h hl) hgrain halloc
    refine .block (t := ⟨b, k, true⟩) hk (fun w hw ht => .inl ?_)
      (A.turn_replace heq hedit (Set.empty_subset _))
    rw [A.eq_of_live_replace heq hedit (hedit.live ▸ .inl rfl) hw ht, hedit.type, htype]
  | full => exact .refused (A.turn_idle fun c hc => absurd hc List.not_mem_nil)
  | huge => exact .refused (A.turn_idle fun c hc => absurd hc List.not_mem_nil)
  | refused => exact .refused (A.turn_idle fun c hc => ⟨_, List.mem_singleton.mp hc⟩)
  | @mapped a b z hsearch hans hgrain halloc =>
    obtain ⟨hlen, hpage, hpos, hbound, hfar⟩ := hk _ a hans
    obtain ⟨k, hk, hedit⟩ := alloc_fresh hgrain hlen hpage hpos hbound halloc
    have hlive : z.live = {⟨b, k, true⟩} := by
      rw [hedit.live, live_fresh, Set.empty_sdiff, Set.union_empty]
    have hapart : ∀ w ∈ A.zones, Apart P z w := fun w hw => by
      rw [Apart, hedit.addr, hedit.len, fresh_addr, fresh_len]
      exact hfar w hw
    refine .block (t := ⟨b, k, true⟩) hk (fun w hw ht => .inl ?_)
      (hlive ▸ A.turn_push hedit.wf hapart hedit.addr hedit.len)
    have hwz : w = z := (A.push hedit.wf hapart).eq_of_live hw List.mem_cons_self ht
      (hlive ▸ rfl)
    rw [hwz, hedit.type, fresh_type]

/-- A request is served or changes nothing. -/
theorem mallocWithin_granted (A : Arena P) (hk : KernelFresh P A.zones kernel) (limit size : ℕ) :
    Granted A ∅ (roundUp size) (mallocWithin limit P kernel size A.zones) := by
  rw [mallocWithin]
  split
  · exact .refused (A.turn_idle fun c hc => absurd hc List.not_mem_nil)
  · exact A.allocate_granted hk (grainSize_roundUp (by omega))

/-- Allocation serves the request or changes nothing. -/
theorem allocate_served (A : Arena P) (hk : KernelFresh P A.zones kernel) (hn : GrainSize n) :
    Served A ∅ n (allocate P kernel n A.zones) := (A.allocate_granted hk hn).served

/-- A request is served or changes nothing. -/
theorem mallocWithin_served (A : Arena P) (hk : KernelFresh P A.zones kernel) (limit size : ℕ) :
    Served A ∅ (roundUp size) (mallocWithin limit P kernel size A.zones) :=
  (A.mallocWithin_granted hk limit size).served

/-! ## Release -/

/-- A pointer that belongs to no live block is not freed. -/
theorem free_eq_of_not_live (A : Arena P) (h : ∀ t ∈ A.live, ptr ≠ t.addr + headerSize) :
    free ptr A.zones = ⟨null, A.zones, []⟩ := by
  rw [free, A.locate_eq_none.mpr h]

/-- Freeing a live block gives up this block. -/
theorem free_turn (A : Arena P) (ht : t ∈ A.live) :
    ∃ A' calls, free (t.addr + headerSize) A.zones = ⟨null, A'.zones, calls⟩ ∧
      Turn A A' calls {t} ∅ := by
  obtain ⟨pre, z, post, heq, htz, hloc⟩ := A.exists_locate ht
  have hzmem : z ∈ A.zones := by simp [heq]
  rw [free, hloc]
  simp only
  split
  · next hl =>
    exact ⟨A.drop heq, _, rfl, A.live_of_large hzmem hl htz ▸ A.turn_drop heq hl⟩
  · next hl =>
    exact ⟨_, _, rfl, A.turn_replace heq ((A.wf z hzmem).release hl htz)
      (Set.singleton_subset_iff.mpr htz)⟩

/-! ## Reallocation -/

/-- A size that fits into a block is a whole number of grains. -/
theorem grain_of_le_size (A : Arena P) (hz : z ∈ A.zones) (ht : t ∈ z.live) (hn : GrainSize n)
    (hle : n ≤ t.size) : alignment ≤ n ∧ alignment ∣ n := by
  have hin := A.live_inside hz ht
  have := (A.wf z hz).laid.bound
  refine hn ?_
  simp only [Tile.stop, sizeMax, headerSize, zoneHeaderSize] at *
  omega

/-- Moving a live block gives it up for a new one, or changes nothing. -/
theorem move_granted (A : Arena P) (hk : KernelFresh P A.zones kernel) (ht : t ∈ A.live) :
    Granted A {t} (roundUp n) (move P kernel (t.addr + headerSize) n A.zones) := by
  have hgranted : Granted A ∅ (roundUp n) (reallocMalloc P kernel n A.zones) :=
    A.mallocWithin_granted hk P.reallocMaxAllocSize n
  rw [move]
  generalize reallocMalloc P kernel n A.zones = new at hgranted
  cases hgranted with
  | refused h => exact .refused h
  | @block A₁ u calls hsize hzone h₁ =>
    have ht₁ : t ∈ A₁.live := h₁.live ▸ .inr ⟨ht, Set.notMem_empty t⟩
    have hu₁ : u ∈ A₁.live := h₁.live ▸ .inl rfl
    have hne : u ≠ t := fun heq =>
      Set.disjoint_left.mp h₁.fresh rfl ⟨heq ▸ ht, Set.notMem_empty u⟩
    obtain ⟨A₂, c₂, hfree, h₂⟩ := A₁.free_turn ht₁
    have hres : ¬ u.addr + headerSize = null := by simp
    simp only [if_neg hres, hfree]
    refine .block hsize (fun z₂ hz₂ hu₂ => ?_) (h₁.andFree h₂ ht)
    obtain ⟨z₁, hz₁, huz₁⟩ := hu₁
    have hframe := h₂.frame_eq hz₁ huz₁ hne hz₂ hu₂
    simp only [frame, Prod.mk.injEq] at hframe
    rw [hframe.2.2]
    exact hzone z₁ hz₁ huz₁

/-- `realloc` of a live block keeps, resizes or moves it, or changes nothing. -/
theorem realloc_granted (A : Arena P) (hk : KernelFresh P A.zones kernel) (ht : t ∈ A.live)
    (hsize : 0 < size) :
    Granted A {t} (roundUp size) (realloc P kernel (t.addr + headerSize) size A.zones) := by
  obtain ⟨pre, z, post, heq, htz, hloc⟩ := A.exists_locate ht
  have hzmem : z ∈ A.zones := by simp [heq]
  have hwf := A.wf z hzmem
  have hn := grainSize_roundUp hsize
  have hold : {t} ⊆ z.live := Set.singleton_subset_iff.mpr htz
  rw [realloc_of_locate P kernel (by simp) hsize hloc]
  split
  · next hle =>
    obtain ⟨k, hk, hkt, hedit⟩ := hwf.shrink htz hle (A.grain_of_le_size hzmem htz hn hle)
    refine .block (t := ⟨t.addr, k, true⟩) hk (fun w hw hu => .inr ?_) (A.turn_replace heq hedit hold)
    have hwz := A.eq_of_live_replace heq hedit (hedit.live ▸ .inl rfl) hw hu
    exact ⟨z, hzmem, by rw [hwz, hedit.type], t, htz, hkt⟩
  · split
    · next b z' hgrow =>
      rw [growIn] at hgrow
      split at hgrow
      · next htype =>
        obtain ⟨k, hk, hedit⟩ := hwf.grow htz hn hgrow
        refine .block (t := ⟨b, k, true⟩) hk (fun w hw hu => .inl ?_) (A.turn_replace heq hedit hold)
        rw [A.eq_of_live_replace heq hedit (hedit.live ▸ .inl rfl) hw hu, hedit.type, htype]
      · cases hgrow
    · have hmove := A.move_granted hk ht (n := roundUp size)
      rwa [roundUp_roundUp] at hmove

/-- `realloc` of a live block keeps, resizes or moves it, or changes nothing. -/
theorem realloc_served (A : Arena P) (hk : KernelFresh P A.zones kernel) (ht : t ∈ A.live)
    (hsize : 0 < size) :
    Served A {t} (roundUp size) (realloc P kernel (t.addr + headerSize) size A.zones) :=
  (A.realloc_granted hk ht hsize).served

/-- `realloc` of any other pointer changes nothing. -/
theorem realloc_eq_of_not_live (A : Arena P) (hptr : ptr ≠ null) (hsize : 0 < size)
    (h : ∀ t ∈ A.live, ptr ≠ t.addr + headerSize) :
    realloc P kernel ptr size A.zones = ⟨null, A.zones, []⟩ := by
  rw [realloc, if_neg hptr, if_neg (by omega), A.locate_eq_none.mpr h]

end Arena

end FtMalloc
