import FtMalloc.Properties.Refusals

/-!
# Zones that are mapped for nothing

`find_zone` asks the cached maximum of a zone for room for a header as well, and the search inside a
zone does not. A hole that is as large as the request, but not by a whole header larger, is
overlooked, and a new zone is mapped. This is the only way in which it happens.
-/

namespace FtMalloc

open HeapLib TiledZone

/-- Between the two states the kernel has granted a mapping. -/
def Mapped (s s' : Heap) : Prop :=
  ∃ calls, s'.calls = calls ++ s.calls ∧ ∃ len a, .mmap len (some a) ∈ calls

/-- An empty space of a zone of the class of `n` holds `n` bytes. -/
def Fits (s : Heap) (n : ℕ) : Prop :=
  ∃ v ∈ view s, v.type = (getZoneType n).code ∧ ∃ f ∈ v.emptySpaces, n ≤ f.size

/-- No zone of the class of `n` promises room, and one has an empty space that holds `n` bytes but
not a header more. -/
def Overlooked (s : Heap) (n : ℕ) : Prop :=
  (∀ v ∈ view s, v.promises n = false) ∧ ∃ v ∈ view s, v.type = (getZoneType n).code ∧
    ∃ f ∈ v.emptySpaces, n ≤ f.size ∧ f.size < n + headerSize

/-- The call allocates a block of a small class: `malloc` does, and so does `realloc` of a block that
has to move. -/
def Call.Allocates (s : Heap) : Call → Prop
  | malloc size => getZoneType (roundUp size) ≠ .large
  | free _ => False
  | realloc ptr size => getZoneType (roundUp size) ≠ .large ∧ (ptr = null ∨ Moves s ptr size)

/-- The number that the call compares with `MAX_ALLOC_SIZE`. -/
def Call.limited : Call → ℕ
  | malloc size => size
  | free _ => 0
  | realloc ptr size => if ptr = null then size else roundUp size

/-- The limit that the call compares it with. -/
def Call.limit (P : Platform) : Call → ℕ
  | malloc _ => P.maxAllocSize
  | free _ => 0
  | realloc ptr _ => if ptr = null then P.maxAllocSize else P.reallocMaxAllocSize

variable {P : Platform} {s s' : Heap} {A : Arena P} {kernel : ℕ → Option ℕ} {c : Call}
  {n ptr size : ℕ}

/-! ## Zones that promise room -/

/-- No zone is found exactly when none promises room. -/
theorem Holds.search_eq_none_iff (h : Holds s A) (hclass : getZoneType n ≠ .large) :
    Zones.search (getZoneType n) n A.zones = none ↔ ∀ v ∈ view s, v.promises n = false := by
  rw [Zones.search, if_neg hclass, ← Option.map_eq_none_iff, ← find?_eq_cutAt,
    ← Option.map_eq_none_iff, ← h.find?_promises, List.find?_eq_none]
  exact forall₂_congr fun v _ => Bool.not_eq_true _ ▸ Iff.rfl

/-- The cached maximum counts every empty space, so that an empty space is overlooked only when it is
less than a header too large. -/
theorem Holds.overlooked_iff (h : Holds s A) :
    Overlooked s n ↔ (∀ v ∈ view s, v.promises n = false) ∧ Fits s n := by
  refine and_congr_right fun hnone => ⟨?_, ?_⟩
  · rintro ⟨v, hv, htype, f, hf, hle, -⟩
    exact ⟨v, hv, htype, f, hf, hle⟩
  · rintro ⟨v, hv, htype, f, hf, hle⟩
    refine ⟨v, hv, htype, f, hf, hle, ?_⟩
    have hcache := hnone v hv
    rw [ZoneView.promises, decide_eq_true htype, Bool.true_and, decide_eq_false_iff_not] at hcache
    obtain ⟨z, hz, rfl⟩ := (h.rep.mem_view A.spread).mp hv
    obtain ⟨t, ht, rfl⟩ := List.mem_map.mp hf
    have hlargest : t.size ≤ z.cache := by
      rw [(A.wf z hz).cache (List.ne_nil_of_mem ht)]
      exact le_largest ht
    change t.size < n + headerSize
    change ¬ n + headerSize ≤ z.cache at hcache
    omega

/-! ## Requests that map -/

/-- The kernel calls of the outcome map something. -/
def Outcome.Maps (o : Outcome) : Prop := ∃ len a, .mmap len (some a) ∈ o.calls

/-- An allocation of a small class maps exactly when no zone promises room and the kernel grants the
mapping. -/
theorem Arena.Allocated.maps_iff {o : Outcome} (h : A.Allocated kernel n o)
    (hclass : getZoneType n ≠ .large) : o.Maps ↔
      Zones.search (getZoneType n) n A.zones = none ∧
        kernel (P.zoneLength (getZoneType n) n) ≠ none := by
  have hsome {found : List TiledZone × TiledZone × List TiledZone} {zs : List TiledZone} {r : ℕ}
      (hsearch : Zones.search (getZoneType n) n A.zones = some found) :
      (⟨r, zs, []⟩ : Outcome).Maps ↔ Zones.search (getZoneType n) n A.zones = none ∧
        kernel (P.zoneLength (getZoneType n) n) ≠ none := by
    refine iff_of_false ?_ fun hnone => ?_
    · rintro ⟨len, a, hmem⟩
      exact List.not_mem_nil hmem
    · rw [hsearch] at hnone
      cases hnone.1
  cases h with
  | found hsearch halloc => exact hsome hsearch
  | full hsearch hfull => exact hsome hsearch
  | huge hsearch hl hbig => exact absurd hl hclass
  | refused hsearch hans =>
    refine iff_of_false ?_ fun hgrant => hgrant.2 hans
    rintro ⟨len, a, hmem⟩
    cases List.mem_singleton.mp hmem
  | mapped hsearch hans hgrain halloc =>
    exact iff_of_true ⟨_, _, List.mem_singleton_self _⟩ ⟨hsearch, by simp [hans]⟩

/-- A size that is rounded to one of a small class is positive. -/
theorem pos_of_small (hclass : getZoneType (roundUp size) ≠ .large) : 0 < size := by
  by_contra hzero
  obtain rfl : size = 0 := by omega
  exact hclass (by decide)

/-- A request maps when the size is accepted and its allocation maps. -/
theorem Holds.mallocWithin_maps_iff (h : Holds s A) (hk : s.KernelOk P kernel) (limit : ℕ)
    (hclass : getZoneType (roundUp size) ≠ .large) :
    (Zones.mallocWithin limit P kernel size A.zones).Maps ↔ size ≤ limit ∧
      kernel (P.zoneLength (getZoneType (roundUp size)) (roundUp size)) ≠ none ∧
      ∀ v ∈ view s, v.promises (roundUp size) = false := by
  have hpos := pos_of_small hclass
  rw [Zones.mallocWithin]
  by_cases hmax : size ≤ limit
  · rw [if_neg (by omega), (A.allocate_cases (h.rep.kernelFresh A.spread hk)
      (grainSize_roundUp hpos)).maps_iff hclass, h.search_eq_none_iff hclass]
    tauto
  · rw [if_pos (by omega)]
    refine iff_of_false ?_ fun hall => hmax hall.1
    rintro ⟨len, a, hmem⟩
    exact List.not_mem_nil hmem

/-- A call that allocates maps when the number that it compares with the limit is accepted, no zone
promises room and the kernel grants the mapping. -/
theorem Holds.outcome_maps_iff (h : Holds s A) (hk : s.KernelOk P kernel) (hc : c.Allocates s) :
    (c.outcome P kernel A.zones).Maps ↔ c.limited ≤ c.limit P ∧
      kernel (P.zoneLength (getZoneType (roundUp c.size)) (roundUp c.size)) ≠ none ∧
      ∀ v ∈ view s, v.promises (roundUp c.size) = false := by
  cases c with
  | malloc size => exact h.mallocWithin_maps_iff hk P.maxAllocSize hc
  | free ptr => exact absurd hc id
  | realloc ptr size =>
    obtain ⟨hclass, hor⟩ := hc
    rw [Call.outcome, Call.limited, Call.limit, Call.size]
    by_cases hptr : ptr = null
    · rw [if_pos hptr, if_pos hptr, Zones.realloc, if_pos hptr]
      exact h.mallocWithin_maps_iff hk P.maxAllocSize hclass
    · rw [if_neg hptr, if_neg hptr, h.realloc_eq_move (hor.resolve_left hptr)]
      have hmove : (Zones.move P kernel ptr (roundUp size) A.zones).Maps ↔
          (Zones.reallocMalloc P kernel (roundUp size) A.zones).Maps :=
        exists₂_congr fun len a => Zones.move_answer
      have hmalloc : (Zones.reallocMalloc P kernel (roundUp size) A.zones).Maps ↔ _ :=
        h.mallocWithin_maps_iff hk P.reallocMaxAllocSize (by rwa [roundUp_roundUp])
      rwa [roundUp_roundUp, ← hmove] at hmalloc

/-- A call maps in the program exactly when it does on the arena. -/
theorem Heap.Became.mapped_iff {zs : List TiledZone} {o : Outcome}
    (h : s.Became P s' zs o.zones o.calls) : Mapped s s' ↔ o.Maps := by
  constructor
  · rintro ⟨calls, heq, hmaps⟩
    rw [h.calls] at heq
    rwa [Outcome.Maps, List.append_cancel_right heq]
  · exact fun hmaps => ⟨_, h.calls, hmaps⟩

/-- A call that allocates maps only where nothing fits exactly when it does not map although
something was overlooked. -/
theorem Holds.needed_iff (h : Holds s A) (hk : s.KernelOk P kernel) (hc : c.Allocates s) :
    wp (c.run P kernel) (fun _ s' => Mapped s s' → ¬ Fits s (roundUp c.size)) s ↔
      ¬(c.limited ≤ c.limit P ∧
        kernel (P.zoneLength (getZoneType (roundUp c.size)) (roundUp c.size)) ≠ none ∧
        Overlooked s (roundUp c.size)) := by
  obtain ⟨r, s', hrun, -, hbecame⟩ := h.rep.wp_call A h.unlocked hk c
  rw [wp_of_run hrun, hbecame.mapped_iff, h.outcome_maps_iff hk hc, h.overlooked_iff]
  tauto

/-- A `TINY` zone that 127 blocks of 160 bytes fill up, where the first block has been freed again:
its hole is not found by the next request for 160 bytes. -/
theorem mappings_needed_counterexample : ∃ s kernel, Reachable .unlimited s ∧
    s.KernelOk .unlimited kernel ∧ (Call.malloc 160).Allocates s ∧
    ¬ wp ((Call.malloc 160).run .unlimited kernel)
      (fun _ s' => Mapped s s' → ¬ Fits s (roundUp 160)) s := by
  have hcs : ∀ c ∈ List.replicate 126 (Call.malloc 160) ++ [.free 65648], c.InRange := by
    intro c hc
    rcases List.mem_append.mp hc with hc | hc
    · obtain rfl := List.eq_of_mem_replicate hc
      decide
    · obtain rfl := List.mem_singleton.mp hc
      decide
  obtain ⟨s, A, h, hA, hzones, hfar⟩ := exists_reachable_far (P := .unlimited) 65536 (.malloc 160) _
    (by decide) (by decide) (by decide) (by decide) hcs
  have hk : s.KernelOk .unlimited (kernelAt (2 ^ 40)) :=
    kernelOk_kernelAt (by decide) (by decide) (by decide) fun x hx =>
      hfar x (Nat.le_trans (by decide) hx)
  have hclass : getZoneType (roundUp 160) ≠ .large := by decide
  have hc : (Call.malloc 160).Allocates s := hclass
  refine ⟨s, kernelAt (2 ^ 40), h, hk, hc, fun hwp => ?_⟩
  refine (hA.needed_iff hk hc).mp hwp ⟨by decide, by decide, ?_⟩
  rw [Overlooked, hA.rep.view_eq A.spread, hzones]
  decide +kernel

/-- In every reachable state, `malloc`, and `realloc` of a block that has to move, map a zone for a
size of a small class only where no empty space of the class is large enough, exactly when they do
not map although an empty space was overlooked; and in every run no call maps needlessly that finds
nothing overlooked. -/
theorem mappings_needed :
    (∀ (s : Heap) (kernel : ℕ → Option ℕ) (c : Call), Reachable P s → s.KernelOk P kernel →
      c.Allocates s →
      (wp (c.run P kernel) (fun _ s' => Mapped s s' → ¬ Fits s (roundUp c.size)) s ↔
        ¬(c.limited ≤ c.limit P ∧
          kernel (P.zoneLength (getZoneType (roundUp c.size)) (roundUp c.size)) ≠ none ∧
          Overlooked s (roundUp c.size)))) ∧
    ∀ s₀ tr s, Start s₀ → Run (Step P) s₀ tr s → ∀ t ∈ tr, ∀ (c : Call) (r : ℕ),
      t.event = .call c r → c.Allocates t.before → ¬ Overlooked t.before (roundUp c.size) →
      Mapped t.before t.after → ¬ Fits t.before (roundUp c.size) := by
  constructor
  · intro s kernel c h hk hc
    obtain ⟨A, hA⟩ := h.exists_holds
    exact hA.needed_iff hk hc
  · intro s₀ tr s hstart hrun t ht c r hevent hc hseen
    obtain ⟨tr', hrun', hstep⟩ := hrun.exists_before t ht
    obtain ⟨A, hA⟩ := Reachable.exists_holds ⟨s₀, tr', hstart, hrun'⟩
    rw [hevent] at hstep
    cases hstep with
    | call c hin hk hcall =>
      have hneeded := (hA.needed_iff hk hc).mpr fun hover => hseen hover.2.2
      rwa [wp_of_run hcall] at hneeded

/-- The first request of a process maps a zone, and nothing fits before. -/
theorem mappings_needed_witness : ∃ s kernel, Reachable .unlimited s ∧
    s.KernelOk .unlimited kernel ∧
    (wp ((Call.malloc 160).run .unlimited kernel)
      (fun _ s' => Mapped s s' → ¬ Fits s (roundUp 160)) s ↔
      ¬(160 ≤ Platform.unlimited.maxAllocSize ∧
        kernel (Platform.unlimited.zoneLength (getZoneType (roundUp 160)) (roundUp 160)) ≠ none ∧
        Overlooked s (roundUp 160))) := by
  have h : Reachable .unlimited Heap.blank := ⟨_, [], ⟨rfl, rfl, rfl, rfl⟩, .nil⟩
  have hk : Heap.blank.KernelOk .unlimited (kernelAt 65536) :=
    kernelOk_kernelAt (by decide) (by decide) (by decide) fun _ _ => rfl
  have hclass : getZoneType (roundUp 160) ≠ .large := by decide
  exact ⟨_, _, h, hk, mappings_needed.1 _ _ (.malloc 160) h hk hclass⟩

end FtMalloc
