import FtMalloc.Properties.Pointers

/-!
# Requests that are refused without asking the kernel

`find_zone` trusts the cached maximum of a zone, which is not refreshed when the last empty space
of the zone is used up. The first zone that promises room then has none, and the request is refused
with no call of `mmap`. This is the only way in which it happens.
-/

namespace FtMalloc

open HeapLib TiledZone

/-- The cached maximum of the zone promises room for `n` bytes to `find_zone`. -/
def ZoneView.promises (n : ℕ) (v : ZoneView) : Bool :=
  decide (v.type = (getZoneType n).code) && decide (n + headerSize ≤ v.maxFreeSpaceSize)

/-- A request for `n` bytes is `LARGE`, or the first zone that promises room, if there is one, has
an empty space. -/
def Roomy (s : Heap) (n : ℕ) : Prop :=
  getZoneType n = .large ∨
    ∀ v, (view s).find? (ZoneView.promises n) = some v → v.emptySpaces ≠ []

/-- The call asks for a size that the allocator accepts; a pointer argument is live. -/
def Call.Servable (P : Platform) (s : Heap) : Call → Prop
  | malloc size => 0 < size ∧ size ≤ P.maxAllocSize ∧
      roundUp size ≤ sizeMax - headerSize - zoneHeaderSize
  | free _ => False
  | realloc ptr size => Payload s ptr ∧ 0 < size ∧ roundUp size ≤ P.reallocMaxAllocSize ∧
      roundUp size ≤ sizeMax - headerSize - zoneHeaderSize

/-- The block of the call has room for the new size, also by growing in place, or a new block can
be looked for. -/
def Call.Roomy (s : Heap) : Call → Prop
  | malloc size => FtMalloc.Roomy s (roundUp size)
  | free _ => True
  | realloc ptr size => FtMalloc.Roomy s (roundUp size) ∨
      ∃ v ∈ view s, ∃ e ∈ v.blocks, ptr = e.addr + headerSize ∧ (roundUp size ≤ e.size ∨
        v.type = (getZoneType (roundUp size)).code ∧
          (v.Forward e (roundUp size) ∨ v.Backward e (roundUp size)))

/-- The call returns null only when its one kernel call was a refused `mmap`. -/
def Justified (r : ℕ) (s s' : Heap) : Prop :=
  r = null → ∃ len, s'.calls = .mmap len none :: s.calls

variable {P : Platform} {s s' : Heap} {A : Arena P} {z : TiledZone} {kernel : ℕ → Option ℕ}
  {c : Call} {n ptr size r limit : ℕ} {zs pre post : List TiledZone} {t : Tile}

/-! ## Zones that promise room -/

/-- The first zone of an arena that promises room, if there is one, has an empty space. -/
def Zones.Roomy (zs : List TiledZone) (n : ℕ) : Prop :=
  ∀ pre z post, Zones.search (getZoneType n) n zs = some (pre, z, post) → frees z.tiles ≠ []

/-- The zone that is seen first is the zone that is searched first. -/
theorem Holds.find?_promises (h : Holds s A) : (view s).find? (ZoneView.promises n) =
    (A.zones.find? (Zones.fits (getZoneType n) n)).map ZoneView.ofZone := by
  have hsame : ZoneView.promises n ∘ ZoneView.ofZone = Zones.fits (getZoneType n) n := by
    funext z
    rw [Function.comp_apply, ZoneView.promises, Zones.fits]
    congr 1
    exact decide_eq_decide.mpr EType.code_injective.eq_iff
  rw [h.rep.view_eq A.spread, List.find?_map, hsame]

/-- Room is seen in a state exactly when its arena has it. -/
theorem Holds.roomy_iff (h : Holds s A) : Roomy s n ↔ Zones.Roomy A.zones n := by
  rw [Roomy, Zones.Roomy, h.find?_promises, find?_eq_cutAt, Zones.search]
  by_cases hl : getZoneType n = .large
  · simp [hl]
  · simp only [hl, false_or, if_false]
    cases cutAt (Zones.fits (getZoneType n) n) A.zones with
    | none => simp
    | some found =>
      obtain ⟨pre, z, post⟩ := found
      constructor
      · intro hall pre' z' post' heq
        cases heq
        exact emptySpaces_ofZone_eq_nil.not.mp (hall _ rfl)
      · intro hall v heq
        cases heq
        exact emptySpaces_ofZone_eq_nil.not.mpr (hall _ _ _ rfl)

/-- A request is refused without asking the kernel exactly when the zone found is full. -/
theorem Arena.Allocated.justified_iff {o : Outcome} (h : A.Allocated kernel n o)
    (hmax : n ≤ sizeMax - headerSize - zoneHeaderSize) :
    (o.result = null → ∃ len, o.calls = [.mmap len none]) ↔ Zones.Roomy A.zones n := by
  cases h with
  | @found pre post z z' b hsearch halloc =>
    refine iff_of_true (fun hnull => by simp at hnull) fun pre' w post' hsome => ?_
    rw [hsearch] at hsome
    cases hsome
    exact Arena.frees_ne_nil_of_alloc halloc
  | full hsearch hfull =>
    refine iff_of_false (fun hall => ?_) fun hall => hall _ _ _ hsearch hfull
    obtain ⟨len, hcalls⟩ := hall rfl
    cases hcalls
  | huge hsearch hl hbig => exact absurd hmax (Nat.not_le.mpr hbig)
  | refused hsearch hans =>
    refine iff_of_true (fun _ => ⟨_, rfl⟩) fun pre w post hsome => ?_
    rw [hsearch] at hsome
    cases hsome
  | mapped hsearch hans hgrain halloc =>
    refine iff_of_true (fun hnull => by simp at hnull) fun pre w post hsome => ?_
    rw [hsearch] at hsome
    cases hsome

/-! ## Calls that are refused -/

/-- A refusal is justified in the program exactly when it is on the arena. -/
theorem Holds.justified_iff (h : Holds s A) (hk : s.KernelOk P kernel) (c : Call) :
    wp (c.run P kernel) (fun r s' => Justified r s s') s ↔
      ((c.outcome P kernel A.zones).result = null →
        ∃ len, (c.outcome P kernel A.zones).calls = [.mmap len none]) := by
  obtain ⟨r, s', hrun, hres, hbecame⟩ := h.rep.wp_call A h.unlocked hk c
  rw [wp_of_run hrun, Justified, hres, hbecame.calls]
  refine imp_congr_right fun _ => exists_congr fun len => ?_
  change _ ++ s.calls = [.mmap len none] ++ s.calls ↔ _
  exact List.append_left_inj s.calls

/-- A request for a size that is within the limit. -/
theorem Holds.mallocWithin_justified_iff (h : Holds s A) (hk : s.KernelOk P kernel)
    (hpos : 0 < size) (hle : size ≤ limit)
    (hmax : roundUp size ≤ sizeMax - headerSize - zoneHeaderSize) :
    ((Zones.mallocWithin limit P kernel size A.zones).result = null →
      ∃ len, (Zones.mallocWithin limit P kernel size A.zones).calls = [.mmap len none]) ↔
      Roomy s (roundUp size) := by
  have hok : ¬(size = 0 ∨ size > limit) := by omega
  rw [Zones.mallocWithin, if_neg hok, h.roomy_iff]
  exact (A.allocate_cases (h.rep.kernelFresh A.spread hk) (grainSize_roundUp hpos)).justified_iff hmax

/-- Moving a block returns null together with the allocation that it starts with. -/
theorem Arena.move_justified_iff (A : Arena P) : ((Zones.move P kernel ptr n A.zones).result = null →
      ∃ len, (Zones.move P kernel ptr n A.zones).calls = [.mmap len none]) ↔
    ((Zones.reallocMalloc P kernel n A.zones).result = null →
      ∃ len, (Zones.reallocMalloc P kernel n A.zones).calls = [.mmap len none]) := by
  rw [Zones.move]
  by_cases hnull : (Zones.reallocMalloc P kernel n A.zones).result = null
  · rw [if_pos hnull]
  · rw [if_neg hnull]
    exact iff_of_true (fun h => absurd h hnull) fun h => absurd h hnull

/-- `realloc` of a live block to a size that it accepts. -/
theorem Holds.realloc_justified_iff (h : Holds s A) (hk : s.KernelOk P kernel) (hp : Payload s ptr)
    (hpos : 0 < size) (hle : roundUp size ≤ P.reallocMaxAllocSize)
    (hmax : roundUp size ≤ sizeMax - headerSize - zoneHeaderSize) :
    ((Zones.realloc P kernel ptr size A.zones).result = null →
      ∃ len, (Zones.realloc P kernel ptr size A.zones).calls = [.mmap len none]) ↔
      (Call.realloc ptr size).Roomy s := by
  obtain ⟨t, ht, rfl⟩ := h.payload_iff.mp hp
  obtain ⟨pre, z, post, heq, htz, hloc⟩ := A.exists_locate ht
  have hzmem : z ∈ A.zones := by simp [heq]
  have hlaid := (A.wf z hzmem).laid
  have hin : RegionView.ofTile t ∈ (ZoneView.ofZone z).blocks := List.mem_map_of_mem htz
  have hz : ZoneView.ofZone z ∈ view s := (h.rep.mem_view A.spread).mpr ⟨z, hzmem, rfl⟩
  rw [Zones.realloc_of_locate P kernel (by simp) hpos hloc, Call.Roomy]
  by_cases hfit : roundUp size ≤ t.size
  · rw [if_pos hfit]
    exact iff_of_true (fun hnull => by simp at hnull) (.inr ⟨_, hz, _, hin, rfl, .inl hfit⟩)
  · rw [if_neg hfit]
    cases hgrow : Zones.growIn z t.addr (roundUp size) with
    | some found =>
      have hcan : ¬(getZoneType (roundUp size) ≠ z.type ∨
          ¬ z.Forward t (roundUp size) ∧ ¬ z.Backward t (roundUp size)) := by
        rw [← hlaid.growIn_eq_none htz, hgrow]
        exact Option.some_ne_none found
      rw [not_or, not_not, ← not_or, not_not] at hcan
      refine iff_of_true (fun hnull => by simp at hnull) (.inr ⟨_, hz, _, hin, rfl, .inr ?_⟩)
      exact ⟨congrArg EType.code hcan.1.symm, hcan.2.imp forward_ofZone.mpr backward_ofZone.mpr⟩
    | none =>
      have hnot := (hlaid.growIn_eq_none htz).mp hgrow
      have hmalloc := h.mallocWithin_justified_iff hk (Nat.lt_of_lt_of_le hpos (le_roundUp size)) hle
        ((roundUp_roundUp size).symm ▸ hmax)
      rw [roundUp_roundUp] at hmalloc
      rw [A.move_justified_iff, hmalloc]
      refine ⟨.inl, fun hor => hor.resolve_right ?_⟩
      rintro ⟨v, hv, e, he, haddr, hroom⟩
      obtain ⟨rfl, rfl⟩ := h.eq_of_payload hv he hz hin haddr.symm
      rcases hroom with hle | ⟨htype, hroom⟩
      · exact hfit hle
      · rw [forward_ofZone, backward_ofZone] at hroom
        rcases hnot with hne | hnone
        · exact hne (EType.code_injective htype).symm
        · exact hroom.elim hnone.1 hnone.2

/-- A call that the allocator accepts is refused for no other reason than a refused mapping exactly
when there is room for it. -/
theorem Holds.call_justified_iff (h : Holds s A) (hk : s.KernelOk P kernel)
    (hc : c.Servable P s) :
    wp (c.run P kernel) (fun r s' => Justified r s s') s ↔ c.Roomy s := by
  rw [h.justified_iff hk]
  cases c with
  | malloc size => exact h.mallocWithin_justified_iff hk hc.1 hc.2.1 hc.2.2
  | free ptr => exact absurd hc id
  | realloc ptr size => exact h.realloc_justified_iff hk hc.1 hc.2.1 hc.2.2.1 hc.2.2.2

/-- A `TINY` zone that 127 blocks of 160 bytes and one of 80 bytes fill up: the cached maximum is
still 80. -/
theorem refusals_justified_counterexample : ∃ s, Reachable .unlimited s ∧
    (Call.malloc 48).Servable .unlimited s ∧ ∀ kernel, s.KernelOk .unlimited kernel →
      ¬ wp ((Call.malloc 48).run .unlimited kernel) (fun r s' => Justified r s s') s := by
  have hcs : ∀ c ∈ List.replicate 126 (Call.malloc 160) ++ [.malloc 48], c.InRange := by
    intro c hc
    rcases List.mem_append.mp hc with hc | hc
    · obtain rfl := List.eq_of_mem_replicate hc
      decide
    · obtain rfl := List.mem_singleton.mp hc
      decide
  obtain ⟨s, A, h, hA, hzones⟩ := exists_reachable (P := .unlimited) 65536 (.malloc 160) _
    (by decide) (by decide) (by decide) (by decide) hcs
  have hc : (Call.malloc 48).Servable .unlimited s := ⟨by decide, by decide, by decide⟩
  refine ⟨s, h, hc, fun kernel hk hwp => ?_⟩
  have hroomy := (hA.call_justified_iff hk hc).mp hwp
  have hfull : ((view s).find? (ZoneView.promises 48)).map ZoneView.emptySpaces = some [] := by
    rw [hA.rep.view_eq A.spread, hzones]
    decide +kernel
  obtain ⟨v, hfind, hnil⟩ := Option.map_eq_some_iff.mp hfull
  exact hroomy.elim (by decide) fun hall => hall v hfind hnil

/-- In every reachable state, `malloc` and `realloc` return null only after a refused `mmap` exactly
when there is room in the sense of `Call.Roomy`; and so does every call of a run. -/
theorem refusals_justified :
    (∀ (s : Heap) (kernel : ℕ → Option ℕ) (c : Call), Reachable P s → s.KernelOk P kernel →
      c.Servable P s →
      (wp (c.run P kernel) (fun r s' => Justified r s s') s ↔ c.Roomy s)) ∧
    ∀ s₀ tr s, Start s₀ → Run (Step P) s₀ tr s → ∀ t ∈ tr, ∀ (c : Call) (r : ℕ),
      t.event = .call c r → c.Servable P t.before →
      (Justified r t.before t.after ↔ c.Roomy t.before) := by
  constructor
  · intro s kernel c h hk hc
    obtain ⟨A, hA⟩ := h.exists_holds
    exact hA.call_justified_iff hk hc
  · intro s₀ tr s hstart hrun t ht c r hevent hc
    obtain ⟨tr', hrun', hstep⟩ := hrun.exists_before t ht
    obtain ⟨A, hA⟩ := Reachable.exists_holds ⟨s₀, tr', hstart, hrun'⟩
    rw [hevent] at hstep
    cases hstep with
    | call c hin hk hcall =>
      rw [← hA.call_justified_iff hk hc, wp_of_run hcall]

/-- A zone with an empty space, and a block that grows into it. -/
theorem refusals_justified_witness : ∃ s, Reachable .unlimited s ∧
    (wp ((Call.realloc 65648 150).run .unlimited fun _ => none) (fun r s' => Justified r s s') s ↔
      (Call.realloc 65648 150).Roomy s) := by
  obtain ⟨s, A, h, hA, hzones⟩ := exists_reachable (P := .unlimited) 65536 (.malloc 100) []
    (by decide) (by decide) (by decide) (by decide) (by decide)
  have hlive : Live s 65616 112 := by
    rw [Live, hA.rep.view_eq A.spread, hzones]
    decide +kernel
  have hk : s.KernelOk .unlimited fun _ => none := fun _ _ hans => by cases hans
  have hc : (Call.realloc 65648 150).Servable .unlimited s :=
    ⟨⟨_, _, hlive, rfl⟩, by decide, by decide, by decide⟩
  exact ⟨s, h, refusals_justified.1 s _ _ h hk hc⟩

end FtMalloc
