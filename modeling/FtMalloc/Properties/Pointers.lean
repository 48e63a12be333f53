import FtMalloc.Runs

/-!
# Which pointers a call accepts, and what a refusal leaves behind

`free` and `realloc` act on the payloads of live blocks and on nothing else, and a request that is
refused leaves the state as it was.
-/

namespace FtMalloc

open HeapLib TiledZone

/-- `ptr` is the payload of a live block. -/
def Payload (s : Heap) (ptr : ℕ) : Prop := ∃ b n, Live s b n ∧ ptr = b + headerSize

/-- Nothing but the list of kernel calls differs, and the same ranges are mapped. -/
structure Unchanged (s s' : Heap) : Prop where
  state : s' = { s with calls := s'.calls }
  ranges : replayAll s'.calls [] = replayAll s.calls []

variable {P : Platform} {s s' : Heap} {A : Arena P} {kernel : ℕ → Option ℕ} {e : Event}
  {b n ptr size r : ℕ}

/-! ## Payloads -/

/-- The payloads of a state that holds an arena. -/
theorem Holds.payload_iff (h : Holds s A) :
    Payload s ptr ↔ ∃ t ∈ A.live, ptr = t.addr + headerSize := by
  constructor
  · rintro ⟨b, n, hlive, rfl⟩
    exact ⟨_, (h.rep.live_iff A.spread).mp hlive, rfl⟩
  · rintro ⟨t, ht, rfl⟩
    have hself : (⟨t.addr, t.size, true⟩ : Tile) = t := by
      obtain ⟨z, -, hz⟩ := ht
      rw [← (mem_live.mp hz).2]
    exact ⟨t.addr, t.size, (h.rep.live_iff A.spread).mpr (hself.symm ▸ ht), rfl⟩

/-- A payload belongs to one block of one zone. -/
theorem Holds.eq_of_payload {v w : ZoneView} {e f : RegionView} (h : Holds s A) (hv : v ∈ view s)
    (he : e ∈ v.blocks) (hw : w ∈ view s) (hf : f ∈ w.blocks)
    (heq : e.addr + headerSize = f.addr + headerSize) : v = w ∧ e = f := by
  obtain ⟨z, hz, t, ht, rfl, rfl⟩ := h.rep.exists_tile A.spread hv he
  obtain ⟨y, hy, u, hu, rfl, rfl⟩ := h.rep.exists_tile A.spread hw hf
  obtain ⟨pre, z', post, -, -, hloc⟩ := A.exists_locate ⟨z, hz, ht⟩
  obtain ⟨pre', y', post', -, -, hloc'⟩ := A.exists_locate ⟨y, hy, hu⟩
  have haddr : t.addr + headerSize = u.addr + headerSize := heq
  rw [haddr, hloc'] at hloc
  cases hloc
  exact ⟨congrArg _ (A.eq_of_live hz hy ht hu), rfl⟩

/-- A block that is seen is located by its payload. -/
theorem Holds.exists_locate {v : ZoneView} {e : RegionView} (h : Holds s A) (hv : v ∈ view s)
    (he : e ∈ v.blocks) : ∃ pre z post t, v = .ofZone z ∧ e = .ofTile t ∧ z ∈ A.zones ∧
      t ∈ z.live ∧ Zones.locate (e.addr + headerSize) A.zones = some (pre, z, post, t) := by
  obtain ⟨z, hz, t, ht, rfl, rfl⟩ := h.rep.exists_tile A.spread hv he
  obtain ⟨pre, w, post, heq, htw, hloc⟩ := A.exists_locate ⟨z, hz, ht⟩
  obtain rfl := A.eq_of_live hz (by simp [heq]) ht htw
  exact ⟨pre, z, post, t, rfl, rfl, hz, ht, hloc⟩

/-- A size that is rounded to more than some bytes is not zero. -/
theorem pos_of_lt_roundUp (h : n < roundUp size) : 0 < size := by
  by_contra hzero
  obtain rfl : size = 0 := by omega
  have : roundUp 0 = 0 := by decide
  omega

/-- `realloc` of a block that cannot grow in place allocates elsewhere. -/
theorem Holds.realloc_eq_move (h : Holds s A) (hm : Moves s ptr size) :
    Zones.realloc P kernel ptr size A.zones =
      Zones.move P kernel ptr (roundUp size) A.zones := by
  obtain ⟨v, hv, e, he, rfl, hlt, hstuck⟩ := hm
  obtain ⟨pre, z, post, t, rfl, rfl, hz, ht, hloc⟩ := h.exists_locate hv he
  have hlt : t.size < roundUp size := hlt
  have hpos := pos_of_lt_roundUp hlt
  have hnone : Zones.growIn z t.addr (roundUp size) = none := by
    refine ((A.wf z hz).laid.growIn_eq_none ht).mpr (hstuck.imp ?_ ?_)
    · exact fun hne heq => hne (congrArg EType.code heq.symm)
    · rw [forward_ofZone, backward_ofZone]
      exact id
  rw [Zones.realloc_of_locate P kernel (by simp) hpos hloc, if_neg (by omega), hnone]

/-- A pointer that is no payload is not located. -/
theorem Holds.locate_eq_none (h : Holds s A) (hptr : ¬ Payload s ptr) :
    Zones.locate ptr A.zones = none :=
  A.locate_eq_none.mpr fun t ht heq => hptr (h.payload_iff.mpr ⟨t, ht, heq⟩)

/-- `free` of any other pointer does nothing at all. -/
theorem Holds.wp_free_of_not_payload (h : Holds s A) (hptr : ¬ Payload s ptr) :
    wp (free P ptr) (fun _ s' => s' = s) s :=
  wp_mono (h.rep.wp_free A h.unlocked) fun _ _ hpost => hpost.2 (h.locate_eq_none hptr)

/-- `free` of a payload ends the life of its block, and of no other. -/
theorem Holds.wp_free_of_live (h : Holds s A) (hlive : Live s b n) :
    wp (free P (b + headerSize)) (fun _ s' =>
      ∀ c k, Live s' c k ↔ Live s c k ∧ c ≠ b) s := by
  have ht := (h.rep.live_iff A.spread).mp hlive
  obtain ⟨A', calls, heq, hturn⟩ := A.free_turn ht
  apply wp_mono (h.rep.wp_free A h.unlocked)
  intro _ s' hpost
  have hbecame := hpost.1
  simp only at heq
  rw [heq] at hbecame
  intro c k
  rw [hbecame.rep.live_iff A'.spread, h.rep.live_iff A.spread]
  change (⟨c, k, true⟩ : Tile) ∈ A'.live ↔ (⟨c, k, true⟩ : Tile) ∈ A.live ∧ c ≠ b
  rw [hturn.live, Set.empty_union, Set.mem_sdiff, Set.mem_singleton_iff]
  refine and_congr_right fun hc => not_congr ⟨fun heq => by cases heq; rfl, fun heq => ?_⟩
  -- two live blocks at one address are the same block
  exact A.eq_of_addr_eq hc ht heq

/-- A payload is an address. -/
theorem Holds.payload_lt (h : Holds s A) (hptr : Payload s ptr) : ptr < 2 ^ 64 := by
  obtain ⟨t, ⟨z, hz, ht⟩, rfl⟩ := h.payload_iff.mp hptr
  have hin := A.live_inside hz ht
  have := (A.wf z hz).laid.bound
  simp only [headerSize]
  omega

/-- A pointer becomes a payload only when a call returns it. -/
theorem Holds.payload_step (h : Holds s A) (hstep : Step P s e s') (hptr : ¬ Payload s ptr)
    (hret : ∀ c, e ≠ .call c ptr) : ¬ Payload s' ptr := by
  cases hstep with
  | call c hc hk hrun =>
    obtain ⟨A', calls, old, new, heffect⟩ := h.exists_effect hk hrun
    intro hpay
    obtain ⟨t, ht, rfl⟩ := heffect.holds.payload_iff.mp hpay
    rw [heffect.turn.live] at ht
    rcases ht with ht | ht
    · exact hret c (heffect.come t ht ▸ rfl)
    · exact hptr (h.payload_iff.mpr ⟨t, ht.1, rfl⟩)
  | store v hlive hx =>
    exact fun hpay => hptr (h.payload_iff.mpr ((h.store v hlive hx).payload_iff.mp hpay))

/-- A pointer that is no payload stays none during a run in which no call returns it. -/
theorem Reachable.payload_run {tr : List (Transition Heap Event)} (h : Reachable P s)
    (hrun : Run (Step P) s tr s') (hptr : ¬ Payload s ptr)
    (hret : ∀ t ∈ tr, ∀ c, t.event ≠ .call c ptr) : ¬ Payload s' ptr := by
  have hinv := hrun.preserves (I := fun s => (∃ A : Arena P, Holds s A) ∧ ¬ Payload s ptr)
    ⟨h.exists_holds, hptr⟩ fun t ht hbefore hstep => by
      obtain ⟨⟨A, hA⟩, hnot⟩ := hbefore
      exact ⟨hA.step hstep, hA.payload_step hstep hnot (hret t ht)⟩
  exact hinv.2

/-- Freeing a pointer that is no payload does nothing, also later in a run in which no call returns
it. -/
theorem Reachable.wp_free_later {tr : List (Transition Heap Event)} (h : Reachable P s)
    (hptr : ¬ Payload s ptr) (hrun : Run (Step P) s tr s')
    (hret : ∀ t ∈ tr, ∀ c, t.event ≠ .call c ptr) :
    wp (free P ptr) (fun _ s'' => s'' = s') s' := by
  obtain ⟨A, hA⟩ := (h.run hrun).exists_holds
  exact hA.wp_free_of_not_payload (h.payload_run hrun hptr hret)

/-- A release is a step of a run. -/
theorem step_free {u : Unit} (hptr : ptr < 2 ^ 64) (hrun : free P ptr s = some (u, s')) :
    Step P s (.call (.free ptr) null) s' := by
  have hk : s.KernelOk P fun _ => none := fun _ _ hans => by cases hans
  have hwp : wp ((Call.free ptr).run P fun _ => none) (fun r t => r = null ∧ t = s') s := by
    rw [Call.run, wp_bind, wp_of_run hrun, wp_pure]
    exact ⟨rfl, rfl⟩
  obtain ⟨r, t, hrun', rfl, rfl⟩ := hwp
  exact .call _ hptr hk hrun'

/-- The allocator state seen after the end of a block differs from the one before. -/
theorem view_ne_of_live (hlive : Live s b n) (hgone : ¬ Live s' b n) : view s' ≠ view s := by
  intro heq
  apply hgone
  rw [Live, heq]
  exact hlive

/-- What `free` does to a pointer value, and what it does to it again. -/
structure Freed (P : Platform) (ptr : ℕ) (s s' : Heap) : Prop where
  changed : view s' ≠ view s ↔ Payload s ptr
  same : ¬ Payload s ptr → s' = s
  ended : ∀ b n, Live s b n → ptr = b + headerSize → ∀ c k, Live s' c k ↔ Live s c k ∧ c ≠ b
  again : ∀ tr s₂, Run (Step P) s' tr s₂ → (∀ t ∈ tr, ∀ c, t.event ≠ .call c ptr) →
    wp (free P ptr) (fun _ s₃ => s₃ = s₂) s₂

/-- `free` of a payload. -/
theorem Reachable.wp_free_payload (h : Reachable P s) (hlive : Live s b n) :
    wp (free P (b + headerSize)) (fun _ s' => Freed P (b + headerSize) s s') s := by
  obtain ⟨A, hA⟩ := h.exists_holds
  have hptr : Payload s (b + headerSize) := ⟨b, n, hlive, rfl⟩
  obtain ⟨u, s', hrun, hgone⟩ := hA.wp_free_of_live hlive
  have h' : Reachable P s' := h.run (Run.nil.snoc (step_free (hA.payload_lt hptr) hrun))
  have hnot : ¬ Payload s' (b + headerSize) := by
    rintro ⟨c, k, hc, heq⟩
    exact ((hgone c k).mp hc).2 (Nat.add_right_cancel heq).symm
  refine ⟨u, s', hrun, ⟨fun _ => hptr, fun _ => ?_⟩, fun hnp => absurd hptr hnp, ?_, ?_⟩
  · exact view_ne_of_live hlive fun hb => ((hgone b n).mp hb).2 rfl
  · intro c k _ heq
    obtain rfl : b = c := Nat.add_right_cancel heq
    exact hgone
  · exact fun tr s₂ htr hret => h'.wp_free_later hnot htr hret

/-- `free` of any other value. -/
theorem Reachable.wp_free_other (h : Reachable P s) (hptr : ¬ Payload s ptr) :
    wp (free P ptr) (fun _ s' => Freed P ptr s s') s := by
  obtain ⟨A, hA⟩ := h.exists_holds
  apply wp_mono (hA.wp_free_of_not_payload hptr)
  rintro _ s' rfl
  exact ⟨⟨fun hne => absurd rfl hne, fun hp => absurd hp hptr⟩, fun _ => rfl,
    fun b n hlive heq => absurd ⟨b, n, hlive, heq⟩ hptr,
    fun tr s₂ htr hret => h.wp_free_later hptr htr hret⟩

/-- `free` changes the allocator state exactly for the payloads of live blocks, and then ends the
life of that block only; freeing the pointer again does nothing as long as no call has returned it.
`realloc` to a size that is not zero returns null and changes nothing for every other pointer. -/
theorem pointers_validated (h : Reachable P s) (ptr : ℕ) :
    wp (free P ptr) (fun _ s' => Freed P ptr s s') s ∧
    ∀ kernel size, s.KernelOk P kernel → ptr ≠ null → ¬ Payload s ptr → 0 < size →
      wp (realloc P kernel ptr size) (fun r s' => r = null ∧ s' = s) s := by
  constructor
  · by_cases hptr : Payload s ptr
    · obtain ⟨b, n, hlive, rfl⟩ := hptr
      exact h.wp_free_payload hlive
    · exact h.wp_free_other hptr
  · intro kernel size hk hnull hptr hsize
    obtain ⟨A, hA⟩ := h.exists_holds
    have hout : Zones.realloc P kernel ptr size A.zones = ⟨null, A.zones, []⟩ :=
      A.realloc_eq_of_not_live hnull hsize fun t ht heq => hptr (hA.payload_iff.mpr ⟨t, ht, heq⟩)
    apply wp_mono (hA.rep.wp_realloc A hA.unlocked hk)
    intro r s' hpost
    obtain ⟨hres, -, hrefused, -⟩ := hpost
    rw [hout] at hres hrefused
    exact ⟨hres, hrefused (.inr hsize) hres⟩

/-- A block between two empty spaces. -/
theorem pointers_validated_witness : ∃ s, Reachable .unlimited s ∧ Payload s 65792 ∧
    ¬ Payload s 65648 ∧ wp (free .unlimited 65792) (fun _ s' => Freed .unlimited 65792 s s') s ∧
    wp (free .unlimited 65648) (fun _ s' => Freed .unlimited 65648 s s') s := by
  obtain ⟨s, A, h, hA, hzones⟩ := exists_reachable (P := .unlimited) 65536 (.malloc 100)
    [.malloc 64, .free 65648] (by decide) (by decide) (by decide) (by decide) (by decide)
  have hview := hA.rep.view_eq A.spread
  rw [hzones] at hview
  have hlive : Live s 65760 64 := by
    rw [Live, hview]
    decide +kernel
  have hdead : ¬ Payload s 65648 := by
    rintro ⟨b, n, hb, heq⟩
    have hb' : b = 65616 := by
      simp only [headerSize] at heq
      omega
    subst hb'
    obtain ⟨z, hz, e, he, haddr, -⟩ := hb
    have hnone : ∀ z ∈ view s, ∀ e ∈ z.blocks, e.addr ≠ 65616 := by
      rw [hview]
      decide +kernel
    exact hnone z hz e he haddr
  exact ⟨s, h, ⟨65760, 64, hlive, rfl⟩, hdead, (pointers_validated h 65792).1,
    (pointers_validated h 65648).1⟩

/-! ## Refused requests -/

/-- A refused request makes no lasting kernel call. -/
theorem Holds.unchanged {o : Outcome} {old : Set Tile} (h : Holds s A) (hserved : A.Served old n o)
    (hnull : o.result = null) (hs : s' = { s with calls := o.calls ++ s.calls }) :
    Unchanged s s' where
  state := by
    rw [hs]
  ranges := by
    cases hserved with
    | refused hturn =>
      rw [hs, replayAll_append, h.ledger]
      exact hturn.ledger.symm
    | block =>
      simp only [null, headerSize] at hnull
      omega

/-- A request that returns null, other than a release, leaves the allocator state and all memory as
they were, with no new mapping. -/
theorem refused_unchanged (h : Reachable P s) (hk : s.KernelOk P kernel) (ptr size : ℕ) :
    wp (malloc P kernel size) (fun r s' => r = null → Unchanged s s') s ∧
    (ptr ≠ null → 0 < size →
      wp (realloc P kernel ptr size) (fun r s' => r = null → Unchanged s s') s) := by
  obtain ⟨A, hA⟩ := h.exists_holds
  have hfresh := hA.rep.kernelFresh A.spread hk
  constructor
  · apply wp_mono (hA.rep.wp_malloc A hA.unlocked hk)
    intro r s' hpost hnull
    have hres := hpost.result.symm.trans hnull
    exact hA.unchanged (A.mallocWithin_served hfresh P.maxAllocSize size) hres (hpost.refused hres)
  · intro hptr hsize
    apply wp_mono (hA.rep.wp_realloc A hA.unlocked hk)
    intro r s' hpost hnull
    obtain ⟨hres, -, hrefused, -⟩ := hpost
    have hs := hrefused (.inr hsize) hnull
    by_cases hlive : Payload s ptr
    · obtain ⟨t, ht, rfl⟩ := hA.payload_iff.mp hlive
      exact hA.unchanged (A.realloc_served hfresh ht hsize) (hres.symm.trans hnull) hs
    · have hout : Zones.realloc P kernel ptr size A.zones = ⟨null, A.zones, []⟩ :=
        A.realloc_eq_of_not_live hptr hsize fun t ht heq => hlive (hA.payload_iff.mpr ⟨t, ht, heq⟩)
      rw [hout] at hs
      exact ⟨by rw [hs], by rw [hs]; rfl⟩

/-- A block that has to move when no zone can be mapped. -/
theorem refused_unchanged_witness : ∃ s, Reachable .unlimited s ∧ Payload s 65648 ∧
    wp (malloc .unlimited (fun _ => none) 5000) (fun r s' => r = null → Unchanged s s') s ∧
    wp (realloc .unlimited (fun _ => none) 65648 5000)
      (fun r s' => r = null → Unchanged s s') s := by
  obtain ⟨s, A, h, hA, hzones⟩ := exists_reachable (P := .unlimited) 65536 (.malloc 100)
    [] (by decide) (by decide) (by decide) (by decide) (by decide)
  have hlive : Live s 65616 112 := by
    rw [Live, hA.rep.view_eq A.spread, hzones]
    decide +kernel
  have hk : s.KernelOk .unlimited fun _ => none := fun _ _ hans => by cases hans
  have hboth := refused_unchanged h hk 65648 5000
  exact ⟨s, h, ⟨65616, 112, hlive, rfl⟩, hboth.1, hboth.2 (by decide) (by decide)⟩

end FtMalloc
