import FtMalloc.Runs

/-!
# What a block has to spare

A block is as large as the last request that returned its payload asked for, and what it has to
spare is never enough for another block, however it came about. Blocks of the small classes stay
close to the limit of their class.
-/

namespace FtMalloc

open HeapLib TiledZone

/-- The size that was asked for, when the event is a call that returns `ptr`. -/
def Event.request (ptr : ℕ) : Event → Option ℕ
  | call c result => if result = ptr then some c.size else none
  | store _ _ => none

/-- The size that the last call that returned `ptr` was asked for. -/
def lastRequest (ptr : ℕ) (tr : List (Transition Heap Event)) : Option ℕ :=
  tr.reverse.findSome? fun t => t.event.request ptr

/-- Blocks of the small classes are less than `MIN_SPLIT_SIZE` above the limit of the class. -/
def WithinClass (type : EType) (n : ℕ) : Prop :=
  (type = .tiny → n < tinyDataMax + minSplitSize) ∧ (type = .small → n < smallDataMax + minSplitSize)

/-- Every block serves the last request that returned it, within its class. -/
structure Fitted {P : Platform} (A : Arena P) (tr : List (Transition Heap Event)) : Prop where
  snug : ∀ t ∈ A.live, ∃ r, lastRequest (t.addr + headerSize) tr = some r ∧ Snug (roundUp r) t.size
  within : ∀ z ∈ A.zones, ∀ t ∈ z.live, WithinClass z.type t.size

variable {P : Platform} {s₀ s s' : Heap} {A A' : Arena P} {z : TiledZone} {t : Tile}
  {tr : List (Transition Heap Event)} {e : Event} {c : Call} {calls : List Syscall}
  {old new : Set Tile} {ptr n k r : ℕ}

/-! ## The last request -/

/-- The last transition decides, if it returns the pointer. -/
theorem lastRequest_snoc_of_eq (h : e.request ptr = some n) :
    lastRequest ptr (tr ++ [⟨s, e, s'⟩]) = some n := by
  rw [lastRequest, List.reverse_append, List.reverse_singleton, List.singleton_append,
    List.findSome?_cons, h]

/-- A last transition that does not return the pointer changes nothing. -/
theorem lastRequest_snoc_of_none (h : e.request ptr = none) :
    lastRequest ptr (tr ++ [⟨s, e, s'⟩]) = lastRequest ptr tr := by
  rw [lastRequest, List.reverse_append, List.reverse_singleton, List.singleton_append,
    List.findSome?_cons, h, lastRequest]

/-- A block that serves a request of the class of its zone is within the class. -/
theorem withinClass_of_snug (h : Snug n k) : WithinClass (getZoneType n) k := by
  obtain ⟨-, hlt⟩ := h
  rcases getZoneType_cases n with ⟨htype, -, hle⟩ | ⟨htype, -, hle⟩ | ⟨htype, -⟩
  · rw [htype]
    refine ⟨fun _ => ?_, fun h => absurd h (by decide)⟩
    simp only [tinyDataMax, alignment] at *
    omega
  · rw [htype]
    refine ⟨fun h => absurd h (by decide), fun _ => ?_⟩
    simp only [smallDataMax, tinyDataMax, alignment] at *
    omega
  · rw [htype]
    exact ⟨fun h => absurd h (by decide), fun h => absurd h (by decide)⟩

/-- A smaller block is within the class too. -/
theorem WithinClass.of_le {type : EType} (h : WithinClass type n) (hle : k ≤ n) :
    WithinClass type k :=
  ⟨fun htype => hle.trans_lt (h.1 htype), fun htype => hle.trans_lt (h.2 htype)⟩

/-! ## Steps -/

/-- The pointer that a call returns is the payload of no block that the call keeps. -/
theorem Effect.ne_payload (h : Effect c r s s' A A' calls old new) (hgrants : c.Grants A A' r new)
    (ht : t ∈ A.live \ old) : r ≠ t.addr + headerSize := by
  rintro rfl
  rcases hgrants with ⟨hnull, -⟩ | ⟨u, rfl, heq, -⟩
  · simp at hnull
  · have hu : u ∈ A'.live := h.turn.live ▸ .inl rfl
    have ht' : t ∈ A'.live := h.turn.live ▸ .inr ht
    have htu := A'.eq_of_addr_eq ht' hu (Nat.add_right_cancel heq)
    exact Set.disjoint_left.mp h.turn.fresh rfl (htu ▸ ht)

/-- A call keeps the blocks fitted. -/
theorem Fitted.call (hfit : Fitted A tr) (h : Effect c r s s' A A' calls old new)
    (hgrants : c.Grants A A' r new) : Fitted A' (tr ++ [⟨s, .call c r, s'⟩]) where
  snug := by
    intro t ht
    rw [h.turn.live] at ht
    rcases ht with ht | ht
    · rcases hgrants with ⟨-, rfl⟩ | ⟨u, rfl, rfl, hsnug, -⟩
      · exact absurd ht (Set.notMem_empty t)
      · obtain rfl : t = u := ht
        exact ⟨c.size, lastRequest_snoc_of_eq (if_pos rfl), hsnug⟩
    · obtain ⟨n, hlast, hsnug⟩ := hfit.snug t ht.1
      have hother : (Event.call c r).request (t.addr + headerSize) = none :=
        if_neg (h.ne_payload hgrants ht)
      exact ⟨n, by rw [lastRequest_snoc_of_none hother, hlast], hsnug⟩
  within := by
    intro z' hz' t ht
    have hmem : t ∈ A'.live := ⟨z', hz', ht⟩
    rw [h.turn.live] at hmem
    rcases hmem with hnew | ⟨⟨z, hz, htz⟩, hold⟩
    · rcases hgrants with ⟨-, rfl⟩ | ⟨u, rfl, -, hsnug, hadmitted⟩
      · exact absurd hnew (Set.notMem_empty t)
      · obtain rfl : t = u := hnew
        rcases hadmitted z' hz' ht with htype | ⟨z, hz, htype, u, hu, hle⟩
        · exact htype ▸ withinClass_of_snug hsnug
        · exact htype ▸ (hfit.within z hz u hu).of_le hle
    · have hframe := h.turn.frame_eq hz htz hold hz' ht
      simp only [TiledZone.frame, Prod.mk.injEq] at hframe
      exact hframe.2.2 ▸ hfit.within z hz t htz

/-- A store of the client keeps the blocks fitted. -/
theorem Fitted.store {x : ℕ} {v : UInt8} (hfit : Fitted A tr) :
    Fitted A (tr ++ [⟨s, .store x v, s'⟩]) where
  snug := by
    intro t ht
    obtain ⟨n, hlast, hsnug⟩ := hfit.snug t ht
    exact ⟨n, by rw [lastRequest_snoc_of_none rfl, hlast], hsnug⟩
  within := hfit.within

/-- The blocks are fitted after every run. -/
theorem Start.exists_fitted (hstart : Start s₀) (hrun : Run (Step P) s₀ tr s) :
    ∃ A : Arena P, Holds s A ∧ Fitted A tr := by
  induction hrun with
  | nil =>
    refine ⟨Arena.empty P, hstart.holds, ?_, fun z hz => absurd hz List.not_mem_nil⟩
    rintro t ⟨z, hz, -⟩
    exact absurd hz List.not_mem_nil
  | snoc hrun hstep ih =>
    obtain ⟨A, hA, hfit⟩ := ih
    cases hstep with
    | call c _ hk hcall =>
      obtain ⟨A', calls, old, new, heffect, hgrants⟩ := hA.exists_grant hk hcall
      exact ⟨A', heffect.holds, hfit.call heffect hgrants⟩
    | store v hlive hx => exact ⟨A, hA.store v hlive hx, hfit.store⟩

/-- After every run, for every live block: the last call that returned its payload was asked for a
size that the block serves with less than `MIN_SPLIT_SIZE` to spare, and in a zone of a small class
the block is less than `MIN_SPLIT_SIZE` above the limit of the class. -/
theorem capacity_bounded (hstart : Start s₀) (hrun : Run (Step P) s₀ tr s) :
    ∀ v ∈ view s, ∀ e ∈ v.blocks,
      (∃ r, lastRequest (e.addr + headerSize) tr = some r ∧
        roundUp r ≤ e.size ∧ e.size < roundUp r + minSplitSize) ∧
      (v.type = EType.tiny.code → e.size < tinyDataMax + minSplitSize) ∧
      (v.type = EType.small.code → e.size < smallDataMax + minSplitSize) := by
  obtain ⟨A, hA, hfit⟩ := hstart.exists_fitted hrun
  intro v hv e he
  obtain ⟨z, hz, t, ht, rfl, rfl⟩ := hA.rep.exists_tile A.spread hv he
  have hwithin := hfit.within z hz t ht
  exact ⟨hfit.snug t ⟨z, hz, ht⟩, fun htype => hwithin.1 (EType.code_injective htype),
    fun htype => hwithin.2 (EType.code_injective htype)⟩

/-- A block that inherits the rest of an empty space and is then shrunk in place. -/
theorem capacity_bounded_witness : ∃ s₀ tr s, Start s₀ ∧ Run (Step .unlimited) s₀ tr s ∧
    (∃ v ∈ view s, v.blocks.map RegionView.size = [144, 16]) ∧ ∀ v ∈ view s, ∀ e ∈ v.blocks,
      (∃ r, lastRequest (e.addr + headerSize) tr = some r ∧
        roundUp r ≤ e.size ∧ e.size < roundUp r + minSplitSize) ∧
      (v.type = EType.tiny.code → e.size < tinyDataMax + minSplitSize) ∧
      (v.type = EType.small.code → e.size < smallDataMax + minSplitSize) := by
  obtain ⟨s, A, h, hA, hzones⟩ := exists_reachable (P := .unlimited) 65536 (.malloc 144)
    [.malloc 16, .free 65648, .malloc 112, .realloc 65648 100] (by decide) (by decide) (by decide)
    (by decide) (by decide)
  obtain ⟨s₀, tr, hstart, hrun⟩ := h
  refine ⟨s₀, tr, s, hstart, hrun, ?_, capacity_bounded hstart hrun⟩
  rw [hA.rep.view_eq A.spread, hzones]
  decide +kernel

end FtMalloc
