import FtMalloc.Runs

/-!
# Contents do not matter

The headers of the allocator and the payloads of the clients lie in one memory. Two processes make
the same calls, with the same answers of the kernel, while their clients store what they like, and
start from any memory. The calls return the same pointers, and the zones have the same fields and
lists: nothing of what a client stores, and no byte that the allocator has not written itself, is
ever read as a header.
-/

namespace FtMalloc

open HeapLib

/-- What happens to two processes: the same call, or a store of one of the clients. -/
inductive TwinEvent
  | call (c : Call) (left right : ℕ)
  | storeLeft (x : ℕ) (v : UInt8)
  | storeRight (x : ℕ) (v : UInt8)

/-- A step of two processes. The kernel gives both the same answers. -/
inductive TwinStep (P : Platform) : Heap × Heap → TwinEvent → Heap × Heap → Prop
  | call {s s' t t' : Heap} {kernel : ℕ → Option ℕ} {left right : ℕ} (c : Call) (hc : c.InRange)
      (hs : s.KernelOk P kernel) (ht : t.KernelOk P kernel)
      (hleft : c.run P kernel s = some (left, s')) (hright : c.run P kernel t = some (right, t')) :
      TwinStep P (s, t) (.call c left right) (s', t')
  | storeLeft {s s' t : Heap} {x : ℕ} {v : UInt8} (h : Step P s (.store x v) s') :
      TwinStep P (s, t) (.storeLeft x v) (s', t)
  | storeRight {s t t' : Heap} {x : ℕ} {v : UInt8} (h : Step P t (.store x v) t') :
      TwinStep P (s, t) (.storeRight x v) (s, t')

/-- The results of a call are the same. -/
def TwinEvent.Agree : TwinEvent → Prop
  | call _ left right => left = right
  | storeLeft _ _ => True
  | storeRight _ _ => True

/-- Two states that differ at most in what no header holds. -/
structure Twin (P : Platform) (st : Heap × Heap) (A : Arena P) : Prop where
  left : Holds st.1 A
  right : Holds st.2 A
  calls : st.1.calls = st.2.calls

variable {P : Platform} {s s' s₀ t₀ : Heap} {st st' : Heap × Heap} {A : Arena P} {e : TwinEvent}
  {tr : List (Transition (Heap × Heap) TwinEvent)}

/-- A store keeps the arena and makes no kernel call. -/
theorem Holds.stored {x : ℕ} {v : UInt8} (h : Holds s A) (hstep : Step P s (.store x v) s') :
    Holds s' A ∧ s'.calls = s.calls := by
  cases hstep with
  | store v hlive hx => exact ⟨h.store v hlive hx, rfl⟩

/-- Every step keeps the two states alike, and its results agree. -/
theorem Twin.step (h : Twin P st A) (hstep : TwinStep P st e st') :
    e.Agree ∧ ∃ A', Twin P st' A' := by
  cases hstep with
  | call c _ hs ht hleft hright =>
    obtain ⟨hres₁, hbecame₁, A₁, hA₁, hz₁⟩ := (wp_of_run hleft).mp (h.left.wp_outcome hs c)
    obtain ⟨hres₂, hbecame₂, A₂, hA₂, hz₂⟩ := (wp_of_run hright).mp (h.right.wp_outcome ht c)
    have hzones : A₂.zones = A₁.zones := hz₂.trans hz₁.symm
    have hrep := hA₂.rep
    have hledger := hA₂.ledger
    rw [hzones] at hrep hledger
    refine ⟨hres₁.trans hres₂.symm, A₁, hA₁, ⟨hrep, hA₂.unlocked, hledger, hA₂.unwrapped⟩, ?_⟩
    rw [hbecame₁.calls, hbecame₂.calls]
    exact congrArg _ h.calls
  | storeLeft hstore =>
    obtain ⟨hleft, hcalls⟩ := h.left.stored hstore
    exact ⟨trivial, A, hleft, h.right, hcalls.trans h.calls⟩
  | storeRight hstore =>
    obtain ⟨hright, hcalls⟩ := h.right.stored hstore
    exact ⟨trivial, A, h.left, hright, h.calls.trans hcalls.symm⟩

/-- Every run keeps the two states alike. -/
theorem Twin.run (h : Twin P st A) (hrun : Run (TwinStep P) st tr st') :
    (∀ t ∈ tr, t.event.Agree) ∧ ∃ A', Twin P st' A' := by
  induction hrun with
  | nil => exact ⟨fun t ht => absurd ht List.not_mem_nil, A, h⟩
  | snoc _ hstep ih =>
    obtain ⟨hagree, A₁, h₁⟩ := ih
    obtain ⟨hlast, h₂⟩ := h₁.step hstep
    refine ⟨fun t ht => ?_, h₂⟩
    cases List.mem_append.mp ht with
    | inl ht => exact hagree t ht
    | inr ht =>
      rw [List.mem_singleton.mp ht]
      exact hlast

end FtMalloc
