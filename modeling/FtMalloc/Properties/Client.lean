import FtMalloc.Client

/-!
# The heap as the client knows it

The client knows of the allocator that it owns blocks of bytes: `malloc` adds one, `free` gives one
up, `realloc` puts a block with the same first bytes in the place of another, and a store changes
one byte of one block. Every run of the process is a run of this machine with the same calls, results
and stores, so that a block holds what was last stored into it, whatever happens to all others.
-/

namespace FtMalloc

open HeapLib

/-- What the client knows of a call or a store. -/
inductive ClientStep : Store UInt8 → Event → Store UInt8 → Prop
  | malloc {C C' : Store UInt8} {size r : ℕ} (h : C.Alloc size r C') :
      ClientStep C (.call (.malloc size) r) C'
  | free {C : Store UInt8} (p : ℕ) : ClientStep C (.call (.free p) null) (C.drop p)
  | reallocNull {C C' : Store UInt8} {size r : ℕ} (h : C.Alloc size r C') :
      ClientStep C (.call (.realloc null size) r) C'
  | reallocZero {C : Store UInt8} {p : ℕ} (hp : p ≠ null) :
      ClientStep C (.call (.realloc p 0) null) (C.drop p)
  | realloc {C C' : Store UInt8} {p size r : ℕ} (hp : p ≠ null) (hsize : 0 < size)
      (h : C.Resize p size r C') : ClientStep C (.call (.realloc p size) r) C'
  | store {C : Store UInt8} {p i : ℕ} {bs : List UInt8} (v : UInt8) (hp : C p = some bs)
      (hi : i < bs.length) : ClientStep C (.store (p + i) v) (C.put p (bs.set i v))

/-- The bytes of the block `p` after an event that leaves it to the client. -/
def written (p : ℕ) (bs : List UInt8) : Event → List UInt8
  | .call _ _ => bs
  | .store x v => if p ≤ x ∧ x < p + bs.length then bs.set (x - p) v else bs

variable {P : Platform} {s s₀ s' : Heap} {C C' : Store UInt8} {e : Event} {p r : ℕ}
  {bs : List UInt8} {tr : List (Transition Heap Event)}

/-! ## Refinement -/

/-- Before the first call the client owns nothing. -/
theorem Start.client (h : Start s) : s.client = fun _ => none := by
  have hA : Holds s (Arena.empty .unlimited) := h.holds
  refine funext fun p => hA.client_eq_none.mpr ?_
  rintro t ⟨z, hz, -⟩
  exact absurd hz List.not_mem_nil

/-- A call does to the blocks of the client what the client knows of it. -/
theorem Heap.Sound.client_call {kernel : ℕ → Option ℕ} (h : s.Sound P) (hk : s.KernelOk P kernel)
    (c : Call) : wp (c.run P kernel) (fun r s' => s'.Sound P ∧
      ClientStep s.client (.call c r) s'.client) s := by
  cases c with
  | malloc size => exact wp_mono (h.wp_malloc hk size) fun r s' hr => ⟨hr.1, .malloc hr.2⟩
  | free p =>
    rw [Call.run, wp_bind]
    refine wp_mono (h.wp_free p) fun _ s' hr => ?_
    rw [wp_pure, hr.2]
    exact ⟨hr.1, .free p⟩
  | realloc p size =>
    by_cases hp : p = null
    · subst hp
      exact wp_mono (h.wp_malloc hk size) fun r s' hr => ⟨hr.1, .reallocNull hr.2⟩
    · by_cases hsize : size = 0
      · subst hsize
        rw [Call.run, FtMalloc.realloc, wp_ite_neg hp, wp_ite_pos rfl, wp_bind]
        refine wp_mono (h.wp_free p) fun _ s' hr => ?_
        rw [wp_pure, hr.2]
        exact ⟨hr.1, .reallocZero hp⟩
      · have hpos : 0 < size := Nat.pos_of_ne_zero hsize
        exact wp_mono (h.wp_realloc hk hp hpos) fun r s' hr => ⟨hr.1, .realloc hp hpos hr.2⟩

/-- A live block is a block of the client. -/
theorem Heap.Sound.client_live {b n : ℕ} (h : s.Sound P) (hlive : Live s b n) :
    ∃ bs, s.client (b + headerSize) = some bs ∧ bs.length = n := by
  obtain ⟨A, hA⟩ := h
  have ht := (hA.rep.live_iff A.spread).mp hlive
  exact ⟨_, hA.client_payload ht, length_contents⟩

/-- Every step of the process is one that the client knows. -/
theorem Heap.Sound.client_step (h : s.Sound P) (hstep : Step P s e s') :
    s'.Sound P ∧ ClientStep s.client e s'.client := by
  cases hstep with
  | call c _ hk hrun => exact (wp_of_run hrun).mp (h.client_call hk c)
  | @store b n x v hlive hx =>
    obtain ⟨bs, hbs, hlen⟩ := h.client_live hlive
    obtain ⟨i, rfl⟩ := Nat.exists_eq_add_of_le hx.1
    have hi : i < bs.length := by omega
    have hvalid : s.Valid (b + headerSize + i) 1 :=
      (h.valid hbs).sub (Nat.le_add_right _ i) (by omega)
    have hwrite : (fun y => if y = b + headerSize + i then v else s.mem y) =
        writeLE s.mem (b + headerSize + i) 1 v.toNat := by
      funext y
      rw [writeLE]
      by_cases hy : y = b + headerSize + i
      · subst hy
        rw [if_pos rfl, if_pos (by omega), Nat.sub_self, pow_zero, Nat.div_one, UInt8.ofNat_toNat]
      · rw [if_neg hy, if_neg (by omega)]
    have hstore := h.wp_store (v := v.toNat) (k := 1) (Q := fun _ s' => s'.Sound P ∧
      ClientStep s.client (.store (b + headerSize + i) v) s'.client) hbs hi fun s' hs' heq => by
        refine ⟨hs', ?_⟩
        rw [heq, leBytes_one, splice_singleton v hi]
        exact .store v hbs hi
    rw [hwrite]
    exact (FtMalloc.wp_store hvalid).mp hstore

/-- Every run of the process is a run of the machine of the client, with the same calls, results and
stores; and the blocks of the client never share a byte. -/
theorem client_refined (hstart : Start s₀) (hrun : Run (Step P) s₀ tr s) :
    ∃ tr', Run ClientStep (fun _ => none) tr' s.client ∧
      tr'.map Transition.event = tr.map Transition.event ∧ s.client.Apart := by
  have hsound : s₀.Sound P := ⟨_, hstart.holds⟩
  have hmatched : ∃ tr' C, Run ClientStep s₀.client tr' C ∧
      observed (fun e => [e]) tr' = observed (fun e => [e]) tr ∧ (s.Sound P ∧ s.client = C) := by
    refine hrun.simulate (fun s C => s.Sound P ∧ s.client = C) ⟨hsound, rfl⟩ ?_
    rintro s e s₁ _ ⟨h, rfl⟩ hstep
    obtain ⟨h₁, hclient⟩ := h.client_step hstep
    exact ⟨_, _, Run.single hclient, rfl, h₁, rfl⟩
  obtain ⟨tr', C, hrun', hseen, h, rfl⟩ := hmatched
  rw [hstart.client] at hrun'
  rw [observed_all, observed_all] at hseen
  exact ⟨tr', hrun', hseen, h.apart⟩

/-- A run that ends with a block of 16 bytes, and a store into it. -/
theorem exists_owned : ∃ (s s' : Heap) (bs : List UInt8), Reachable .unlimited s ∧
    s.client 65648 = some bs ∧ bs.length = 16 ∧ Step .unlimited s (.store 65650 7) s' := by
  obtain ⟨s, A, h, hA, hzones⟩ := exists_reachable (P := .unlimited) 65536 (.malloc 8) []
    (by decide) (by decide) (by decide) (by decide) nofun
  have hlive : Live s 65616 16 := by
    rw [Live, hA.rep.view_eq A.spread, hzones]
    decide +kernel
  obtain ⟨bs, hbs, hlen⟩ := h.sound.client_live hlive
  have hx : 65616 + headerSize ≤ 65650 ∧ 65650 < 65616 + headerSize + 16 := by decide
  exact ⟨s, _, bs, h, hbs, hlen, .store 7 hlive hx⟩

/-- A run that has served a request. -/
theorem client_refined_witness : ∃ (s₀ s : Heap) (tr : List (Transition Heap Event)),
    Start s₀ ∧ Run (Step .unlimited) s₀ tr s ∧ s.client 65648 ≠ none ∧
      ∃ tr', Run ClientStep (fun _ => none) tr' s.client ∧
        tr'.map Transition.event = tr.map Transition.event ∧ s.client.Apart := by
  obtain ⟨s, -, bs, ⟨s₀, tr, hstart, hrun⟩, hbs, -, -⟩ := exists_owned
  exact ⟨s₀, s, tr, hstart, hrun, Option.ne_none_iff_exists'.mpr ⟨bs, hbs⟩,
    client_refined hstart hrun⟩

/-! ## What a block holds -/

/-- An event that does not pass the block to a call writes into it what it stores there. -/
theorem ClientStep.written (h : ClientStep C e C') (hapart : C.Apart) (hp : C p = some bs)
    (hkeep : ∀ c r, e = .call c r → c.ptr ≠ p) : C' p = some (written p bs e) := by
  have halloc {n r : ℕ} {C' : Store UInt8} (h : C.Alloc n r C') : C' p = some bs := by
    cases h with
    | refused => exact hp
    | granted _ hfresh _ _ =>
      rw [Store.put_of_ne fun heq => by rw [heq, hfresh] at hp; cases hp]
      exact hp
  cases h with
  | malloc h => exact halloc h
  | reallocNull h => exact halloc h
  | free q =>
    have hne : q ≠ p := hkeep _ _ rfl
    exact (Store.drop_of_ne hne.symm).trans hp
  | @reallocZero q hq =>
    have hne : q ≠ p := hkeep _ _ rfl
    exact (Store.drop_of_ne hne.symm).trans hp
  | @realloc _ q size r hq hsize h =>
    have hne : q ≠ p := hkeep _ _ rfl
    cases h with
    | refused => exact hp
    | granted _ _ hfresh _ _ _ =>
      have hdrop : C.drop q p = some bs := (Store.drop_of_ne hne.symm).trans hp
      rw [Store.put_of_ne fun heq => by rw [heq, hfresh] at hdrop; cases hdrop]
      exact hdrop
  | @store q i cs v hq hi =>
    rw [FtMalloc.written]
    by_cases hpq : p = q
    · subst hpq
      obtain rfl : bs = cs := Option.some.inj (hp.symm.trans hq)
      rw [Store.put_same, if_pos ⟨by omega, by omega⟩, Nat.add_sub_cancel_left]
    · have := hapart p q bs cs hpq hp hq
      rw [Store.put_of_ne hpq, hp, if_neg (by omega)]

/-- In every run a block that is not passed to a call keeps its place and its size, and holds what
was stored into it last: no call on another block, and no store into one, changes it. -/
theorem payload_persists (h : Reachable P s) (hp : s.client p = some bs)
    (hrun : Run (Step P) s tr s') (hkeep : ∀ t ∈ tr, ∀ c r, t.event = .call c r → c.ptr ≠ p) :
    s'.client p = some (tr.foldl (fun bs t => written p bs t.event) bs) := by
  have hrest : ∀ {tr : List (Transition Heap Event)} {s' : Heap}, Run (Step P) s tr s' →
      (∀ t ∈ tr, ∀ c r, t.event = .call c r → c.ptr ≠ p) → s'.Sound P ∧
        s'.client p = some (tr.foldl (fun bs t => written p bs t.event) bs) := by
    intro tr s' hrun hkeep
    induction hrun with
    | nil => exact ⟨h.sound, hp⟩
    | snoc _ hstep ih =>
      obtain ⟨hsound, hbefore⟩ := ih fun t ht => hkeep t (List.mem_append_left _ ht)
      obtain ⟨hsound', hclient⟩ := hsound.client_step hstep
      have hlast := hkeep _ (List.mem_append_right _ (List.mem_singleton_self _))
      rw [List.foldl_append]
      exact ⟨hsound', hclient.written hsound.apart hbefore hlast⟩
  exact (hrest hrun hkeep).2

/-- A store into the block. -/
theorem payload_persists_witness : ∃ (s s' : Heap) (bs : List UInt8), Reachable .unlimited s ∧
    bs.length = 16 ∧ s'.client 65648 = some (bs.set 2 7) := by
  obtain ⟨s, s', bs, h, hbs, hlen, hstep⟩ := exists_owned
  refine ⟨s, s', bs, h, hlen, ?_⟩
  rw [payload_persists h hbs (Run.single hstep) fun t ht c r heq => by
    rw [List.mem_singleton.mp ht] at heq
    cases heq]
  change some (if 65648 ≤ 65650 ∧ 65650 < 65648 + bs.length then _ else _) = _
  rw [if_pos (by omega)]

end FtMalloc
