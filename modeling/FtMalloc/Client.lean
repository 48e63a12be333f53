import FtMalloc.Lib.BlockStore
import FtMalloc.Runs

/-!
# What the client sees of the heap

`s.client` maps the payload of every live block to its bytes. A state is sound if it holds an arena.
From every sound state each public call leads to a sound one, and does to the blocks of the client
what its specification says; loads and stores inside a block read and overwrite its bytes.
-/

namespace FtMalloc

open HeapLib TiledZone

/-- The live blocks of a heap, by their payload. -/
def Heap.client (s : Heap) : Store UInt8 := fun p =>
  (((view s).flatMap ZoneView.blocks).find? fun e => decide (e.addr + headerSize = p)).map fun e =>
    contents s.mem p e.size

/-- The state holds an arena. -/
def Heap.Sound (P : Platform) (s : Heap) : Prop := ∃ A : Arena P, Holds s A

variable {P : Platform} {s s' : Heap} {A A' : Arena P} {kernel : ℕ → Option ℕ} {old new : Set Tile}
  {t u : Tile} {calls : List Syscall} {p q i k v n size : ℕ} {bs : List UInt8}

/-! ## Blocks -/

/-- The client owns the payloads of the live blocks. -/
theorem Holds.client_eq_some (h : Holds s A) : s.client p = some bs ↔
    ∃ t ∈ A.live, p = t.addr + headerSize ∧ bs = contents s.mem p t.size := by
  have hblocks (e : RegionView) : e ∈ (view s).flatMap ZoneView.blocks ↔
      ∃ t ∈ A.live, e = .ofTile t := by
    rw [List.mem_flatMap]
    constructor
    · rintro ⟨v, hv, he⟩
      obtain ⟨z, hz, t, ht, -, rfl⟩ := h.rep.exists_tile A.spread hv he
      exact ⟨t, ⟨z, hz, ht⟩, rfl⟩
    · rintro ⟨t, ⟨z, hz, ht⟩, rfl⟩
      exact ⟨.ofZone z, (h.rep.mem_view A.spread).mpr ⟨z, hz, rfl⟩, List.mem_map_of_mem ht⟩
  rw [Heap.client, Option.map_eq_some_iff]
  constructor
  · rintro ⟨e, he, rfl⟩
    obtain ⟨t, ht, rfl⟩ := (hblocks e).mp (List.mem_of_find?_eq_some he)
    have haddr := List.find?_some he
    exact ⟨t, ht, (of_decide_eq_true haddr).symm, rfl⟩
  · rintro ⟨t, ht, rfl, rfl⟩
    have hsome : (((view s).flatMap ZoneView.blocks).find? fun e =>
        decide (e.addr + headerSize = t.addr + headerSize)).isSome := by
      rw [List.find?_isSome]
      exact ⟨_, (hblocks _).mpr ⟨t, ht, rfl⟩, decide_eq_true rfl⟩
    obtain ⟨e, he⟩ := Option.isSome_iff_exists.mp hsome
    obtain ⟨u, hu, rfl⟩ := (hblocks e).mp (List.mem_of_find?_eq_some he)
    have haddr := List.find?_some he
    obtain rfl : u = t :=
      A.eq_of_addr_eq hu ht (Nat.add_right_cancel (of_decide_eq_true haddr))
    exact ⟨_, he, rfl⟩

/-- The client owns the payload of a live block. -/
theorem Holds.client_payload (h : Holds s A) (ht : t ∈ A.live) :
    s.client (t.addr + headerSize) = some (contents s.mem (t.addr + headerSize) t.size) :=
  h.client_eq_some.mpr ⟨t, ht, rfl, rfl⟩

/-- The client owns nothing else. -/
theorem Holds.client_eq_none (h : Holds s A) :
    s.client p = none ↔ ∀ t ∈ A.live, p ≠ t.addr + headerSize := by
  rw [Option.eq_none_iff_forall_ne_some]
  constructor
  · rintro hnone t ht rfl
    exact hnone _ (h.client_payload ht)
  · intro hnot bs hbs
    obtain ⟨t, ht, hp, -⟩ := h.client_eq_some.mp hbs
    exact hnot t ht hp

/-- The blocks of the client share no byte. -/
theorem Holds.client_apart (h : Holds s A) : s.client.Apart := by
  intro p q bs cs hne hp hq
  obtain ⟨t, ht, rfl, rfl⟩ := h.client_eq_some.mp hp
  obtain ⟨u, hu, rfl, rfl⟩ := h.client_eq_some.mp hq
  have htu : t ≠ u := fun heq => hne (heq ▸ rfl)
  rw [length_contents, length_contents]
  have h₁ := A.live_apart ht hu htu (x := t.addr) (Nat.le_refl _)
    (by simp only [Tile.stop, headerSize]; omega)
  have h₂ := A.live_apart hu ht htu.symm (x := u.addr) (Nat.le_refl _)
    (by simp only [Tile.stop, headerSize]; omega)
  simp only [Tile.stop, headerSize] at *
  omega

/-! ## Turns -/

/-- Blocks that a turn does not exchange are as they were. -/
theorem Holds.client_kept (h : Holds s A) (h' : Holds s' A') (hturn : A.Turn A' calls old new)
    (hspared : Spared A.live A'.live s.mem s'.mem) (hold : ∀ t ∈ old, p ≠ t.addr + headerSize)
    (hnew : ∀ t ∈ new, p ≠ t.addr + headerSize) : s'.client p = s.client p := by
  cases hp : s.client p with
  | none =>
    rw [h.client_eq_none] at hp
    rw [h'.client_eq_none, hturn.live]
    rintro t (ht | ht)
    · exact hnew t ht
    · exact hp t ht.1
  | some bs =>
    obtain ⟨t, ht, rfl, rfl⟩ := h.client_eq_some.mp hp
    have ht' : t ∈ A'.live := by
      rw [hturn.live]
      exact .inr ⟨ht, fun hmem => hold t hmem rfl⟩
    rw [h'.client_payload ht']
    refine congrArg some (contents_congr fun i hi => ?_)
    exact hspared.content ht ht' rfl (Nat.le_refl _) i hi hi

/-- A turn that exchanges nothing leaves the client its blocks. -/
theorem Holds.client_idle (h : Holds s A) (h' : Holds s' A') (hturn : A.Turn A' calls ∅ ∅)
    (hspared : Spared A.live A'.live s.mem s'.mem) : s'.client = s.client :=
  funext fun _ => h.client_kept h' hturn hspared nofun nofun

/-- A turn that gives up a block. -/
theorem Holds.client_drop (h : Holds s A) (h' : Holds s' A') (hturn : A.Turn A' calls {t} ∅)
    (hspared : Spared A.live A'.live s.mem s'.mem) (ht : t ∈ A.live) :
    s'.client = s.client.drop (t.addr + headerSize) := by
  funext p
  by_cases hp : p = t.addr + headerSize
  · subst hp
    rw [Store.drop_same, h'.client_eq_none, hturn.live, Set.empty_union]
    intro u hu heq
    exact hu.2 (A.eq_of_addr_eq hu.1 ht (Nat.add_right_cancel heq.symm))
  · rw [Store.drop_of_ne hp]
    refine h.client_kept h' hturn hspared (fun u hu => ?_) nofun
    rwa [Set.mem_singleton_iff.mp hu]

/-- A turn that adds the block `u` in the place of some others. -/
theorem Holds.client_put (h : Holds s A) (h' : Holds s' A') (hturn : A.Turn A' calls old {u})
    (hspared : Spared A.live A'.live s.mem s'.mem) (hq : q = u.addr + headerSize)
    {C : Store UInt8} (hC : ∀ p, (∀ t ∈ old, p ≠ t.addr + headerSize) → C p = s.client p)
    (hold : ∀ t ∈ old, t ∈ A.live ∧ C (t.addr + headerSize) = none) :
    C q = none ∧ s'.client = C.put q (contents s'.mem q u.size) := by
  subst hq
  have hu : u ∈ A'.live := by
    rw [hturn.live]
    exact .inl rfl
  constructor
  · by_cases hex : ∃ t ∈ old, u.addr + headerSize = t.addr + headerSize
    · obtain ⟨t, ht, heq⟩ := hex
      rw [heq]
      exact (hold t ht).2
    · have hnot : ∀ t ∈ old, u.addr + headerSize ≠ t.addr + headerSize := fun t ht heq =>
        hex ⟨t, ht, heq⟩
      rw [hC _ hnot, h.client_eq_none]
      intro t ht heq
      have hmem : t ∈ A.live \ old := ⟨ht, fun hto => hnot t hto heq⟩
      have ht' : t ∈ A'.live := by
        rw [hturn.live]
        exact .inr hmem
      obtain rfl : u = t := A'.eq_of_addr_eq hu ht' (Nat.add_right_cancel heq)
      exact Set.disjoint_left.mp hturn.fresh rfl hmem
  · funext p
    by_cases hp : p = u.addr + headerSize
    · subst hp
      rw [Store.put_same, h'.client_payload hu]
    · rw [Store.put_of_ne hp]
      have hnew : ∀ t ∈ ({u} : Set Tile), p ≠ t.addr + headerSize := fun t ht => by
        rwa [Set.mem_singleton_iff.mp ht]
      by_cases hex : ∃ t ∈ old, p = t.addr + headerSize
      · obtain ⟨t, ht, rfl⟩ := hex
        rw [(hold t ht).2, h'.client_eq_none, hturn.live]
        rintro w (hw | hw) heq
        · exact hnew w hw heq
        · obtain rfl : t = w := A.eq_of_addr_eq (hold t ht).1 hw.1 (Nat.add_right_cancel heq)
          exact hw.2 ht
      · have hnot : ∀ t ∈ old, p ≠ t.addr + headerSize := fun t ht heq => hex ⟨t, ht, heq⟩
        rw [hC p hnot]
        exact h.client_kept h' hturn hspared hnot hnew

/-! ## Calls -/

/-- A reachable state is sound. -/
theorem Reachable.sound (h : Reachable P s) : s.Sound P := h.exists_holds

namespace Heap.Sound

/-- The blocks of the client share no byte. -/
theorem apart (h : s.Sound P) : s.client.Apart := by
  obtain ⟨A, hA⟩ := h
  exact hA.client_apart

/-- `malloc` allocates. -/
theorem wp_malloc (h : s.Sound P) (hk : s.KernelOk P kernel) (size : ℕ) :
    wp (malloc P kernel size) (fun r s' => s'.Sound P ∧ s.client.Alloc size r s'.client) s := by
  obtain ⟨A, hA⟩ := h
  refine wp_mono (hA.wp_grant hk (.malloc size)) ?_
  rintro r s' ⟨A', calls, old, new, heffect, hgrant⟩
  have hA' := heffect.holds
  obtain rfl : old = ∅ := by
    refine Set.eq_empty_of_forall_notMem fun t ht => ?_
    have hnull : null = t.addr + headerSize := (heffect.gone t ht).2
    simp only [null, headerSize] at hnull
    omega
  refine ⟨⟨A', hA'⟩, ?_⟩
  obtain ⟨rfl, rfl⟩ | ⟨t, rfl, rfl, hsnug, -⟩ := hgrant
  · rw [hA.client_idle hA' heffect.turn heffect.became.spared]
    exact .refused
  · obtain ⟨hnone, heq⟩ := hA.client_put hA' heffect.turn heffect.became.spared rfl
      (fun _ _ => rfl) nofun
    have hapart := hA'.client_apart
    rw [heq] at hapart ⊢
    refine .granted (by simp) hnone ?_ hapart
    rw [length_contents]
    exact (le_roundUp size).trans hsnug.1

/-- `free` gives up the block at the pointer, if there is one. -/
theorem wp_free (h : s.Sound P) (p : ℕ) :
    wp (free P p) (fun _ s' => s'.Sound P ∧ s'.client = s.client.drop p) s := by
  obtain ⟨A, hA⟩ := h
  refine wp_mono (hA.rep.wp_free A hA.unlocked) fun _ s' hr => ?_
  by_cases hlive : ∃ t ∈ A.live, p = t.addr + headerSize
  · obtain ⟨t, ht, rfl⟩ := hlive
    obtain ⟨A', calls, heq, hturn⟩ := A.free_turn ht
    rw [heq] at hr
    have hA' : Holds s' A' := hA.turn hturn hr.1
    exact ⟨⟨A', hA'⟩, hA.client_drop hA' hturn hr.1.spared ht⟩
  · have hnot : ∀ t ∈ A.live, p ≠ t.addr + headerSize := fun t ht heq => hlive ⟨t, ht, heq⟩
    rw [A.free_eq_of_not_live hnot] at hr
    have hturn : A.Turn A [] ∅ ∅ := A.turn_idle fun c hc => absurd hc List.not_mem_nil
    have hA' : Holds s' A := hA.turn hturn hr.1
    refine ⟨⟨A, hA'⟩, ?_⟩
    rw [hA.client_idle hA' hturn hr.1.spared, Store.drop_of_none (hA.client_eq_none.mpr hnot)]

/-- `realloc` resizes the block at the pointer, if there is one. -/
theorem wp_realloc (h : s.Sound P) (hk : s.KernelOk P kernel) (hp : p ≠ null) (hsize : 0 < size) :
    wp (realloc P kernel p size) (fun r s' => s'.Sound P ∧ s.client.Resize p size r s'.client)
      s := by
  obtain ⟨A, hA⟩ := h
  refine wp_mono (hA.rep.wp_realloc A hA.unlocked hk) fun r s' hr => ?_
  obtain ⟨hres, hbecame, -, hcontent⟩ := hr
  by_cases hlive : ∃ t ∈ A.live, p = t.addr + headerSize
  · obtain ⟨t, ht, rfl⟩ := hlive
    have hgranted := A.realloc_granted (hA.rep.kernelFresh A.spread hk) ht hsize
    generalize Zones.realloc P kernel (t.addr + headerSize) size A.zones = o
      at hgranted hres hbecame
    cases hgranted with
    | refused hturn =>
      have hA' : Holds s' A := hA.turn hturn hbecame
      refine ⟨⟨A, hA'⟩, ?_⟩
      rw [hres, hA.client_idle hA' hturn hbecame.spared]
      exact .refused
    | @block A' u calls hsnug hzone hturn =>
      have hA' : Holds s' A' := hA.turn hturn hbecame
      have hdrop (p : ℕ) (h : ∀ w ∈ ({t} : Set Tile), p ≠ w.addr + headerSize) :
          s.client.drop (t.addr + headerSize) p = s.client p := Store.drop_of_ne (h t rfl)
      obtain ⟨hnone, heq⟩ := hA.client_put hA' hturn hbecame.spared hres hdrop (fun w hw => by
        rw [Set.mem_singleton_iff.mp hw]
        exact ⟨ht, Store.drop_same⟩)
      have hne : r ≠ null := by
        rw [hres]
        simp
      have hle : size ≤ u.size := (le_roundUp size).trans hsnug.1
      have hapart := hA'.client_apart
      refine ⟨⟨A', hA'⟩, ?_⟩
      rw [heq] at hapart ⊢
      refine .granted (hA.client_payload ht) hne hnone (by rwa [length_contents]) ?_ hapart
      refine List.ext_getElem? fun i => ?_
      rw [length_contents, List.getElem?_take, List.getElem?_take, getElem?_contents,
        getElem?_contents]
      split
      · next hi =>
        rw [if_pos (by omega), if_pos (by omega),
          hcontent t ht rfl hsize hne i (by omega) (by have := le_roundUp size; omega)]
      · rfl
  · have hnot : ∀ t ∈ A.live, p ≠ t.addr + headerSize := fun t ht heq => hlive ⟨t, ht, heq⟩
    rw [A.realloc_eq_of_not_live hp hsize hnot] at hres hbecame
    have hturn : A.Turn A [] ∅ ∅ := A.turn_idle fun c hc => absurd hc List.not_mem_nil
    have hA' : Holds s' A := hA.turn hturn hbecame
    refine ⟨⟨A, hA'⟩, ?_⟩
    rw [hres, hA.client_idle hA' hturn hbecame.spared]
    exact .refused

/-! ## Loads and stores -/

/-- A block of the client is mapped. -/
theorem valid (h : s.Sound P) (hp : s.client p = some bs) : s.Valid p bs.length := by
  obtain ⟨A, hA⟩ := h
  obtain ⟨t, ht, rfl, rfl⟩ := hA.client_eq_some.mp hp
  rw [length_contents]
  exact hA.rep.valid_payload A.spread ht

/-- The bytes of a block are in memory. -/
theorem contents_eq (h : s.Sound P) (hp : s.client p = some bs) :
    bs = contents s.mem p bs.length := by
  obtain ⟨A, hA⟩ := h
  obtain ⟨t, ht, rfl, rfl⟩ := hA.client_eq_some.mp hp
  rw [length_contents]

/-- Loading from a block. -/
theorem wp_load {Q : ℕ → Heap → Prop} (h : s.Sound P) (hp : s.client p = some bs)
    (hi : i + k ≤ bs.length) : wp (load k (p + i)) Q s ↔ Q (ofLE ((bs.drop i).take k)) s := by
  rw [FtMalloc.wp_load ((h.valid hp).sub (by omega) (by omega)), readLE_contents hi,
    ← h.contents_eq hp]

/-- Storing into a block. -/
theorem wp_store {Q : Unit → Heap → Prop} (h : s.Sound P) (hp : s.client p = some bs)
    (hi : i + k ≤ bs.length) (hQ : ∀ s', s'.Sound P →
      s'.client = s.client.put p (splice bs i (leBytes k v)) → Q () s') :
    wp (store k (p + i) v) Q s := by
  have hvalid := h.valid hp
  have hbs := h.contents_eq hp
  obtain ⟨A, hA⟩ := h
  obtain ⟨t, ht, hpt, rfl⟩ := hA.client_eq_some.mp hp
  rw [FtMalloc.wp_store (hvalid.sub (by omega) (by omega))]
  rw [length_contents] at hi
  have hoff : AgreeOff {x | p + i ≤ x ∧ x < p + i + k} s.mem (writeLE s.mem (p + i) k v) :=
    fun x hx => writeLE_apply_of_outside (by simp only [Set.mem_ofPred_eq] at hx; omega)
  have hrep := hA.rep.write_payload A.spread ht hoff fun x hx => by
    simp only [Set.mem_ofPred_eq] at hx
    simp only [Tile.stop]
    omega
  have hA' : Holds (s.withMem (writeLE s.mem (p + i) k v)) A :=
    ⟨hrep, hA.unlocked, hA.ledger, hA.unwrapped⟩
  refine hQ _ ⟨A, hA'⟩ (funext fun q => ?_)
  by_cases hq : q = p
  · subst hq
    rw [Store.put_same, hA'.client_eq_some]
    exact ⟨t, ht, hpt, (contents_writeLE hi).symm⟩
  · rw [Store.put_of_ne hq]
    cases hc : s.client q with
    | none =>
      rw [hA.client_eq_none] at hc
      exact hA'.client_eq_none.mpr hc
    | some cs =>
      have hapart := hA.client_apart p q _ _ (Ne.symm hq) hp hc
      rw [length_contents] at hapart
      obtain ⟨u, hu, hqu, rfl⟩ := hA.client_eq_some.mp hc
      rw [length_contents] at hapart
      refine hA'.client_eq_some.mpr ⟨u, hu, hqu, (contents_congr fun j hj => ?_).symm⟩
      exact writeLE_apply_of_outside (by omega)

end Heap.Sound

end FtMalloc
