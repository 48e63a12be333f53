import FtMalloc.Abstract.Operations

/-!
# When a block grows in place

A block grows forward exactly when an empty space starts at its end and both together hold the new
size, and back exactly when one ends at its address and both together do. Forward comes first.
-/

namespace FtMalloc

open HeapLib

namespace TiledZone

variable {P : Platform} {z : TiledZone} {b n : ℕ} {s t f : Tile} {pre post : List Tile}

/-- An empty space starts at the end of the block, and both together hold `n` bytes. -/
def Forward (z : TiledZone) (t : Tile) (n : ℕ) : Prop :=
  ∃ f ∈ frees z.tiles, f.addr = t.stop headerSize ∧ n ≤ t.size + headerSize + f.size

/-- An empty space ends at the block, and both together hold `n` bytes. -/
def Backward (z : TiledZone) (t : Tile) (n : ℕ) : Prop :=
  ∃ f ∈ frees z.tiles, f.stop headerSize = t.addr ∧ n ≤ f.size + headerSize + t.size

/-- Behind a tile that ends at another one lies the other one. -/
theorem Laid.exists_cons_of_stop (hz : z.Laid) {rest : List Tile}
    (hcut : z.tiles = pre ++ s :: rest) (htm : t ∈ z.tiles)
    (hstop : s.stop headerSize = t.addr) : ∃ post, rest = t :: post := by
  have htiled := hz.tiled
  rw [hcut] at htiled
  have hrest := (tiled_append_cons.mp htiled).2
  cases rest with
  | nil =>
    have := hz.inside htm
    have : s.stop headerSize = z.addr + z.len := hrest
    omega
  | cons u post =>
    have hu : u.addr = s.stop headerSize := hrest.1
    exact ⟨post, by rw [hz.tiled.eq_of_addr_eq (by decide) (by simp [hcut]) htm
      (hu.trans hstop)]⟩

/-- Two tiles that meet are neighbours. -/
theorem Laid.exists_neighbours (hz : z.Laid) (hsm : s ∈ z.tiles) (htm : t ∈ z.tiles)
    (hstop : s.stop headerSize = t.addr) : ∃ pre post, z.tiles = pre ++ s :: t :: post := by
  obtain ⟨pre, rest, heq⟩ := List.append_of_mem hsm
  obtain ⟨post, rfl⟩ := hz.exists_cons_of_stop heq htm hstop
  exact ⟨pre, post, heq⟩

/-- The empty space that ends at an address is cut out at its place. -/
theorem Laid.cutAt_stop (hz : z.Laid) (hf : z.tiles = pre ++ f :: post) (hfree : f.used = false) :
    cutAt (fun e => !e.used && decide (e.stop headerSize = f.stop headerSize)) z.tiles =
      some (pre, f, post) := by
  refine cutAt_eq_some.mpr ⟨hf, by simp [hfree], fun u hu => ?_⟩
  have htiled := hz.tiled.pairwise
  rw [hf] at htiled
  have := (List.pairwise_append.mp htiled).2.2 u hu f List.mem_cons_self
  simp only [Bool.and_eq_false_imp, decide_eq_false_iff_not]
  simp only [Tile.stop, headerSize] at *
  omega

/-! ## What is left of a region -/

/-- The region of `c` bytes at `b` in `z` is in `z'` a block of `n` bytes, and what is left of it an
empty space, joined with the one behind the region if there is one; or all of it is a block, when too
little would be left. -/
structure Carved (z z' : TiledZone) (b c n : ℕ) : Prop where
  split : minSplitSize ≤ c - n → ⟨b, n, true⟩ ∈ z'.live ∧ ∃ f ∈ frees z'.tiles,
    f.addr = b + headerSize + n ∧
    (∀ q ∈ frees z.tiles, q.addr = b + headerSize + c → f.stop headerSize = q.stop headerSize) ∧
    ((∀ q ∈ frees z.tiles, q.addr ≠ b + headerSize + c) → f.stop headerSize = b + headerSize + c)
  whole : c - n < minSplitSize → ⟨b, c, true⟩ ∈ z'.live

/-- An empty space behind a run of tiles is the first tile behind it. -/
theorem Laid.eq_head_of_addr (hz : z.Laid) (ht : z.tiles = pre ++ s :: post) (hf : f ∈ frees z.tiles)
    (haddr : f.addr = s.stop headerSize) : ∃ us, post = f :: us :=
  hz.exists_cons_of_stop ht (mem_frees.mp hf).1 haddr.symm

/-- Carving a region that ends with the tile `s` leaves it carved. -/
theorem WellFormed.carved_splice {front : List Tile} (hz : z.WellFormed P) (pre : List Tile)
    (w : Tile) (ht : z.tiles = front ++ s :: post) (hstop : s.stop headerSize = w.stop headerSize)
    (hle : n ≤ w.size) :
    z.Carved (z.splice pre (carve headerSize minSplitSize n w) post) w.addr w.size n := by
  have htiled := hz.laid.tiled
  have hc := hz.coalesced
  rw [ht] at htiled hc
  have hpost : coalesce headerSize post = post :=
    coalesce_eq_self (List.IsChain.right_of_append hc).tail
  have hbehind := (tiled_append_cons.mp htiled).2
  constructor
  · intro hrest
    set rest : Tile := ⟨w.addr + headerSize + n, w.size - n - headerSize, false⟩ with hrestdef
    have htiles : (z.splice pre (carve headerSize minSplitSize n w) post).tiles =
        coalesce headerSize pre ++ ⟨w.addr, n, true⟩ :: absorb headerSize rest post := by
      rw [splice_tiles, carve, if_neg (by omega), List.cons_append, List.singleton_append,
        coalesce_append_cons rfl, coalesce_cons, hpost]
    have hsize : rest.stop headerSize = w.stop headerSize := by
      simp only [hrestdef, Tile.stop, headerSize, minSplitSize, alignment] at *
      omega
    obtain ⟨f, hf, haddr, hjoin, halone⟩ := exists_absorb (t := rest) rfl (hsize ▸ hstop ▸ hbehind)
    obtain ⟨hfm, hfree⟩ := mem_frees.mp hf
    refine ⟨mem_live.mpr ⟨?_, rfl⟩, f, mem_frees.mpr ⟨?_, hfree⟩, haddr, fun q hq hqa => ?_,
      fun hnone => ?_⟩
    · rw [htiles]
      exact List.mem_append_right _ List.mem_cons_self
    · rw [htiles]
      exact List.mem_append_right _ (List.mem_cons_of_mem _ hfm)
    · obtain ⟨us, hus⟩ := hz.laid.eq_head_of_addr ht hq (hqa.trans hstop.symm)
      exact hjoin q us hus (mem_frees.mp hq).2
    · refine (halone fun q us hus => ?_).trans hsize
      by_contra hq
      rw [hus] at ht hbehind
      exact hnone q (mem_frees.mpr ⟨by simp [ht], by simpa using hq⟩) (hbehind.1.trans hstop)
  · intro hrest
    refine mem_live.mpr ⟨?_, rfl⟩
    rw [splice_tiles, carve, if_pos hrest, List.singleton_append, coalesce_append_cons rfl]
    exact List.mem_append_right _ List.mem_cons_self

/-! ## Forward -/

/-- A block with room behind it grows forward. -/
theorem Laid.growForward_of_fit (hz : z.Laid) (ht : z.tiles = pre ++ t :: f :: post)
    (hused : t.used = true) (hfree : f.used = false) (hfit : n ≤ t.size + headerSize + f.size) :
    z.growForward t.addr n =
      some (z.splice pre (carve headerSize minSplitSize n (join headerSize t f)) post) := by
  rw [TiledZone.growForward, hz.cutBlock_eq ht hused]
  exact if_pos ⟨hfree, hfit⟩

/-- A block grows forward exactly when it has room behind it. -/
theorem Laid.growForward_eq_none (hz : z.Laid) (ht : t ∈ z.live) :
    z.growForward t.addr n = none ↔ ¬ z.Forward t n := by
  obtain ⟨hmem, hused⟩ := mem_live.mp ht
  constructor
  · intro hnone
    rintro ⟨f, hf, haddr, hfit⟩
    obtain ⟨hfm, hfree⟩ := mem_frees.mp hf
    obtain ⟨pre, post, heq⟩ := hz.exists_neighbours hmem hfm haddr.symm
    rw [hz.growForward_of_fit heq hused hfree hfit] at hnone
    cases hnone
  · intro hnot
    obtain ⟨pre, rest, heq, hcut⟩ := hz.exists_cutBlock ht
    rw [TiledZone.growForward, hcut]
    cases rest with
    | nil => rfl
    | cons f post =>
      refine if_neg fun hfit => hnot ⟨f, mem_frees.mpr ⟨by simp [heq], hfit.1⟩, ?_, hfit.2⟩
      have htiled := hz.tiled
      rw [heq] at htiled
      exact (tiled_append_cons.mp htiled).2.1

/-! ## Back -/

/-- A block with room before it grows back. -/
theorem Laid.growBack_of_fit (hz : z.Laid) (ht : z.tiles = pre ++ f :: t :: post)
    (hfree : f.used = false) (hfit : n ≤ f.size + headerSize + t.size) :
    z.growBack t.addr n = some (f.addr,
      z.splice pre (carve headerSize minSplitSize n (join headerSize f t)) post) := by
  have htiled := hz.tiled
  rw [ht] at htiled
  have hstop : t.addr = f.stop headerSize := (tiled_append_cons.mp htiled).2.1
  rw [TiledZone.growBack, hstop, hz.cutAt_stop ht hfree]
  exact if_pos hfit

/-- A block grows back exactly when it has room before it. -/
theorem Laid.growBack_eq_none (hz : z.Laid) (ht : t ∈ z.live) :
    z.growBack t.addr n = none ↔ ¬ z.Backward t n := by
  have hmem := (mem_live.mp ht).1
  constructor
  · intro hnone
    rintro ⟨f, hf, hstop, hfit⟩
    obtain ⟨hfm, hfree⟩ := mem_frees.mp hf
    obtain ⟨pre, post, heq⟩ := hz.exists_neighbours hfm hmem hstop
    rw [hz.growBack_of_fit heq hfree hfit] at hnone
    cases hnone
  · intro hnot
    rw [TiledZone.growBack]
    cases hcut : cutAt (fun e => !e.used && decide (e.stop headerSize = t.addr)) z.tiles with
    | none => rfl
    | some c =>
      obtain ⟨pre, f, rest⟩ := c
      obtain ⟨heq, hp, -⟩ := cutAt_eq_some.mp hcut
      simp only [Bool.and_eq_true, Bool.not_eq_true', decide_eq_true_eq] at hp
      obtain ⟨post, rfl⟩ := hz.exists_cons_of_stop heq hmem hp.2
      exact if_neg fun hfit => hnot ⟨f, mem_frees.mpr ⟨by simp [heq], hp.1⟩, hp.2, hfit⟩

/-- A block grows in place exactly when it has room on one side. -/
theorem Laid.grow_eq_none (hz : z.Laid) (ht : t ∈ z.live) :
    z.grow t.addr n = none ↔ ¬ z.Forward t n ∧ ¬ z.Backward t n := by
  rw [← hz.growForward_eq_none ht, ← hz.growBack_eq_none ht, TiledZone.grow]
  cases z.growForward t.addr n with
  | none => simp
  | some z' => simp

/-- A block with room behind it grows forward, and the rest is carved off. -/
theorem WellFormed.grow_forward (hz : z.WellFormed P) (ht : t ∈ z.live) (hf : f ∈ frees z.tiles)
    (haddr : f.addr = t.stop headerSize) (hfit : n ≤ t.size + headerSize + f.size) :
    ∃ z', z.grow t.addr n = some (t.addr, z') ∧
      z.Carved z' t.addr (t.size + headerSize + f.size) n := by
  obtain ⟨hmem, hused⟩ := mem_live.mp ht
  obtain ⟨hfm, hfree⟩ := mem_frees.mp hf
  obtain ⟨pre, post, heq⟩ := hz.laid.exists_neighbours hmem hfm haddr.symm
  have hcarved := hz.carved_splice pre (join headerSize t f)
    (show z.tiles = (pre ++ [t]) ++ f :: post by simp [heq]) ?_ hfit
  · refine ⟨_, ?_, hcarved⟩
    rw [TiledZone.grow, hz.laid.growForward_of_fit heq hused hfree hfit]
  · simp only [Tile.stop, HeapLib.join] at haddr ⊢
    omega

/-- A block with room before it but not behind it grows back, and the rest is carved off. -/
theorem WellFormed.grow_back (hz : z.WellFormed P) (ht : t ∈ z.live) (hnot : ¬ z.Forward t n)
    (hf : f ∈ frees z.tiles) (hstop : f.stop headerSize = t.addr)
    (hfit : n ≤ f.size + headerSize + t.size) :
    ∃ z', z.grow t.addr n = some (f.addr, z') ∧
      z.Carved z' f.addr (f.size + headerSize + t.size) n := by
  obtain ⟨hfm, hfree⟩ := mem_frees.mp hf
  obtain ⟨pre, post, heq⟩ := hz.laid.exists_neighbours hfm (mem_live.mp ht).1 hstop
  have hcarved := hz.carved_splice pre (join headerSize f t)
    (show z.tiles = (pre ++ [f]) ++ t :: post by simp [heq]) ?_ hfit
  · refine ⟨_, ?_, hcarved⟩
    rw [TiledZone.grow, (hz.laid.growForward_eq_none ht).mpr hnot]
    exact hz.laid.growBack_of_fit heq hfree hfit
  · simp only [Tile.stop, HeapLib.join] at hstop ⊢
    omega

/-- A block that shrinks is carved. -/
theorem WellFormed.carved_shrink (hz : z.WellFormed P) (ht : t ∈ z.live) (hle : n ≤ t.size) :
    z.Carved (z.shrink t.addr n) t.addr t.size n := by
  obtain ⟨pre, post, heq, hcut⟩ := hz.laid.exists_cutBlock ht
  have hself : (⟨t.addr, t.size, true⟩ : Tile) = t := by rw [← (mem_live.mp ht).2]
  rw [TiledZone.shrink, hcut]
  by_cases hrest : t.size - n < minSplitSize
  · simp only [if_pos hrest]
    exact ⟨fun h => absurd hrest (Nat.not_lt.mpr h), fun _ => hself ▸ ht⟩
  · simp only [if_neg hrest]
    exact hz.carved_splice pre t heq rfl hle

end TiledZone

end FtMalloc
