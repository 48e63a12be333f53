import FtMalloc.Abstract.Zones

/-!
# The arena

All zones of a process: well formed, and on pages that do not meet. One zone of an arena may be
edited, added or dropped, and each of these says what becomes of the live blocks. The public calls
are compositions of the three, so every one of them leads from an arena to an arena and exchanges
at most one live block.
-/

namespace FtMalloc

open HeapLib Zones TiledZone

variable {P : Platform} {z z' w : TiledZone} {zs pre post : List TiledZone} {old new : Set Tile}
  {t u : Tile} {x n : ℕ}

/-- Laid zones on pages that do not meet. -/
structure Zones.Spread (P : Platform) (zs : List TiledZone) : Prop where
  laid : ∀ z ∈ zs, z.Laid
  apart : zs.Pairwise (Apart P)

/-- Zones on other pages share no address. -/
theorem Zones.not_mem_of_apart (h : Apart P w z) (hlo : z.addr ≤ x) (hhi : x < z.addr + z.len) :
    ¬(w.addr ≤ x ∧ x < w.addr + w.len) := by
  have hz := P.le_pageUp z.len
  have hw := P.le_pageUp w.len
  rintro ⟨hlo', hhi'⟩
  rcases h with h | h <;> omega

namespace Zones.Spread

/-- The other zones around a zone are on other pages. -/
theorem around (h : Spread P (pre ++ z :: post)) : ∀ w ∈ pre ++ post, Apart P w z := by
  obtain ⟨-, hpost, hpre⟩ := List.pairwise_append.mp h.apart
  intro w hw
  rcases List.mem_append.mp hw with hw | hw
  · exact hpre w hw z List.mem_cons_self
  · exact ((List.pairwise_cons.mp hpost).1 w hw).symm

/-- The interval of a zone holds no address of another one. -/
theorem off (h : Spread P (pre ++ z :: post)) (hw : w ∈ pre ++ post) (hlo : z.addr ≤ x)
    (hhi : x < z.addr + z.len) : ¬(w.addr ≤ x ∧ x < w.addr + w.len) :=
  not_mem_of_apart (h.around w hw) hlo hhi

/-- A zone around another one is one of the list. -/
theorem mem_of_around (hw : w ∈ pre ++ post) : w ∈ pre ++ z :: post := by
  rcases List.mem_append.mp hw with hw | hw
  · exact List.mem_append_left _ hw
  · exact List.mem_append_right _ (List.mem_cons_of_mem _ hw)

/-- The zone that contains an address is unique. -/
theorem eq_of_inside (h : Spread P zs) (hz : z ∈ zs) (hw : w ∈ zs) (hzlo : z.addr ≤ x)
    (hzhi : x < z.addr + z.len) (hwlo : w.addr ≤ x) (hwhi : x < w.addr + w.len) : w = z := by
  obtain ⟨pre, post, rfl⟩ := List.append_of_mem hz
  by_contra hne
  refine h.off (w := w) ?_ hzlo hzhi ⟨hwlo, hwhi⟩
  simp only [List.mem_append, List.mem_cons] at hw ⊢
  tauto

/-- A zone may be replaced by one over the same interval. -/
theorem replace (h : Spread P (pre ++ z :: post)) (hz' : z'.Laid) (haddr : z'.addr = z.addr)
    (hlen : z'.len = z.len) : Spread P (pre ++ z' :: post) where
  laid := by
    intro w hw
    rcases List.mem_append.mp hw with hw | hw
    · exact h.laid w (List.mem_append_left _ hw)
    · rcases List.mem_cons.mp hw with rfl | hw
      · exact hz'
      · exact h.laid w (List.mem_append_right _ (List.mem_cons_of_mem _ hw))
  apart := by
    have hsame : ∀ w ∈ pre ++ post, Apart P w z' := fun w hw => by
      rw [Apart, haddr, hlen]
      exact h.around w hw
    obtain ⟨hpre, hpost, hcross⟩ := List.pairwise_append.mp h.apart
    refine List.pairwise_append.mpr ⟨hpre, List.pairwise_cons.mpr ⟨fun w hw => ?_,
      (List.pairwise_cons.mp hpost).2⟩, fun w hw v hv => ?_⟩
    · exact (hsame w (List.mem_append_right _ hw)).symm
    · rcases List.mem_cons.mp hv with rfl | hv
      · exact hsame w (List.mem_append_left _ hw)
      · exact hcross w hw v (List.mem_cons_of_mem _ hv)

end Zones.Spread

/-- The zones of a process. -/
structure Arena (P : Platform) where
  zones : List TiledZone
  wf : ∀ z ∈ zones, z.WellFormed P
  apart : zones.Pairwise (Apart P)

namespace Arena

/-- The zones of an arena are spread. -/
theorem spread (A : Arena P) : Spread P A.zones := ⟨fun z hz => (A.wf z hz).laid, A.apart⟩

/-- The zones of an arena around one of them. -/
theorem spread_around (A : Arena P) (h : A.zones = pre ++ z :: post) :
    Spread P (pre ++ z :: post) := h ▸ A.spread

/-- The arena before the first call. -/
def empty (P : Platform) : Arena P := ⟨[], fun _ hz => absurd hz List.not_mem_nil, List.Pairwise.nil⟩

/-- The live blocks of an arena. -/
def live (A : Arena P) : Set Tile := Zones.live A.zones

/-- A block lies inside its zone, behind the zone header. -/
theorem live_inside (A : Arena P) (hz : z ∈ A.zones) (ht : t ∈ z.live) :
    z.addr + 80 ≤ t.addr ∧ t.addr + 48 ≤ t.stop 32 ∧ t.stop 32 ≤ z.addr + z.len :=
  (A.wf z hz).laid.inside (mem_live.mp ht).1

/-- Blocks of zones on other pages differ. -/
theorem not_live_of_apart (A : Arena P) (h : A.zones = pre ++ z :: post) (hw : w ∈ pre ++ post)
    (ht : t ∈ z.live) : t ∉ w.live := by
  intro htw
  have hzmem : z ∈ A.zones := by simp [h]
  have hwmem : w ∈ A.zones := by
    rw [h]
    rcases List.mem_append.mp hw with hw | hw <;> simp [hw]
  have hz := A.live_inside hzmem ht
  have hw' := A.live_inside hwmem htw
  exact (A.spread_around h).off hw (x := t.addr) (by omega) (by omega) ⟨by omega, by omega⟩

/-- The live blocks around a zone. -/
theorem mem_live_around (A : Arena P) (h : A.zones = pre ++ z :: post) :
    t ∈ A.live ↔ t ∈ z.live ∨ ∃ w ∈ pre ++ post, t ∈ w.live := by
  constructor
  · rintro ⟨w, hw, ht⟩
    rw [h] at hw
    rcases List.mem_append.mp hw with hw | hw
    · exact .inr ⟨w, List.mem_append_left _ hw, ht⟩
    · rcases List.mem_cons.mp hw with rfl | hw
      · exact .inl ht
      · exact .inr ⟨w, List.mem_append_right _ hw, ht⟩
  · rintro (ht | ⟨w, hw, ht⟩)
    · exact ⟨z, by simp [h], ht⟩
    · refine ⟨w, ?_, ht⟩
      rw [h]
      rcases List.mem_append.mp hw with hw | hw <;> simp [hw]

/-- Distinct live blocks share no byte. -/
theorem live_apart (A : Arena P) (ht : t ∈ A.live) (hu : u ∈ A.live) (hne : t ≠ u)
    (hlo : t.addr ≤ x) (hhi : x < t.stop headerSize) : ¬(u.addr ≤ x ∧ x < u.stop headerSize) := by
  obtain ⟨z, hz, htz⟩ := ht
  obtain ⟨w, hw, huw⟩ := hu
  have htin := A.live_inside hz htz
  have huin := A.live_inside hw huw
  simp only [headerSize] at *
  rintro ⟨hlo', hhi'⟩
  obtain rfl := A.spread.eq_of_inside (x := x) hz hw (by omega) (by omega) (by omega) (by omega)
  have := (A.wf w hw).laid.tiled.apart (mem_live.mp htz).1 (mem_live.mp huw).1 hne
  simp only [headerSize] at this
  omega

/-- The address of a live block determines it. -/
theorem eq_of_addr_eq (A : Arena P) (ht : t ∈ A.live) (hu : u ∈ A.live) (haddr : t.addr = u.addr) :
    t = u := by
  by_contra hne
  have hin : t.addr < t.stop headerSize := by
    simp only [Tile.stop, headerSize]
    omega
  have hin' : u.addr < u.stop headerSize := by
    simp only [Tile.stop, headerSize]
    omega
  exact A.live_apart ht hu hne (Nat.le_refl _) hin ⟨haddr.ge, haddr ▸ hin'⟩

/-! ## Editing, adding and dropping a zone -/

/-- Edit one zone. -/
def replace (A : Arena P) (h : A.zones = pre ++ z :: post) (he : Edited P z z' old new) :
    Arena P where
  zones := pre ++ z' :: post
  wf := by
    intro w hw
    rcases List.mem_append.mp hw with hw | hw
    · exact A.wf w (by simp [h, hw])
    · rcases List.mem_cons.mp hw with rfl | hw
      · exact he.wf
      · exact A.wf w (by simp [h, hw])
  apart := ((A.spread_around h).replace he.wf.laid he.addr he.len).apart

/-- Editing one zone exchanges the blocks that the edit exchanges. -/
theorem live_replace (A : Arena P) (h : A.zones = pre ++ z :: post) (he : Edited P z z' old new)
    (hold : old ⊆ z.live) : (A.replace h he).live = new ∪ (A.live \ old) := by
  ext t
  rw [Set.mem_union, Set.mem_sdiff, (A.replace h he).mem_live_around rfl, A.mem_live_around h,
    he.live, Set.mem_union, Set.mem_sdiff]
  constructor
  · rintro ((ht | ht) | ⟨w, hw, ht⟩)
    · exact .inl ht
    · exact .inr ⟨.inl ht.1, ht.2⟩
    · exact .inr ⟨.inr ⟨w, hw, ht⟩, fun hto => A.not_live_of_apart h hw (hold hto) ht⟩
  · rintro (ht | ⟨ht | ht, hto⟩)
    · exact .inl (.inl ht)
    · exact .inl (.inr ⟨ht, hto⟩)
    · exact .inr ht

/-- Editing one zone adds no block that the arena already has. -/
theorem fresh_replace (A : Arena P) (h : A.zones = pre ++ z :: post) (he : Edited P z z' old new) :
    Disjoint new (A.live \ old) := by
  refine Set.disjoint_left.mpr fun t ht hold => ?_
  rcases (A.mem_live_around h).mp hold.1 with htz | ⟨w, hw, htw⟩
  · exact Set.disjoint_left.mp he.fresh ht ⟨htz, hold.2⟩
  · exact (A.replace h he).not_live_of_apart rfl hw (he.live ▸ .inl ht) htw

/-- Drop one zone. -/
def drop (A : Arena P) (h : A.zones = pre ++ z :: post) : Arena P where
  zones := pre ++ post
  wf := by
    intro w hw
    refine A.wf w ?_
    rw [h]
    rcases List.mem_append.mp hw with hw | hw <;> simp [hw]
  apart := by
    have hp := A.apart
    rw [h] at hp
    exact hp.sublist (List.Sublist.append_left (List.sublist_cons_self _ _) _)

/-- Dropping a zone drops its blocks. -/
theorem live_drop (A : Arena P) (h : A.zones = pre ++ z :: post) :
    (A.drop h).live = A.live \ z.live := by
  ext t
  rw [Set.mem_sdiff, A.mem_live_around h]
  constructor
  · rintro ⟨w, hw, ht⟩
    exact ⟨.inr ⟨w, hw, ht⟩, fun htz => A.not_live_of_apart h hw htz ht⟩
  · rintro ⟨ht | ht, htz⟩
    · exact absurd ht htz
    · exact ht

/-- Add a zone in front. -/
def push (A : Arena P) (hz : z.WellFormed P) (hfar : ∀ w ∈ A.zones, Apart P z w) : Arena P where
  zones := z :: A.zones
  wf := by
    intro w hw
    rcases List.mem_cons.mp hw with rfl | hw
    · exact hz
    · exact A.wf w hw
  apart := List.pairwise_cons.mpr ⟨hfar, A.apart⟩

/-- Adding a zone adds its blocks. -/
theorem live_push (A : Arena P) (hz : z.WellFormed P) (hfar : ∀ w ∈ A.zones, Apart P z w) :
    (A.push hz hfar).live = z.live ∪ A.live := by
  ext t
  exact List.exists_mem_cons_iff _ _ _

/-! ## Looking up a block -/

/-- The zone that contains an address. -/
theorem owner_eq (A : Arena P) (h : A.zones = pre ++ z :: post) (hlo : z.addr ≤ x)
    (hhi : x < z.addr + z.len) : owner x A.zones = some (pre, z, post) := by
  refine cutAt_eq_some.mpr ⟨h, by simp [hlo, hhi], fun w hw => ?_⟩
  rw [decide_eq_false_iff_not]
  exact (A.spread_around h).off (List.mem_append_left _ hw) hlo hhi

/-- A pointer is located exactly when it is the payload of a live block. -/
theorem locate_eq_some (A : Arena P) :
    locate x A.zones = some (pre, z, post, t) ↔
      A.zones = pre ++ z :: post ∧ t ∈ z.live ∧ x = t.addr + headerSize := by
  constructor
  · intro h
    rw [locate] at h
    split at h
    · cases h
    · next pre' z' post' howner =>
      obtain ⟨heq, hin, -⟩ := cutAt_eq_some.mp howner
      obtain ⟨⟨p, u, q⟩, hcut, hres⟩ := Option.map_eq_some_iff.mp h
      cases hres
      obtain ⟨htiles, hu, -⟩ := cutAt_eq_some.mp hcut
      simp only [Bool.and_eq_true, decide_eq_true_eq] at hu hin
      have hmem : u ∈ z.live := mem_live.mpr ⟨by simp [htiles], hu.1⟩
      have := A.live_inside (by simp [heq]) hmem
      refine ⟨heq, hmem, ?_⟩
      simp only [headerSize] at *
      omega
  · rintro ⟨heq, hmem, rfl⟩
    have hzmem : z ∈ A.zones := by simp [heq]
    have := A.live_inside hzmem hmem
    obtain ⟨p, q, -, hcut⟩ := (A.wf z hzmem).laid.exists_cutBlock hmem
    rw [locate, A.owner_eq heq (x := t.addr + headerSize) (by omega)
      (by simp only [headerSize]; omega)]
    simp only [Nat.add_sub_cancel, hcut, Option.map_some]

/-- Every live block is located by its payload. -/
theorem exists_locate (A : Arena P) (ht : t ∈ A.live) :
    ∃ pre z post, A.zones = pre ++ z :: post ∧ t ∈ z.live ∧
      locate (t.addr + headerSize) A.zones = some (pre, z, post, t) := by
  obtain ⟨z, hz, htz⟩ := ht
  obtain ⟨pre, post, heq⟩ := List.append_of_mem hz
  exact ⟨pre, z, post, heq, htz, A.locate_eq_some.mpr ⟨heq, htz, rfl⟩⟩

/-- A pointer that is not located is the payload of no live block. -/
theorem locate_eq_none (A : Arena P) :
    locate x A.zones = none ↔ ∀ t ∈ A.live, x ≠ t.addr + headerSize := by
  constructor
  · rintro h t ht rfl
    obtain ⟨pre, z, post, -, -, hloc⟩ := A.exists_locate ht
    rw [h] at hloc
    cases hloc
  · intro h
    rw [Option.eq_none_iff_forall_ne_some]
    rintro ⟨pre, z, post, t⟩ hloc
    obtain ⟨heq, ht, rfl⟩ := A.locate_eq_some.mp hloc
    exact h t ⟨z, by simp [heq], ht⟩ rfl

end Arena

end FtMalloc
