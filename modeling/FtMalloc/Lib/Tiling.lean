import Mathlib

/-!
# Tilings of an interval by headed regions

A tile is a header of `h` bytes followed by its data. A tiling covers an interval by
consecutive tiles, each either used or free. Coalescing joins neighbouring free tiles; a
coalesced tiling is determined by its used tiles. Free lists are also treated on their own:
`mergeGaps` joins neighbours of an address-ordered list whose distance is below a tolerance,
and on the free tiles of a tiling this tolerance never reaches over a used tile.
-/

namespace HeapLib

/-- A region with a header at `addr` and `size` bytes of data behind it. -/
structure Tile where
  addr : ℕ
  size : ℕ
  used : Bool
deriving DecidableEq, Repr

/-- The first address behind a tile. -/
def Tile.stop (t : Tile) (h : ℕ) : ℕ := t.addr + h + t.size

variable {h g n lo hi : ℕ} {t u : Tile} {ts us pre post : List Tile}

/-- Consecutive tiles cover exactly the interval from `lo` to `hi`. -/
def Tiled (h : ℕ) : ℕ → List Tile → ℕ → Prop
  | lo, [], hi => lo = hi
  | lo, t :: ts, hi => t.addr = lo ∧ Tiled h (t.stop h) ts hi

/-- A tiling splits at the start of any of its tiles. -/
theorem tiled_append_cons :
    Tiled h lo (pre ++ t :: post) hi ↔ Tiled h lo pre t.addr ∧ Tiled h (t.stop h) post hi := by
  induction pre generalizing lo with
  | nil => exact and_congr_left fun _ => eq_comm
  | cons s pre ih => simp only [List.cons_append, Tiled, ih, and_assoc]

/-- Tilings of adjacent intervals compose. -/
theorem Tiled.append {mid : ℕ} (hl : Tiled h lo ts mid) (hr : Tiled h mid us hi) :
    Tiled h lo (ts ++ us) hi := by
  induction ts generalizing lo with
  | nil => exact hl ▸ hr
  | cons s ts ih => exact ⟨hl.1, ih hl.2⟩

/-- A tiling splits between any two of its tiles. -/
theorem tiled_append : Tiled h lo (ts ++ us) hi ↔ ∃ mid, Tiled h lo ts mid ∧ Tiled h mid us hi := by
  constructor
  · intro ht
    induction ts generalizing lo with
    | nil => exact ⟨lo, rfl, ht⟩
    | cons s ts ih =>
      obtain ⟨mid, hl, hr⟩ := ih ht.2
      exact ⟨mid, ⟨ht.1, hl⟩, hr⟩
  · rintro ⟨mid, hl, hr⟩
    exact hl.append hr

/-- A run of tiles may be replaced by another tiling of the same interval. -/
theorem Tiled.swap {old new : List Tile} (ht : Tiled h lo (pre ++ (old ++ post)) hi)
    (hnew : ∀ a b, Tiled h a old b → Tiled h a new b) : Tiled h lo (pre ++ (new ++ post)) hi := by
  obtain ⟨a, hpre, hrest⟩ := tiled_append.mp ht
  obtain ⟨b, hold, hpost⟩ := tiled_append.mp hrest
  exact hpre.append ((hnew a b hold).append hpost)

/-- A tiled interval is not reversed. -/
theorem Tiled.le (ht : Tiled h lo ts hi) : lo ≤ hi := by
  induction ts generalizing lo with
  | nil => exact Nat.le_of_eq ht
  | cons s ts ih =>
    have := ih ht.2
    have := ht.1
    simp only [Tile.stop] at *
    omega

/-- Every tile lies inside the interval. -/
theorem Tiled.bounds (ht : Tiled h lo ts hi) (hmem : t ∈ ts) : lo ≤ t.addr ∧ t.stop h ≤ hi := by
  obtain ⟨pre, post, rfl⟩ := List.append_of_mem hmem
  obtain ⟨hpre, hpost⟩ := tiled_append_cons.mp ht
  exact ⟨hpre.le, hpost.le⟩

/-- Tiles are disjoint and in address order. -/
theorem Tiled.pairwise (ht : Tiled h lo ts hi) : ts.Pairwise fun s t => s.stop h ≤ t.addr := by
  induction ts generalizing lo with
  | nil => exact List.Pairwise.nil
  | cons s ts ih =>
    exact List.pairwise_cons.mpr ⟨fun t hmem => (ht.2.bounds hmem).1, ih ht.2⟩

/-- Distinct tiles are disjoint. -/
theorem Tiled.apart (ht : Tiled h lo ts hi) (htm : t ∈ ts) (hum : u ∈ ts) (hne : t ≠ u) :
    t.stop h ≤ u.addr ∨ u.stop h ≤ t.addr := by
  have hsymm : Std.Symm fun t u : Tile => t.stop h ≤ u.addr ∨ u.stop h ≤ t.addr :=
    ⟨fun _ _ h => h.symm⟩
  have hp : ts.Pairwise fun t u : Tile => t.stop h ≤ u.addr ∨ u.stop h ≤ t.addr :=
    ht.pairwise.imp Or.inl
  exact hp.forall htm hum hne

/-- A tile is determined by its address. -/
theorem Tiled.eq_of_addr_eq (ht : Tiled h lo ts hi) (hpos : 0 < h) (htm : t ∈ ts) (hum : u ∈ ts)
    (heq : t.addr = u.addr) : t = u := by
  by_contra hne
  have := ht.apart htm hum hne
  simp only [Tile.stop] at this
  omega

/-- The lengths of the tiles add up to the length of the interval. -/
theorem Tiled.sum (ht : Tiled h lo ts hi) : lo + (ts.map fun t => t.size + h).sum = hi := by
  induction ts generalizing lo with
  | nil => exact ht
  | cons s ts ih =>
    have := ih ht.2
    have := ht.1
    simp only [Tile.stop, List.map_cons, List.sum_cons] at *
    omega

/-- Intervals of `[0, hi)` that do not meet are together no longer than it. -/
theorem sum_length_le {α : Type} {l : List α} {a n : α → ℕ} (hin : ∀ x ∈ l, a x + n x ≤ hi)
    (hd : l.Pairwise fun x y => a x + n x ≤ a y ∨ a y + n y ≤ a x) : (l.map n).sum ≤ hi := by
  have hset : ∃ S ⊆ Finset.range hi, S.card = (l.map n).sum ∧
      ∀ i ∈ S, ∃ x ∈ l, a x ≤ i ∧ i < a x + n x := by
    induction l with
    | nil => exact ⟨∅, Finset.empty_subset _, rfl, fun i hi => absurd hi (Finset.notMem_empty i)⟩
    | cons x l ih =>
      obtain ⟨hx, hd⟩ := List.pairwise_cons.mp hd
      obtain ⟨S, hS, hcard, hcover⟩ := ih (fun y hy => hin y (List.mem_cons_of_mem _ hy)) hd
      have hle := hin x List.mem_cons_self
      refine ⟨Finset.Ico (a x) (a x + n x) ∪ S, ?_, ?_, fun i hi => ?_⟩
      · refine Finset.union_subset (fun i hi => ?_) hS
        have := Finset.mem_Ico.mp hi
        exact Finset.mem_range.mpr (by omega)
      · have hdisj : Disjoint (Finset.Ico (a x) (a x + n x)) S := by
          rw [Finset.disjoint_left]
          intro i hi hiS
          obtain ⟨y, hy, hyi⟩ := hcover i hiS
          have := Finset.mem_Ico.mp hi
          have := hx y hy
          omega
        rw [Finset.card_union_of_disjoint hdisj, Nat.card_Ico, hcard, List.map_cons, List.sum_cons]
        omega
      · rcases Finset.mem_union.mp hi with hi | hi
        · exact ⟨x, List.mem_cons_self, Finset.mem_Ico.mp hi⟩
        · obtain ⟨y, hy, hyi⟩ := hcover i hi
          exact ⟨y, List.mem_cons_of_mem _ hy, hyi⟩
  obtain ⟨S, hS, hcard, -⟩ := hset
  rw [← hcard, ← Finset.card_range hi]
  exact Finset.card_le_card hS

/-- A divisor of the first address, of the header length and of all sizes divides every address. -/
theorem Tiled.dvd {k : ℕ} (ht : Tiled h lo ts hi) (hlo : k ∣ lo) (hh : k ∣ h)
    (hsize : ∀ t ∈ ts, k ∣ t.size) : (∀ t ∈ ts, k ∣ t.addr) ∧ k ∣ hi := by
  induction ts generalizing lo with
  | nil =>
    have heq : lo = hi := ht
    exact ⟨fun t hmem => absurd hmem List.not_mem_nil, heq ▸ hlo⟩
  | cons t ts ih =>
    obtain ⟨haddr, hrest⟩ := ht
    have hta : k ∣ t.addr := haddr ▸ hlo
    have hstop : k ∣ t.stop h := Nat.dvd_add (Nat.dvd_add hta hh) (hsize t List.mem_cons_self)
    obtain ⟨hall, hhi⟩ := ih hrest hstop fun u hu => hsize u (List.mem_cons_of_mem _ hu)
    exact ⟨List.forall_mem_cons.mpr ⟨hta, hall⟩, hhi⟩

/-- The used tiles. -/
def useds (ts : List Tile) : List Tile := ts.filter (·.used)

/-- The free tiles. -/
def frees (ts : List Tile) : List Tile := ts.filter (!·.used)

@[simp] theorem useds_append : useds (ts ++ us) = useds ts ++ useds us := List.filter_append ..

@[simp] theorem frees_append : frees (ts ++ us) = frees ts ++ frees us := List.filter_append ..

@[simp] theorem useds_nil : useds [] = [] := rfl

@[simp] theorem frees_nil : frees [] = [] := rfl

theorem useds_cons : useds (t :: ts) = if t.used then t :: useds ts else useds ts := by
  simp [useds, List.filter_cons]

theorem frees_cons : frees (t :: ts) = if t.used then frees ts else t :: frees ts := by
  cases hu : t.used <;> simp [frees, hu]

theorem mem_useds : t ∈ useds ts ↔ t ∈ ts ∧ t.used = true := List.mem_filter

theorem mem_frees : t ∈ frees ts ↔ t ∈ ts ∧ t.used = false := by
  simp [frees, List.mem_filter]

/-- Used and free lengths add up to the whole. -/
theorem sum_useds_add_frees (ts : List Tile) (f : Tile → ℕ) :
    ((useds ts).map f).sum + ((frees ts).map f).sum = (ts.map f).sum := by
  induction ts with
  | nil => rfl
  | cons s ts ih =>
    rw [useds_cons, frees_cons]
    split <;> simp only [List.map_cons, List.sum_cons] <;> omega

/-- Merging the used and the free tiles by address gives back the tiling. -/
theorem Tiled.merge_useds_frees (ht : Tiled h lo ts hi) (hpos : 0 < h) :
    (useds ts).merge (frees ts) (fun s t => decide (s.addr ≤ t.addr)) = ts := by
  induction ts generalizing lo with
  | nil => exact List.nil_merge _
  | cons s ts ih =>
    have ih := ih ht.2
    have hlater : ∀ t ∈ ts, s.addr < t.addr := fun t hmem => by
      have := (ht.2.bounds hmem).1
      simp only [Tile.stop] at this
      omega
    rw [useds_cons, frees_cons]
    split
    · cases hf : frees ts with
      | nil =>
        rw [hf, List.merge_right] at ih
        rw [List.merge_right, ih]
      | cons f fs =>
        have hsf := hlater f (mem_frees.mp (hf ▸ List.mem_cons_self)).1
        rw [List.cons_merge_cons_pos _ _ _ (decide_eq_true hsf.le), ← hf, ih]
    · cases hu : useds ts with
      | nil =>
        rw [hu, List.nil_merge] at ih
        rw [List.nil_merge, ih]
      | cons u us =>
        have hsu := hlater u (mem_useds.mp (hu ▸ List.mem_cons_self)).1
        rw [List.cons_merge_cons_neg _ _ _ (by simpa using hsu), ← hu, ih]

/-- Every address of the interval is in a tile. -/
theorem Tiled.exists_mem {x : ℕ} (ht : Tiled h lo ts hi) (hlo : lo ≤ x) (hhi : x < hi) :
    ∃ t ∈ ts, t.addr ≤ x ∧ x < t.stop h := by
  induction ts generalizing lo with
  | nil =>
    have : lo = hi := ht
    omega
  | cons s ts ih =>
    have hs := ht.1
    by_cases hx : x < s.stop h
    · exact ⟨s, List.mem_cons_self, by omega, hx⟩
    · obtain ⟨t, hmem, htx⟩ := ih ht.2 (by omega)
      exact ⟨t, List.mem_cons_of_mem _ hmem, htx⟩

/-- Total length of the used tiles. -/
def occupied (h : ℕ) (ts : List Tile) : ℕ := ((useds ts).map fun t => t.size + h).sum

@[simp] theorem occupied_append : occupied h (ts ++ us) = occupied h ts + occupied h us := by
  rw [occupied, useds_append, List.map_append, List.sum_append]
  rfl

/-- A single tile is occupied when it is used. -/
theorem occupied_singleton : occupied h [t] = if t.used then t.size + h else 0 := by
  rw [occupied, useds_cons]
  split <;> simp

/-- The free length is what the used tiles leave of the interval. -/
theorem Tiled.free_length (ht : Tiled h lo ts hi) :
    lo + ((frees ts).map fun t => t.size + h).sum + occupied h ts = hi := by
  have := sum_useds_add_frees ts fun t => t.size + h
  have := ht.sum
  rw [occupied]
  omega

/-! ## Coalescing -/

/-- Put a tile in front of a tiling, joining it with a free first tile when it is free. -/
def absorb (h : ℕ) (t : Tile) : List Tile → List Tile
  | [] => [t]
  | u :: us => if t.used || u.used then t :: u :: us
      else { t with size := t.size + h + u.size } :: us

/-- Join all neighbouring free tiles. -/
def coalesce (h : ℕ) (ts : List Tile) : List Tile := ts.foldr (absorb h) []

/-- No two neighbouring tiles are free. -/
def Coalesced (ts : List Tile) : Prop := ts.IsChain fun s t => s.used = true ∨ t.used = true

@[simp] theorem coalesce_nil : coalesce h [] = [] := rfl

@[simp] theorem coalesce_cons : coalesce h (t :: ts) = absorb h t (coalesce h ts) := rfl

theorem tiled_absorb (ht : Tiled h (t.stop h) ts hi) : Tiled h t.addr (absorb h t ts) hi := by
  cases ts with
  | nil => exact ⟨rfl, ht⟩
  | cons u us =>
    rw [absorb]
    split
    · exact ⟨rfl, ht⟩
    · refine ⟨rfl, ?_⟩
      have hu := ht.1
      have hrest := ht.2
      simp only [Tile.stop] at hu hrest ⊢
      rwa [show t.addr + h + (t.size + h + u.size) = u.addr + h + u.size by omega]

/-- A free tile that absorbs what is behind it ends where the free tile behind it ends, or where it
ended. -/
theorem exists_absorb (hfree : t.used = false) (ht : Tiled h (t.stop h) ts hi) :
    ∃ f ∈ frees (absorb h t ts), f.addr = t.addr ∧
      (∀ q us, ts = q :: us → q.used = false → f.stop h = q.stop h) ∧
      ((∀ q us, ts = q :: us → q.used = true) → f.stop h = t.stop h) := by
  have hself : t ∈ frees [t] := mem_frees.mpr ⟨List.mem_singleton_self t, hfree⟩
  cases ts with
  | nil => exact ⟨t, hself, rfl, fun q us heq => (List.cons_ne_nil _ _ heq.symm).elim, fun _ => rfl⟩
  | cons u us =>
    have hu : u.addr = t.stop h := ht.1
    by_cases hused : u.used = true
    · rw [absorb, if_pos (by rw [hused, Bool.or_true])]
      refine ⟨t, mem_frees.mpr ⟨List.mem_cons_self, hfree⟩, rfl, fun q vs heq hq => ?_, fun _ => rfl⟩
      cases heq
      rw [hused] at hq
      cases hq
    · rw [absorb, if_neg (by simp [hfree, hused])]
      refine ⟨_, mem_frees.mpr ⟨List.mem_cons_self, hfree⟩, rfl, fun q vs heq _ => ?_, fun hall => ?_⟩
      · cases heq
        simp only [Tile.stop] at hu ⊢
        omega
      · exact absurd (hall u us rfl) hused

/-- Coalescing keeps the interval. -/
theorem Tiled.coalesce (ht : Tiled h lo ts hi) : Tiled h lo (coalesce h ts) hi := by
  induction ts generalizing lo with
  | nil => exact ht
  | cons s ts ih => exact ht.1 ▸ tiled_absorb (ih ht.2)

/-- Coalescing leaves no two free neighbours. -/
theorem coalesced_coalesce (ts : List Tile) : Coalesced (coalesce h ts) := by
  induction ts with
  | nil => exact List.IsChain.nil
  | cons s ts ih =>
    rw [coalesce_cons]
    cases hc : HeapLib.coalesce h ts with
    | nil => exact List.IsChain.singleton _
    | cons u us =>
      rw [hc] at ih
      rw [absorb]
      split
      · next hsu => exact List.isChain_cons_cons.mpr ⟨by simpa using hsu, ih⟩
      · next hsu =>
        have hs : u.used = false := by simp_all
        cases us with
        | nil => exact List.IsChain.singleton _
        | cons v vs =>
          obtain ⟨huv, hvs⟩ := List.isChain_cons_cons.mp ih
          exact List.isChain_cons_cons.mpr ⟨by simp_all, hvs⟩

/-- At a used tile a coalesced tiling splits freely. -/
theorem coalesced_append_cons (hu : t.used = true) :
    Coalesced (pre ++ t :: post) ↔ Coalesced pre ∧ Coalesced post := by
  rw [Coalesced, List.isChain_append]
  constructor
  · rintro ⟨hpre, hpost, -⟩
    exact ⟨hpre, hpost.tail⟩
  · rintro ⟨hpre, hpost⟩
    refine ⟨hpre, ?_, fun s _ u hu' => .inr ?_⟩
    · cases post with
      | nil => exact List.IsChain.singleton _
      | cons u us => exact List.isChain_cons_cons.mpr ⟨.inl hu, hpost⟩
    · cases hu'
      exact hu

/-- Coalescing works on both sides of a used tile. -/
theorem coalesce_append_cons (hu : t.used = true) :
    coalesce h (pre ++ t :: post) = coalesce h pre ++ t :: coalesce h post := by
  induction pre with
  | nil =>
    rw [List.nil_append, coalesce_cons, coalesce_nil, List.nil_append]
    cases coalesce h post with
    | nil => rfl
    | cons u us => exact if_pos (by rw [hu, Bool.true_or])
  | cons s pre ih =>
    rw [List.cons_append, coalesce_cons, coalesce_cons, ih]
    cases coalesce h pre with
    | nil => exact if_pos (by rw [hu, Bool.or_true])
    | cons u us =>
      rw [List.cons_append, absorb, absorb]
      split <;> rfl

/-- Coalescing touches no used tile. -/
@[simp] theorem useds_coalesce (ts : List Tile) : useds (coalesce h ts) = useds ts := by
  induction ts with
  | nil => rfl
  | cons s ts ih =>
    rw [coalesce_cons, useds_cons, ← ih]
    cases HeapLib.coalesce h ts with
    | nil => rw [absorb, useds_cons]
    | cons u us =>
      rw [absorb]
      split
      · rw [useds_cons]
      · next hsu => simp_all [useds_cons]

/-- A coalesced tiling is left alone. -/
theorem coalesce_eq_self (hc : Coalesced ts) : coalesce h ts = ts := by
  induction ts with
  | nil => rfl
  | cons s ts ih =>
    cases ts with
    | nil => rfl
    | cons u us =>
      obtain ⟨hsu, hrest⟩ := List.isChain_cons_cons.mp hc
      rw [coalesce_cons, ih hrest, absorb, if_pos (by simpa using hsu)]

/-- A property of tiles kept by joining two of them holds after coalescing. -/
theorem forall_coalesce {P : Tile → Prop} (hts : ∀ t ∈ ts, P t)
    (hjoin : ∀ s t, P s → P t → P { s with size := s.size + h + t.size }) :
    ∀ t ∈ coalesce h ts, P t := by
  induction ts with
  | nil => exact fun t hmem => absurd hmem List.not_mem_nil
  | cons s ts ih =>
    have hs := hts s List.mem_cons_self
    have ih := ih fun t hmem => hts t (List.mem_cons_of_mem _ hmem)
    rw [coalesce_cons]
    cases hc : coalesce h ts with
    | nil => simpa [absorb] using hs
    | cons u us =>
      rw [hc] at ih
      rw [absorb]
      split
      · exact List.forall_mem_cons.mpr ⟨hs, ih⟩
      · exact List.forall_mem_cons.mpr ⟨hjoin s u hs (ih u List.mem_cons_self),
          fun t hmem => ih t (List.mem_cons_of_mem _ hmem)⟩

/-- Consecutive free tiles of a coalesced tiling have a used tile between them. -/
theorem Tiled.frees_isChain (ht : Tiled h lo ts hi) (hc : Coalesced ts) :
    (frees ts).IsChain fun a b => ∃ u ∈ useds ts, a.stop h ≤ u.addr ∧ u.stop h ≤ b.addr := by
  induction ts generalizing lo with
  | nil => exact List.IsChain.nil
  | cons s ts ih =>
    have hsub : ∀ u ∈ useds ts, u ∈ useds (s :: ts) := fun u hu =>
      mem_useds.mpr ⟨List.mem_cons_of_mem _ (mem_useds.mp hu).1, (mem_useds.mp hu).2⟩
    have ih : (frees ts).IsChain fun a b =>
        ∃ u ∈ useds (s :: ts), a.stop h ≤ u.addr ∧ u.stop h ≤ b.addr := by
      refine (ih ht.2 hc.tail).imp ?_
      rintro a b ⟨u, hu, hab⟩
      exact ⟨u, hsub u hu, hab⟩
    rw [frees_cons]
    split
    · exact ih
    · next hs =>
      cases hf : frees ts with
      | nil => exact List.IsChain.singleton _
      | cons f fs =>
        rw [hf] at ih
        refine List.isChain_cons_cons.mpr ⟨?_, ih⟩
        cases ts with
        | nil => cases hf
        | cons u us =>
          -- the tile behind a free one is used, and the next free one lies behind it
          have hu : u.used = true := by
            have := (List.isChain_cons_cons.mp hc).1
            simpa [hs] using this
          have hfmem : f ∈ frees us := by
            rw [frees_cons, if_pos hu] at hf
            exact hf ▸ List.mem_cons_self
          exact ⟨u, mem_useds.mpr ⟨by simp, hu⟩, Nat.le_of_eq ht.2.1.symm,
            (ht.2.2.bounds (mem_frees.mp hfmem).1).1⟩

/-- A coalesced tiling without used tiles has at most one tile. -/
theorem Coalesced.eq_singleton (hc : Coalesced ts) (hu : useds ts = []) (hne : ts ≠ []) :
    ∃ t, ts = [t] ∧ t.used = false := by
  have hfree : ∀ t ∈ ts, t.used = false := fun t hmem => by
    by_contra ht
    exact List.ne_nil_of_mem (mem_useds.mpr ⟨hmem, by simpa using ht⟩) hu
  rcases ts with _ | ⟨t, _ | ⟨u, us⟩⟩
  · exact absurd rfl hne
  · exact ⟨t, rfl, hfree t List.mem_cons_self⟩
  · have := (List.isChain_cons_cons.mp hc).1
    simp [hfree t (by simp), hfree u (by simp)] at this

/-- A tile has positive length, so that its interval is not empty. -/
theorem Tiled.lt (ht : Tiled h lo (t :: ts) hi) (hpos : 0 < h) : lo < hi := by
  have := ht.2.le
  have := ht.1
  simp only [Tile.stop] at *
  omega

/-- The first used tile behind another one starts beyond it. -/
theorem Tiled.lt_of_useds (ht : Tiled h lo (t :: ts) hi) (hpos : 0 < h) (hu : useds ts = u :: us) :
    lo < u.addr := by
  have hmem : u ∈ ts := (mem_useds.mp (hu ▸ List.mem_cons_self)).1
  have := (ht.2.bounds hmem).1
  have := ht.1
  simp only [Tile.stop] at *
  omega

/-- A free tile of a coalesced tiling reaches to the next used tile, or to the end. -/
theorem Tiled.stop_of_free (ht : Tiled h (t.stop h) ts hi) (hc : Coalesced (t :: ts))
    (hfree : t.used = false) : t.stop h = ((useds ts).head?.map Tile.addr).getD hi := by
  cases ts with
  | nil => exact ht
  | cons v vs =>
    have hv : v.used = true := by
      have := (List.isChain_cons_cons.mp hc).1
      simpa [hfree] using this
    rw [useds_cons, if_pos hv]
    exact ht.1.symm

/-- Two coalesced tilings of an interval with the same used tiles start with the same tile. -/
theorem Tiled.head_unique (hts : Tiled h lo (t :: ts) hi) (hus : Tiled h lo (u :: us) hi)
    (hct : Coalesced (t :: ts)) (hcu : Coalesced (u :: us)) (hpos : 0 < h)
    (hused : useds (t :: ts) = useds (u :: us)) : t = u := by
  rw [useds_cons, useds_cons] at hused
  cases ht : t.used <;> cases hu : u.used <;> simp only [ht, hu, if_true, if_false,
    Bool.false_eq_true] at hused
  · have hst := hts.2.stop_of_free hct ht
    rw [hused, ← hus.2.stop_of_free hcu hu] at hst
    have haddr := hts.1.trans hus.1.symm
    have hsize : t.size = u.size := by
      simp only [Tile.stop] at hst
      omega
    cases t
    cases u
    simp_all only
  · have := hts.lt_of_useds hpos hused
    have := hus.1
    omega
  · have := hus.lt_of_useds hpos hused.symm
    have := hts.1
    omega
  · exact (List.cons.inj hused).1

/-- A coalesced tiling is determined by its interval and its used tiles. -/
theorem Tiled.unique (hts : Tiled h lo ts hi) (hus : Tiled h lo us hi) (hct : Coalesced ts)
    (hcu : Coalesced us) (hpos : 0 < h) (hused : useds ts = useds us) : ts = us := by
  induction ts generalizing us lo with
  | nil =>
    cases us with
    | nil => rfl
    | cons u us =>
      have hlo : lo = hi := hts
      exact absurd (hus.lt hpos) (Nat.not_lt.mpr (Nat.le_of_eq hlo.symm))
  | cons t ts ih =>
    cases us with
    | nil =>
      have hlo : lo = hi := hus
      exact absurd (hts.lt hpos) (Nat.not_lt.mpr (Nat.le_of_eq hlo.symm))
    | cons u us =>
      obtain rfl : t = u := hts.head_unique hus hct hcu hpos hused
      refine congrArg (t :: ·) (ih hts.2 hus.2 hct.tail hcu.tail ?_)
      rw [useds_cons, useds_cons] at hused
      split at hused
      · exact (List.cons.inj hused).2
      · exact hused

end HeapLib
