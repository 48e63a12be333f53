import FtMalloc.Lib.Tiling

/-!
# First fit, splitting and merging on tilings

The edits an allocator makes to a tiling: find the first tile with a property (`cutAt`),
carve a block off the front of a tile (`carve`), and merge an address-ordered free list
whose neighbours are closer than a tolerance (`mergeGaps`). On the free tiles of a tiling
whose used tiles are at least as long as the tolerance, merging is coalescing.
-/

namespace HeapLib

/-- Cut a list at its first element with the property `p`. -/
def cutAt {α : Type} (p : α → Bool) : List α → Option (List α × α × List α)
  | [] => none
  | a :: as => if p a then some ([], a, as) else (cutAt p as).map fun c => (a :: c.1, c.2)

/-- A successful cut splits the list at the first element with the property. -/
theorem cutAt_eq_some {α : Type} {p : α → Bool} {l pre post : List α} {b : α} :
    cutAt p l = some (pre, b, post) ↔
      l = pre ++ b :: post ∧ p b = true ∧ ∀ x ∈ pre, p x = false := by
  induction l generalizing pre with
  | nil => simp [cutAt]
  | cons a as ih =>
    rw [cutAt]
    split
    · next ha =>
      constructor
      · intro heq
        cases heq
        exact ⟨rfl, ha, fun x hx => absurd hx List.not_mem_nil⟩
      · rintro ⟨heq, -, hpre⟩
        cases pre with
        | nil =>
          cases heq
          rfl
        | cons x pre =>
          cases heq
          have := hpre a List.mem_cons_self
          simp_all
    · next ha =>
      constructor
      · intro heq
        obtain ⟨⟨pre', b', post'⟩, hcut, heq⟩ := Option.map_eq_some_iff.mp heq
        cases heq
        obtain ⟨rfl, hb, hpre⟩ := ih.mp hcut
        exact ⟨rfl, hb, List.forall_mem_cons.mpr ⟨by simpa using ha, hpre⟩⟩
      · rintro ⟨heq, hb, hpre⟩
        cases pre with
        | nil =>
          cases heq
          exact absurd hb ha
        | cons x pre =>
          cases heq
          rw [ih.mpr ⟨rfl, hb, (List.forall_mem_cons.mp hpre).2⟩]
          rfl

/-- A cut fails exactly when no element has the property. -/
theorem cutAt_eq_none {α : Type} {p : α → Bool} {l : List α} :
    cutAt p l = none ↔ ∀ x ∈ l, p x = false := by
  induction l with
  | nil => simp [cutAt]
  | cons a as ih =>
    rw [cutAt]
    split <;> simp_all

/-- The element a list is cut at is the one a search finds. -/
theorem find?_eq_cutAt {α : Type} (p : α → Bool) (l : List α) :
    l.find? p = (cutAt p l).map fun c => c.2.1 := by
  induction l with
  | nil => rfl
  | cons a as ih =>
    rw [List.find?_cons, cutAt]
    cases p a with
    | true => rfl
    | false =>
      rw [if_neg Bool.false_ne_true, Option.map_map]
      exact ih

variable {h g n lo hi : ℕ} {t u e f : Tile} {ts us pre post es : List Tile}

/-- Carve a used block of `n` data bytes off the front of a tile. A rest shorter than `g`
stays with the block, otherwise it becomes a free tile. -/
def carve (h g n : ℕ) (t : Tile) : List Tile :=
  if t.size - n < g then [{ t with used := true }]
  else [⟨t.addr, n, true⟩, ⟨t.addr + h + n, t.size - n - h, false⟩]

/-- Carving keeps the interval of the tile. -/
theorem tiled_carve (hn : n ≤ t.size) (hg : h ≤ g) :
    Tiled h t.addr (carve h g n t) (t.stop h) := by
  rw [carve]
  split
  · exact ⟨rfl, rfl⟩
  · refine ⟨rfl, rfl, ?_⟩
    simp only [Tiled, Tile.stop]
    omega

/-- Replacing a tile by its carving keeps the interval. -/
theorem Tiled.carve (ht : Tiled h lo (pre ++ t :: post) hi) (hn : n ≤ t.size) (hg : h ≤ g) :
    Tiled h lo (pre ++ (carve h g n t ++ post)) hi := by
  obtain ⟨hpre, hpost⟩ := tiled_append_cons.mp ht
  exact hpre.append ((tiled_carve hn hg).append hpost)

/-- The used tile that carving produces. -/
theorem useds_carve : useds (carve h g n t) =
    [⟨t.addr, if t.size - n < g then t.size else n, true⟩] := by
  rw [HeapLib.carve]
  split <;> rfl

/-- The used tile that carving produces is one of its tiles. -/
theorem mem_carve :
    (⟨t.addr, if t.size - n < g then t.size else n, true⟩ : Tile) ∈ carve h g n t := by
  refine (mem_useds.mp ?_).1
  rw [useds_carve]
  exact List.mem_singleton_self _

/-- The free rest that carving produces, if any. -/
theorem frees_carve : frees (carve h g n t) =
    if t.size - n < g then [] else [⟨t.addr + h + n, t.size - n - h, false⟩] := by
  rw [HeapLib.carve]
  split <;> rfl

/-- The length that the carved block occupies. -/
theorem occupied_carve :
    occupied h (carve h g n t) = (if t.size - n < g then t.size else n) + h := by
  rw [occupied, useds_carve, List.map_singleton, List.sum_singleton]

/-- Carving a free tile of a coalesced tiling leaves it coalesced. -/
theorem coalesced_carve (hc : Coalesced (pre ++ t :: post)) (hfree : t.used = false) :
    Coalesced (pre ++ (carve h g n t ++ post)) := by
  have hpre : Coalesced pre := hc.left_of_append
  have hpost : Coalesced (t :: post) := hc.right_of_append
  rw [HeapLib.carve]
  split
  · exact (coalesced_append_cons rfl).mpr ⟨hpre, hpost.tail⟩
  · refine (coalesced_append_cons rfl).mpr ⟨hpre, ?_⟩
    cases post with
    | nil => exact List.IsChain.singleton _
    | cons u us =>
      obtain ⟨htu, hus⟩ := List.isChain_cons_cons.mp hpost
      exact List.isChain_cons_cons.mpr ⟨.inr (by simpa [hfree] using htu), hus⟩

/-- The tile covering two neighbours. -/
def join (h : ℕ) (s t : Tile) : Tile := ⟨s.addr, s.size + h + t.size, true⟩

/-- Two neighbours may be replaced by the tile covering both. -/
theorem Tiled.join {s : Tile} (ht : Tiled h lo (pre ++ s :: t :: post) hi) :
    Tiled h lo (pre ++ join h s t :: post) hi := by
  obtain ⟨hpre, htaddr, hpost⟩ := tiled_append_cons.mp ht
  refine tiled_append_cons.mpr ⟨hpre, ?_⟩
  simp only [Tile.stop, HeapLib.join] at *
  rwa [show s.addr + h + (s.size + h + t.size) = t.addr + h + t.size by omega]

/-- The length that the joined block occupies. -/
theorem occupied_join {s : Tile} : occupied h [join h s t] = s.size + h + t.size + h := by
  rw [occupied_singleton, if_pos (by rfl)]
  rfl

/-- Joining two neighbours leaves a coalesced tiling coalesced. -/
theorem coalesced_join {s : Tile} (hc : Coalesced (pre ++ s :: t :: post)) :
    Coalesced (pre ++ join h s t :: post) := by
  have hpost : Coalesced (s :: t :: post) := hc.right_of_append
  exact (coalesced_append_cons rfl).mpr ⟨hc.left_of_append, hpost.tail.tail⟩

/-- The largest data size in a list of tiles, zero when the list is empty. -/
def largest (ts : List Tile) : ℕ := ts.foldr (fun t k => max t.size k) 0

/-- No tile exceeds the largest size. -/
theorem le_largest (hmem : t ∈ ts) : t.size ≤ largest ts := by
  induction ts with
  | nil => exact absurd hmem List.not_mem_nil
  | cons s ts ih =>
    rcases List.mem_cons.mp hmem with rfl | hmem
    · exact Nat.le_max_left _ _
    · exact (ih hmem).trans (Nat.le_max_right _ _)

/-- Some tile attains the largest size. -/
theorem exists_size_eq_largest (hne : ts ≠ []) : ∃ t ∈ ts, t.size = largest ts := by
  induction ts with
  | nil => exact absurd rfl hne
  | cons s ts ih =>
    rcases Nat.le_total (largest ts) s.size with hle | hle
    · exact ⟨s, List.mem_cons_self, (Nat.max_eq_left hle).symm⟩
    · cases ts with
      | nil => exact ⟨s, List.mem_cons_self, (Nat.max_eq_left (Nat.zero_le _)).symm⟩
      | cons u us =>
        obtain ⟨t, hmem, heq⟩ := ih (List.cons_ne_nil _ _)
        exact ⟨t, List.mem_cons_of_mem _ hmem, heq.trans (Nat.max_eq_right hle).symm⟩

/-- The largest size is the exact limit of what some tile can hold. -/
theorem le_largest_iff (hne : ts ≠ []) : n ≤ largest ts ↔ ∃ t ∈ ts, n ≤ t.size := by
  constructor
  · intro hn
    obtain ⟨t, ht, heq⟩ := exists_size_eq_largest hne
    exact ⟨t, ht, heq ▸ hn⟩
  · rintro ⟨t, ht, hn⟩
    exact hn.trans (le_largest ht)

/-! ## Merging an ordered free list -/

/-- Put a free region in front of a merged list, joining it across a gap below `g`. -/
def absorbGap (h g : ℕ) (e : Tile) : List Tile → List Tile
  | [] => [e]
  | f :: fs => if f.addr - e.stop h < g then { e with size := f.stop h - e.addr - h } :: fs
      else e :: f :: fs

theorem absorbGap_of_lt (hgap : f.addr - e.stop h < g) :
    absorbGap h g e (f :: es) = { e with size := f.stop h - e.addr - h } :: es := if_pos hgap

theorem absorbGap_of_ge (hgap : ¬ f.addr - e.stop h < g) :
    absorbGap h g e (f :: es) = e :: f :: es := if_neg hgap

/-- Join all neighbours whose gap is below `g`. -/
def mergeGaps (h g : ℕ) (es : List Tile) : List Tile := es.foldr (absorbGap h g) []

@[simp] theorem mergeGaps_cons : mergeGaps h g (e :: es) = absorbGap h g e (mergeGaps h g es) :=
  rfl

/-- Merging keeps the first address. -/
theorem exists_mergeGaps_cons (h g : ℕ) (e : Tile) (es : List Tile) :
    ∃ k fs, mergeGaps h g (e :: es) = { e with size := k } :: fs := by
  rw [mergeGaps_cons]
  cases mergeGaps h g es with
  | nil => exact ⟨e.size, [], rfl⟩
  | cons f fs =>
    rw [absorbGap]
    split
    · exact ⟨_, fs, rfl⟩
    · exact ⟨e.size, f :: fs, rfl⟩

/-- A wide gap separates the merged lists on its two sides. -/
theorem mergeGaps_of_ge (hgap : ¬ f.addr - e.stop h < g) :
    mergeGaps h g (e :: f :: es) = e :: mergeGaps h g (f :: es) := by
  obtain ⟨k, fs, hm⟩ := exists_mergeGaps_cons h g f es
  rw [mergeGaps_cons, hm]
  exact absorbGap_of_ge hgap

/-- A narrow gap may be closed before merging the rest. -/
theorem mergeGaps_of_lt (hgap : f.addr - e.stop h < g) (hef : e.stop h ≤ f.addr)
    (hfs : ∀ k ∈ es, f.stop h ≤ k.addr) :
    mergeGaps h g (e :: f :: es) =
      mergeGaps h g ({ e with size := e.size + (f.addr - e.stop h + f.size + h) } :: es) := by
  set e' : Tile := { e with size := e.size + (f.addr - e.stop h + f.size + h) } with he'
  have hstop : e'.stop h = f.stop h := by
    simp only [he', Tile.stop] at hef ⊢
    omega
  have hsize : f.stop h - e.addr - h = e'.size := by
    rw [← hstop]
    simp only [he', Tile.stop]
    omega
  rw [mergeGaps_cons, mergeGaps_cons, mergeGaps_cons]
  cases es with
  | nil =>
    change absorbGap h g e [f] = [e']
    rw [absorbGap_of_lt hgap, hsize]
  | cons k es =>
    obtain ⟨size, fs, hm⟩ := exists_mergeGaps_cons h g k es
    have hk := hfs k List.mem_cons_self
    rw [hm]
    set k' : Tile := { k with size := size } with hk'
    by_cases hgk : k'.addr - f.stop h < g
    · have hle : f.stop h ≤ k'.stop h := by
        simp only [hk', Tile.stop] at hk ⊢
        omega
      have hfk : ({ f with size := k'.stop h - f.addr - h } : Tile).stop h = k'.stop h := by
        simp only [Tile.stop] at hle ⊢
        omega
      have hgf : ({ f with size := k'.stop h - f.addr - h } : Tile).addr - e.stop h < g := hgap
      rw [absorbGap_of_lt hgk, absorbGap_of_lt hgf, absorbGap_of_lt (hstop ▸ hgk), hfk]
    · rw [absorbGap_of_ge hgk, absorbGap_of_lt hgap, absorbGap_of_ge (hstop ▸ hgk), hsize]

/-- Joining across a gap keeps the end. -/
theorem stop_absorbed (hef : e.stop h ≤ f.addr) :
    ({ e with size := f.stop h - e.addr - h } : Tile).stop h = f.stop h := by
  simp only [Tile.stop] at *
  omega

/-- All gaps of a merged list are at least `g`. -/
theorem isChain_mergeGaps (hs : es.Pairwise fun e f => e.stop h ≤ f.addr) :
    (mergeGaps h g es).IsChain fun e f => e.stop h + g ≤ f.addr := by
  induction es with
  | nil => exact List.IsChain.nil
  | cons e es ih =>
    obtain ⟨he, hes⟩ := List.pairwise_cons.mp hs
    cases es with
    | nil => exact List.IsChain.singleton _
    | cons f es =>
      have hchain := ih hes
      have hef : e.stop h ≤ f.addr := he f List.mem_cons_self
      obtain ⟨k, fs, hm⟩ := exists_mergeGaps_cons h g f es
      rw [mergeGaps_cons, hm]
      rw [hm] at hchain
      set f' : Tile := { f with size := k } with hf'
      have hef' : e.stop h ≤ f'.addr := hef
      by_cases hgap : f'.addr - e.stop h < g
      · rw [absorbGap_of_lt hgap]
        cases fs with
        | nil => exact List.IsChain.singleton _
        | cons u us =>
          obtain ⟨hfu, hus⟩ := List.isChain_cons_cons.mp hchain
          exact List.isChain_cons_cons.mpr ⟨by rwa [stop_absorbed hef'], hus⟩
      · rw [absorbGap_of_ge hgap]
        exact List.isChain_cons_cons.mpr ⟨by omega, hchain⟩

/-- The tiles that survive a merge keep their addresses, in order. -/
theorem map_addr_mergeGaps_sublist :
    ((mergeGaps h g es).map Tile.addr).Sublist (es.map Tile.addr) := by
  induction es with
  | nil => exact List.Sublist.slnil
  | cons e es ih =>
    rw [mergeGaps_cons, List.map_cons]
    cases hm : mergeGaps h g es with
    | nil => exact (List.nil_sublist _).cons_cons _
    | cons f fs =>
      rw [hm, List.map_cons] at ih
      rw [absorbGap]
      split
      · exact ((List.sublist_cons_self _ _).trans ih).cons_cons _
      · exact ih.cons_cons _

/-- The bytes of a list of tiles. -/
def extent (h : ℕ) (es : List Tile) : Set ℕ := {x | ∃ e ∈ es, e.addr ≤ x ∧ x < e.stop h}

/-- The bytes of the gaps below `g` between consecutive tiles. -/
def narrowGaps (h g : ℕ) (es : List Tile) : Set ℕ :=
  {x | ∃ e f, [e, f] <:+: es ∧ f.addr - e.stop h < g ∧ e.stop h ≤ x ∧ x < f.addr}

/-- The first tile and the others. -/
theorem mem_extent_cons {x : ℕ} :
    x ∈ extent h (e :: es) ↔ e.addr ≤ x ∧ x < e.stop h ∨ x ∈ extent h es :=
  List.exists_mem_cons_iff _ _ _

/-- The first gap and the others. -/
theorem mem_narrowGaps_cons {x : ℕ} : x ∈ narrowGaps h g (e :: f :: es) ↔
    f.addr - e.stop h < g ∧ e.stop h ≤ x ∧ x < f.addr ∨ x ∈ narrowGaps h g (f :: es) := by
  constructor
  · rintro ⟨a, b, hin, hx⟩
    rcases List.infix_cons_iff.mp hin with hpre | hin
    · obtain ⟨rfl, hsecond⟩ := List.cons_prefix_cons.mp hpre
      obtain ⟨rfl, -⟩ := List.cons_prefix_cons.mp hsecond
      exact .inl hx
    · exact .inr ⟨a, b, hin, hx⟩
  · rintro (hx | ⟨a, b, hin, hx⟩)
    · exact ⟨e, f, (List.prefix_append [e, f] es).isInfix, hx⟩
    · exact ⟨a, b, hin.trans (List.suffix_cons e (f :: es)).isInfix, hx⟩

/-- Merging adds exactly the narrow gaps. -/
theorem extent_mergeGaps (hs : es.Pairwise fun e f => e.stop h ≤ f.addr) :
    extent h (mergeGaps h g es) = extent h es ∪ narrowGaps h g es := by
  ext x
  rw [Set.mem_union]
  induction es with
  | nil =>
    have hnone : x ∉ narrowGaps h g [] := by
      rintro ⟨a, b, hin, -⟩
      exact absurd hin.length_le (by simp)
    exact (or_iff_left hnone).symm
  | cons e es ih =>
    obtain ⟨he, hes⟩ := List.pairwise_cons.mp hs
    cases es with
    | nil =>
      have hnone : x ∉ narrowGaps h g [e] := by
        rintro ⟨a, b, hin, -⟩
        exact absurd hin.length_le (by simp)
      exact (or_iff_left hnone).symm
    | cons f es =>
      have hiff := ih hes
      have hef : e.stop h ≤ f.addr := he f List.mem_cons_self
      obtain ⟨k, fs, hm⟩ := exists_mergeGaps_cons h g f es
      rw [mem_extent_cons, mem_narrowGaps_cons, or_or_or_comm, ← hiff, mergeGaps_cons, hm]
      set f' : Tile := { f with size := k } with hf'
      have hef' : e.stop h ≤ f'.addr := hef
      have hfaddr : f'.addr = f.addr := rfl
      by_cases hgap : f'.addr - e.stop h < g
      · -- the first tile, the gap and the second tile become one
        have hstart : e.addr ≤ e.stop h := by
          simp only [Tile.stop]
          omega
        have hstop : f'.addr ≤ f'.stop h := by
          simp only [Tile.stop]
          omega
        rw [absorbGap_of_lt hgap, mem_extent_cons, stop_absorbed hef', mem_extent_cons, ← or_assoc]
        refine or_congr_left ?_
        change e.addr ≤ x ∧ x < f'.stop h ↔ _
        omega
      · rw [absorbGap_of_ge hgap, mem_extent_cons]
        refine or_congr_left ?_
        omega

/-- On the free tiles of a tiling whose used tiles are at least as long as the tolerance,
merging closes exactly the empty gaps. -/
theorem mergeGaps_frees (ht : Tiled h lo ts hi) (hg : 0 < g)
    (hused : ∀ t ∈ ts, t.used = true → g ≤ h + t.size) :
    mergeGaps h g (frees ts) = frees (coalesce h ts) := by
  induction ts generalizing lo with
  | nil => rfl
  | cons s ts ih =>
    have ih := ih ht.2 fun t hmem => hused t (List.mem_cons_of_mem _ hmem)
    have htc := ht.2.coalesce
    rw [coalesce_cons, frees_cons]
    cases hs : s.used with
    | true =>
      rw [if_pos rfl, ih]
      cases coalesce h ts with
      | nil => simp [absorb, frees_cons, hs]
      | cons u us => simp [absorb, frees_cons, hs]
    | false =>
      rw [if_neg Bool.false_ne_true, mergeGaps_cons, ih]
      have huc : ∀ t ∈ coalesce h ts, t.used = true → g ≤ h + t.size := by
        intro t hmem hu
        have : t ∈ useds ts := useds_coalesce (h := h) ts ▸ mem_useds.mpr ⟨hmem, hu⟩
        exact hused t (List.mem_cons_of_mem _ (mem_useds.mp this).1) hu
      cases hc : coalesce h ts with
      | nil => simp [absorb, absorbGap, frees_cons, hs]
      | cons u us =>
        rw [hc] at htc huc
        cases hu : u.used with
        | false =>
          -- the next tile is free: its gap is empty
          have huaddr := htc.1
          rw [frees_cons, if_neg (by simp [hu]), absorbGap_of_lt (by omega), absorb,
            if_neg (by simp [hs, hu]), frees_cons, if_neg (by simp [hs])]
          simp only [Tile.stop] at *
          congr 2
          omega
        | true =>
          -- the next tile is used: the next free one lies behind it
          rw [frees_cons, if_pos hu, absorb, if_pos (by simp [hu]), frees_cons,
            if_neg (by simp [hs]), frees_cons, if_pos hu]
          cases hf : frees us with
          | nil => rfl
          | cons v vs =>
            have hv : v ∈ us := (mem_frees.mp (hf ▸ List.mem_cons_self)).1
            have hvb := (htc.2.bounds hv).1
            have huaddr := htc.1
            have hlen := huc u List.mem_cons_self hu
            rw [absorbGap_of_ge]
            simp only [Tile.stop] at *
            omega

end HeapLib
