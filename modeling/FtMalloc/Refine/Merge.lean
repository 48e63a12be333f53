import FtMalloc.Refine.Fields

/-!
# Merging empty spaces

`merge_empty_spaces` on an address-ordered list of empty spaces with arbitrary gaps: one round
either closes a gap below `MIN_SPLIT_SIZE` by deleting the next space, or moves on to it, and the
whole loop computes `mergeGaps`. In a zone whose blocks are at least `MIN_SPLIT_SIZE` long this
coalesces the tiling.
-/

namespace FtMalloc

open HeapLib

variable {s : Heap} {m m' : Memory} {c : ℕ} {e f : Tile} {d r fs : List Tile}

/-- Bytes of a list: its head cell and the headers of its nodes. -/
def listBytes (c : ℕ) (l : List ℕ) : Set ℕ :=
  {x | (c ≤ x ∧ x < c + 8) ∨ ∃ b ∈ l, b ≤ x ∧ x < b + 32}

/-- Fewer nodes are fewer bytes. -/
theorem listBytes_mono {l l' : List ℕ} (h : ∀ b ∈ l, b ∈ l') : listBytes c l ⊆ listBytes c l' := by
  rintro x (hx | ⟨b, hb, hx⟩)
  · exact .inl hx
  · exact .inr ⟨b, h b hb, hx⟩

/-- A list of empty spaces in address order, with its head stored at `c`. -/
structure FreeListAt (s : Heap) (c : ℕ) (fs : List Tile) : Prop where
  list : ListAt blockLinks s.mem c (fs.map Tile.addr)
  data : DataAt s.mem fs
  placed : Placed blockLinks c (fs.map Tile.addr)
  sorted : fs.Pairwise fun e f => e.stop 32 ≤ f.addr
  bound : ∀ f ∈ fs, f.stop 32 < 2 ^ 64
  valid : ∀ f ∈ fs, s.Valid f.addr 32

/-- Link edits keep sizes and ends of the nodes. -/
theorem DataAt.relink (h : DataAt m fs) (hP : Placed blockLinks c (fs.map Tile.addr))
    (hS : AgreeOff (linkBytes blockLinks c (fs.map Tile.addr)) m m') : DataAt m' fs := by
  refine h.agreeOff hS ?_
  rintro x (hx | ⟨a, ha, hx, hx'⟩) t ht hxt
  · have := hP.cell t.addr (List.mem_map_of_mem ht)
    simp only [blockLinks_width] at this
    omega
  · simp only [blockLinks_prev, blockLinks_next] at hx hx'
    by_cases hne : a = t.addr
    · omega
    · have := hP.apart ha (List.mem_map_of_mem ht) hne
      simp only [blockLinks_width] at this
      omega

/-- The space that covers two neighbours and the gap between them. -/
def bridge (e f : Tile) : Tile := { e with size := e.size + (f.addr - e.stop 32 + f.size + 32) }

/-- The covering space ends where the second one does. -/
theorem bridge_stop (hef : e.stop 32 ≤ f.addr) : (bridge e f).stop 32 = f.stop 32 := by
  simp only [bridge, Tile.stop] at *
  omega

/-- At the last space the loop leaves. -/
theorem FreeListAt.wp_mergeRound_last (h : FreeListAt s c (d ++ [e])) :
    wp (mergeRound e.addr) (fun k s' => k = .inr () ∧ s' = s) s := by
  have hv := h.valid e (by simp)
  have hpos := (h.placed.pos e.addr (by simp)).1
  have hlist := h.list
  rw [List.map_append, List.map_cons] at hlist
  have hnext : word s.mem (e.addr + 24) = 0 := hlist.next
  rw [mergeRound, wp_ite_neg (by simp only [null]; omega), wp_bind, Block.getNext,
    wp_loadWord (hv.sub (by omega) (by omega)), hnext, wp_ite_pos (by rfl), wp_pure]
  exact ⟨rfl, rfl⟩

/-- What is stored at a space and its successor. -/
theorem FreeListAt.pair (h : FreeListAt s c (d ++ e :: f :: r)) :
    word s.mem (e.addr + 24) = f.addr ∧ word s.mem (f.addr + 24) = (r.map Tile.addr).headD 0 ∧
      e.stop 32 ≤ f.addr ∧ f.stop 32 < 2 ^ 64 ∧ 0 < e.addr := by
  have hlist := h.list
  rw [List.map_append, List.map_cons, List.map_cons] at hlist
  have hlist' := hlist
  rw [List.append_cons] at hlist'
  exact ⟨hlist.next, hlist'.next,
    (List.pairwise_cons.mp (List.pairwise_append.mp h.sorted).2.1).1 f (by simp),
    h.bound f (by simp), (h.placed.pos e.addr (by simp)).1⟩

/-- Over a gap of `MIN_SPLIT_SIZE` or more the loop moves on. -/
theorem FreeListAt.wp_mergeRound_of_ge (h : FreeListAt s c (d ++ e :: f :: r))
    (hgap : ¬ f.addr - e.stop 32 < 48) :
    wp (mergeRound e.addr) (fun k s' => k = .inl f.addr ∧ s' = s) s := by
  have hve := h.valid e (by simp)
  obtain ⟨hnext, -, hef, -, hpos⟩ := h.pair
  obtain ⟨-, hend⟩ := h.data e (by simp)
  have hf0 : ¬ f.addr = null := by
    simp only [null, Tile.stop] at hef ⊢
    omega
  have hgn {R : ℕ → Heap → Prop} : wp (Block.getNext e.addr) R s ↔ R f.addr s := by
    rw [Block.getNext, wp_loadWord (hve.sub (by omega) (by omega)), hnext]
  rw [mergeRound, wp_ite_neg (by simp only [null]; omega), wp_bind, hgn, wp_ite_neg hf0, wp_bind,
    hgn, wp_bind, Block.getEnd, wp_loadWord (hve.sub (by omega) (by omega)), hend, wp_bind,
    wp_szSub hef, wp_ite_neg (show ¬ f.addr - e.stop 32 < minSplitSize from hgap), wp_pure]
  exact ⟨rfl, rfl⟩

/-- The memory once the covering space is stored over the first of two neighbours. -/
def covered (m : Memory) (e f : Tile) : Memory :=
  setWord (setWord m e.addr (bridge e f).size) (e.addr + 8) (f.stop 32)

/-- Only the size and the end of the first neighbour are written. -/
theorem agreeOff_covered : AgreeOff {x | e.addr ≤ x ∧ x < e.addr + 16} m (covered m e f) := by
  refine AgreeOff.write (AgreeOff.write (AgreeOff.refl _ _) ?_) ?_ <;>
    exact fun y hy hy' => ⟨by omega, by omega⟩

/-- The links are still those of the list before. -/
theorem FreeListAt.list_covered (h : FreeListAt s c (d ++ e :: f :: r)) :
    ListAt blockLinks (covered s.mem e f) c
      ((d.map Tile.addr ++ [e.addr]) ++ f.addr :: r.map Tile.addr) := by
  have hP : Placed blockLinks c ((d.map Tile.addr ++ [e.addr]) ++ f.addr :: r.map Tile.addr) := by
    simpa using h.placed
  have hlist : ListAt blockLinks s.mem c
      ((d.map Tile.addr ++ [e.addr]) ++ f.addr :: r.map Tile.addr) := by
    simpa using h.list
  refine hlist.agreeOff agreeOff_covered ?_
  rintro x (hx | ⟨a, ha, hx, hx'⟩) ⟨hxe, hxe'⟩
  · have := hP.cell e.addr (by simp)
    simp only [blockLinks_width] at this
    omega
  · simp only [blockLinks_prev, blockLinks_next] at hx hx'
    by_cases hne : a = e.addr
    · omega
    · have := hP.apart ha (b := e.addr) (by simp) hne
      simp only [blockLinks_width] at this
      omega

/-- Sizes and ends after the covering space has been stored over the first of two neighbours. -/
theorem FreeListAt.data_covered (h : FreeListAt s c (d ++ e :: f :: r)) :
    DataAt (covered s.mem e f) (d ++ bridge e f :: r) := by
  obtain ⟨-, -, hef, hf, -⟩ := h.pair
  have hstop := bridge_stop hef
  intro t ht
  by_cases hte : t = bridge e f
  · subst hte
    refine ⟨?_, (readLE_writeLE_same hf).trans hstop.symm⟩
    change word _ e.addr = _
    rw [word, covered, readLE_writeLE_disjoint (by omega)]
    refine readLE_writeLE_same ?_
    simp only [Tile.stop] at hstop hf
    omega
  · have htm : t ∈ d ++ e :: f :: r := by
      rcases List.mem_append.mp ht with ht | ht
      · simp [ht]
      · simp [(List.mem_cons.mp ht).resolve_left hte]
    have hne : t.addr + 32 ≤ e.addr ∨ e.addr + 32 ≤ t.addr := by
      obtain ⟨-, hcons, hcross⟩ := List.pairwise_append.mp h.sorted
      rcases List.mem_append.mp ht with ht | ht
      · have := hcross t ht e List.mem_cons_self
        simp only [Tile.stop] at this
        omega
      · have := (List.pairwise_cons.mp hcons).1 t
          (by simp [(List.mem_cons.mp ht).resolve_left hte])
        simp only [Tile.stop] at this
        omega
    obtain ⟨hsize, hend⟩ := h.data t htm
    have hoff {x : ℕ} (hx : t.addr ≤ x) (hx' : x < t.addr + 16) :
        x ∉ {x | e.addr ≤ x ∧ x < e.addr + 16} := by
      rintro ⟨hxe, hxe'⟩
      omega
    constructor
    · exact (agreeOff_covered.readLE_eq fun x hx hx' => hoff hx (by omega)).trans hsize
    · exact (agreeOff_covered.readLE_eq fun x hx hx' => hoff (by omega) (by omega)).trans hend

/-- Covering two neighbours keeps the spaces apart. -/
theorem FreeListAt.sorted_bridge (h : FreeListAt s c (d ++ e :: f :: r)) :
    (d ++ bridge e f :: r).Pairwise fun e f => e.stop 32 ≤ f.addr := by
  obtain ⟨-, -, hef, -, -⟩ := h.pair
  obtain ⟨hd, hcons, hcross⟩ := List.pairwise_append.mp h.sorted
  obtain ⟨hf, hr⟩ := List.pairwise_cons.mp (List.pairwise_cons.mp hcons).2
  refine List.pairwise_append.mpr ⟨hd, List.pairwise_cons.mpr ⟨fun t ht => ?_, hr⟩, ?_⟩
  · rw [bridge_stop hef]
    exact hf t ht
  · intro t ht u hu
    rcases List.mem_cons.mp hu with rfl | hu
    · exact hcross t ht e List.mem_cons_self
    · exact hcross t ht u (by simp [hu])

/-- The memory once the second of two neighbours has left the list as well. -/
def gapClosed (m : Memory) (e f : Tile) (next : ℕ) : Memory :=
  linkPrev blockLinks (setWord (covered m e f) (e.addr + 24) next) next e.addr

/-- Covering the next space and deleting it gives the list without it. -/
theorem FreeListAt.closeGap (h : FreeListAt s c (d ++ e :: f :: r)) :
    FreeListAt (s.withMem (gapClosed s.mem e f ((r.map Tile.addr).headD 0))) c
        (d ++ bridge e f :: r) ∧
      s.Writes (listBytes c ((d ++ e :: f :: r).map Tile.addr))
        (s.withMem (gapClosed s.mem e f ((r.map Tile.addr).headD 0))) := by
  obtain ⟨-, -, hef, hf, hpos⟩ := h.pair
  set l := r.map Tile.addr with hl
  have hP : Placed blockLinks c ((d.map Tile.addr ++ [e.addr]) ++ f.addr :: l) := by
    simpa using h.placed
  have hP' : Placed blockLinks c ((d.map Tile.addr ++ [e.addr]) ++ l) :=
    hP.sublist (List.Sublist.append_left (List.sublist_cons_self _ _) _)
  -- the links written are those of a deletion
  have hm : gapClosed s.mem e f (l.headD 0) =
      linkPrev blockLinks (linkNext blockLinks (covered s.mem e f) c
        ((d.map Tile.addr ++ [e.addr]).getLastD 0) (l.headD 0)) (l.headD 0)
        ((d.map Tile.addr ++ [e.addr]).getLastD 0) := by
    rw [List.getLastD_concat, linkNext, if_neg (by omega)]
    rfl
  rw [hm]
  have hS := (AgreeOff.refl (linkBytes blockLinks c ((d.map Tile.addr ++ [e.addr]) ++ l))
    (covered s.mem e f)).relink (v := l.headD 0) (w := (d.map Tile.addr ++ [e.addr]).getLastD 0)
    hP' (List.sublist_append_left _ _) (List.sublist_append_right _ _)
  have hnodes : (d ++ bridge e f :: r).map Tile.addr = (d.map Tile.addr ++ [e.addr]) ++ l := by
    simp [hl, bridge]
  have hbytes : ∀ b ∈ (d.map Tile.addr ++ [e.addr]) ++ l,
      b ∈ (d ++ e :: f :: r).map Tile.addr := by
    intro b hb
    rw [← hnodes, List.map_append, List.map_cons] at hb
    rcases List.mem_append.mp hb with hb | hb
    · simp [hb]
    · rcases List.mem_cons.mp hb with rfl | hb
      · simp [bridge]
      · simp [hb]
  have hfrom : ∀ t ∈ d ++ bridge e f :: r, t = bridge e f ∨ t ∈ d ++ e :: f :: r := by
    intro t ht
    rcases List.mem_append.mp ht with ht | ht
    · exact .inr (by simp [ht])
    · rcases List.mem_cons.mp ht with rfl | ht
      · exact .inl rfl
      · exact .inr (by simp [ht])
  refine ⟨⟨hnodes ▸ h.list_covered.remove hP, h.data_covered.relink (hnodes ▸ hP') (hnodes ▸ hS),
    hnodes ▸ hP', h.sorted_bridge, fun t ht => ?_, fun t ht => ?_⟩,
    ⟨_, rfl, (agreeOff_covered.mono ?_).trans (hS.mono ?_)⟩⟩
  · rcases hfrom t ht with rfl | ht
    · exact (bridge_stop hef).symm ▸ hf
    · exact h.bound t ht
  · rcases hfrom t ht with rfl | ht
    · exact h.valid e (by simp)
    · exact h.valid t ht
  · exact fun x hx => .inr ⟨e.addr, by simp, hx.1, by have := hx.2; omega⟩
  · rintro x (hx | ⟨b, hb, hx, hx'⟩)
    · exact .inl hx
    · simp only [blockLinks_prev, blockLinks_next] at hx hx'
      exact .inr ⟨b, hbytes b hb, by omega, by omega⟩

/-- What one round of the loop stores when it closes a gap. -/
theorem FreeListAt.wp_closeGap (h : FreeListAt s c (d ++ e :: f :: r))
    (hgap : f.addr - e.stop 32 < 48) :
    wp (mergeRound e.addr) (fun k s' => k = .inl e.addr ∧
      s' = s.withMem (gapClosed s.mem e f ((r.map Tile.addr).headD 0))) s := by
  have hve := h.valid e (by simp)
  have hvf := h.valid f (by simp)
  obtain ⟨hnext, hfnext, hef, hf, hpos⟩ := h.pair
  obtain ⟨hsize, hend⟩ := h.data e (by simp)
  obtain ⟨hfsize, hfend⟩ := h.data f (by simp)
  have hf0 : ¬ f.addr = null := by
    simp only [null, Tile.stop] at hef ⊢
    omega
  have hgn {R : ℕ → Heap → Prop} : wp (Block.getNext e.addr) R s ↔ R f.addr s := by
    rw [Block.getNext, wp_loadWord (hve.sub (by omega) (by omega)), hnext]
  have hsum₁ : f.addr - e.stop 32 + f.size < 2 ^ 64 := by
    simp only [Tile.stop] at *
    omega
  have hsum₂ : f.addr - e.stop 32 + f.size + headerSize < 2 ^ 64 := by
    simp only [Tile.stop, headerSize] at *
    omega
  have hsum₃ : e.size + (f.addr - e.stop 32 + f.size + headerSize) < 2 ^ 64 := by
    simp only [Tile.stop, headerSize] at *
    omega
  have hsep : e.addr + 32 ≤ f.addr := by
    simp only [Tile.stop] at hef
    omega
  set next := (r.map Tile.addr).headD 0 with hnxt
  have hr₁ : word (setWord s.mem e.addr (bridge e f).size) (f.addr + 8) = f.stop 32 :=
    (readLE_writeLE_disjoint (by omega)).trans hfend
  have hr₂ : word (covered s.mem e f) (f.addr + 24) = next :=
    (agreeOff_covered.readLE_eq fun x hx hx' hxS => by have := hxS.2; omega).trans hfnext
  have hr₃ : word (setWord (covered s.mem e f) (e.addr + 24) next) (f.addr + 24) = next :=
    (readLE_writeLE_disjoint (by omega)).trans hr₂
  have hvr : next ≠ 0 → s.Valid next 32 := by
    intro hne
    cases r with
    | nil => exact absurd rfl hne
    | cons k r => exact h.valid k (by simp)
  have hvf' {m : Memory} {o : ℕ} (ho : o + 8 ≤ 32) : (s.withMem m).Valid (f.addr + o) 8 :=
    valid_withMem.mpr (hvf.sub (by omega) (by omega))
  have hve' {m : Memory} {o : ℕ} (ho : o + 8 ≤ 32) : (s.withMem m).Valid (e.addr + o) 8 :=
    valid_withMem.mpr (hve.sub (by omega) (by omega))
  rw [mergeRound, wp_ite_neg (by simp only [null]; omega), wp_bind, hgn, wp_ite_neg hf0, wp_bind,
    hgn, wp_bind, Block.getEnd, wp_loadWord (hve.sub (by omega) (by omega)), hend, wp_bind,
    wp_szSub hef, wp_ite_pos (show f.addr - e.stop 32 < minSplitSize from hgap), wp_bind,
    Block.getDataSize, wp_loadWord (hve.sub (by omega) (by omega)), hsize, wp_bind,
    Block.getDataSize, wp_loadWord (hvf.sub (by omega) (by omega)), hfsize, wp_bind,
    wp_szAdd hsum₁, wp_bind, wp_szAdd hsum₂, wp_bind, wp_szAdd hsum₃, wp_bind, Block.setDataSize,
    wp_storeWord (hve.sub (by omega) (by omega))]
  change wp _ _ (s.withMem (setWord s.mem e.addr (bridge e f).size))
  rw [wp_bind, Block.getEnd, wp_loadWord (hvf' (by omega)), withMem_mem, hr₁, wp_bind,
    Block.setEnd, wp_storeWord (hve' (by omega)), withMem_withMem, withMem_mem, ← covered, wp_bind,
    Block.getNext, wp_loadWord (hvf' (by omega)), withMem_mem, hr₂, wp_bind, Block.setNext,
    wp_storeWord (hve' (by omega)), withMem_withMem, withMem_mem]
  simp only [wp_bind, wp_ite, wp_loadWord (hvf' (m := setWord (covered s.mem e f) (e.addr + 24) next)
    (o := 24) (by omega)), withMem_mem, hr₃]
  simp only [← wp_ite]
  rw [wp_setBack fun hne => valid_withMem.mpr (hvr hne), withMem_withMem, withMem_mem, wp_pure]
  exact ⟨rfl, rfl⟩

/-- A gap below `MIN_SPLIT_SIZE` is closed: the next space is deleted from the list and its bytes
are covered. -/
theorem FreeListAt.wp_mergeRound_of_lt (h : FreeListAt s c (d ++ e :: f :: r))
    (hgap : f.addr - e.stop 32 < 48) :
    wp (mergeRound e.addr) (fun k s' => k = .inl e.addr ∧
      FreeListAt s' c (d ++ bridge e f :: r) ∧
      s.Writes (listBytes c ((d ++ e :: f :: r).map Tile.addr)) s') s := by
  refine wp_mono (h.wp_closeGap hgap) fun k s' hpost => ?_
  obtain ⟨rfl, rfl⟩ := hpost
  exact ⟨rfl, h.closeGap⟩

/-- The loop of `merge_empty_spaces` computes `mergeGaps`. -/
theorem FreeListAt.wp_mergeLoop (h : FreeListAt s c fs) (hlen : fs.length < 2 ^ 64) :
    wp (forever mergeRound ((fs.map Tile.addr).headD 0)) (fun _ s' =>
      FreeListAt s' c (mergeGaps 32 48 fs) ∧ s.Writes (listBytes c (fs.map Tile.addr)) s') s := by
  -- spaces behind the current one are final, and their merge is what the loop still computes
  refine wp_forever (fun n iter s' => ∃ d r, r.length = n ∧ iter = (r.map Tile.addr).headD 0 ∧
    mergeGaps 32 48 fs = d ++ mergeGaps 32 48 r ∧ FreeListAt s' c (d ++ r) ∧
    (∀ b ∈ (d ++ r).map Tile.addr, b ∈ fs.map Tile.addr) ∧
    s.Writes (listBytes c (fs.map Tile.addr)) s') ?_ hlen
    ⟨[], fs, rfl, rfl, rfl, h, fun b hb => hb, Heap.Writes.refl _ _⟩
  rintro n iter s' ⟨d, r, rfl, rfl, hmerge, h', hsub, hw⟩
  rcases r with _ | ⟨e, _ | ⟨f, r⟩⟩
  · rw [List.map_nil, List.headD_nil, mergeRound, wp_ite_pos (by rfl), wp_pure]
    exact ⟨hmerge ▸ h', hw⟩
  · refine wp_mono h'.wp_mergeRound_last ?_
    rintro _ _ ⟨rfl, rfl⟩
    exact ⟨hmerge ▸ h', hw⟩
  · have hef := h'.pair.2.2.1
    have hrf : ∀ k ∈ r, f.stop 32 ≤ k.addr :=
      (List.pairwise_cons.mp (List.pairwise_cons.mp (List.pairwise_append.mp h'.sorted).2.1).2).1
    by_cases hgap : f.addr - e.stop 32 < 48
    · refine wp_mono (h'.wp_mergeRound_of_lt hgap) ?_
      rintro _ s₂ ⟨rfl, h₂, hw₂⟩
      refine ⟨(bridge e f :: r).length, by simp, d, bridge e f :: r, rfl, rfl, ?_, h₂, ?_,
        hw.trans (hw₂.mono (listBytes_mono hsub))⟩
      · rw [hmerge, mergeGaps_of_lt hgap hef hrf]
        rfl
      · intro b hb
        refine hsub b ?_
        rw [List.map_append, List.map_cons] at hb ⊢
        rcases List.mem_append.mp hb with hb | hb
        · exact List.mem_append_left _ hb
        · rcases List.mem_cons.mp hb with rfl | hb
          · exact List.mem_append_right _ List.mem_cons_self
          · exact List.mem_append_right _ (by simp [hb])
    · refine wp_mono (h'.wp_mergeRound_of_ge hgap) ?_
      rintro _ _ ⟨rfl, rfl⟩
      refine ⟨(f :: r).length, by simp, d ++ [e], f :: r, rfl, rfl, ?_, by simpa using h',
        by simpa using hsub, hw⟩
      rw [hmerge, mergeGaps_of_ge hgap, List.append_assoc]
      rfl

/-- Over wide gaps only, the loop stores nothing. -/
theorem FreeListAt.wp_mergeLoop_of_isChain (h : FreeListAt s c fs) (hlen : fs.length < 2 ^ 64)
    (hchain : fs.IsChain fun e f => e.stop 32 + 48 ≤ f.addr) :
    wp (forever mergeRound ((fs.map Tile.addr).headD 0)) (fun _ s' => s' = s) s := by
  refine wp_forever (fun n iter s' => s' = s ∧ ∃ d r, fs = d ++ r ∧ r.length = n ∧
    iter = (r.map Tile.addr).headD 0) ?_ hlen ⟨rfl, [], fs, rfl, rfl, rfl⟩
  rintro n iter s' ⟨rfl, d, r, rfl, rfl, rfl⟩
  rcases r with _ | ⟨e, _ | ⟨f, r⟩⟩
  · rw [List.map_nil, List.headD_nil, mergeRound, wp_ite_pos (by rfl), wp_pure, Sum.elim_inr]
  · refine wp_mono h.wp_mergeRound_last ?_
    rintro _ _ ⟨rfl, rfl⟩
    rfl
  · have hef := (List.isChain_cons_cons.mp hchain.right_of_append).1
    refine wp_mono (h.wp_mergeRound_of_ge (by omega)) ?_
    rintro _ _ ⟨rfl, rfl⟩
    exact ⟨(f :: r).length, Nat.lt_succ_self _, rfl, d ++ [e], f :: r, by simp, rfl, rfl⟩

/-! ## On a zone -/

section Zone

variable {z : TiledZone} {num rem : ℕ} {bs : List ℕ}

/-- The list of empty spaces of a laid zone, on its own. -/
theorem ZoneAt.freeListAt (h : ZoneAt s.mem z num rem bs z.empties) (hv : s.Valid z.addr z.len)
    (hz : z.Laid) : FreeListAt s (z.addr + 56) (frees z.tiles) where
  list := h.empties
  data := fun t ht => h.data t (mem_frees.mp ht).1
  placed := h.geo.placed h.geo.empties (by omega)
  sorted := hz.tiled.pairwise.sublist List.filter_sublist
  bound := fun t ht => by
    have := h.geo.inside t (mem_frees.mp ht).1
    have := h.geo.bound
    omega
  valid := fun t ht =>
    h.validTile (o := 0) hv (List.mem_map_of_mem (mem_frees.mp ht).1) (by omega)

/-- On the empty spaces of a zone whose blocks are at least `MIN_SPLIT_SIZE` long, merging is
coalescing. -/
theorem TiledZone.Laid.mergeGaps_empties (hz : z.Laid) :
    mergeGaps 32 48 (frees z.tiles) = frees z.coalesced.tiles := by
  refine mergeGaps_frees hz.tiled (by decide) fun t ht _ => ?_
  have := (hz.grain t ht).1
  simp only [alignment] at this
  omega

/-- The loop of `merge_empty_spaces` coalesces the zone. -/
theorem ZoneAt.wp_mergeZone (h : ZoneAt s.mem z num rem z.blocks z.empties)
    (hv : s.Valid z.addr z.len) (hz : z.Laid) :
    wp (forever mergeRound (z.empties.headD 0)) (fun _ s' =>
      s.Writes (headerBytes z.addr z.headers) s' ∧
      ZoneAt s'.mem z.coalesced num rem z.coalesced.blocks z.coalesced.empties) s := by
  have hlen : (frees z.tiles).length < 2 ^ 64 := h.empties_length_lt
  refine wp_mono ((h.freeListAt hv hz).wp_mergeLoop hlen) fun _ s' hpost => ?_
  obtain ⟨hlist, hw⟩ := hpost
  rw [hz.mergeGaps_empties] at hlist
  have hfree : ∀ b ∈ (frees z.tiles).map Tile.addr, b ∈ z.headers :=
    fun b hb => h.geo.empties.subset hb
  have hS := hw.agreeOff
  refine ⟨hw.mono ?_, ⟨⟨hz.coalesced.geometry, ?_, ?_, ?_⟩, hlist.list⟩⟩
  · rintro x (hx | ⟨b, hb, hx⟩)
    · exact .inl (by omega)
    · exact .inr ⟨b, hfree b hb, hx⟩
  · have hsc := h.scalars.agreeOff hS fun x hx hx' => by
      rcases hx with hx | ⟨b, hb, hx, -⟩
      · omega
      · have := h.geo.header (hfree b hb)
        omega
    exact ⟨hsc.start, hsc.stop, hsc.type, hsc.num, hsc.total, hsc.rem, hsc.cache⟩
  · intro t ht
    cases hu : t.used with
    | false => exact hlist.data t (mem_frees.mpr ⟨ht, hu⟩)
    | true =>
      -- a block is a block of the old tiling, whose header was not written
      have htold : t ∈ useds z.tiles := by
        rw [← useds_coalesce (h := headerSize)]
        exact mem_useds.mpr ⟨ht, hu⟩
      have hb : t.addr ∈ z.blocks := List.mem_map_of_mem htold
      have hone : DataAt s.mem [t] := fun u hut =>
        (List.mem_singleton.mp hut) ▸ h.data t (mem_useds.mp htold).1
      refine hone.agreeOff hS ?_ t (by simp)
      · rintro x hx u hut ⟨hxu, hxu'⟩
        rw [List.mem_singleton.mp hut] at hxu hxu'
        have hth := h.geo.header (h.geo.blocks.subset hb)
        rcases hx with hx | ⟨b, hbf, hx, hx'⟩
        · omega
        · have := h.geo.apart (hfree b hbf) (h.geo.blocks.subset hb)
            fun heq => h.geo.disjoint _ hb (heq ▸ hbf)
          omega
  · rw [TiledZone.coalesced_blocks]
    refine h.blocks.agreeOff hS ?_
    rintro x (hx | ⟨b, hb, hx, hx'⟩) (hy | ⟨e, he, hy, hy'⟩)
    · omega
    · have := h.geo.header (hfree e he)
      omega
    · have := h.geo.header (h.geo.blocks.subset hb)
      simp only [blockLinks_prev, blockLinks_next] at hx hx'
      omega
    · have := h.geo.apart (h.geo.blocks.subset hb) (hfree e he)
        fun heq => h.geo.disjoint _ hb (heq ▸ he)
      simp only [blockLinks_prev, blockLinks_next] at hx hx'
      omega

/-- Headers of a zone and of its new tiling are off the payload of kept blocks. -/
theorem TiledZone.Laid.headerBytes_subset_churn {pre mid post : List Tile} (hz : z.Laid)
    (hz' : (z.retile (pre ++ (mid ++ post))).Laid) :
    headerBytes z.addr (z.headers ++ (z.retile (pre ++ (mid ++ post))).headers) ⊆
      z.churn (z.splice pre mid post) := by
  have hg := hz.geometry
  have hg' := hz'.geometry
  have hroom := hg.room
  intro x hx
  have hzone : z.addr ≤ x ∧ x < z.addr + z.len ∧ ¬(z.addr + 64 ≤ x ∧ x < z.addr + 80) := by
    rcases hx with hx | ⟨b, hb, hx, hx'⟩
    · omega
    · rcases List.mem_append.mp hb with hb | hb
      · have := hg.header hb
        omega
      · have := hg'.header hb
        simp only [TiledZone.retile_addr, TiledZone.retile_len] at this
        omega
  refine ⟨hzone.1, hzone.2.1, hzone.2.2, ?_⟩
  rintro ⟨t, ht, t', ht', heq, hlo, hhi, hhi'⟩
  have hoff := hz.payload_off (mem_useds.mp ht).1 hlo hhi
  rw [TiledZone.useds_splice, ← useds_append, ← useds_append] at ht'
  have hoff' := hz'.payload_off (mem_useds.mp ht').1 (heq ▸ hlo) hhi'
  rcases hx with hx | ⟨b, hb, hx⟩
  · exact hoff (.inl hx)
  · rcases List.mem_append.mp hb with hb | hb
    · exact hoff (.inr ⟨b, hb, hx⟩)
    · exact hoff' (.inr ⟨b, hb, hx⟩)

/-- `update_empty_stats` refreshes the cached maximum of a zone. -/
theorem ZoneAt.wp_refresh (h : ZoneAt s.mem z num rem bs z.empties) (hv : s.Valid z.addr z.len) :
    wp (updateEmptyStats z.addr) (fun _ s' => s.Writes (headerBytes z.addr []) s' ∧
      ZoneAt s'.mem z.refresh num rem bs z.refresh.empties) s := by
  have hnull : z.addr ≠ null := Nat.ne_of_gt h.geo.pos
  have hscan := h.scannable hv fun t ht => (mem_frees.mp ht).1
  refine wp_mono (hscan.wp_updateEmptyStats hnull h.empties_length_lt) fun _ s' hpost => ?_
  subst hpost
  rw [refreshedMem, TiledZone.refresh]
  split
  · exact ⟨Heap.Writes.refl _ s, h⟩
  · next hne =>
    obtain ⟨t, ht, hsize⟩ := exists_size_eq_largest hne
    exact ⟨(Heap.Writes.refl _ s).write (counter_bytes (by omega) (by omega)),
      h.setMaxFree (hsize ▸ (hscan.node t ht).2)⟩

/-- `merge_empty_spaces` coalesces the zone and refreshes its cached maximum. -/
theorem ZoneAt.wp_mergeEmptySpaces (h : ZoneAt s.mem z num rem z.blocks z.empties)
    (hv : s.Valid z.addr z.len) (hz : z.Laid) :
    wp (mergeEmptySpaces z.addr) (fun _ s' => s.Writes (headerBytes z.addr z.headers) s' ∧
      ZoneAt s'.mem z.coalesced.refresh num rem z.coalesced.refresh.blocks
        z.coalesced.refresh.empties) s := by
  rw [mergeEmptySpaces, wp_bind, h.wp_getEmpties hv, wp_bind]
  refine wp_mono (h.wp_mergeZone hv hz) fun _ s₁ hpost => ?_
  obtain ⟨hw₁, h₁⟩ := hpost
  refine wp_mono (h₁.wp_refresh (hw₁.valid.mpr hv)) fun _ s₂ hpost => ?_
  obtain ⟨hw₂, h₂⟩ := hpost
  refine ⟨hw₁.trans (hw₂.mono (headerBytes_mono fun b hb => absurd hb List.not_mem_nil)), ?_⟩
  rw [TiledZone.blocks, TiledZone.refresh_tiles]
  exact h₂

end Zone

end FtMalloc
