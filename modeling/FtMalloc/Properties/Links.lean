import FtMalloc.Runs

/-!
# The linked lists

In every reachable state `g_zones` and both lists of every zone are well-formed doubly linked lists,
and the lists of a zone are in address order. Each operation on a list inserts, replaces or deletes
exactly one node, and writes only the head cell and the links of its nodes.
-/

namespace FtMalloc

open HeapLib TiledZone

/-- From `head` the links lead through the distinct nodes `l` to the null link, and back. -/
structure WellLinked (L : LinkLayout) (m : Memory) (head : ℕ) (l : List ℕ) : Prop where
  head_eq : head = l.headD 0
  links : Segment L m 0 l 0
  back : ∀ a ∈ l, word m (a + L.next) ≠ 0 → word m (word m (a + L.next) + L.prev) = a
  distinct : l.Nodup
  nonnull : ∀ a ∈ l, a ≠ 0

/-- A list of mapped headers with its head at `c`. -/
structure NodeList (s : Heap) (c : ℕ) (l : List ℕ) : Prop where
  list : ListAt blockLinks s.mem c l
  placed : Placed blockLinks c l
  valid : ListValid s c l

variable {P : Platform} {s s₀ : Heap} {m : Memory} {z : TiledZone} {pre post : List TiledZone}
  {c zone x b p n : ℕ} {l l₁ l₂ : List ℕ} {type : EType} {L : LinkLayout} {copy : BlockHeader}

/-! ## Lists of a reachable state -/

/-- Following a link and coming back. -/
theorem segment_back (h : Segment L m p l 0) :
    ∀ a ∈ l, word m (a + L.next) ≠ 0 → word m (word m (a + L.next) + L.prev) = a := by
  intro a ha hne
  obtain ⟨l₁, l₂, rfl⟩ := List.append_of_mem ha
  obtain ⟨-, -, hnext, hrest⟩ := segment_append.mp h
  rw [hnext] at hne ⊢
  cases l₂ with
  | nil => exact absurd rfl hne
  | cons b bs => exact hrest.1

/-- A placed list is well linked. -/
theorem wellLinked_of_placed (hP : Placed L c l) (hhead : n = l.headD 0) (hl : Segment L m 0 l 0) :
    WellLinked L m n l where
  head_eq := hhead
  links := hl
  back := segment_back hl
  distinct := hP.nodup
  nonnull := fun a ha => Nat.ne_of_gt (hP.pos a ha).1

/-- The lists of a zone in memory. -/
theorem ZoneRep.wellLinked (h : ZoneRep m z) :
    WellLinked blockLinks m (word m (z.addr + 48)) (blockList m z.addr) ∧
      (blockList m z.addr).Pairwise (· < ·) ∧
      WellLinked blockLinks m (word m (z.addr + 56)) (emptyList m z.addr) ∧
      (emptyList m z.addr).Pairwise (· < ·) := by
  have hsorted : z.headers.Pairwise (· < ·) := h.geo.spaced.imp fun hab => by omega
  rw [ZoneAt.blockList_eq h, ZoneAt.emptyList_eq h]
  refine ⟨?_, hsorted.sublist h.geo.blocks, ?_, hsorted.sublist h.geo.empties⟩
  · exact wellLinked_of_placed (h.geo.placed h.geo.blocks (c := z.addr + 48) (by omega))
      h.blocks.head h.blocks.seg
  · exact wellLinked_of_placed (h.geo.placed h.geo.empties (c := z.addr + 56) (by omega))
      h.empties.head h.empties.seg

/-! ## Operations on a list -/

/-- The header of a node is off the links of the others. -/
theorem header_off (hP : Placed blockLinks c (b :: l)) (hx : x ∈ linkBytes blockLinks c l) :
    ¬(b ≤ x ∧ x < b + 32) := by
  rcases hx with hx | ⟨a, ha, hx, hx'⟩
  · have := hP.cell b List.mem_cons_self
    simp only [blockLinks_width] at this
    omega
  · have := (List.pairwise_cons.mp hP.spaced).1 a ha
    simp only [blockLinks_width, blockLinks_prev, blockLinks_next] at *
    omega

/-- Mapped nodes stay mapped under writes. -/
theorem ListValid.writes {S : Set ℕ} {s' : Heap} (h : ListValid s c l) (hw : s.Writes S s') :
    ListValid s' c l :=
  ⟨hw.valid.mpr h.1, fun a ha => hw.valid.mpr (h.2 a ha)⟩

/-- Mapped nodes around another mapped node. -/
theorem ListValid.insert (h : ListValid s c (l₁ ++ l₂)) (hx : s.Valid x 32) :
    ListValid s c (l₁ ++ x :: l₂) := by
  refine ⟨h.1, fun a ha => ?_⟩
  rcases List.mem_append.mp ha with ha | ha
  · exact h.2 a (List.mem_append_left _ ha)
  · rcases List.mem_cons.mp ha with rfl | ha
    · exact hx
    · exact h.2 a (List.mem_append_right _ ha)

/-- Mapped nodes without one of them. -/
theorem ListValid.erase (h : ListValid s c (l₁ ++ b :: l₂)) : ListValid s c (l₁ ++ l₂) := by
  refine ⟨h.1, fun a ha => h.2 a ?_⟩
  rcases List.mem_append.mp ha with ha | ha
  · exact List.mem_append_left _ ha
  · exact List.mem_append_right _ (List.mem_cons_of_mem _ ha)

/-- The address-ordered insertion inserts its node. -/
theorem NodeList.wp_insert (h : NodeList s c l) (hl : l.Pairwise (· < ·))
    (hP : Placed blockLinks c (x :: l)) (hx : s.Valid x 32) :
    wp (insertSorted c x) (fun _ s' => NodeList s' c (l.orderedInsert (· ≤ ·) x) ∧
      s.Writes (linkBytes blockLinks c (x :: l)) s') s := by
  have hmem : x ∉ l := (List.nodup_cons.mp hP.nodup).1
  obtain ⟨l₁, l₂, rfl, heq, hlow, hhigh⟩ := orderedInsert_eq_append hl hmem
  rw [heq]
  have hP' : Placed blockLinks c (l₁ ++ x :: l₂) := hP.perm List.perm_middle.symm
  have hv := h.valid.insert hx
  refine wp_mono (wp_insertCut h.list hP' hv hlow hhigh) fun _ s' hpost => ?_
  obtain ⟨hw, hlist⟩ := hpost
  refine ⟨⟨hlist, hP', hv.writes hw⟩, hw.mono ?_⟩
  rintro y (hy | ⟨a, ha, hy⟩)
  · exact .inl hy
  · exact .inr ⟨a, List.perm_middle.mem_iff.mp ha, hy⟩

/-- The two sides of a node survive changes of its header and of a header off the list. -/
theorem NodeList.sides (h : NodeList s₀ c (l₁ ++ b :: l₂)) {S : Set ℕ}
    (hS : AgreeOff S s₀.mem m) (hoff : ∀ y ∈ linkBytes blockLinks c (l₁ ++ l₂), y ∉ S) :
    Front blockLinks m c l₁ b ∧ Segment blockLinks m b l₂ 0 := by
  obtain ⟨hfront, -, -, hback⟩ := listAt_append_cons.mp h.list
  constructor
  · refine hfront.agreeOff hS fun y hy => hoff y ?_
    rcases hy with hy | ⟨a, ha, hy⟩
    · exact .inl hy
    · exact .inr ⟨a, List.mem_append_left _ ha, hy⟩
  · exact hback.agreeOff hS fun a ha y hy hy' =>
      hoff y (.inr ⟨a, List.mem_append_right _ ha, hy, hy'⟩)

/-- The links of a node of a list. -/
theorem NodeList.links (h : NodeList s c (l₁ ++ b :: l₂)) :
    (BlockRef.heap b).Links s (l₁.getLastD 0) (l₂.headD 0) :=
  ⟨Nat.ne_of_gt (h.placed.pos b (by simp)).1, h.valid.2 b (by simp), h.list.prev, h.list.next⟩

/-- `remove_block` deletes its node. -/
theorem NodeList.wp_remove (hzone : zone ≠ 0) (h : NodeList s (listCell zone type) (l₁ ++ b :: l₂)) :
    wp (removeBlock zone (.heap b) type) (fun _ s' =>
      NodeList s' (listCell zone type) (l₁ ++ l₂) ∧
      s.Writes (linkBytes blockLinks (listCell zone type) (l₁ ++ l₂)) s') s := by
  have hP := h.placed.toFront
  have hP' : Placed blockLinks (listCell zone type) (l₁ ++ l₂) :=
    hP.sublist (List.sublist_cons_self _ _)
  obtain ⟨hfront, hback⟩ := h.sides (AgreeOff.refl ∅ _) fun _ _ => Set.notMem_empty _
  have hoff : (BlockRef.heap b).Off (linkBytes blockLinks (listCell zone type) (l₁ ++ l₂)) :=
    fun y hy hy' hmem => header_off hP hmem ⟨by omega, hy'⟩
  refine wp_mono (wp_closeCut hzone rfl hP' h.valid.erase hfront hback h.links hoff)
    fun _ s' hpost => ?_
  exact ⟨⟨hpost.2, hP', h.valid.erase.writes hpost.1⟩, hpost.1⟩

/-- `replace_block` puts its new node in the place of the old one. -/
theorem NodeList.wp_replace (hzone : zone ≠ 0) (h : NodeList s (listCell zone type) (l₁ ++ b :: l₂))
    (hP : Placed blockLinks (listCell zone type) (x :: (l₁ ++ b :: l₂))) (hx : s.Valid x 32) :
    wp (replaceBlock zone (.heap b) x type) (fun _ s' =>
      NodeList s' (listCell zone type) (l₁ ++ x :: l₂) ∧
      s.Writes (linkBytes blockLinks (listCell zone type) (l₁ ++ x :: l₂)) s') s := by
  have hPb : Placed blockLinks (listCell zone type) (b :: (l₁ ++ x :: l₂)) := by
    refine hP.perm (((List.perm_middle.cons x).trans (.swap b x _)).trans ?_)
    exact List.perm_middle.symm.cons b
  have hP' : Placed blockLinks (listCell zone type) (l₁ ++ x :: l₂) :=
    hPb.sublist (List.sublist_cons_self _ _)
  have hv := h.valid.erase.insert hx
  obtain ⟨hfront, hback⟩ := h.sides (AgreeOff.refl ∅ _) fun _ _ => Set.notMem_empty _
  have hoff : (BlockRef.heap b).Off (linkBytes blockLinks (listCell zone type) (l₁ ++ x :: l₂)) :=
    fun y hy hy' hmem => header_off hPb hmem ⟨by omega, hy'⟩
  refine wp_mono (wp_fillCut hzone rfl hP' hv hfront hback h.links hoff) fun _ s' hpost => ?_
  exact ⟨⟨hpost.2, hP', hv.writes hpost.1⟩, hpost.1⟩

/-- `s` differs from `s₀` only in the headers at `b` and `x`, and `copy` holds the links that the
node `b` had in `s₀`. -/
structure CopiedFrom (s₀ s : Heap) (b x : ℕ) (copy : BlockHeader) : Prop where
  writes : s₀.Writes {y | b ≤ y ∧ y < b + 32 ∨ x ≤ y ∧ y < x + 32} s
  prev : copy.prev = word s₀.mem (b + 16)
  next : copy.next = word s₀.mem (b + 24)

/-- `remove_block` on a copy deletes the node that was copied, whatever its header holds now. -/
theorem NodeList.wp_removeCopy (hzone : zone ≠ 0)
    (h : NodeList s₀ (listCell zone type) (l₁ ++ b :: l₂)) (hcopy : CopiedFrom s₀ s b b copy) :
    wp (removeBlock zone (.stack copy) type) (fun _ s' =>
      NodeList s' (listCell zone type) (l₁ ++ l₂) ∧
      s.Writes (linkBytes blockLinks (listCell zone type) (l₁ ++ l₂)) s') s := by
  have hP := h.placed.toFront
  have hP' : Placed blockLinks (listCell zone type) (l₁ ++ l₂) :=
    hP.sublist (List.sublist_cons_self _ _)
  have hv := h.valid.erase.writes hcopy.writes
  obtain ⟨hfront, hback⟩ := h.sides hcopy.writes.agreeOff fun y hy hin => by
    rcases hin with hin | hin <;> exact header_off hP hy hin
  have hlinks : (BlockRef.stack copy).Links s (l₁.getLastD 0) (l₂.headD 0) :=
    ⟨hcopy.prev.trans h.list.prev, hcopy.next.trans h.list.next⟩
  refine wp_mono (wp_closeCut hzone rfl hP' hv hfront hback hlinks trivial) fun _ s' hpost => ?_
  exact ⟨⟨hpost.2, hP', hv.writes hpost.1⟩, hpost.1⟩

/-- `replace_block` on a copy puts its new node in the place of the node that was copied. -/
theorem NodeList.wp_replaceCopy (hzone : zone ≠ 0)
    (h : NodeList s₀ (listCell zone type) (l₁ ++ b :: l₂)) (hcopy : CopiedFrom s₀ s b x copy)
    (hP : Placed blockLinks (listCell zone type) (l₁ ++ x :: l₂)) (hx : s.Valid x 32) :
    wp (replaceBlock zone (.stack copy) x type) (fun _ s' =>
      NodeList s' (listCell zone type) (l₁ ++ x :: l₂) ∧
      s.Writes (linkBytes blockLinks (listCell zone type) (l₁ ++ x :: l₂)) s') s := by
  have hv := (h.valid.erase.writes hcopy.writes).insert hx
  obtain ⟨hfront, hback⟩ := h.sides hcopy.writes.agreeOff fun y hy hin => by
    rcases hin with hin | hin
    · exact header_off h.placed.toFront hy hin
    · exact header_off hP.toFront hy hin
  have hlinks : (BlockRef.stack copy).Links s (l₁.getLastD 0) (l₂.headD 0) :=
    ⟨hcopy.prev.trans h.list.prev, hcopy.next.trans h.list.next⟩
  refine wp_mono (wp_fillCut hzone rfl hP hv hfront hback hlinks trivial) fun _ s' hpost => ?_
  exact ⟨⟨hpost.2, hP, hv.writes hpost.1⟩, hpost.1⟩

/-- `add_block_to_list` inserts its node. -/
theorem NodeList.wp_addBlockToList (h : NodeList s (zone + 48) l) (hl : l.Pairwise (· < ·))
    (hP : Placed blockLinks (zone + 48) (x :: l)) (hx : s.Valid x 32) :
    wp (addBlockToList zone x) (fun _ s' =>
      NodeList s' (zone + 48) (l.orderedInsert (· ≤ ·) x) ∧
      s.Writes (linkBytes blockLinks (zone + 48) (x :: l)) s') s :=
  h.wp_insert hl hP hx

/-- A round of `merge_empty_spaces` that closes a gap deletes the space behind it, and writes only
the head cell and the headers of the list. -/
theorem FreeListAt.wp_mergeRound_list {d r : List Tile} {e f : Tile}
    (h : FreeListAt s c (d ++ e :: f :: r)) (hgap : f.addr - e.stop headerSize < minSplitSize) :
    wp (mergeRound e.addr) (fun _ s' =>
      ListAt blockLinks s'.mem c ((d ++ e :: r).map Tile.addr) ∧
      s.Writes (listBytes c ((d ++ e :: f :: r).map Tile.addr)) s') s := by
  refine wp_mono (h.wp_mergeRound_of_lt hgap) fun _ s' hpost => ?_
  obtain ⟨-, hspaces, hw⟩ := hpost
  refine ⟨?_, hw⟩
  have hlist := hspaces.list
  rw [List.map_append, List.map_cons] at hlist ⊢
  exact hlist

/-- `free_large_zone` deletes its zone from `g_zones`, and writes only the links of the others. -/
theorem Heap.Rep.wp_freeLargeZone_list (h : s.Rep P (pre ++ z :: post))
    (hsp : Zones.Spread P (pre ++ z :: post)) :
    wp (freeLargeZone P z.addr) (fun _ s' => s'.gZones = ((pre ++ post).map addr).headD 0 ∧
      Segment zoneLinks s'.mem 0 ((pre ++ post).map addr) 0 ∧
      AgreeOff (zoneLinkBytes (pre ++ post)) s.mem s'.mem) s := by
  refine wp_mono (h.wp_freeLargeZone_state hsp) ?_
  rintro _ _ rfl
  have hbecame := h.pull hsp
  exact ⟨hbecame.rep.head, hbecame.rep.links, agreeOff_dropLinks⟩

/-! ## Operations on both lists of a zone -/

/-- Both lists of a zone in memory. -/
theorem ZoneAt.nodeLists {num rem : ℕ} {bs es : List ℕ} (h : ZoneAt s.mem z num rem bs es)
    (hv : s.Valid z.addr z.len) :
    NodeList s (z.addr + 48) bs ∧ NodeList s (z.addr + 56) es :=
  ⟨⟨h.blocks, h.geo.placed h.geo.blocks (by omega),
      h.geo.listValid hv h.geo.blocks (by omega) (by omega)⟩,
    ⟨h.empties, h.geo.placed h.geo.empties (by omega),
      h.geo.listValid hv h.geo.empties (by omega) (by omega)⟩⟩

/-- The lists of a zone after an edit of its tiles: the blocks, and the empty spaces with the gaps
between them closed. -/
theorem ZoneRep.nodeLists_splice {ts us vs : List Tile} (h : ZoneRep s.mem (z.splice ts us vs))
    (hv : s.Valid z.addr z.len) (hz : (z.retile (ts ++ (us ++ vs))).Laid) :
    NodeList s (z.addr + 48) ((useds (ts ++ (us ++ vs))).map Tile.addr) ∧
      NodeList s (z.addr + 56)
        ((mergeGaps headerSize minSplitSize (frees (ts ++ (us ++ vs)))).map Tile.addr) := by
  have hlists := ZoneAt.nodeLists h (by rwa [splice_addr, splice_len])
  rw [splice_addr, TiledZone.splice, refresh_blocks, coalesced_blocks, empties,
    refresh_tiles] at hlists
  have hmerge := hz.mergeGaps_empties
  rw [retile_tiles] at hmerge
  change mergeGaps headerSize minSplitSize _ = _ at hmerge
  rw [hmerge]
  exact hlists

/-- `convert_block_to_empty` deletes the block from the list of blocks and inserts it in address
order into that of the empty spaces, where gaps are then closed. -/
theorem ZoneRep.wp_convertBlockToEmpty_lists {ts vs : List Tile} {t : Tile} (h : ZoneRep s.mem z)
    (hv : s.Valid z.addr z.len) (hz : z.Laid) (ht : z.tiles = ts ++ t :: vs)
    (hused : t.used = true) :
    wp (convertBlockToEmpty z.addr t.addr) (fun _ s' =>
      NodeList s' (z.addr + 48) ((useds ts ++ useds vs).map Tile.addr) ∧
      NodeList s' (z.addr + 56) ((mergeGaps headerSize minSplitSize
        (frees ts ++ { t with used := false } :: frees vs)).map Tile.addr) ∧
      AgreeOff (z.churn (z.splice ts [{ t with used := false }] vs)) s.mem s'.mem) s := by
  refine wp_mono (h.wp_convertBlockToEmpty hv hz ht hused) fun _ s' hpost => ?_
  obtain ⟨hrep, hw⟩ := hpost
  obtain ⟨hblocks, hempties⟩ := hrep.nodeLists_splice (hw.valid.mpr hv) (hz.retile_mark ht false)
  rw [useds_append, useds_append, useds_cons] at hblocks
  rw [frees_append, frees_append, frees_cons] at hempties
  exact ⟨hblocks, hempties, hw.agreeOff⟩

/-- `split_block` keeps the list of blocks and inserts the rest in address order into that of the
empty spaces, where gaps are then closed. -/
theorem ZoneRep.wp_splitBlock_lists {ts vs : List Tile} {t : Tile} (h : ZoneRep s.mem z)
    (hv : s.Valid z.addr z.len) (hz : z.Laid) (ht : z.tiles = ts ++ t :: vs)
    (hused : t.used = true) (hle : n ≤ t.size) (hrest : ¬ t.size - n < minSplitSize)
    (hn : alignment ≤ n ∧ alignment ∣ n) :
    wp (splitBlock z.addr t.addr n) (fun _ s' =>
      NodeList s' (z.addr + 48) z.blocks ∧
      NodeList s' (z.addr + 56) ((mergeGaps headerSize minSplitSize (frees ts ++
        ⟨t.addr + headerSize + n, t.size - n - headerSize, false⟩ :: frees vs)).map Tile.addr) ∧
      AgreeOff (z.churn (z.splice ts (carve headerSize minSplitSize n t) vs)) s.mem s'.mem) s := by
  have hlaid := hz.retile_carve ht hle hn
  have hcarve : carve headerSize minSplitSize n t = [⟨t.addr, n, true⟩,
      ⟨t.addr + headerSize + n, t.size - n - headerSize, false⟩] := by
    rw [carve, if_neg hrest]
  refine wp_mono (h.wp_splitBlock hv hz ht hused hle hrest hn) fun _ s' hpost => ?_
  obtain ⟨hrep, hw⟩ := hpost
  obtain ⟨hblocks, hempties⟩ := hrep.nodeLists_splice (hw.valid.mpr hv) hlaid
  have hkept : (useds (ts ++ (carve headerSize minSplitSize n t ++ vs))).map Tile.addr =
      z.blocks := by
    rw [hcarve, TiledZone.blocks, ht]
    simp [useds_cons, hused]
  rw [hkept] at hblocks
  rw [hcarve, frees_append, frees_append] at hempties
  exact ⟨hblocks, hempties, hw.agreeOff.mono (hz.headerBytes_subset_churn hlaid)⟩

/-- What each operation does to the list it works on: one node is inserted in address order,
replaced or deleted. -/
structure ListOperations (P : Platform) : Prop where
  /-- The insertion that `add_block_to_list`, `convert_block_to_empty` and `split_block` make. -/
  insert : ∀ (s : Heap) (c x : ℕ) (l : List ℕ), NodeList s c l → l.Pairwise (· < ·) →
    Placed blockLinks c (x :: l) → s.Valid x 32 →
    wp (insertSorted c x) (fun _ s' => NodeList s' c (l.orderedInsert (· ≤ ·) x) ∧
      s.Writes (linkBytes blockLinks c (x :: l)) s') s
  /-- `add_block_to_list`. -/
  addBlock : ∀ (s : Heap) (zone x : ℕ) (l : List ℕ), NodeList s (zone + 48) l →
    l.Pairwise (· < ·) → Placed blockLinks (zone + 48) (x :: l) → s.Valid x 32 →
    wp (addBlockToList zone x) (fun _ s' =>
      NodeList s' (zone + 48) (l.orderedInsert (· ≤ ·) x) ∧
      s.Writes (linkBytes blockLinks (zone + 48) (x :: l)) s') s
  /-- `convert_block_to_empty`, on the lists of a zone. -/
  convert : ∀ (s : Heap) (z : TiledZone) (ts vs : List Tile) (t : Tile), ZoneRep s.mem z →
    s.Valid z.addr z.len → z.Laid → z.tiles = ts ++ t :: vs → t.used = true →
    wp (convertBlockToEmpty z.addr t.addr) (fun _ s' =>
      NodeList s' (z.addr + 48) ((useds ts ++ useds vs).map Tile.addr) ∧
      NodeList s' (z.addr + 56) ((mergeGaps headerSize minSplitSize
        (frees ts ++ { t with used := false } :: frees vs)).map Tile.addr) ∧
      AgreeOff (z.churn (z.splice ts [{ t with used := false }] vs)) s.mem s'.mem) s
  /-- `split_block`, on the lists of a zone. -/
  split : ∀ (s : Heap) (z : TiledZone) (ts vs : List Tile) (t : Tile) (n : ℕ),
    ZoneRep s.mem z → s.Valid z.addr z.len → z.Laid → z.tiles = ts ++ t :: vs →
    t.used = true → n ≤ t.size → ¬ t.size - n < minSplitSize → alignment ≤ n ∧ alignment ∣ n →
    wp (splitBlock z.addr t.addr n) (fun _ s' =>
      NodeList s' (z.addr + 48) z.blocks ∧
      NodeList s' (z.addr + 56) ((mergeGaps headerSize minSplitSize (frees ts ++
        ⟨t.addr + headerSize + n, t.size - n - headerSize, false⟩ :: frees vs)).map Tile.addr) ∧
      AgreeOff (z.churn (z.splice ts (carve headerSize minSplitSize n t) vs)) s.mem s'.mem) s
  /-- `replace_block` on a node. -/
  replace : ∀ (s : Heap) (zone b x : ℕ) (type : EType) (l₁ l₂ : List ℕ), zone ≠ 0 →
    NodeList s (listCell zone type) (l₁ ++ b :: l₂) →
    Placed blockLinks (listCell zone type) (x :: (l₁ ++ b :: l₂)) → s.Valid x 32 →
    wp (replaceBlock zone (.heap b) x type) (fun _ s' =>
      NodeList s' (listCell zone type) (l₁ ++ x :: l₂) ∧
      s.Writes (linkBytes blockLinks (listCell zone type) (l₁ ++ x :: l₂)) s') s
  /-- `replace_block` on a copy, as in `update_empty_spaces`. -/
  replaceCopy : ∀ (s₀ s : Heap) (zone b x : ℕ) (type : EType) (l₁ l₂ : List ℕ)
    (copy : BlockHeader), zone ≠ 0 → NodeList s₀ (listCell zone type) (l₁ ++ b :: l₂) →
    CopiedFrom s₀ s b x copy → Placed blockLinks (listCell zone type) (l₁ ++ x :: l₂) →
    s.Valid x 32 →
    wp (replaceBlock zone (.stack copy) x type) (fun _ s' =>
      NodeList s' (listCell zone type) (l₁ ++ x :: l₂) ∧
      s.Writes (linkBytes blockLinks (listCell zone type) (l₁ ++ x :: l₂)) s') s
  /-- `remove_block` on a node. -/
  remove : ∀ (s : Heap) (zone b : ℕ) (type : EType) (l₁ l₂ : List ℕ), zone ≠ 0 →
    NodeList s (listCell zone type) (l₁ ++ b :: l₂) →
    wp (removeBlock zone (.heap b) type) (fun _ s' =>
      NodeList s' (listCell zone type) (l₁ ++ l₂) ∧
      s.Writes (linkBytes blockLinks (listCell zone type) (l₁ ++ l₂)) s') s
  /-- `remove_block` on a copy, as in `update_empty_spaces`. -/
  removeCopy : ∀ (s₀ s : Heap) (zone b : ℕ) (type : EType) (l₁ l₂ : List ℕ)
    (copy : BlockHeader), zone ≠ 0 → NodeList s₀ (listCell zone type) (l₁ ++ b :: l₂) →
    CopiedFrom s₀ s b b copy →
    wp (removeBlock zone (.stack copy) type) (fun _ s' =>
      NodeList s' (listCell zone type) (l₁ ++ l₂) ∧
      s.Writes (linkBytes blockLinks (listCell zone type) (l₁ ++ l₂)) s') s
  /-- The unlinking in `merge_empty_spaces`. -/
  merge : ∀ (s : Heap) (c : ℕ) (d r : List Tile) (e f : Tile),
    FreeListAt s c (d ++ e :: f :: r) → f.addr - e.stop headerSize < minSplitSize →
    wp (mergeRound e.addr) (fun _ s' =>
      ListAt blockLinks s'.mem c ((d ++ e :: r).map Tile.addr) ∧
      s.Writes (listBytes c ((d ++ e :: f :: r).map Tile.addr)) s') s
  /-- The unlinking in `free_large_zone`. -/
  freeLarge : ∀ (s : Heap) (z : TiledZone) (pre post : List TiledZone),
    s.Rep P (pre ++ z :: post) → Zones.Spread P (pre ++ z :: post) →
    wp (freeLargeZone P z.addr) (fun _ s' => s'.gZones = ((pre ++ post).map addr).headD 0 ∧
      Segment zoneLinks s'.mem 0 ((pre ++ post).map addr) 0 ∧
      AgreeOff (zoneLinkBytes (pre ++ post)) s.mem s'.mem) s

/-- Every operation does what it is meant to do. -/
theorem listOperations (P : Platform) : ListOperations P where
  insert _ _ _ _ h hl hP hx := h.wp_insert hl hP hx
  addBlock _ _ _ _ h hl hP hx := h.wp_addBlockToList hl hP hx
  convert _ _ _ _ _ h hv hz ht hused := h.wp_convertBlockToEmpty_lists hv hz ht hused
  split _ _ _ _ _ _ h hv hz ht hused hle hrest hn := h.wp_splitBlock_lists hv hz ht hused hle hrest hn
  replace _ _ _ _ _ _ _ hzone h hP hx := h.wp_replace hzone hP hx
  replaceCopy _ _ _ _ _ _ _ _ _ hzone h hcopy hP hx := h.wp_replaceCopy hzone hcopy hP hx
  remove _ _ _ _ _ _ hzone h := h.wp_remove hzone
  removeCopy _ _ _ _ _ _ _ _ hzone h hcopy := h.wp_removeCopy hzone hcopy
  merge _ _ _ _ _ _ h hgap := h.wp_mergeRound_list hgap
  freeLarge _ _ _ _ h hsp := h.wp_freeLargeZone_list hsp

/-- In every reachable state all lists are well linked and those of the zones are in address
order; every operation on a list edits one node. -/
theorem reachable_wellLinked (h : Reachable P s) :
    (WellLinked zoneLinks s.mem s.gZones (zoneList s) ∧ ∀ zone ∈ zoneList s,
      WellLinked blockLinks s.mem (word s.mem (zone + 48)) (blockList s.mem zone) ∧
      (blockList s.mem zone).Pairwise (· < ·) ∧
      WellLinked blockLinks s.mem (word s.mem (zone + 56)) (emptyList s.mem zone) ∧
      (emptyList s.mem zone).Pairwise (· < ·)) ∧
    ListOperations P := by
  obtain ⟨A, hA⟩ := h.exists_holds
  have hlist := hA.rep.zoneList_eq A.spread
  refine ⟨⟨?_, fun zone hzone => ?_⟩, listOperations P⟩
  · rw [hlist]
    exact wellLinked_of_placed A.spread.placed hA.rep.head hA.rep.links
  · rw [hlist] at hzone
    obtain ⟨z, hz, rfl⟩ := List.mem_map.mp hzone
    exact (hA.rep.zone z hz).wellLinked

/-- After two allocations and a release, with two empty spaces in the zone. -/
theorem reachable_wellLinked_witness : ∃ s, Reachable .unlimited s ∧
    (zoneList s = [65536] ∧ emptyList s.mem 65536 = [65616, 65856]) ∧
    WellLinked zoneLinks s.mem s.gZones (zoneList s) ∧
    WellLinked blockLinks s.mem (word s.mem (65536 + 56)) (emptyList s.mem 65536) := by
  obtain ⟨s, A, h, hA, hzones⟩ := exists_reachable (P := .unlimited) 65536
    (.malloc 100) [.malloc 64, .free 65648] (by decide) (by decide) (by decide) (by decide)
    (by decide)
  obtain ⟨⟨hzone, hlists⟩, -⟩ := reachable_wellLinked h
  have hlist : zoneList s = [65536] := by
    rw [hA.rep.zoneList_eq A.spread, hzones]
    decide +kernel
  have hview : (view s).map (fun v => v.emptySpaces.map RegionView.addr) = [[65616, 65856]] := by
    rw [hA.rep.view_eq A.spread, hzones]
    decide +kernel
  have hempty : emptyList s.mem 65536 = [65616, 65856] := by
    rw [view, hlist] at hview
    simpa [viewZone, viewRegion, Function.comp_def] using hview
  exact ⟨s, h, ⟨hlist, hempty⟩, hzone, (hlists 65536 (by simp [hlist])).2.2.1⟩

end FtMalloc
