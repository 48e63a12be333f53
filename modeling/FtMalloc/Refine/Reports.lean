import FtMalloc.Abstract.Reports
import FtMalloc.Refine.Calls

/-!
# The reports print the zones

In a state that represents some zones both reports change nothing and print their lines.
-/

namespace FtMalloc

open HeapLib TiledZone Process

variable {P : Platform} {s : Heap} {z : TiledZone} {zs : List TiledZone} {t : Tile}
  {ts pre us : List Tile} {out : List Line} {n : ℕ} {v : Scan}

/-! ## Sums -/

/-- Adding up one by one. -/
theorem foldl_add {α : Type} (f : α → ℕ) (l : List α) (n : ℕ) :
    l.foldl (fun n a => n + f a) n = n + (l.map f).sum := by
  induction l generalizing n with
  | nil => rfl
  | cons a l ih => rw [List.foldl_cons, ih, List.map_cons, List.sum_cons, Nat.add_assoc]

/-- The data bytes of the first blocks are part of all. -/
theorem sum_size_prefix {us vs : List Tile} (h : useds ts = us ++ t :: vs) :
    (us.map Tile.size).sum + t.size ≤ dataBytes ts := by
  rw [dataBytes, h, List.map_append, List.sum_append, List.map_cons, List.sum_cons]
  omega

/-! ## `print_zone` -/

/-- `print_zone` of the plain report prints the blocks and counts their data bytes. -/
theorem ZoneRep.wpOut_printZone (h : ZoneRep s.mem z) (hv : s.Valid z.addr z.len) (hz : z.Laid) :
    wpOut gMallocMutex (printZone z.addr) (fun n out' s' =>
      n = dataBytes z.tiles ∧ out' = out ++ z.printed ∧ s' = s) out s := by
  rw [printZone, wpOut_lift_bind, h.wp_getType hv, wpOut_lift_bind, h.wp_getStart hv,
    printf, wpOut_perform_bind, wpOut_lift_bind, h.wp_getBlocks hv]
  have hsize := hz.dataBytes_le
  have hbound := hz.bound
  refine wpOut_iterate_fold (f := fun n t => n + t.size) (g := fun t => [blockLine t])
    ?_ ?_ ?_ ?_
  · intro d out
    rw [wpOut_ite_pos (by rfl), wpOut_pure]
    exact ⟨rfl, rfl, rfl⟩
  · intro us t vs hsplit out
    have ht : t ∈ z.tiles := (mem_useds.mp (hsplit ▸ by simp)).1
    have hsum := sum_size_prefix hsplit
    have hlt := h.geo.size_lt ht
    have hblocks : z.blocks = us.map Tile.addr ++ t.addr :: vs.map Tile.addr := by
      rw [TiledZone.blocks, hsplit, List.map_append, List.map_cons]
    have h' := h
    rw [ZoneRep, hblocks] at h'
    rw [foldl_add, Nat.zero_add]
    rw [wpOut_ite_neg (h.geo.header_ne_null (List.mem_map_of_mem ht)), wpOut_lift_bind,
      h.wp_getEnd hv ht, wpOut_lift_bind, h.wp_getSize hv ht, wpOut_lift_bind,
      wp_szAdd (by simp only [headerSize]; omega), printf, wpOut_perform_bind, wpOut_lift_bind,
      h.wp_getSize hv ht, wpOut_lift_bind, wp_szAdd (by omega), wpOut_lift_bind,
      h'.toZoneCore.wp_getNext hv, wpOut_pure]
    exact ⟨rfl, rfl, rfl⟩
  · have := h.geo.length_lt h.geo.blocks
    rwa [TiledZone.blocks, List.length_map] at this
  · rw [foldl_add, Nat.zero_add, List.append_assoc, ← List.map_eq_flatMap]
    exact ⟨rfl, rfl, rfl⟩

/-! ## `print_zone` of the extended report -/

/-- The loops of `count_items` count the elements of a list. -/
theorem wpOut_countFrom {l : List ℕ} (hpos : ∀ a ∈ l, ¬ a = null)
    (hnext : ∀ pre a post, l = pre ++ a :: post →
      wp (Block.getNext a) (fun r s' => r = post.headD 0 ∧ s' = s) s)
    (hn : n + l.length < 2 ^ 64) :
    wpOut gMallocMutex (countFrom (l.headD 0) n) (fun m out' s' =>
      m = n + l.length ∧ out' = out ∧ s' = s) out s := by
  have hhead : l.headD 0 = (l.map id).headD 0 := by rw [List.map_id]
  rw [countFrom, hhead]
  refine wpOut_iterate_fold (f := fun n _ => n + 1) (g := fun _ => []) ?_ ?_ ?_ ?_
  · intro d out
    rw [wpOut_ite_pos (by rfl), wpOut_pure]
    exact ⟨rfl, rfl, rfl⟩
  · intro pre a post hsplit out
    have hlen : pre.length + 1 ≤ l.length := by
      rw [hsplit, List.length_append, List.length_cons]
      omega
    rw [List.foldl_add_const]
    dsimp only [id]
    rw [wpOut_ite_neg (hpos a (hsplit ▸ by simp)), wpOut_lift_bind,
      wp_szAdd (by omega), wpOut_lift_bind]
    refine wp_mono (hnext pre a post hsplit) ?_
    rintro _ _ ⟨rfl, rfl⟩
    rw [wpOut_pure, List.map_id]
    exact ⟨rfl, (List.append_nil _).symm, rfl⟩
  · exact Nat.lt_of_le_of_lt (Nat.le_add_left _ _) hn
  · rw [List.foldl_add_const, Nat.one_mul]
    exact ⟨rfl, by simp, rfl⟩

/-- `count_items` counts the tiles of a zone. -/
theorem ZoneRep.wpOut_countItems (h : ZoneRep s.mem z) (hv : s.Valid z.addr z.len) :
    wpOut gMallocMutex (countItems z.addr) (fun m out' s' =>
      m = z.tiles.length ∧ out' = out ∧ s' = s) out s := by
  have hsum : z.tiles.length = z.blocks.length + z.empties.length := by
    rw [TiledZone.blocks, TiledZone.empties, List.length_map, List.length_map]
    exact List.length_eq_length_filter_add _
  have hlen := h.geo.length_lt (List.Sublist.refl _)
  rw [headers, List.length_map] at hlen
  rw [countItems, wpOut_lift_bind, h.wp_getBlocks hv, wpOut_bind]
  refine wpOut_mono (wpOut_countFrom (fun a ha => h.geo.header_ne_null (h.geo.blocks.subset ha))
    (fun pre a post hsplit => ?_) (by omega)) ?_
  · have h' := h
    rw [ZoneRep, hsplit] at h'
    rw [h'.toZoneCore.wp_getNext hv]
    exact ⟨rfl, rfl⟩
  · rintro _ _ _ ⟨rfl, rfl, rfl⟩
    rw [wpOut_lift_bind, h.wp_getEmpties hv]
    refine wpOut_mono (wpOut_countFrom
      (fun a ha => h.geo.header_ne_null (h.geo.empties.subset ha)) (fun pre a post hsplit => ?_)
      (by omega)) ?_
    · have h' := h
      rw [ZoneRep, hsplit] at h'
      rw [h'.wp_getNext hv]
      exact ⟨rfl, rfl⟩
    · rintro _ _ _ ⟨rfl, rfl, rfl⟩
      exact ⟨by omega, rfl, rfl⟩

/-- Tiles further on are at higher addresses. -/
theorem TiledZone.Laid.addr_lt_of_split {u : Tile} (hz : z.Laid) (hsplit : z.tiles = pre ++ t :: us)
    (hu : u ∈ us) : t.addr < u.addr := by
  have htiled := hz.tiled
  rw [hsplit, tiled_append_cons] at htiled
  have := (htiled.2.bounds hu).1
  simp only [Tile.stop, headerSize] at this
  omega

/-- The loop prints a block that has an empty space behind it. -/
theorem ZoneRep.wpOut_printItem_block (h : ZoneRep s.mem z) (hv : s.Valid z.addr z.len)
    (hz : z.Laid) (hsplit : z.tiles = pre ++ t :: us) (hu : t.used = true) (hf : frees us ≠ [])
    (hi : v.i < n) (hn : n < 2 ^ 64) (hblock : v.block = t.addr)
    (hempty : v.empty = ((frees us).map Tile.addr).headD 0)
    (htotal : v.totalAllocated + t.size < 2 ^ 64) :
    wpOut gMallocMutex (printItem n v) (fun r out' s' =>
      r = .inl ⟨v.i + 1, ((useds us).map Tile.addr).headD 0, v.empty, v.totalAllocated + t.size⟩ ∧
        out' = out ++ [itemLine t] ∧ s' = s) out s := by
  have ht : t ∈ z.tiles := hsplit ▸ by simp
  have hlt : v.block < v.empty := by
    obtain ⟨f, fs, hfs⟩ := List.exists_cons_of_ne_nil hf
    have hmem : f ∈ us := (mem_frees.mp (hfs ▸ List.mem_cons_self)).1
    rw [hblock, hempty, hfs]
    exact hz.addr_lt_of_split hsplit hmem
  have hblocks : z.blocks = (useds pre).map Tile.addr ++ t.addr :: (useds us).map Tile.addr := by
    rw [TiledZone.blocks, hsplit, useds_append, useds_cons, if_pos hu, List.map_append,
      List.map_cons]
  have h' := h
  rw [ZoneRep, hblocks] at h'
  have hbound := h.geo.size_lt ht
  have hnull := h.geo.header_ne_null (List.mem_map_of_mem ht)
  rw [printItem, wpOut_ite_neg (Nat.not_le.mpr hi), wpOut_lift_bind, wp_szAdd (by omega),
    wpOut_ite_pos ⟨hblock ▸ hnull, hlt⟩, hblock, wpOut_lift_bind, h.wp_getEnd hv ht,
    wpOut_lift_bind, h.wp_getSize hv ht, wpOut_lift_bind,
    wp_szAdd (by simp only [headerSize]; omega), printf, wpOut_perform_bind, wpOut_lift_bind,
    h.wp_getSize hv ht, wpOut_lift_bind, wp_szAdd htotal, wpOut_lift_bind,
    h'.toZoneCore.wp_getNext hv, wpOut_pure, itemLine, if_pos hu]
  exact ⟨rfl, rfl, rfl⟩

/-- The loop prints an empty space. -/
theorem ZoneRep.wpOut_printItem_empty (h : ZoneRep s.mem z) (hv : s.Valid z.addr z.len)
    (hz : z.Laid) (hsplit : z.tiles = pre ++ t :: us) (hu : t.used = false)
    (hi : v.i < n) (hn : n < 2 ^ 64) (hblock : v.block = ((useds us).map Tile.addr).headD 0)
    (hempty : v.empty = t.addr) :
    wpOut gMallocMutex (printItem n v) (fun r out' s' =>
      r = .inl ⟨v.i + 1, v.block, ((frees us).map Tile.addr).headD 0, v.totalAllocated⟩ ∧
        out' = out ++ [itemLine t] ∧ s' = s) out s := by
  have ht : t ∈ z.tiles := hsplit ▸ by simp
  have hnot : ¬(v.block ≠ null ∧ v.block < v.empty) := by
    rintro ⟨hnull, hlt⟩
    rw [hblock] at hnull
    rw [hblock, hempty] at hlt
    cases hus : useds us with
    | nil =>
      rw [hus] at hnull
      exact hnull rfl
    | cons u vs =>
      have := hz.addr_lt_of_split hsplit (mem_useds.mp (hus ▸ List.mem_cons_self)).1
      rw [hus] at hlt
      exact absurd (this.trans hlt) (Nat.lt_irrefl _)
  have hempties : z.empties = (frees pre).map Tile.addr ++ t.addr :: (frees us).map Tile.addr := by
    rw [TiledZone.empties, hsplit, frees_append, frees_cons, if_neg (by simp [hu]),
      List.map_append, List.map_cons]
  have h' := h
  rw [ZoneRep, hempties] at h'
  have hbound := h.geo.size_lt ht
  have hnull := h.geo.header_ne_null (List.mem_map_of_mem ht)
  rw [printItem, wpOut_ite_neg (Nat.not_le.mpr hi), wpOut_lift_bind, wp_szAdd (by omega),
    wpOut_ite_neg hnot, wpOut_ite_pos (hempty ▸ hnull), hempty, wpOut_lift_bind, h.wp_getEnd hv ht,
    wpOut_lift_bind, h.wp_getSize hv ht, wpOut_lift_bind,
    wp_szAdd (by simp only [headerSize]; omega), printf, wpOut_perform_bind, wpOut_lift_bind,
    h'.wp_getNext hv, wpOut_pure, itemLine, if_neg (by simp [hu])]
  exact ⟨rfl, rfl, rfl⟩

/-- Behind the last empty space the loop prints nothing. -/
theorem wpOut_printItem_idle (hi : v.i < n) (hn : n < 2 ^ 64) (hempty : v.empty = null) :
    wpOut gMallocMutex (printItem n v) (fun r out' s' =>
      r = .inl { v with i := v.i + 1 } ∧ out' = out ∧ s' = s) out s := by
  rw [printItem, wpOut_ite_neg (Nat.not_le.mpr hi), wpOut_lift_bind, wp_szAdd (by omega),
    wpOut_ite_neg fun hlt => by simp [hempty] at hlt, wpOut_ite_neg (not_not.mpr hempty),
    wpOut_pure]
  exact ⟨rfl, rfl, rfl⟩

/-- The loop prints the tiles up to the last empty space. -/
theorem ZoneRep.wpOut_printItems (h : ZoneRep s.mem z) (hv : s.Valid z.addr z.len) (hz : z.Laid) :
    wpOut gMallocMutex (looping (printItem z.tiles.length)
      ⟨0, z.blocks.headD 0, z.empties.headD 0, 0⟩) (fun n out' s' =>
      n = dataBytes (shown z.tiles) ∧ out' = out ++ (shown z.tiles).map itemLine ∧ s' = s) out s := by
  have hlen := h.geo.length_lt (List.Sublist.refl _)
  rw [headers, List.length_map] at hlen
  have hsize := hz.dataBytes_le
  have hbound := hz.bound
  have hle : dataBytes (shown z.tiles) ≤ dataBytes z.tiles := dataBytes_shown_le
  -- `us` is what the two cursors have before them; without empty spaces it stays as it is
  refine wpOut_iterate (fun n v out' s' => s' = s ∧ v.i + n = z.tiles.length ∧ ∃ pre us,
    z.tiles = pre ++ us ∧ v.block = ((useds us).map Tile.addr).headD 0 ∧
    v.empty = ((frees us).map Tile.addr).headD 0 ∧ (frees us = [] ∨ us.length = n) ∧
    v.totalAllocated + dataBytes (shown us) = dataBytes (shown z.tiles) ∧
    out' ++ (shown us).map itemLine = out ++ (shown z.tiles).map itemLine) ?_ hlen
    ⟨rfl, Nat.zero_add _, [], z.tiles, rfl, rfl, rfl, .inr rfl, Nat.zero_add _, rfl⟩
  rintro n v out' s' ⟨rfl, hi, pre, us, hsplit, hblock, hempty, hrest, htotal, hout⟩
  by_cases hdone : v.i ≥ z.tiles.length
  · have hnil : frees us = [] := hrest.elim id fun hn => by
      rw [List.length_eq_zero_iff.mp (hn.trans (by omega)), frees_nil]
    rw [shown_of_frees_nil hnil] at htotal hout
    rw [printItem, wpOut_ite_pos hdone, wpOut_pure]
    exact ⟨htotal, by simpa using hout, rfl⟩
  · have hlt : v.i < z.tiles.length := Nat.not_le.mp hdone
    by_cases hnil : frees us = []
    · refine wpOut_mono (wpOut_printItem_idle hlt hlen (by rw [hempty, hnil]; rfl)) ?_
      rintro _ _ _ ⟨rfl, rfl, rfl⟩
      exact ⟨n - 1, by omega, rfl, by dsimp only; omega, pre, us, hsplit, hblock, hempty,
        .inl hnil, htotal, hout⟩
    · cases us with
      | nil => exact absurd frees_nil hnil
      | cons t us =>
        have hn : us.length + 1 = n := hrest.resolve_left hnil
        have hsplit' : z.tiles = (pre ++ [t]) ++ us := by simp [hsplit]
        cases hu : t.used with
        | true =>
          rw [useds_cons, if_pos hu] at hblock
          rw [frees_cons, if_pos hu] at hempty hnil
          rw [shown_cons_of_frees hnil] at htotal hout
          rw [dataBytes_cons, if_pos hu] at htotal
          refine wpOut_mono (h.wpOut_printItem_block hv hz hsplit hu hnil hlt hlen hblock hempty
            (by omega)) ?_
          rintro _ _ _ ⟨rfl, rfl, rfl⟩
          refine ⟨us.length, by omega, rfl, by dsimp only; omega, pre ++ [t], us, hsplit', rfl,
            hempty, .inr rfl, by dsimp only; omega, ?_⟩
          rw [← hout, List.map_cons, List.append_assoc]
          rfl
        | false =>
          have hu' : ¬ t.used = true := by simp [hu]
          rw [useds_cons, if_neg hu'] at hblock
          rw [frees_cons, if_neg hu'] at hempty
          rw [shown_cons_of_free hu] at htotal hout
          rw [dataBytes_cons, if_neg hu'] at htotal
          refine wpOut_mono (h.wpOut_printItem_empty hv hz hsplit hu hlt hlen hblock hempty) ?_
          rintro _ _ _ ⟨rfl, rfl, rfl⟩
          refine ⟨us.length, by omega, rfl, by dsimp only; omega, pre ++ [t], us, hsplit', hblock,
            rfl, .inr rfl, by dsimp only; omega, ?_⟩
          rw [← hout, List.map_cons, List.append_assoc]
          rfl

/-- `print_zone` of the extended report prints the tiles up to the last empty space. -/
theorem ZoneRep.wpOut_printZoneEx (h : ZoneRep s.mem z) (hv : s.Valid z.addr z.len) (hz : z.Laid)
    (hne : z.tiles ≠ []) :
    wpOut gMallocMutex (printZoneEx z.addr) (fun n out' s' =>
      n = dataBytes (shown z.tiles) ∧ out' = out ++ z.printedEx ∧ s' = s) out s := by
  have hbound := hz.bound
  have hroom := hz.room
  rw [printZoneEx, wpOut_bind]
  refine wpOut_mono (h.wpOut_countItems hv) ?_
  rintro _ _ _ ⟨rfl, rfl, rfl⟩
  rw [wpOut_ite_neg fun hnil => hne (List.length_eq_zero_iff.mp hnil), wpOut_lift_bind,
    h.wp_getType hv, wpOut_lift_bind, h.wp_getStart hv, wpOut_lift_bind, h.wp_getStop hv,
    wpOut_lift_bind, h.wp_getTotal hv, wpOut_lift_bind,
    wp_szAdd (by simp only [zoneHeaderSize]; omega), printf, wpOut_perform_bind, wpOut_lift_bind,
    h.wp_getBlocks hv, wpOut_lift_bind, h.wp_getEmpties hv]
  refine wpOut_mono (h.wpOut_printItems hv hz) ?_
  rintro _ _ _ ⟨rfl, rfl, rfl⟩
  exact ⟨rfl, List.append_assoc _ _ _, rfl⟩

/-! ## Statistics -/

/-- Counting modulo `k`. -/
theorem foldl_add_mod {α : Type} (g : α → ℕ) (k n : ℕ) (l : List α) :
    l.foldl (fun c a => (c + g a) % k) (n % k) = (n + (l.map g).sum) % k := by
  induction l generalizing n with
  | nil => rfl
  | cons a l ih =>
    rw [List.foldl_cons, Nat.mod_add_mod, ih, List.map_cons, List.sum_cons, Nat.add_assoc]

/-- The loop over the empty spaces counts them in 32 bits. -/
theorem ZoneRep.wpOut_countEmpties (h : ZoneRep s.mem z) (hv : s.Valid z.addr z.len) :
    wpOut gMallocMutex (countEmpties z.addr) (fun n out' s' =>
      n = z.empties.length % 2 ^ 32 ∧ out' = out ∧ s' = s) out s := by
  rw [countEmpties, wpOut_lift_bind, h.wp_getEmpties hv]
  refine wpOut_iterate_fold (f := fun n _ => (n + 1) % 2 ^ 32) (g := fun _ => [])
    ?_ ?_ ?_ ?_
  · intro d out
    rw [wpOut_ite_pos (by rfl), wpOut_pure]
    exact ⟨rfl, rfl, rfl⟩
  · intro es e fs hsplit out
    have he : e ∈ z.tiles := (mem_frees.mp (hsplit ▸ by simp)).1
    have hempties : z.empties = es.map Tile.addr ++ e.addr :: fs.map Tile.addr := by
      rw [TiledZone.empties, hsplit, List.map_append, List.map_cons]
    have h' := h
    rw [ZoneRep, hempties] at h'
    rw [wpOut_ite_neg (h.geo.header_ne_null (List.mem_map_of_mem he)), wpOut_lift_bind,
      h'.wp_getNext hv, wpOut_pure]
    exact ⟨rfl, (List.append_nil _).symm, rfl⟩
  · have := h.geo.length_lt h.geo.empties
    rwa [TiledZone.empties, List.length_map] at this
  · have hcount := foldl_add_mod (fun _ => 1) (2 ^ 32) 0 (frees z.tiles)
    rw [List.map_const', List.sum_replicate, Nat.zero_add, smul_eq_mul, Nat.mul_one] at hcount
    rw [TiledZone.empties, List.length_map]
    exact ⟨hcount, by simp, rfl⟩

/-- The statistics of a zone. -/
theorem ZoneRep.wpOut_printStatistics (h : ZoneRep s.mem z) (hv : s.Valid z.addr z.len) :
    wpOut gMallocMutex (printStatistics z.addr) (fun r out' s' =>
      r = (z.blocks.length % 2 ^ 32, z.empties.length % 2 ^ 32) ∧ out' = out ++ z.statistics ∧
        s' = s) out s := by
  simp only [printStatistics, printf]
  rw [wpOut_lift_bind, h.wp_getType hv, wpOut_perform_bind, wpOut_lift_bind, h.wp_getStart hv,
    wpOut_perform_bind, wpOut_lift_bind, h.wp_getStop hv, wpOut_perform_bind, wpOut_lift_bind,
    h.wp_getTotal hv, wpOut_perform_bind, wpOut_lift_bind, h.wp_getRemaining hv,
    wpOut_perform_bind, wpOut_lift_bind, h.wp_getMaxFree hv, wpOut_perform_bind, wpOut_lift_bind,
    h.wp_getNum hv, wpOut_perform_bind, wpOut_bind]
  refine wpOut_mono (h.wpOut_countEmpties hv) ?_
  rintro _ _ _ ⟨rfl, rfl, rfl⟩
  rw [wpOut_perform_bind, wpOut_perform_bind, wpOut_lift_bind, h.wp_getNum hv, wpOut_pure]
  refine ⟨rfl, ?_, rfl⟩
  simp only [List.append_assoc]
  rfl

/-! ## The loops over the zones -/

section Zones

variable {pre post : List TiledZone}

/-- What both loops count on a zone and before it is a part of all data bytes. -/
theorem Zones.Spread.foldl_dataBytes_lt {f : List Tile → ℕ} (h : Zones.Spread P (pre ++ z :: post))
    (hf : ∀ ts, f ts ≤ dataBytes ts) :
    pre.foldl (fun n z => n + f z.tiles) 0 + f z.tiles < 2 ^ 64 := by
  have hsum := h.sum_dataBytes_lt
  have hpre : (pre.map fun z => f z.tiles).sum ≤ (pre.map fun z => dataBytes z.tiles).sum :=
    List.sum_le_sum fun z _ => hf z.tiles
  have hz := hf z.tiles
  rw [List.map_append, List.sum_append, List.map_cons, List.sum_cons] at hsum
  rw [foldl_add]
  omega

/-- The loop of `show_alloc_mem` prints the zones. -/
theorem Heap.Rep.wpOut_printZones (h : s.Rep P zs) (hsp : Zones.Spread P zs) :
    wpOut gMallocMutex (looping (fun v : ℕ × ℕ => do
      if v.1 = null then
        return .inr v.2
      let totalAllocated ← szAdd v.2 (← printZone v.1)
      printf .gap
      return .inl (← Zone.getNext v.1, totalAllocated)) (s.gZones, 0)) (fun n out' s' =>
        n = (zs.map fun z => dataBytes z.tiles).sum ∧
          out' = out ++ (zs.flatMap fun z => z.printed ++ [Line.gap]) ∧ s' = s) out s := by
  rw [h.head]
  refine wpOut_iterate_fold (f := fun n z => n + dataBytes z.tiles)
    (g := fun z => z.printed ++ [Line.gap]) ?_ ?_ hsp.length_lt ?_
  · intro d out
    rw [wpOut_ite_pos (by rfl), wpOut_pure]
    exact ⟨rfl, rfl, rfl⟩
  · rintro pre z post rfl out
    have hz : z ∈ pre ++ z :: post := by simp
    have hlt := hsp.foldl_dataBytes_lt fun _ => Nat.le_refl _
    rw [wpOut_ite_neg (hsp.ne_null hz), wpOut_bind]
    refine wpOut_mono ((h.zone z hz).wpOut_printZone (h.valid hz) (hsp.laid z hz)) ?_
    rintro _ _ _ ⟨rfl, rfl, rfl⟩
    rw [wpOut_lift_bind, wp_szAdd hlt, printf, wpOut_perform_bind, wpOut_lift_bind,
      h.wp_getNext hsp, wpOut_pure]
    exact ⟨rfl, List.append_assoc _ _ _, rfl⟩
  · rw [foldl_add, Nat.zero_add]
    exact ⟨rfl, rfl, rfl⟩

/-- `show_alloc_mem` prints its report. -/
theorem Heap.Rep.wpOut_showAllocMem (h : s.Rep P zs) (hsp : Zones.Spread P zs)
    (hlock : s.gMallocLock = false) :
    wpOut gMallocMutex showAllocMem (fun _ out' s' => out' = out ++ Zones.report zs ∧ s' = s)
      out s := by
  rw [showAllocMem, wpOut_lift_bind, wp_getGZones]
  cases hzs : zs with
  | nil =>
    rw [wpOut_ite_pos (by rw [h.head, hzs]; rfl), printf, wpOut_perform_bind, wpOut_pure]
    exact ⟨rfl, rfl⟩
  | cons z post =>
    have hz : z ∈ zs := hzs ▸ List.mem_cons_self
    have hne : ¬ s.gZones = null := by
      rw [h.head, hzs]
      exact hsp.ne_null hz
    rw [wpOut_ite_neg hne, wpOut_bind, wpOut_acquire, Mutex.wp_lock hlock, wpOut_lift_bind,
      wp_getGZones, wpOut_bind, ← hzs]
    refine wpOut_mono (Heap.Rep.wpOut_printZones h.setLock hsp) ?_
    rintro _ _ _ ⟨rfl, rfl, rfl⟩
    rw [printf, wpOut_perform_bind, wpOut_release, Mutex.wp_unlock (by rfl), Zones.report,
      if_neg (by rw [hzs]; exact List.cons_ne_nil _ _), List.append_assoc]
    exact ⟨rfl, setLock_self hlock⟩

/-- The first loop of `show_alloc_mem_ex` prints the zones. -/
theorem Heap.Rep.wpOut_printZonesEx (h : s.Rep P zs) (hsp : Zones.Spread P zs)
    (hne : ∀ z ∈ zs, z.tiles ≠ []) :
    wpOut gMallocMutex (looping (fun v : ℕ × ℕ => do
      if v.1 = null then
        return .inr v.2
      let totalAllocated ← szAdd v.2 (← printZoneEx v.1)
      printf .gap
      return .inl (← Zone.getNext v.1, totalAllocated)) (s.gZones, 0)) (fun n out' s' =>
        n = (zs.map fun z => dataBytes (shown z.tiles)).sum ∧
          out' = out ++ (zs.flatMap fun z => z.printedEx ++ [Line.gap]) ∧ s' = s) out s := by
  rw [h.head]
  refine wpOut_iterate_fold (f := fun n z => n + dataBytes (shown z.tiles))
    (g := fun z => z.printedEx ++ [Line.gap]) ?_ ?_ hsp.length_lt ?_
  · intro d out
    rw [wpOut_ite_pos (by rfl), wpOut_pure]
    exact ⟨rfl, rfl, rfl⟩
  · rintro pre z post rfl out
    have hz : z ∈ pre ++ z :: post := by simp
    have hlt := hsp.foldl_dataBytes_lt (f := fun ts => dataBytes (shown ts))
      fun _ => dataBytes_shown_le
    rw [wpOut_ite_neg (hsp.ne_null hz), wpOut_bind]
    refine wpOut_mono
      ((h.zone z hz).wpOut_printZoneEx (h.valid hz) (hsp.laid z hz) (hne z hz)) ?_
    rintro _ _ _ ⟨rfl, rfl, rfl⟩
    rw [wpOut_lift_bind, wp_szAdd hlt, printf, wpOut_perform_bind, wpOut_lift_bind,
      h.wp_getNext hsp, wpOut_pure]
    exact ⟨rfl, List.append_assoc _ _ _, rfl⟩
  · rw [foldl_add, Nat.zero_add]
    exact ⟨rfl, rfl, rfl⟩

/-- The second loop of `show_alloc_mem_ex` prints the statistics. -/
theorem Heap.Rep.wpOut_printAllStatistics (h : s.Rep P zs) (hsp : Zones.Spread P zs) :
    wpOut gMallocMutex (looping (fun v : ℕ × ℕ × ℕ => do
      if v.1 = null then
        return .inr v.2
      let counts ← printStatistics v.1
      return .inl (← Zone.getNext v.1, (v.2.1 + counts.1) % 2 ^ 32, (v.2.2 + counts.2) % 2 ^ 32))
      (s.gZones, 0, 0)) (fun n out' s' =>
        n = ((zs.map fun z => z.blocks.length).sum % 2 ^ 32,
          (zs.map fun z => z.empties.length).sum % 2 ^ 32) ∧
          out' = out ++ zs.flatMap TiledZone.statistics ∧ s' = s) out s := by
  rw [h.head]
  refine wpOut_iterate_fold (d := ((0, 0) : ℕ × ℕ))
    (f := fun n z => ((n.1 + z.blocks.length) % 2 ^ 32, (n.2 + z.empties.length) % 2 ^ 32))
    (g := TiledZone.statistics) ?_ ?_ hsp.length_lt ?_
  · intro d out
    rw [wpOut_ite_pos (by rfl), wpOut_pure]
    exact ⟨rfl, rfl, rfl⟩
  · rintro pre z post rfl out
    have hz : z ∈ pre ++ z :: post := by simp
    rw [wpOut_ite_neg (hsp.ne_null hz), wpOut_bind]
    refine wpOut_mono ((h.zone z hz).wpOut_printStatistics (h.valid hz)) ?_
    rintro _ _ _ ⟨rfl, rfl, rfl⟩
    rw [wpOut_lift_bind, h.wp_getNext hsp, wpOut_pure, Nat.add_mod_mod, Nat.add_mod_mod]
    exact ⟨rfl, rfl, rfl⟩
  · have hblocks := foldl_add_mod (fun z : TiledZone => z.blocks.length) (2 ^ 32) 0 zs
    have hempties := foldl_add_mod (fun z : TiledZone => z.empties.length) (2 ^ 32) 0 zs
    rw [Nat.zero_add] at hblocks hempties
    refine ⟨Prod.ext ?_ ?_, rfl, rfl⟩
    · exact (List.foldl_hom Prod.fst fun _ _ => by rfl).symm.trans hblocks
    · exact (List.foldl_hom Prod.snd fun _ _ => by rfl).symm.trans hempties

/-- `show_alloc_mem_ex` prints its report. -/
theorem Heap.Rep.wpOut_showAllocMemEx (h : s.Rep P zs) (hsp : Zones.Spread P zs)
    (hne : ∀ z ∈ zs, z.tiles ≠ []) (hlock : s.gMallocLock = false) :
    wpOut gMallocMutex showAllocMemEx (fun _ out' s' => out' = out ++ Zones.reportEx zs ∧ s' = s)
      out s := by
  rw [showAllocMemEx, wpOut_lift_bind, wp_getGZones]
  cases hzs : zs with
  | nil =>
    rw [wpOut_ite_pos (by rw [h.head, hzs]; rfl), printf, wpOut_perform_bind, wpOut_pure]
    exact ⟨rfl, rfl⟩
  | cons z post =>
    have hz : z ∈ zs := hzs ▸ List.mem_cons_self
    have hnull : ¬ s.gZones = null := by
      rw [h.head, hzs]
      exact hsp.ne_null hz
    rw [wpOut_ite_neg hnull, wpOut_bind, wpOut_acquire, Mutex.wp_lock hlock, printf,
      wpOut_perform_bind, printf, wpOut_perform_bind, printf, wpOut_perform_bind, wpOut_lift_bind,
      wp_getGZones, wpOut_bind, ← hzs]
    refine wpOut_mono (Heap.Rep.wpOut_printZonesEx h.setLock hsp hne) ?_
    rintro _ _ _ ⟨rfl, rfl, rfl⟩
    simp only [printf]
    rw [wpOut_perform_bind, wpOut_perform_bind, wpOut_perform_bind, wpOut_perform_bind,
      wpOut_lift_bind, wp_getGZones, wpOut_bind]
    refine wpOut_mono (Heap.Rep.wpOut_printAllStatistics h.setLock hsp) ?_
    rintro _ _ _ ⟨rfl, rfl, rfl⟩
    rw [wpOut_perform_bind, wpOut_perform_bind, wpOut_perform_bind, wpOut_perform_bind,
      wpOut_release, Mutex.wp_unlock (by rfl), Zones.reportEx,
      if_neg (by rw [hzs]; exact List.cons_ne_nil _ _)]
    refine ⟨?_, setLock_self hlock⟩
    simp only [List.append_assoc, List.cons_append, List.nil_append]
    rfl

end Zones

end FtMalloc
