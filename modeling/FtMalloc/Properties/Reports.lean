import FtMalloc.Properties.Layout
import FtMalloc.Refine.Reports

/-!
# The two reports

The extended report stops at the last empty space of a zone. It shows a zone completely, and counts
its data bytes, if and only if every block of the zone has an empty space behind it.
-/

namespace FtMalloc

open HeapLib TiledZone Process

/-- The address in a line on a block or an empty space of the extended report. -/
def Line.itemAddr : Line → Option ℕ
  | .blockEx addr _ _ => some addr
  | .emptyEx addr _ _ => some addr
  | _ => none

/-- The number in the line on the total. -/
def Line.total? : Line → Option ℕ
  | .total bytes => some bytes
  | _ => none

/-- The total that a report prints. -/
def reportedTotal (out : List Line) : Option ℕ := out.findSome? Line.total?

/-- The lines show every block and every empty space of the zone, nothing else, and at increasing
addresses, hence once. The total is that of the data bytes of the blocks. -/
structure ZoneView.Reported (v : ZoneView) (total : ℕ) (out : List Line) : Prop where
  ordered : (out.filterMap Line.itemAddr).Pairwise (· < ·)
  blocks : ∀ a stop n, .blockEx a stop n ∈ out ↔
    ∃ e ∈ v.blocks, a = e.addr ∧ stop = e.stop ∧ n = e.size + headerSize
  emptySpaces : ∀ a stop n, .emptyEx a stop n ∈ out ↔
    ∃ e ∈ v.emptySpaces, a = e.addr ∧ stop = e.stop ∧ n = e.size + headerSize
  total : total = (v.blocks.map RegionView.size).sum

/-- `print_zone` of the extended report shows the zone. -/
def ReportsZone (s : Heap) (v : ZoneView) : Prop :=
  wpOut gMallocMutex (printZoneEx v.addr) (fun total out s' => v.Reported total out ∧ s' = s) [] s

/-- Both reports print the same total. -/
def TotalsAgree (s : Heap) : Prop :=
  wpOut gMallocMutex showAllocMem (fun _ out s' =>
    wpOut gMallocMutex showAllocMemEx (fun _ outEx _ => reportedTotal outEx = reportedTotal out)
      [] s') [] s

/-- Every block of the zone has an empty space behind it. -/
def ZoneView.EndsEmpty (v : ZoneView) : Prop :=
  ∀ e ∈ v.blocks, ∃ f ∈ v.emptySpaces, e.addr < f.addr

instance (v : ZoneView) : Decidable v.EndsEmpty :=
  inferInstanceAs (Decidable (∀ e ∈ v.blocks, ∃ f ∈ v.emptySpaces, e.addr < f.addr))

variable {P : Platform} {s : Heap} {A : Arena P} {z : TiledZone} {zs : List TiledZone}
  {v : ZoneView} {t : Tile} {ts : List Tile} {out : List Line} {n : ℕ}

/-! ## Zones -/

/-- The report shows all tiles of a zone if and only if every block has an empty space behind
it. -/
theorem TiledZone.Laid.endsEmpty_iff (hz : z.Laid) :
    (ZoneView.ofZone z).EndsEmpty ↔ shown z.tiles = z.tiles := by
  rw [shown_eq_self_iff]
  constructor
  · intro h pre t post hsplit hu hnil
    have ht : t ∈ useds z.tiles := mem_useds.mpr ⟨hsplit ▸ by simp, hu⟩
    obtain ⟨_, hf, hlt⟩ := h _ (List.mem_map_of_mem ht)
    obtain ⟨f, hfree, rfl⟩ := List.mem_map.mp hf
    rw [hsplit, frees_append, frees_cons, if_pos hu, hnil, List.append_nil] at hfree
    obtain ⟨ps, qs, rfl⟩ := List.append_of_mem (mem_frees.mp hfree).1
    rw [List.append_assoc, List.cons_append] at hsplit
    have hft : f.addr < t.addr := hz.addr_lt_of_split hsplit (by simp)
    exact absurd (hlt.trans hft) (Nat.lt_irrefl _)
  · intro h e he
    obtain ⟨t, ht, rfl⟩ := List.mem_map.mp he
    obtain ⟨hmem, hu⟩ := mem_useds.mp ht
    obtain ⟨pre, post, hsplit⟩ := List.append_of_mem hmem
    obtain ⟨f, fs, hfs⟩ := List.exists_cons_of_ne_nil (h pre t post hsplit hu)
    obtain ⟨hf, hfree⟩ := mem_frees.mp (hfs ▸ List.mem_cons_self : f ∈ frees post)
    refine ⟨.ofTile f, List.mem_map_of_mem (mem_frees.mpr ⟨?_, hfree⟩),
      hz.addr_lt_of_split hsplit hf⟩
    rw [hsplit]
    exact List.mem_append_right _ (List.mem_cons_of_mem _ hf)

/-- The data bytes of a zone as they are seen. -/
theorem sum_size_ofZone : ((ZoneView.ofZone z).blocks.map RegionView.size).sum =
    dataBytes z.tiles := by
  change (((useds z.tiles).map RegionView.ofTile).map RegionView.size).sum = _
  rw [List.map_map]
  rfl

/-- The lines on tiles are those on the used and those on the free ones. -/
theorem mem_map_itemLine {l : Line} : l ∈ ts.map itemLine ↔
    (∃ t ∈ useds ts, l = .blockEx t.addr (t.stop headerSize) (t.size + headerSize)) ∨
      ∃ t ∈ frees ts, l = .emptyEx t.addr (t.stop headerSize) (t.size + headerSize) := by
  rw [List.mem_map]
  constructor
  · rintro ⟨t, ht, rfl⟩
    cases hu : t.used with
    | true => exact .inl ⟨t, mem_useds.mpr ⟨ht, hu⟩, if_pos hu⟩
    | false => exact .inr ⟨t, mem_frees.mpr ⟨ht, hu⟩, if_neg (by simp [hu])⟩
  · rintro (⟨t, ht, rfl⟩ | ⟨t, ht, rfl⟩)
    · exact ⟨t, (mem_useds.mp ht).1, if_pos (mem_useds.mp ht).2⟩
    · exact ⟨t, (mem_frees.mp ht).1, if_neg (by simp [(mem_frees.mp ht).2])⟩

/-- A zone whose tiles are all shown is reported. -/
theorem TiledZone.Laid.reported (hz : z.Laid) (hall : shown z.tiles = z.tiles) :
    (ZoneView.ofZone z).Reported (dataBytes z.tiles) z.printedEx where
  ordered := by
    have hitem : Line.itemAddr ∘ itemLine = some ∘ Tile.addr := by
      funext t
      rw [Function.comp_apply, itemLine]
      split <;> rfl
    rw [printedEx, hall, List.filterMap_cons_none (by rfl), List.filterMap_map, hitem,
      List.filterMap_eq_map, List.pairwise_map]
    refine hz.tiled.pairwise.imp fun {t u} hle => ?_
    simp only [Tile.stop, headerSize] at hle
    omega
  blocks := by
    intro a stop n
    rw [printedEx, hall, List.mem_cons, mem_map_itemLine]
    constructor
    · rintro (h | ⟨t, ht, h⟩ | ⟨t, -, h⟩)
      · cases h
      · cases h
        exact ⟨.ofTile t, List.mem_map_of_mem ht, rfl, rfl, rfl⟩
      · cases h
    · rintro ⟨e, he, rfl, rfl, rfl⟩
      obtain ⟨t, ht, rfl⟩ := List.mem_map.mp he
      exact .inr (.inl ⟨t, ht, rfl⟩)
  emptySpaces := by
    intro a stop n
    rw [printedEx, hall, List.mem_cons, mem_map_itemLine]
    constructor
    · rintro (h | ⟨t, -, h⟩ | ⟨t, ht, h⟩)
      · cases h
      · cases h
      · cases h
        exact ⟨.ofTile t, List.mem_map_of_mem ht, rfl, rfl, rfl⟩
    · rintro ⟨e, he, rfl, rfl, rfl⟩
      obtain ⟨t, ht, rfl⟩ := List.mem_map.mp he
      exact .inr (.inr ⟨t, ht, rfl⟩)
  total := sum_size_ofZone.symm

/-- A zone is reported if and only if every block of it has an empty space behind it. -/
theorem Holds.reportsZone_iff (h : Holds s A) (hv : v ∈ view s) :
    ReportsZone s v ↔ v.EndsEmpty := by
  obtain ⟨z, hz, rfl⟩ := (h.rep.mem_view A.spread).mp hv
  have hwf := A.wf z hz
  have hrun : wpOut gMallocMutex (printZoneEx z.addr) (fun n out s' =>
      n = dataBytes (shown z.tiles) ∧ out = [] ++ z.printedEx ∧ s' = s) [] s :=
    (h.rep.zone z hz).wpOut_printZoneEx (h.rep.valid hz) hwf.laid hwf.tiles_ne_nil
  refine (wpOut_iff_of_eq hrun).trans ?_
  rw [hwf.laid.endsEmpty_iff, List.nil_append]
  constructor
  · rintro ⟨hrep, -⟩
    have htotal := hrep.total
    rw [sum_size_ofZone, dataBytes_shown_eq_iff fun t ht => ?_] at htotal
    · exact htotal
    · have := (hwf.laid.grain t ht).1
      simp only [alignment] at this
      omega
  · intro hall
    rw [hall]
    exact ⟨hwf.laid.reported hall, rfl⟩

/-! ## Totals -/

/-- The total of a report is in the first line that has one. -/
theorem reportedTotal_append {front rest : List Line} (h : ∀ l ∈ front, l.total? = none) :
    reportedTotal (front ++ .total n :: rest) = some n := by
  rw [reportedTotal, List.findSome?_append, List.findSome?_eq_none_iff.mpr h]
  rfl

/-- The total of `show_alloc_mem`. -/
theorem reportedTotal_report (hne : zs ≠ []) :
    reportedTotal (Zones.report zs) = some (zs.map fun z => dataBytes z.tiles).sum := by
  rw [Zones.report, if_neg hne]
  refine reportedTotal_append fun l hl => ?_
  obtain ⟨z, -, hl⟩ := List.mem_flatMap.mp hl
  simp only [printed, List.cons_append, List.mem_cons, List.mem_append, List.mem_map,
    List.not_mem_nil, or_false] at hl
  rcases hl with rfl | ⟨t, -, rfl⟩ | rfl <;> rfl

/-- The total of `show_alloc_mem_ex`. -/
theorem reportedTotal_reportEx (hne : zs ≠ []) :
    reportedTotal (Zones.reportEx zs) = some (zs.map fun z => dataBytes (shown z.tiles)).sum := by
  rw [Zones.reportEx, if_neg hne]
  refine reportedTotal_append fun l hl => ?_
  simp only [List.mem_cons, List.mem_flatMap] at hl
  rcases hl with rfl | rfl | rfl | ⟨z, -, hl⟩
  · rfl
  · rfl
  · rfl
  · simp only [printedEx, List.cons_append, List.mem_cons, List.mem_append, List.mem_map,
      List.not_mem_nil, or_false] at hl
    rcases hl with rfl | ⟨t, -, rfl⟩ | rfl
    · rfl
    · rw [itemLine]
      split <;> rfl
    · rfl

/-- Sums of smaller terms are equal only if all terms are. -/
theorem sum_eq_sum_iff {α : Type} {l : List α} {f g : α → ℕ} (hle : ∀ a ∈ l, f a ≤ g a) :
    (l.map f).sum = (l.map g).sum ↔ ∀ a ∈ l, f a = g a := by
  induction l with
  | nil => exact iff_of_true rfl fun a ha => absurd ha List.not_mem_nil
  | cons a l ih =>
    have hrest : ∀ b ∈ l, f b ≤ g b := fun b hb => hle b (List.mem_cons_of_mem _ hb)
    have hsum := List.sum_le_sum hrest
    have ha := hle a List.mem_cons_self
    rw [List.map_cons, List.map_cons, List.sum_cons, List.sum_cons, List.forall_mem_cons,
      ← ih hrest]
    omega

/-- The totals agree if and only if every block of every zone has an empty space behind it. -/
theorem Holds.totalsAgree_iff (h : Holds s A) :
    TotalsAgree s ↔ ∀ v ∈ view s, v.EndsEmpty := by
  have hplain : wpOut gMallocMutex showAllocMem (fun u o s' =>
      u = () ∧ o = [] ++ Zones.report A.zones ∧ s' = s) [] s :=
    wpOut_mono (h.rep.wpOut_showAllocMem A.spread h.unlocked) fun _ _ _ hr => ⟨rfl, hr⟩
  have hex : wpOut gMallocMutex showAllocMemEx (fun u o s' =>
      u = () ∧ o = [] ++ Zones.reportEx A.zones ∧ s' = s) [] s :=
    wpOut_mono (h.rep.wpOut_showAllocMemEx A.spread (fun z hz => (A.wf z hz).tiles_ne_nil)
      h.unlocked) fun _ _ _ hr => ⟨rfl, hr⟩
  have hview : (∀ v ∈ view s, v.EndsEmpty) ↔ ∀ z ∈ A.zones,
      dataBytes (shown z.tiles) = dataBytes z.tiles := by
    rw [h.rep.view_eq A.spread, List.forall_mem_map]
    refine forall₂_congr fun z hz => ?_
    rw [(A.wf z hz).laid.endsEmpty_iff, dataBytes_shown_eq_iff fun t ht => ?_]
    have := ((A.wf z hz).laid.grain t ht).1
    simp only [alignment] at this
    omega
  rw [TotalsAgree, wpOut_iff_of_eq hplain, wpOut_iff_of_eq hex, hview, List.nil_append,
    List.nil_append]
  by_cases hne : A.zones = []
  · rw [hne]
    exact iff_of_true rfl fun z hz => absurd hz List.not_mem_nil
  · rw [reportedTotal_report hne, reportedTotal_reportEx hne, Option.some.injEq,
      sum_eq_sum_iff fun z _ => dataBytes_shown_le]

/-- In every reachable state the extended report shows a zone and counts its data bytes if and only
if every block of the zone has an empty space behind it, and both reports print the same total if
and only if this is so in every zone. -/
theorem reports_agree (h : Reachable P s) :
    (∀ v ∈ view s, ReportsZone s v ↔ v.EndsEmpty) ∧
      (TotalsAgree s ↔ ∀ v ∈ view s, v.EndsEmpty) := by
  obtain ⟨A, hA⟩ := h.exists_holds
  exact ⟨fun v hv => hA.reportsZone_iff hv, hA.totalsAgree_iff⟩

/-- Two blocks with an empty space between them and one behind the second. -/
theorem reports_agree_witness : ∃ s, Reachable .unlimited s ∧
    (∃ v ∈ view s, v.blocks.length = 1 ∧ v.emptySpaces.length = 2) ∧
    (∀ v ∈ view s, ReportsZone s v) ∧ TotalsAgree s := by
  obtain ⟨s, A, h, hA, hzones⟩ := exists_reachable (P := .unlimited) 65536
    (.malloc 100) [.malloc 64, .free 65648] (by decide) (by decide) (by decide)
    (by decide) (by decide)
  have hends : ∀ v ∈ view s, v.EndsEmpty := by
    rw [hA.rep.view_eq A.spread, hzones]
    decide +kernel
  refine ⟨s, h, ?_, fun v hv => ((reports_agree h).1 v hv).mpr (hends v hv),
    (reports_agree h).2.mpr hends⟩
  rw [hA.rep.view_eq A.spread, hzones]
  decide +kernel

/-- A `LARGE` zone has no empty space: its block is not shown and not counted. -/
theorem reports_agree_counterexample : ∃ s, Reachable .unlimited s ∧
    (∃ v ∈ view s, v.blocks.map RegionView.size = [5008] ∧ ¬ ReportsZone s v) ∧
    ¬ TotalsAgree s := by
  obtain ⟨s, A, h, hA, hzones⟩ := exists_reachable (P := .unlimited) 65536
    (.malloc 5000) [] (by decide) (by decide) (by decide) (by decide) (by decide)
  have hbad : ∃ v ∈ view s, v.blocks.map RegionView.size = [5008] ∧ ¬ v.EndsEmpty := by
    rw [hA.rep.view_eq A.spread, hzones]
    decide +kernel
  obtain ⟨v, hv, hsize, hends⟩ := hbad
  exact ⟨s, h, ⟨v, hv, hsize, fun hrep => hends ((hA.reportsZone_iff hv).mp hrep)⟩,
    fun hagree => hends (hA.totalsAgree_iff.mp hagree v hv)⟩

end FtMalloc
