import FtMalloc.Abstract.Arena
import FtMalloc.Source.Reports

/-!
# What the reports print

The lines of both reports as functions of the zones. The extended report reaches the tiles up to the
last empty space of a zone, so the blocks behind it are missing.
-/

namespace FtMalloc

open HeapLib TiledZone

/-- The tiles up to the last empty space. -/
def shown : List Tile → List Tile
  | [] => []
  | t :: ts => if t.used ∧ frees ts = [] then [] else t :: shown ts

/-- The data bytes of the blocks. -/
def dataBytes (ts : List Tile) : ℕ := ((useds ts).map Tile.size).sum

/-- The line on a block. -/
def blockLine (t : Tile) : Line := .block t.addr (t.stop headerSize) (t.size + headerSize)

/-- The line on a block or an empty space in the extended report. -/
def itemLine (t : Tile) : Line :=
  if t.used then .blockEx t.addr (t.stop headerSize) (t.size + headerSize)
  else .emptyEx t.addr (t.stop headerSize) (t.size + headerSize)

namespace TiledZone

/-- The lines on a zone. -/
def printed (z : TiledZone) : List Line :=
  .zone (getTypeStr z.type.code) z.addr :: (useds z.tiles).map blockLine

/-- The lines on a zone in the extended report. -/
def printedEx (z : TiledZone) : List Line :=
  .zoneEx (getTypeStr z.type.code) z.addr (z.addr + z.len) (z.len - zoneHeaderSize + zoneHeaderSize)
    :: (shown z.tiles).map itemLine

/-- The statistics of a zone. -/
def statistics (z : TiledZone) : List Line :=
  [.zoneName (getTypeStr z.type.code), .field "Start" z.addr, .field "End" (z.addr + z.len),
    .field "Total Space" (z.len - zoneHeaderSize), .field "Remaining Space" z.remaining,
    .field "Max Free Space" z.cache, .field "Allocated Blocks" (z.blocks.length % 2 ^ 32),
    .field "Empty Spaces" (z.empties.length % 2 ^ 32), .gap]

end TiledZone

namespace Zones

/-- What `show_alloc_mem` prints. -/
def report (zs : List TiledZone) : List Line :=
  if zs = [] then [.noZones] else
    (zs.flatMap fun z => z.printed ++ [Line.gap]) ++
      [Line.total (zs.map fun z => dataBytes z.tiles).sum]

/-- The statistics at the end of the extended report. -/
def globals (zs : List TiledZone) : List Line :=
  [.title "GLOBAL STATISTICS",
    .field "Total Allocated Blocks" ((zs.map fun z => z.blocks.length).sum % 2 ^ 32),
    .field "Total Empty Spaces" ((zs.map fun z => z.empties.length).sum % 2 ^ 32), .gap]

/-- What `show_alloc_mem_ex` prints. -/
def reportEx (zs : List TiledZone) : List Line :=
  if zs = [] then [.noZones] else
    .gap :: .title "EXTENDED MEMORY INFO" :: .gap ::
      (zs.flatMap fun z => z.printedEx ++ [Line.gap]) ++
        .total (zs.map fun z => dataBytes (shown z.tiles)).sum ::
          .gap :: .title "DETAILED STATISTICS" :: .gap ::
            (zs.flatMap TiledZone.statistics ++ globals zs)

end Zones

variable {P : Platform} {z : TiledZone} {zs pre post : List TiledZone} {t : Tile} {ts us : List Tile}

/-! ## Blocks behind the last empty space -/

/-- Nothing is shown behind the last empty space. -/
theorem shown_of_frees_nil (h : frees ts = []) : shown ts = [] := by
  cases ts with
  | nil => rfl
  | cons t ts =>
    rw [frees_cons] at h
    split at h
    · next hu => exact if_pos ⟨hu, h⟩
    · cases h

/-- A tile is shown when there is an empty space behind it. -/
theorem shown_cons_of_frees (h : frees ts ≠ []) : shown (t :: ts) = t :: shown ts :=
  if_neg fun hc => h hc.2

/-- An empty space is shown. -/
theorem shown_cons_of_free (h : t.used = false) : shown (t :: ts) = t :: shown ts :=
  if_neg fun hc => by simp [h] at hc

/-- Data bytes of the first tile and of the rest. -/
theorem dataBytes_cons : dataBytes (t :: ts) = (if t.used then t.size else 0) + dataBytes ts := by
  rw [dataBytes, useds_cons]
  split
  · rfl
  · rw [Nat.zero_add, dataBytes]

/-- Every tile is shown if and only if every block has an empty space behind it. -/
theorem shown_eq_self_iff :
    shown ts = ts ↔ ∀ pre t post, ts = pre ++ t :: post → t.used = true → frees post ≠ [] := by
  induction ts with
  | nil => exact iff_of_true rfl fun pre t post h => by simp at h
  | cons s ts ih =>
    by_cases hs : s.used = true ∧ frees ts = []
    · rw [shown, if_pos hs]
      exact iff_of_false (fun h => by cases h) fun h => h [] s ts rfl hs.1 hs.2
    · rw [shown, if_neg hs, List.cons.injEq, ih]
      constructor
      · rintro ⟨-, h⟩ pre t post heq hu
        cases pre with
        | nil =>
          rw [List.nil_append, List.cons.injEq] at heq
          obtain ⟨rfl, rfl⟩ := heq
          exact fun hnil => hs ⟨hu, hnil⟩
        | cons p pre =>
          rw [List.cons_append, List.cons.injEq] at heq
          exact h pre t post heq.2 hu
      · exact fun h => ⟨rfl, fun pre t post heq hu => h (s :: pre) t post (by rw [heq]; rfl) hu⟩

/-- The report never counts more than there is. -/
theorem dataBytes_shown_le : dataBytes (shown ts) ≤ dataBytes ts := by
  induction ts with
  | nil => exact Nat.le_refl _
  | cons t ts ih =>
    rw [shown]
    split
    · exact Nat.zero_le _
    · rw [dataBytes_cons, dataBytes_cons]
      exact Nat.add_le_add_left ih _

/-- Blocks have data, so the report counts everything only if it shows everything. -/
theorem dataBytes_shown_eq_iff (hpos : ∀ t ∈ ts, 0 < t.size) :
    dataBytes (shown ts) = dataBytes ts ↔ shown ts = ts := by
  induction ts with
  | nil => exact iff_of_true rfl rfl
  | cons t ts ih =>
    have ih := ih fun u hu => hpos u (List.mem_cons_of_mem _ hu)
    have ht := hpos t List.mem_cons_self
    by_cases hs : t.used = true ∧ frees ts = []
    · rw [shown, if_pos hs, dataBytes_cons, if_pos hs.1]
      refine iff_of_false (fun h => ?_) fun h => by cases h
      have hzero : dataBytes [] = 0 := rfl
      omega
    · rw [shown, if_neg hs, dataBytes_cons, dataBytes_cons, Nat.add_left_cancel_iff, ih,
        List.cons.injEq]
      exact (and_iff_right rfl).symm

/-! ## Totals -/

/-- The data bytes of a zone are fewer than its bytes. -/
theorem TiledZone.Laid.dataBytes_le (hz : z.Laid) : dataBytes z.tiles ≤ z.len := by
  have hle : dataBytes z.tiles ≤ occupied headerSize z.tiles :=
    List.sum_le_sum fun t _ => Nat.le_add_right _ _
  have := hz.remaining_add_occupied
  omega

/-- Zones that do not meet have at most as many data bytes as there are addresses. -/
theorem Zones.Spread.sum_dataBytes_lt (h : Zones.Spread P zs) :
    (zs.map fun z => dataBytes z.tiles).sum < 2 ^ 64 := by
  have hlen : (zs.map TiledZone.len).sum ≤ 2 ^ 64 - 1 := by
    refine sum_length_le (a := TiledZone.addr) (fun z hz => ?_) (h.apart.imp fun {z w} hzw => ?_)
    · have := (h.laid z hz).bound
      omega
    · have hz := P.le_pageUp z.len
      have hw := P.le_pageUp w.len
      rcases hzw with hzw | hzw
      · exact .inl (by omega)
      · exact .inr (by omega)
  have hle := List.sum_le_sum fun z hz => (h.laid z hz).dataBytes_le
  omega

end FtMalloc
