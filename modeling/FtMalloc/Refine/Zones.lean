import FtMalloc.Source.Calls
import FtMalloc.Refine.Represent

/-!
# Looking up, adding and dropping zones

The functions that work on `g_zones`: the search for a zone that promises room, the lookup of a
pointer, the set-up of a zone in fresh pages, and the removal of a `LARGE` zone.
-/

namespace FtMalloc

open HeapLib TiledZone

variable {P : Platform} {s s' : Heap} {m m' : Memory} {z z' w : TiledZone}
  {zs pre post : List TiledZone} {n a len : ℕ} {type : EType} {S : Set ℕ}

/-! ## Scans over the zones -/

section Scans

variable {Q : ℕ → Heap → Prop}

/-- The links of a zone. -/
theorem Heap.Rep.link_words (h : s.Rep P (pre ++ z :: post)) :
    word s.mem (z.addr + 64) = (pre.map TiledZone.addr).getLastD 0 ∧
      word s.mem (z.addr + 72) = (post.map TiledZone.addr).headD 0 := by
  have hl := h.links
  rw [List.map_append, List.map_cons, segment_append] at hl
  exact ⟨hl.2.1, hl.2.2.1⟩

theorem Heap.Rep.wp_getNext (h : s.Rep P (pre ++ z :: post))
    (hsp : Zones.Spread P (pre ++ z :: post)) :
    wp (Zone.getNext z.addr) Q s ↔ Q ((post.map TiledZone.addr).headD 0) s := by
  have hz : z ∈ pre ++ z :: post := by simp
  have := (hsp.laid z hz).room
  rw [Zone.getNext, wp_loadWord ((h.valid hz).sub (by omega) (by omega)), h.link_words.2]

theorem Heap.Rep.wp_getPrev (h : s.Rep P (pre ++ z :: post))
    (hsp : Zones.Spread P (pre ++ z :: post)) :
    wp (Zone.getPrev z.addr) Q s ↔ Q ((pre.map TiledZone.addr).getLastD 0) s := by
  have hz : z ∈ pre ++ z :: post := by simp
  have := (hsp.laid z hz).room
  rw [Zone.getPrev, wp_loadWord ((h.valid hz).sub (by omega) (by omega)), h.link_words.1]

/-- No zone is at the null address. -/
theorem Zones.Spread.ne_null (hsp : Spread P zs) (hz : z ∈ zs) : ¬ z.addr = null := by
  have := (hsp.laid z hz).pos
  simp only [null]
  omega

/-- The loop of `find_zone` finds the first zone that promises room. -/
theorem Heap.Rep.wp_searchZone (h : s.Rep P zs) (hsp : Zones.Spread P zs)
    (hn : n + headerSize < 2 ^ 64)
    (hQ : Q (((zs.find? (Zones.fits type n)).map TiledZone.addr).getD 0) s) :
    wp (searchZone type n) Q s := by
  rw [searchZone, wp_bind, wp_getGZones, h.head]
  refine wp_iterate_scan (p := fun z => if Zones.fits type n z then some z.addr else none) ?_ ?_
    hsp.length_lt (by simpa only [findSome?_ite, Bool.decide_eq_true] using hQ)
  · rw [wp_ite_pos (by rfl), wp_pure]
    exact ⟨rfl, rfl⟩
  · rintro pre z post rfl
    have hz : z ∈ pre ++ z :: post := by simp
    have hrep := h.zone z hz
    have hv := h.valid hz
    rw [wp_ite_neg (hsp.ne_null hz), wp_bind, hrep.wp_getType hv]
    by_cases htype : type = z.type
    · rw [wp_ite_pos (by rw [htype]), wp_bind, hrep.wp_getMaxFree hv, wp_bind, wp_szAdd hn]
      by_cases hle : n + headerSize ≤ z.cache
      · rw [wp_ite_pos hle, wp_pure, if_pos (Zones.fits_iff.mpr ⟨htype.symm, hle⟩)]
        exact ⟨rfl, rfl⟩
      · rw [wp_ite_neg hle, wp_bind, h.wp_getNext hsp, wp_pure,
          if_neg fun hfit => hle (Zones.fits_iff.mp hfit).2]
        exact ⟨rfl, rfl⟩
    · rw [wp_ite_neg fun hcode => htype (EType.code_injective hcode), wp_bind, h.wp_getNext hsp,
        wp_pure, if_neg fun hfit => htype (Zones.fits_iff.mp hfit).1.symm]
      exact ⟨rfl, rfl⟩

/-- `find_zone_for_ptr` finds the zone whose interval contains the pointer. -/
theorem Heap.Rep.wp_findZoneForPtr {ptr : ℕ} (h : s.Rep P zs) (hsp : Zones.Spread P zs)
    (hQ : Q (((Zones.owner ptr zs).map fun c => c.2.1.addr).getD 0) s) :
    wp (findZoneForPtr ptr) Q s := by
  have hfind : ((Zones.owner ptr zs).map fun c => c.2.1.addr) =
      zs.findSome? fun z => if z.addr ≤ ptr ∧ ptr < z.addr + z.len then some z.addr else none := by
    rw [findSome?_ite, find?_eq_cutAt, Option.map_map]
    rfl
  rw [findZoneForPtr]
  by_cases hptr : ptr = null
  · rw [wp_ite_pos hptr, wp_pure]
    have hnone : (zs.findSome? fun z =>
        if z.addr ≤ ptr ∧ ptr < z.addr + z.len then some z.addr else none) = none := by
      rw [List.findSome?_eq_none_iff]
      intro z hz
      have := (hsp.laid z hz).pos
      rw [if_neg (by simp only [null] at hptr; omega)]
    rw [hfind, hnone] at hQ
    exact hQ
  · rw [wp_ite_neg hptr, wp_bind, wp_getGZones, h.head]
    refine wp_iterate_scan ?_ ?_ hsp.length_lt (hfind ▸ hQ)
    · rw [wp_ite_pos (by rfl), wp_pure]
      exact ⟨rfl, rfl⟩
    · rintro pre z post rfl
      have hz : z ∈ pre ++ z :: post := by simp
      have hrep := h.zone z hz
      have hv := h.valid hz
      rw [wp_ite_neg (hsp.ne_null hz), wp_bind, hrep.wp_getStart hv]
      by_cases hlo : z.addr ≤ ptr
      · rw [wp_ite_pos hlo, wp_bind, hrep.wp_getStop hv]
        by_cases hhi : ptr < z.addr + z.len
        · rw [wp_ite_pos hhi, wp_pure, if_pos ⟨hlo, hhi⟩]
          exact ⟨rfl, rfl⟩
        · rw [wp_ite_neg hhi, wp_bind, h.wp_getNext hsp, wp_pure, if_neg fun hin => hhi hin.2]
          exact ⟨rfl, rfl⟩
      · rw [wp_ite_neg hlo, wp_bind, h.wp_getNext hsp, wp_pure, if_neg fun hin => hlo hin.1]
        exact ⟨rfl, rfl⟩

end Scans

/-! ## Setting up a zone -/

/-- The bytes of the headers of a fresh zone, other than its links. -/
def freshBytes (a : ℕ) : Set ℕ := {x | a ≤ x ∧ x < a + 112 ∧ ¬(a + 64 ≤ x ∧ x < a + 80)}

/-- A fresh zone in memory, field by field. -/
theorem zoneRep_fresh (hlaid : (fresh type a len).Laid) (hstart : word m a = a)
    (hstop : word m (a + 8) = a + len) (htype : readLE m (a + 16) 4 = type.code)
    (hnum : readLE m (a + 20) 4 = 0)
    (hspace : ∀ o, o = 24 ∨ o = 32 ∨ o = 40 → word m (a + o) = len - 80)
    (hblocks : word m (a + 48) = 0) (hempties : word m (a + 56) = a + 80)
    (hsize : word m (a + 80) = len - 112) (hend : word m (a + 88) = a + len)
    (hprev : word m (a + 96) = 0) (hnext : word m (a + 104) = 0) :
    ZoneRep m (fresh type a len) where
  geo := hlaid.geometry
  scalars :=
    { start := hstart
      stop := hstop
      type := htype
      num := hnum
      total := hspace 24 (by omega)
      rem := by
        have hin := hlaid.inside (t := ⟨a + 80, len - 112, false⟩) List.mem_cons_self
        have hrem : (fresh type a len).remaining = len - 112 + 32 := rfl
        simp only [fresh_addr, fresh_len] at hin
        rw [fresh_addr, hspace 32 (by omega), hrem]
        omega
      cache := hspace 40 (by omega) }
  data := by
    intro t ht
    obtain rfl := List.mem_singleton.mp ht
    have hin := hlaid.inside (t := ⟨a + 80, len - 112, false⟩) List.mem_cons_self
    simp only [fresh_addr, fresh_len] at hin
    refine ⟨hsize, hend.trans ?_⟩
    simp only [Tile.stop, zoneHeaderSize, headerSize]
    omega
  blocks := ⟨hblocks, trivial⟩
  empties := ⟨hempties, hprev, hnext, trivial⟩

/-- The stores of `zone_init` into the headers of the new zone. -/
theorem wp_initFields {α : Type} {rest : M α} {Q : α → Heap → Prop} (hv : s.Valid a 112)
    (hlaid : (fresh type a len).Laid)
    (hrest : ∀ s₁, s.Writes (freshBytes a) s₁ → ZoneRep s₁.mem (fresh type a len) → wp rest Q s₁) :
    wp (do
      Zone.setStart a a
      Zone.setEnd a (← szAdd a len)
      Zone.setType a type.code
      Zone.setBlocksNum a 0
      Zone.setTotalSpace a (← szSub len zoneHeaderSize)
      Zone.setRemainingSpace a (← Zone.getTotalSpace a)
      Zone.setMaxFreeSpaceSize a (← Zone.getTotalSpace a)
      Zone.setBlocks a null
      Zone.setEmptySpaces a (← szAdd (← Zone.getStart a) zoneHeaderSize)
      Block.setDataSize (← Zone.getEmptySpaces a)
        (← szSub (← Zone.getTotalSpace a) headerSize)
      Block.setEnd (← Zone.getEmptySpaces a) (← Zone.getEnd a)
      Block.setPrev (← Zone.getEmptySpaces a) null
      Block.setNext (← Zone.getEmptySpaces a) null
      rest) Q s := by
  have hbound : a + len < 2 ^ 64 := hlaid.bound
  have hroom : 128 ≤ len := by
    have hin := hlaid.inside (t := ⟨a + 80, len - 112, false⟩) List.mem_cons_self
    simp only [fresh_addr, fresh_len] at hin
    omega
  have hput {m : Memory} {b n v : ℕ} {Q : Unit → Heap → Prop} (hlo : a ≤ b)
      (hhi : b + n ≤ a + 112) :
      wp (store n b v) Q (s.withMem m) ↔ Q () (s.withMem (writeLE m b n v)) :=
    wp_store (hv.sub hlo hhi)
  have hget {m : Memory} {b n : ℕ} {Q : ℕ → Heap → Prop} (hlo : a ≤ b) (hhi : b + n ≤ a + 112) :
      wp (load n b) Q (s.withMem m) ↔ Q (readLE m b n) (s.withMem m) :=
    wp_load (hv.sub hlo hhi)
  change wp _ Q (s.withMem s.mem)
  simp (disch := omega) only [wp_bind, Zone.setStart, Zone.setEnd, Zone.setType,
    Zone.setBlocksNum, Zone.setTotalSpace, Zone.setRemainingSpace, Zone.getTotalSpace,
    Zone.setMaxFreeSpaceSize, Zone.setBlocks, Zone.setEmptySpaces, Zone.getStart,
    Zone.getEmptySpaces, Zone.getEnd, Block.setDataSize, Block.setEnd, Block.setPrev,
    Block.setNext, hput, hget, wp_szAdd, wp_szSub, zoneHeaderSize, headerSize,
    readLE_writeLE_disjoint, readLE_writeLE_same]
  have hw {t : Heap} {b n v : ℕ} (h : s.Writes (freshBytes a) t) (hlo : a ≤ b)
      (hhi : b + n ≤ a + 112) (hoff : b + n ≤ a + 64 ∨ a + 80 ≤ b) :
      s.Writes (freshBytes a) (t.withMem (writeLE t.mem b n v)) :=
    h.write fun x hx hx' => ⟨by omega, by omega, by omega⟩
  refine hrest _ ?_ ?_
  · iterate 13 refine hw (t := s.withMem _) ?_ (by omega) (by omega) (by omega)
    exact Heap.Writes.refl _ _
  · have hcode : type.code < 256 ^ 4 := by cases type <;> decide
    refine zoneRep_fresh hlaid ?_ ?_ ?_ ?_ (fun o ho => ?_) ?_ ?_ ?_ ?_ ?_ ?_
    case refine_5 =>
      rcases ho with rfl | rfl | rfl <;>
        simp (disch := omega) only [word, withMem_mem, readLE_writeLE_disjoint,
          readLE_writeLE_same]
    all_goals
      simp (disch := omega) only [word, withMem_mem, readLE_writeLE_disjoint,
        readLE_writeLE_same, null]
    omega

/-- The pages of a mapping. -/
def pageBytes (P : Platform) (a len : ℕ) : Set ℕ := {x | a ≤ x ∧ x < a + P.pageUp len}

/-- A mapping changes the bytes of its pages. -/
theorem agreeOff_map : AgreeOff (pageBytes P a len) s.mem (s.map P a len).mem :=
  fun _ hx => if_neg hx

/-- A mapping is mapped, and everything mapped stays so. -/
theorem valid_map {b k : ℕ} : (s.map P a len).Valid b k ↔
    ∀ i < k, (a ≤ b + i ∧ b + i < a + P.pageUp len) ∨ s.mapped (b + i) = true := by
  refine forall₂_congr fun i _ => ?_
  change (decide (a ≤ b + i ∧ b + i < a + P.pageUp len) || s.mapped (b + i)) = true ↔ _
  rw [Bool.or_eq_true, decide_eq_true_eq]

/-- A mapping on pages of its own keeps the zones. -/
theorem Heap.Rep.became_map (h : s.Rep P zs) (hsp : Zones.Spread P zs)
    (hfar : ∀ z ∈ zs, a + P.pageUp len ≤ z.addr ∨ z.addr + P.pageUp z.len ≤ a) :
    s.Became P (s.map P a len) zs zs [.mmap len (some a)] := by
  have hoff : ∀ z ∈ zs, ∀ x ∈ pageBytes P a len, ¬(z.addr ≤ x ∧ x < z.addr + z.len) := by
    rintro z hz x ⟨hlo, hhi⟩ hin
    have := P.le_pageUp z.len
    rcases hfar z hz with hz' | hz' <;> omega
  exact
    { rep :=
        { head := h.head
          links := links_agreeOff h.links agreeOff_map fun z hz x hx hin => by
            have := (hsp.laid z hz).room
            exact hoff z hz x hx ⟨by omega, by omega⟩
          zone := fun z hz => (h.zone z hz).frame (hsp.laid z hz) agreeOff_map
            fun x hx hlo hhi => absurd ⟨hlo, hhi⟩ (hoff z hz x hx)
          mapped := fun z hz => valid_map.mpr fun i hi => .inr (h.mapped z hz i hi) }
      spared := spared_of_off agreeOff_map fun t ht x hx hin => by
        obtain ⟨⟨z, hz, hlo, hhi⟩, -⟩ := hsp.payload_off ht
        simp only [headerSize] at hin hhi
        exact hoff z hz x hx ⟨by omega, by omega⟩
      lock := rfl
      mapped := rfl
      calls := rfl
      wrapped := fun _ => rfl }

/-- Links of more zones are more bytes. -/
theorem zoneLinkBytes_mono {ws : List TiledZone} (h : ∀ w ∈ ws, w ∈ zs) :
    zoneLinkBytes ws ⊆ zoneLinkBytes zs := by
  rintro x ⟨w, hw, hx⟩
  exact ⟨w, h w hw, hx⟩

/-- Relinking the first zone writes links of zones. -/
theorem agreeOff_linkHead {v : ℕ} : AgreeOff (zoneLinkBytes zs) m
    (linkPrev zoneLinks m ((zs.map TiledZone.addr).headD 0) v) := by
  rw [linkPrev]
  split
  · exact AgreeOff.refl _ _
  · cases zs with
    | nil => exact absurd rfl ‹_›
    | cons w ws =>
      exact (AgreeOff.refl _ _).write fun x hx hx' => by
        simp only [List.map_cons, List.headD_cons, zoneLinks_prev] at hx hx'
        exact ⟨w, List.mem_cons_self, by omega, by omega⟩

/-- Writing both links of a zone. -/
theorem agreeOff_ownLinks {u v : ℕ} : AgreeOff (zoneLinkBytes [z]) m
    (setWord (setWord m (z.addr + 64) u) (z.addr + 72) v) := by
  refine ((AgreeOff.refl _ _).write ?_).write ?_
  · exact fun x hx hx' => ⟨z, List.mem_singleton_self z, by omega, by omega⟩
  · exact fun x hx hx' => ⟨z, List.mem_singleton_self z, by omega, by omega⟩

/-- The links of a new first zone, and the link back to it. -/
def pushLinks (m : Memory) (z : TiledZone) (head : ℕ) : Memory :=
  linkPrev zoneLinks (setWord (setWord m (z.addr + 64) 0) (z.addr + 72) head) head z.addr

/-- Linking a new first zone writes links of zones. -/
theorem agreeOff_pushLinks : AgreeOff (zoneLinkBytes (z :: zs)) m
    (pushLinks m z ((zs.map TiledZone.addr).headD 0)) := by
  refine (agreeOff_ownLinks.mono ?_).trans (agreeOff_linkHead.mono ?_)
  · exact zoneLinkBytes_mono fun w hw => by simp [List.mem_singleton.mp hw]
  · exact zoneLinkBytes_mono fun w hw => List.mem_cons_of_mem _ hw

/-- The list of zones with a new first one. -/
theorem Heap.Rep.segment_pushLinks {m₁ : Memory} (h : s.Rep P zs) (hsp : Zones.Spread P (z :: zs))
    (hm₁ : AgreeOff S s.mem m₁) (hS : ∀ x ∈ S, z.addr ≤ x ∧ x < z.addr + z.len) :
    Segment zoneLinks (pushLinks m₁ z s.gZones) 0 ((z :: zs).map TiledZone.addr) 0 := by
  have hfront : Zones.Spread P ([] ++ z :: zs) := hsp
  have hgz : s.gZones < 2 ^ 64 := by
    have hcons : Placed zoneLinks (2 ^ 64) ([z.addr] ++ zs.map TiledZone.addr) := hsp.placed
    rw [h.head]
    exact hcons.right.headD_lt
  have hseg : Segment zoneLinks (setWord (setWord m₁ (z.addr + 64) 0) (z.addr + 72) s.gZones) 0
      (zs.map TiledZone.addr) 0 := by
    refine links_agreeOff h.links ((hm₁.mono Set.subset_union_left).trans
      (agreeOff_ownLinks.mono Set.subset_union_right)) fun w hw x hx hin => ?_
    have hroom := (hsp.laid w (List.mem_cons_of_mem _ hw)).room
    rcases hx with hx | ⟨v, hv, hx⟩
    · exact hfront.off (by simpa using hw) (hS x hx).1 (hS x hx).2 ⟨by omega, by omega⟩
    · obtain rfl := List.mem_singleton.mp hv
      have hroom' := (hsp.laid v List.mem_cons_self).room
      exact hfront.off (x := x) (by simpa using hw) (by omega) (by omega) ⟨by omega, by omega⟩
  have hpush := hseg.push (b := z.addr) hsp.placed
    (by
      rw [word, zoneLinks_prev, readLE_writeLE_disjoint (by omega)]
      exact readLE_writeLE_same (Nat.two_pow_pos 64))
    (by
      rw [zoneLinks_next, ← h.head]
      exact readLE_writeLE_same hgz)
  rwa [← h.head] at hpush

/-- A zone whose headers are set up becomes the first one. -/
theorem Heap.Rep.push {m₁ : Memory} (h : s.Rep P zs) (hsp : Zones.Spread P (z :: zs))
    (hz : ZoneRep m₁ z) (hm₁ : AgreeOff S s.mem m₁)
    (hS : ∀ x ∈ S, z.addr ≤ x ∧ x < z.addr + z.len) (hv : s.Valid z.addr (P.pageUp z.len)) :
    s.Became P { s.withMem (pushLinks m₁ z s.gZones) with gZones := z.addr } zs (z :: zs) [] := by
  have hfront : Zones.Spread P ([] ++ z :: zs) := hsp
  have hlinks : AgreeOff (zoneLinkBytes (z :: zs)) m₁ (pushLinks m₁ z s.gZones) :=
    h.head ▸ agreeOff_pushLinks
  have hall : AgreeOff (S ∪ zoneLinkBytes (z :: zs)) s.mem (pushLinks m₁ z s.gZones) :=
    (hm₁.mono Set.subset_union_left).trans (hlinks.mono Set.subset_union_right)
  have hother : ∀ w ∈ zs, ∀ x ∈ S, ¬(w.addr ≤ x ∧ x < w.addr + w.len) := fun w hw x hx =>
    hfront.off (by simpa using hw) (hS x hx).1 (hS x hx).2
  exact
    { rep :=
        { head := rfl
          links := h.segment_pushLinks hsp hm₁ hS
          zone := by
            intro w hw
            rcases List.mem_cons.mp hw with rfl | hwz
            · exact hz.frame (hsp.laid w hw) hlinks fun x hx => hsp.own_links hw hx
            · refine (h.zone w hwz).frame (hsp.laid w hw) hall fun x hx hlo hhi => ?_
              rcases hx with hx | hx
              · exact absurd ⟨hlo, hhi⟩ (hother w hwz x hx)
              · exact hsp.own_links hw hx hlo hhi
          mapped := by
            intro w hw
            rcases List.mem_cons.mp hw with rfl | hwz
            · exact hv
            · exact h.mapped w hwz }
      spared := by
        refine spared_of_off hall fun t ht x hx hin => ?_
        obtain ⟨w, hw, htw⟩ := ht
        have hwin := (hsp.laid w (List.mem_cons_of_mem _ hw)).inside (mem_live.mp htw).1
        simp only [headerSize] at hin
        rcases hx with hx | hx
        · exact hother w hw x hx ⟨by omega, by omega⟩
        · have hown := hsp.own_links (List.mem_cons_of_mem _ hw) hx (by omega) (by omega)
          omega
      lock := rfl
      mapped := rfl
      calls := rfl
      wrapped := fun _ => rfl }

/-- `zone_init` sets up a zone in front of the others. -/
theorem Heap.Rep.wp_zoneInit (h : s.Rep P zs) (hsp : Zones.Spread P (fresh type a len :: zs))
    (hv : s.Valid a (P.pageUp len)) :
    wp (zoneInit a type len) (fun _ s' => s.Became P s' zs (fresh type a len :: zs) []) s := by
  have hlaid : (fresh type a len).Laid := hsp.laid _ List.mem_cons_self
  have hroom : 128 ≤ len := by
    have hin := hlaid.inside (t := ⟨a + 80, len - 112, false⟩) List.mem_cons_self
    simp only [fresh_addr, fresh_len] at hin
    omega
  have hsp₀ : Zones.Spread P zs :=
    ⟨fun z hz => hsp.laid z (List.mem_cons_of_mem _ hz), (List.pairwise_cons.mp hsp.apart).2⟩
  have hpage := P.le_pageUp len
  have hva : s.Valid a len := hv.sub (Nat.le_refl _) (by omega)
  rw [zoneInit]
  refine wp_initFields (hva.sub (Nat.le_refl _) (by omega)) hlaid fun s₁ hw₁ hfresh => ?_
  obtain ⟨m₁, rfl, hm₁⟩ := hw₁
  have hvl : ∀ o, o + 8 ≤ 80 → ∀ m, (s.withMem m).Valid (a + o) 8 := fun o ho m =>
    valid_withMem.mpr (hva.sub (by omega) (by omega))
  rw [wp_bind, Zone.setPrev, wp_storeWord (hvl 64 (by omega) m₁), withMem_withMem, withMem_mem,
    wp_bind, wp_getGZones, wp_bind, Zone.setNext, wp_storeWord (hvl 72 (by omega) _), withMem_withMem,
    withMem_mem, withMem_gZones, wp_bind, wp_bind, wp_getGZones, withMem_gZones]
  have hbecame := h.push hsp hfresh hm₁
    (fun x hx => ⟨hx.1, Nat.lt_of_lt_of_le hx.2.1 (by simp only [fresh_addr, fresh_len]; omega)⟩) hv
  by_cases hnil : s.gZones = 0
  · rw [wp_ite_neg (by simp [hnil]), wp_pure, wp_setGZones]
    rwa [pushLinks, linkPrev, if_pos hnil] at hbecame
  · have hvh : ∀ m, (s.withMem m).Valid (s.gZones + 64) 8 := by
      intro m
      rw [valid_withMem, h.head]
      cases zs with
      | nil => exact absurd h.head hnil
      | cons w ws =>
        have := (hsp₀.laid w List.mem_cons_self).room
        exact (h.valid List.mem_cons_self).sub (Nat.le_add_right _ _) (by
          simp only [List.map_cons, List.headD_cons]; omega)
    rw [wp_ite_pos (by exact hnil), wp_bind, wp_getGZones, withMem_gZones, Zone.setPrev,
      wp_storeWord (hvh _), withMem_withMem, withMem_mem, wp_setGZones]
    rwa [pushLinks, linkPrev, if_neg hnil] at hbecame

/-! ## Dropping a zone -/

/-- Relinking the last zone writes links of zones. -/
theorem agreeOff_linkLast {v : ℕ} : AgreeOff (zoneLinkBytes zs) m
    (if (zs.map TiledZone.addr).getLastD 0 = 0 then m
      else setWord m ((zs.map TiledZone.addr).getLastD 0 + 72) v) := by
  split
  · exact AgreeOff.refl _ _
  · rcases List.eq_nil_or_concat zs with rfl | ⟨ws, w, rfl⟩
    · exact absurd rfl ‹_›
    · rw [List.concat_eq_append, List.map_append, List.map_singleton, List.getLastD_concat]
      refine (AgreeOff.refl _ _).write fun x hx hx' => ?_
      exact ⟨w, by simp, by omega, by omega⟩

/-- The links around a zone that is dropped, redirected past it. -/
def dropLinks (m : Memory) (pre post : List TiledZone) : Memory :=
  linkPrev zoneLinks
    (if (pre.map TiledZone.addr).getLastD 0 = 0 then m
      else setWord m ((pre.map TiledZone.addr).getLastD 0 + 72) ((post.map TiledZone.addr).headD 0))
    ((post.map TiledZone.addr).headD 0) ((pre.map TiledZone.addr).getLastD 0)

/-- Redirecting the links writes links of the zones that stay. -/
theorem agreeOff_dropLinks : AgreeOff (zoneLinkBytes (pre ++ post)) m (dropLinks m pre post) := by
  refine (agreeOff_linkLast.mono ?_).trans (agreeOff_linkHead.mono ?_)
  · exact zoneLinkBytes_mono fun w hw => List.mem_append_left _ hw
  · exact zoneLinkBytes_mono fun w hw => List.mem_append_right _ hw

/-- A zone that is linked past and unmapped is gone; the others stay. -/
theorem Heap.Rep.pull (h : s.Rep P (pre ++ z :: post)) (hsp : Zones.Spread P (pre ++ z :: post)) :
    s.Became P (Heap.unmap { s.withMem (dropLinks s.mem pre post) with
        gZones := if (pre.map TiledZone.addr).getLastD 0 = 0 then (post.map TiledZone.addr).headD 0
          else s.gZones } P z.addr z.len)
      (pre ++ z :: post) (pre ++ post) [.munmap z.addr z.len] := by
  have hP := hsp.placed
  rw [List.map_append, List.map_cons] at hP
  have hin : ∀ {w}, w ∈ pre ++ post → w ∈ pre ++ z :: post := Zones.Spread.mem_of_around
  have hagree : AgreeOff (zoneLinkBytes (pre ++ z :: post)) s.mem (dropLinks s.mem pre post) :=
    agreeOff_dropLinks.mono (zoneLinkBytes_mono fun w hw => hin hw)
  exact
    { rep :=
        { head := by
            change (if (pre.map TiledZone.addr).getLastD 0 = 0 then _ else s.gZones) = _
            have hpre : (pre.map TiledZone.addr).getLastD 0 = 0 ↔ pre.map TiledZone.addr = [] :=
              hP.left.getLastD_eq_zero_iff
            rw [List.map_append]
            split
            · next hnil =>
              rw [hpre.mp hnil]
              rfl
            · next hne =>
              rw [h.head, List.map_append]
              cases pre with
              | nil => exact absurd rfl hne
              | cons w ws => rfl
          links := by
            have hlinks := h.links
            rw [List.map_append, List.map_cons] at hlinks
            rw [List.map_append]
            exact hlinks.unlink hP
          zone := fun w hw => (h.zone w (hin hw)).frame (hsp.laid w (hin hw)) hagree
            fun x hx => hsp.own_links (hin hw) hx
          mapped := by
            intro w hw i hi
            have hoff : ¬(z.addr ≤ w.addr + i ∧ w.addr + i < z.addr + P.pageUp z.len) := by
              rcases hsp.around w hw with hwz | hwz <;> omega
            change (!decide (z.addr ≤ w.addr + i ∧ w.addr + i < z.addr + P.pageUp z.len) &&
              s.mapped (w.addr + i)) = true
            rw [decide_eq_false hoff, h.mapped w (hin hw) i hi]
            rfl }
      spared := spared_of_off hagree fun t ht x hx hxt => (hsp.payload_off ht).2 x hx hxt
      lock := rfl
      mapped := rfl
      calls := rfl
      wrapped := fun _ => rfl }

/-- What `free_large_zone` reads of a zone while the links around it change. -/
theorem Heap.Rep.own_words (h : s.Rep P (pre ++ z :: post))
    (hsp : Zones.Spread P (pre ++ z :: post)) (hm : AgreeOff (zoneLinkBytes (pre ++ post)) s.mem m) :
    word m (z.addr + 64) = (pre.map TiledZone.addr).getLastD 0 ∧
      word m (z.addr + 72) = (post.map TiledZone.addr).headD 0 ∧
      word m (z.addr + 24) = z.len - 80 := by
  have hz : z ∈ pre ++ z :: post := by simp
  have hroom := (hsp.laid z hz).room
  have hoff : ∀ x ∈ zoneLinkBytes (pre ++ post), ¬(z.addr ≤ x ∧ x < z.addr + z.len) := by
    rintro x ⟨w, hw, hx⟩ hin
    have := (hsp.laid w (Zones.Spread.mem_of_around hw)).room
    exact hsp.off hw hin.1 hin.2 ⟨by omega, by omega⟩
  have hread {o : ℕ} (ho : o + 8 ≤ 80) : word m (z.addr + o) = word s.mem (z.addr + o) :=
    hm.readLE_eq fun x hx hx' hxS => hoff x hxS ⟨by omega, by omega⟩
  exact ⟨(hread (by omega)).trans h.link_words.1, (hread (by omega)).trans h.link_words.2,
    (hread (by omega)).trans (h.zone z hz).scalars.total⟩

/-- The first half of `free_large_zone`: the link from the predecessor, or `g_zones`. -/
theorem Heap.Rep.wp_unlinkNext (h : s.Rep P (pre ++ z :: post))
    (hsp : Zones.Spread P (pre ++ z :: post)) :
    wp (do
      if (← Zone.getPrev z.addr) ≠ null then
        Zone.setNext (← Zone.getPrev z.addr) (← Zone.getNext z.addr)
      else
        setGZones (← Zone.getNext z.addr)) (fun _ s' => s' =
      { s.withMem (if (pre.map TiledZone.addr).getLastD 0 = 0 then s.mem
          else setWord s.mem ((pre.map TiledZone.addr).getLastD 0 + 72)
            ((post.map TiledZone.addr).headD 0)) with
        gZones := if (pre.map TiledZone.addr).getLastD 0 = 0 then (post.map TiledZone.addr).headD 0
          else s.gZones }) s := by
  rw [wp_bind, h.wp_getPrev hsp]
  by_cases hnil : (pre.map TiledZone.addr).getLastD 0 = 0
  · rw [wp_ite_neg (by simp only [null, hnil]; simp), wp_bind, h.wp_getNext hsp, wp_setGZones,
      if_pos hnil, if_pos hnil]
    rfl
  · have hv : s.Valid ((pre.map TiledZone.addr).getLastD 0 + 72) 8 := by
      rcases List.eq_nil_or_concat pre with rfl | ⟨ws, w, rfl⟩
      · exact absurd rfl hnil
      · have hw : w ∈ ws.concat w ++ z :: post := by simp
        have := (hsp.laid w hw).room
        rw [List.concat_eq_append, List.map_append, List.map_singleton, List.getLastD_concat]
        exact (h.valid hw).sub (by omega) (by omega)
    rw [wp_ite_pos (by exact hnil), wp_bind, h.wp_getPrev hsp, wp_bind, h.wp_getNext hsp,
      Zone.setNext, wp_storeWord hv, if_neg hnil, if_neg hnil]
    rfl

/-- The second half of `free_large_zone`: the link back from the successor. -/
theorem Heap.Rep.wp_unlinkPrev {g : ℕ} (h : s.Rep P (pre ++ z :: post))
    (hsp : Zones.Spread P (pre ++ z :: post)) (hm : AgreeOff (zoneLinkBytes (pre ++ post)) s.mem m) :
    wp (do
      if (← Zone.getNext z.addr) ≠ null then
        Zone.setPrev (← Zone.getNext z.addr) (← Zone.getPrev z.addr)) (fun _ s' => s' =
      { s.withMem (linkPrev zoneLinks m ((post.map TiledZone.addr).headD 0)
          ((pre.map TiledZone.addr).getLastD 0)) with gZones := g })
      { s.withMem m with gZones := g } := by
  have hv := h.valid (by simp : z ∈ pre ++ z :: post)
  have hroom := (hsp.laid z (by simp)).room
  have hvz {o : ℕ} (ho : o + 8 ≤ 80) :
      Heap.Valid { s.withMem m with gZones := g } (z.addr + o) 8 :=
    fun i hi => hv.sub (by omega) (by omega) i hi
  obtain ⟨hprev, hnext, -⟩ := h.own_words hsp hm
  have hgetNext {Q : ℕ → Heap → Prop} :
      wp (Zone.getNext z.addr) Q { s.withMem m with gZones := g } ↔
        Q ((post.map TiledZone.addr).headD 0) { s.withMem m with gZones := g } := by
    rw [Zone.getNext, wp_loadWord (hvz (by omega)), ← hnext]
    rfl
  have hgetPrev {Q : ℕ → Heap → Prop} :
      wp (Zone.getPrev z.addr) Q { s.withMem m with gZones := g } ↔
        Q ((pre.map TiledZone.addr).getLastD 0) { s.withMem m with gZones := g } := by
    rw [Zone.getPrev, wp_loadWord (hvz (by omega)), ← hprev]
    rfl
  rw [wp_bind, hgetNext]
  by_cases hnil : (post.map TiledZone.addr).headD 0 = 0
  · rw [wp_ite_neg (by simp only [null, hnil]; simp), wp_pure, linkPrev, if_pos hnil]
  · have hvn : Heap.Valid { s.withMem m with gZones := g }
        ((post.map TiledZone.addr).headD 0 + 64) 8 := by
      cases post with
      | nil => exact absurd rfl hnil
      | cons w ws =>
        have hw : w ∈ pre ++ z :: w :: ws := by simp
        have := (hsp.laid w hw).room
        exact (h.valid hw).sub (Nat.le_add_right _ _) (by
          simp only [List.map_cons, List.headD_cons]; omega)
    rw [wp_ite_pos (by exact hnil), wp_bind, hgetNext, wp_bind, hgetPrev, Zone.setPrev,
      wp_storeWord hvn, linkPrev, if_neg hnil]
    rfl

/-- `free_large_zone` redirects the links around the zone and unmaps it. -/
theorem Heap.Rep.wp_freeLargeZone_state (h : s.Rep P (pre ++ z :: post))
    (hsp : Zones.Spread P (pre ++ z :: post)) :
    wp (freeLargeZone P z.addr) (fun _ s' => s' =
      Heap.unmap { s.withMem (dropLinks s.mem pre post) with
        gZones := if (pre.map TiledZone.addr).getLastD 0 = 0 then (post.map TiledZone.addr).headD 0
          else s.gZones } P z.addr z.len) s := by
  have hz : z ∈ pre ++ z :: post := by simp
  have hv := h.valid hz
  have hroom := (hsp.laid z hz).room
  have hbound := (hsp.laid z hz).bound
  have htotal := (h.own_words hsp agreeOff_dropLinks).2.2
  rw [freeLargeZone, wp_bind]
  refine wp_mono (h.wp_unlinkNext hsp) ?_
  rintro _ _ rfl
  obtain ⟨m₁, hm₁⟩ : ∃ m₁, m₁ = if (pre.map TiledZone.addr).getLastD 0 = 0 then s.mem
    else setWord s.mem ((pre.map TiledZone.addr).getLastD 0 + 72)
      ((post.map TiledZone.addr).headD 0) := ⟨_, rfl⟩
  have hfront : AgreeOff (zoneLinkBytes (pre ++ post)) s.mem m₁ :=
    hm₁ ▸ agreeOff_linkLast.mono (zoneLinkBytes_mono fun w hw => List.mem_append_left _ hw)
  rw [dropLinks, ← hm₁] at htotal ⊢
  rw [wp_bind]
  refine wp_mono (h.wp_unlinkPrev hsp hfront) ?_
  rintro _ _ rfl
  generalize linkPrev zoneLinks m₁ ((post.map TiledZone.addr).headD 0)
    ((pre.map TiledZone.addr).getLastD 0) = m₂ at htotal ⊢
  have hvt {g : ℕ} : Heap.Valid { s.withMem m₂ with gZones := g } (z.addr + 24) 8 :=
    fun i hi => hv.sub (by omega) (by omega) i hi
  have hlen : z.len - 80 + 80 = z.len := by omega
  rw [wp_bind, Zone.getTotalSpace, wp_loadWord hvt, wp_bind]
  change wp (szAdd (word m₂ (z.addr + 24)) zoneHeaderSize) _ _
  rw [htotal, zoneHeaderSize, wp_szAdd (by omega), hlen, wp_munmap]

/-- `free_large_zone` drops the zone. -/
theorem Heap.Rep.wp_freeLargeZone (h : s.Rep P (pre ++ z :: post))
    (hsp : Zones.Spread P (pre ++ z :: post)) :
    wp (freeLargeZone P z.addr) (fun _ s' => s.Became P s' (pre ++ z :: post) (pre ++ post)
      [.munmap z.addr z.len]) s := by
  refine wp_mono (h.wp_freeLargeZone_state hsp) ?_
  rintro _ _ rfl
  exact h.pull hsp

end FtMalloc
