import FtMalloc.Lib.LinkedList
import FtMalloc.Abstract.TiledZone

/-!
# A zone in memory

`ZoneAt m z num rem bs es` says what a memory holds for the zone `z` in the middle of an
operation: the fields of the zone header, two well-formed lists, and a header for every tile.
The two counters and the two lists need not agree with the tiling yet; in a zone between
operations (`ZoneRep`) they do. Every step of an operation updates one of these components and
writes only header bytes, so the others are framed once, here.
-/

namespace FtMalloc

open HeapLib

/-- Links of a `t_block`. -/
def blockLinks : LinkLayout := ⟨16, 24, 32, by decide, by decide⟩

/-- Links of a `t_zone`. -/
def zoneLinks : LinkLayout := ⟨64, 72, 80, by decide, by decide⟩

@[simp] theorem blockLinks_prev : blockLinks.prev = 16 := rfl
@[simp] theorem blockLinks_next : blockLinks.next = 24 := rfl
@[simp] theorem blockLinks_width : blockLinks.width = 32 := rfl
@[simp] theorem zoneLinks_prev : zoneLinks.prev = 64 := rfl
@[simp] theorem zoneLinks_next : zoneLinks.next = 72 := rfl
@[simp] theorem zoneLinks_width : zoneLinks.width = 80 := rfl

/-- The mutable fields of the zone header at `a`, without its own links, and the headers at `hs`. -/
def headerBytes (a : ℕ) (hs : List ℕ) : Set ℕ :=
  {x | (a + 16 ≤ x ∧ x < a + 64) ∨ ∃ b ∈ hs, b ≤ x ∧ x < b + 32}

/-- More headers are more bytes. -/
theorem headerBytes_mono {a : ℕ} {hs hs' : List ℕ} (h : ∀ b ∈ hs, b ∈ hs') :
    headerBytes a hs ⊆ headerBytes a hs' := by
  rintro x (hx | ⟨b, hb, hx⟩)
  · exact .inl hx
  · exact .inr ⟨b, h b hb, hx⟩

/-- No header at all. -/
theorem headerBytes_nil_subset {a : ℕ} {l : List ℕ} : headerBytes a [] ⊆ headerBytes a l :=
  headerBytes_mono fun _ hb => absurd hb List.not_mem_nil

/-- Where the headers of a zone lie: inside it, in address order, a header apart; each node of the
two lists is one of them, and none is a node of both. -/
structure Geometry (z : TiledZone) (bs es : List ℕ) : Prop where
  pos : 0 < z.addr
  bound : z.addr + z.len < 2 ^ 64
  room : 80 ≤ z.len
  inside : ∀ t ∈ z.tiles, z.addr + 80 ≤ t.addr ∧ t.stop 32 ≤ z.addr + z.len
  spaced : z.headers.Pairwise fun a b => a + 32 ≤ b
  blocks : bs.Sublist z.headers
  empties : es.Sublist z.headers
  disjoint : ∀ b ∈ bs, b ∉ es

/-- The fields of the zone header other than the list heads and the links. -/
structure Scalars (m : Memory) (z : TiledZone) (num rem : ℕ) : Prop where
  start : word m z.addr = z.addr
  stop : word m (z.addr + 8) = z.addr + z.len
  type : readLE m (z.addr + 16) 4 = z.type.code
  num : readLE m (z.addr + 20) 4 = num
  total : word m (z.addr + 24) = z.len - 80
  rem : word m (z.addr + 32) = rem
  cache : word m (z.addr + 40) = z.cache

/-- Size and end of every tile are stored in its header. -/
def DataAt (m : Memory) (ts : List Tile) : Prop :=
  ∀ t ∈ ts, word m t.addr = t.size ∧ word m (t.addr + 8) = t.stop 32

/-- The memory of a zone in the middle of an operation, without its list of empty spaces. -/
structure ZoneCore (m : Memory) (z : TiledZone) (num rem : ℕ) (bs es : List ℕ) : Prop where
  geo : Geometry z bs es
  scalars : Scalars m z num rem
  data : DataAt m z.tiles
  blocks : ListAt blockLinks m (z.addr + 48) bs

/-- The memory of a zone in the middle of an operation. -/
structure ZoneAt (m : Memory) (z : TiledZone) (num rem : ℕ) (bs es : List ℕ) : Prop
    extends ZoneCore m z num rem bs es where
  empties : ListAt blockLinks m (z.addr + 56) es

/-- The memory of a zone between operations. -/
def ZoneRep (m : Memory) (z : TiledZone) : Prop :=
  ZoneAt m z (z.blocks.length % 2 ^ 32) z.remaining z.blocks z.empties

variable {m m' : Memory} {z : TiledZone} {num rem : ℕ} {bs es bs' es' : List ℕ} {S : Set ℕ}

/-! ## Geometry -/

/-- Every header lies inside the zone, behind the zone header. -/
theorem Geometry.header (hg : Geometry z bs es) {a : ℕ} (ha : a ∈ z.headers) :
    z.addr + 80 ≤ a ∧ a + 32 ≤ z.addr + z.len := by
  obtain ⟨t, ht, rfl⟩ := List.mem_map.mp ha
  have := hg.inside t ht
  simp only [Tile.stop] at this
  omega

/-- A sorted list of headers is placed with respect to a cell of the zone header. -/
theorem Geometry.placed (hg : Geometry z bs es) {c : ℕ} {l : List ℕ} (hl : l.Sublist z.headers)
    (hc : c + 8 ≤ z.addr + 64) : Placed blockLinks c l where
  pos := fun a ha => by
    have := hg.header (hl.subset ha)
    have := hg.bound
    omega
  spaced := (hg.spaced.sublist hl).imp fun h => .inl h
  cell := fun a ha => by
    have := hg.header (hl.subset ha)
    omega

/-- Blocks and empty spaces of a laid zone. -/
theorem TiledZone.Laid.geometry (hz : z.Laid) : Geometry z z.blocks z.empties where
  pos := hz.pos
  bound := hz.bound
  room := hz.room
  inside := fun t ht => ⟨(hz.inside ht).1, (hz.inside ht).2.2⟩
  spaced := List.pairwise_map.mpr (hz.tiled.pairwise.imp fun {a b} hab => by
    simp only [Tile.stop, headerSize] at hab
    omega)
  blocks := List.filter_sublist.map _
  empties := List.filter_sublist.map _
  disjoint := by
    intro b hb hb'
    obtain ⟨t, ht, rfl⟩ := List.mem_map.mp hb
    obtain ⟨u, hu, heq⟩ := List.mem_map.mp hb'
    obtain ⟨ht, htu⟩ := mem_useds.mp ht
    obtain ⟨hu, huu⟩ := mem_frees.mp hu
    have htu' := hz.tiled.eq_of_addr_eq (by decide) ht hu heq.symm
    rw [htu', huu] at htu
    exact Bool.false_ne_true htu

/-- No header byte is a payload byte. -/
theorem TiledZone.Laid.payload_off (hz : z.Laid) {t : Tile} (ht : t ∈ z.tiles) {x : ℕ}
    (hx : t.addr + 32 ≤ x) (hx' : x < t.stop 32) : x ∉ headerBytes z.addr z.headers := by
  rintro (hh | ⟨b, hb, hh, hh'⟩)
  · have := (hz.inside ht).1
    omega
  · obtain ⟨u, hu, rfl⟩ := List.mem_map.mp hb
    by_cases hne : t = u
    · subst hne
      omega
    · have := hz.tiled.apart ht hu hne
      simp only [Tile.stop, headerSize] at *
      omega

/-- Distinct headers do not overlap. -/
theorem Geometry.apart (hg : Geometry z bs es) {a b : ℕ} (ha : a ∈ z.headers)
    (hb : b ∈ z.headers) (hne : a ≠ b) : a + 32 ≤ b ∨ b + 32 ≤ a := by
  have hsymm : Std.Symm fun a b : ℕ => a + 32 ≤ b ∨ b + 32 ≤ a := ⟨fun _ _ h => h.symm⟩
  have hp : z.headers.Pairwise fun a b : ℕ => a + 32 ≤ b ∨ b + 32 ≤ a :=
    hg.spaced.imp Or.inl
  exact hp.forall ha hb hne

/-- Lists may be exchanged for other disjoint lists of headers. -/
theorem Geometry.relist (hg : Geometry z bs es) (hb : bs'.Sublist z.headers)
    (he : es'.Sublist z.headers) (hd : ∀ b ∈ bs', b ∉ es') : Geometry z bs' es' :=
  { hg with blocks := hb, empties := he, disjoint := hd }

/-- Tiles that carry no node may be dropped. -/
theorem Geometry.thin (hg : Geometry z bs es) {ts : List Tile} (ht : ts.Sublist z.tiles)
    (hb : bs.Sublist (ts.map Tile.addr)) (he : es.Sublist (ts.map Tile.addr)) :
    Geometry (z.retile ts) bs es where
  pos := hg.pos
  bound := hg.bound
  room := hg.room
  inside := fun t hmem => hg.inside t (ht.subset hmem)
  spaced := hg.spaced.sublist (ht.map _)
  blocks := hb
  empties := he
  disjoint := hg.disjoint

/-- List bytes are header bytes. -/
theorem linkBytes_subset {a c : ℕ} {l hs : List ℕ} (hc : a + 16 ≤ c) (hc' : c + 8 ≤ a + 64)
    (hl : ∀ b ∈ l, b ∈ hs) : linkBytes blockLinks c l ⊆ headerBytes a hs := by
  rintro x (hx | ⟨b, hb, hx, hx'⟩)
  · exact .inl (by omega)
  · simp only [blockLinks_prev, blockLinks_next] at hx hx'
    exact .inr ⟨b, hl b hb, by omega, by omega⟩

/-- The links of one list are off the bytes of a disjoint list. -/
theorem Geometry.linkBytes_off (hg : Geometry z bs es) {c c' : ℕ} {l l' : List ℕ}
    (hl : ∀ b ∈ l, b ∈ z.headers) (hl' : ∀ b ∈ l', b ∈ z.headers) (hd : ∀ b ∈ l, b ∉ l')
    (hc : c + 8 ≤ z.addr + 64) (hc' : c' + 8 ≤ z.addr + 64) (hcc : c + 8 ≤ c' ∨ c' + 8 ≤ c) :
    ∀ x ∈ linkBytes blockLinks c l, x ∉ linkBytes blockLinks c' l' := by
  rintro x (hx | ⟨b, hb, hx, hx'⟩) (hy | ⟨b', hb', hy, hy'⟩)
  · omega
  · have := hg.header (hl' b' hb')
    omega
  · have := hg.header (hl b hb)
    omega
  · have := hg.apart (hl b hb) (hl' b' hb') fun heq => hd b hb (heq ▸ hb')
    simp only [blockLinks_prev, blockLinks_next] at hx hx' hy hy'
    omega

/-! ## Frames -/

/-- Scalars survive changes behind offset 48. -/
theorem Scalars.agreeOff (h : Scalars m z num rem) (hS : AgreeOff S m m')
    (hoff : ∀ x ∈ S, ¬(z.addr ≤ x ∧ x < z.addr + 48)) : Scalars m' z num rem := by
  have hr {o n : ℕ} (ho : o + n ≤ 48) :
      readLE m' (z.addr + o) n = readLE m (z.addr + o) n :=
    hS.readLE_eq fun x hx hx' hxS => hoff x hxS (by omega)
  exact ⟨(hr (o := 0) (by omega)).trans h.start, (hr (by omega)).trans h.stop,
    (hr (by omega)).trans h.type, (hr (by omega)).trans h.num, (hr (by omega)).trans h.total,
    (hr (by omega)).trans h.rem, (hr (by omega)).trans h.cache⟩

/-- Sizes and ends survive changes elsewhere. -/
theorem DataAt.agreeOff {ts : List Tile} (h : DataAt m ts) (hS : AgreeOff S m m')
    (hoff : ∀ x ∈ S, ∀ t ∈ ts, ¬(t.addr ≤ x ∧ x < t.addr + 16)) : DataAt m' ts := by
  intro t ht
  obtain ⟨hsize, hend⟩ := h t ht
  exact ⟨(hS.readLE_eq fun x hx hx' hxS => hoff x hxS t ht (by omega)).trans hsize,
    (hS.readLE_eq fun x hx hx' hxS => hoff x hxS t ht (by omega)).trans hend⟩

/-- List edits keep sizes and ends. -/
theorem Geometry.data_off (hg : Geometry z bs es) {c : ℕ} {l : List ℕ}
    (hl : ∀ b ∈ l, b ∈ z.headers) (hc : c + 8 ≤ z.addr + 64) :
    ∀ x ∈ linkBytes blockLinks c l, ∀ t ∈ z.tiles, ¬(t.addr ≤ x ∧ x < t.addr + 16) := by
  rintro x (hx | ⟨b, hb, hx, hx'⟩) t ht
  · have := hg.inside t ht
    omega
  · simp only [blockLinks_prev, blockLinks_next] at hx hx'
    by_cases hne : b = t.addr
    · omega
    · have := hg.apart (hl b hb) (List.mem_map.mpr ⟨t, ht, rfl⟩) hne
      omega

/-- A change away from the zone header and the tile headers keeps the zone. -/
theorem ZoneAt.agreeOff (h : ZoneAt m z num rem bs es) (hS : AgreeOff S m m')
    (hzone : ∀ x ∈ S, ¬(z.addr ≤ x ∧ x < z.addr + 64))
    (htile : ∀ x ∈ S, ∀ t ∈ z.tiles, ¬(t.addr ≤ x ∧ x < t.addr + 32)) :
    ZoneAt m' z num rem bs es where
  geo := h.geo
  scalars := h.scalars.agreeOff hS fun x hx hx' => hzone x hx (by omega)
  data := h.data.agreeOff hS fun x hx t ht hx' => htile x hx t ht (by omega)
  blocks := h.blocks.agreeOff hS fun x hx hxS => by
    rcases hx with hx | ⟨b, hb, hx, hx'⟩
    · exact hzone x hxS (by omega)
    · obtain ⟨t, ht, rfl⟩ := List.mem_map.mp (h.geo.blocks.subset hb)
      exact htile x hxS t ht ⟨by omega, by simp only [blockLinks_next] at hx'; omega⟩
  empties := h.empties.agreeOff hS fun x hx hxS => by
    rcases hx with hx | ⟨b, hb, hx, hx'⟩
    · exact hzone x hxS (by omega)
    · obtain ⟨t, ht, rfl⟩ := List.mem_map.mp (h.geo.empties.subset hb)
      exact htile x hxS t ht ⟨by omega, by simp only [blockLinks_next] at hx'; omega⟩

/-- A change within the payload of a tile keeps the zone. -/
theorem ZoneAt.writePayload {t : Tile} (h : ZoneAt m z num rem bs es) (hz : z.Laid)
    (ht : t ∈ z.tiles) (hS : AgreeOff S m m') (hin : ∀ x ∈ S, t.addr + 32 ≤ x ∧ x < t.stop 32) :
    ZoneAt m' z num rem bs es := by
  refine h.agreeOff hS (fun x hx hx' => ?_) fun x hx u hu hx' => ?_
  · have hstart := (hz.inside ht).1
    have hpayload := hin x hx
    omega
  · exact hz.payload_off ht (hin x hx).1 (hin x hx).2
      (.inr ⟨u.addr, List.mem_map_of_mem hu, hx'⟩)

/-- The block list may be edited through its own bytes. -/
theorem ZoneAt.relistBlocks (h : ZoneAt m z num rem bs es)
    (hlist : ListAt blockLinks m' (z.addr + 48) bs')
    (hS : AgreeOff (linkBytes blockLinks (z.addr + 48) bs') m m') (hb : bs'.Sublist z.headers)
    (hd : ∀ b ∈ bs', b ∉ es) : ZoneAt m' z num rem bs' es where
  geo := h.geo.relist hb h.geo.empties hd
  scalars := h.scalars.agreeOff hS fun x hx hx' => by
    rcases hx with hx | ⟨b, hb', hx, -⟩
    · omega
    · have := h.geo.header (hb.subset hb')
      omega
  data := h.data.agreeOff hS (h.geo.data_off (fun b hb' => hb.subset hb') (by omega))
  blocks := hlist
  empties := h.empties.agreeOff hS fun x hx hx' =>
    h.geo.linkBytes_off (fun b hb' => hb.subset hb') (fun b hb' => h.geo.empties.subset hb') hd
      (by omega) (by omega) (by omega) x hx' hx

/-- The list of empty spaces may be edited, or set up, through its own bytes. -/
theorem ZoneCore.relistEmpties (h : ZoneCore m z num rem bs es)
    (hlist : ListAt blockLinks m' (z.addr + 56) es')
    (hS : AgreeOff (linkBytes blockLinks (z.addr + 56) es') m m') (he : es'.Sublist z.headers)
    (hd : ∀ b ∈ bs, b ∉ es') : ZoneAt m' z num rem bs es' where
  geo := h.geo.relist h.geo.blocks he hd
  scalars := h.scalars.agreeOff hS fun x hx hx' => by
    rcases hx with hx | ⟨b, hb, hx, -⟩
    · omega
    · have := h.geo.header (he.subset hb)
      omega
  data := h.data.agreeOff hS (h.geo.data_off (fun b hb => he.subset hb) (by omega))
  blocks := h.blocks.agreeOff hS fun x hx hx' =>
    h.geo.linkBytes_off (fun b hb => h.geo.blocks.subset hb) (fun b hb => he.subset hb) hd
      (by omega) (by omega) (by omega) x hx hx'
  empties := hlist

/-- The counters and the cached maximum may be assigned. -/
theorem ZoneAt.rescale (h : ZoneAt m z num rem bs es) {num' rem' c' : ℕ}
    (hS : AgreeOff {x | (z.addr + 20 ≤ x ∧ x < z.addr + 24) ∨
      (z.addr + 32 ≤ x ∧ x < z.addr + 48)} m m')
    (hnum : readLE m' (z.addr + 20) 4 = num') (hrem : word m' (z.addr + 32) = rem')
    (hcache : word m' (z.addr + 40) = c') : ZoneAt m' { z with cache := c' } num' rem' bs es := by
  have htile : ∀ t ∈ z.tiles, z.addr + 80 ≤ t.addr := fun t ht => (h.geo.inside t ht).1
  have hlist {c : ℕ} {l : List ℕ} (hl : ∀ b ∈ l, b ∈ z.headers) (hc : z.addr + 48 ≤ c) :
      ∀ x ∈ linkBytes blockLinks c l, x ∉ {x | (z.addr + 20 ≤ x ∧ x < z.addr + 24) ∨
        (z.addr + 32 ≤ x ∧ x < z.addr + 48)} := by
    rintro x (hx | ⟨b, hb, hx, -⟩) (hx' | hx')
    · omega
    · omega
    · have := h.geo.header (hl b hb)
      omega
    · have := h.geo.header (hl b hb)
      omega
  have hr {o n : ℕ} (ho : o + n ≤ 20 ∨ 24 ≤ o ∧ o + n ≤ 32) :
      readLE m' (z.addr + o) n = readLE m (z.addr + o) n := by
    refine hS.readLE_eq fun x hx hx' hxS => ?_
    rcases hxS with hxS | hxS <;> omega
  exact
    { geo := ⟨h.geo.pos, h.geo.bound, h.geo.room, h.geo.inside, h.geo.spaced, h.geo.blocks,
        h.geo.empties, h.geo.disjoint⟩
      scalars := ⟨(hr (o := 0) (by omega)).trans h.scalars.start,
        (hr (by omega)).trans h.scalars.stop, (hr (by omega)).trans h.scalars.type, hnum,
        (hr (by omega)).trans h.scalars.total, hrem, hcache⟩
      data := h.data.agreeOff hS fun x hx t ht hx' => by
        have := htile t ht
        rcases hx with hx | hx <;> omega
      blocks := h.blocks.agreeOff hS (hlist (fun b hb => h.geo.blocks.subset hb) (by omega))
      empties := h.empties.agreeOff hS (hlist (fun b hb => h.geo.empties.subset hb) (by omega)) }

/-- The bytes of sizes and ends at `ns` and of links at `ks`. -/
def fieldBytes (ns ks : List ℕ) : Set ℕ :=
  {x | (∃ a ∈ ns, a ≤ x ∧ x < a + 16) ∨ ∃ a ∈ ks, a + 16 ≤ x ∧ x < a + 32}

/-- Bytes of fields of other headers are off a list of headers. -/
theorem Geometry.fields_off (hg : Geometry z bs es) {c : ℕ} {l ns ks : List ℕ}
    (hl : ∀ b ∈ l, b ∈ z.headers) (hc : c + 8 ≤ z.addr + 64) (hns : ∀ a ∈ ns, a ∈ z.headers)
    (hks : ∀ a ∈ ks, a ∈ z.headers ∧ a ∉ l) :
    ∀ x ∈ linkBytes blockLinks c l, x ∉ fieldBytes ns ks := by
  have hhead : ∀ a ∈ ns ++ ks, z.addr + 80 ≤ a := by
    intro a ha
    rcases List.mem_append.mp ha with ha | ha
    · exact (hg.header (hns a ha)).1
    · exact (hg.header (hks a ha).1).1
  rintro x (hx | ⟨b, hb, hx, hx'⟩) (⟨a, ha, hxa, hxa'⟩ | ⟨a, ha, hxa, hxa'⟩)
  · have := hhead a (List.mem_append_left _ ha)
    omega
  · have := hhead a (List.mem_append_right _ ha)
    omega
  · simp only [blockLinks_prev, blockLinks_next] at hx hx'
    by_cases hne : a = b
    · omega
    · have := hg.apart (hns a ha) (hl b hb) hne
      omega
  · simp only [blockLinks_prev, blockLinks_next] at hx hx'
    have := hg.apart (hks a ha).1 (hl b hb) fun heq => (hks a ha).2 (heq ▸ hb)
    omega

/-- The tiles may be exchanged: `ns` are the headers whose size and end are written, and `ks` those
outside the block list whose links are. -/
theorem ZoneCore.retile (h : ZoneCore m z num rem bs es) {ts : List Tile} {ns ks : List ℕ}
    (hS : AgreeOff (fieldBytes ns ks) m m') (hg : Geometry (z.retile ts) bs es')
    (hns : ∀ a ∈ ns, a ∈ (z.retile ts).headers)
    (hks : ∀ a ∈ ks, a ∈ (z.retile ts).headers ∧ a ∉ bs)
    (hdata : ∀ t ∈ ts, t ∈ z.tiles ∧ t.addr ∉ ns ∨
      word m' t.addr = t.size ∧ word m' (t.addr + 8) = t.stop 32) :
    ZoneCore m' (z.retile ts) num rem bs es' := by
  have hscal := h.scalars.agreeOff hS fun x hx hx' => by
    rcases hx with ⟨a, ha, hxa, -⟩ | ⟨a, ha, hxa, -⟩
    · have := (hg.header (hns a ha)).1
      simp only [TiledZone.retile_addr] at this
      omega
    · have := (hg.header (hks a ha).1).1
      simp only [TiledZone.retile_addr] at this
      omega
  exact
    { geo := hg
      scalars := ⟨hscal.start, hscal.stop, hscal.type, hscal.num, hscal.total, hscal.rem,
        hscal.cache⟩
      data := by
        intro t ht
        rcases hdata t ht with ⟨hold, hoff⟩ | hnew
        · obtain ⟨hsize, hend⟩ := h.data t hold
          have hth : t.addr ∈ (z.retile ts).headers := List.mem_map.mpr ⟨t, ht, rfl⟩
          have happ : ∀ x, t.addr ≤ x → x < t.addr + 16 → x ∉ fieldBytes ns ks := by
            rintro x hx hx' (⟨a, ha, hxa, hxa'⟩ | ⟨a, ha, hxa, hxa'⟩)
            · have := hg.apart (hns a ha) hth fun heq => hoff (heq ▸ ha)
              omega
            · by_cases hne : a = t.addr
              · omega
              · have := hg.apart (hks a ha).1 hth hne
                omega
          exact ⟨(hS.readLE_eq fun x hx hx' => happ x hx (by omega)).trans hsize,
            (hS.readLE_eq fun x hx hx' => happ x (by omega) (by omega)).trans hend⟩
        · exact hnew
      blocks := h.blocks.agreeOff hS (hg.fields_off (c := z.addr + 48)
        (fun b hb => hg.blocks.subset hb) (by simp) hns hks) }

/-- The tiles may be exchanged, writing sizes and ends only. -/
theorem ZoneAt.retile (h : ZoneAt m z num rem bs es) {ts : List Tile} (ns : List ℕ)
    (hS : AgreeOff (fieldBytes ns []) m m') (hg : Geometry (z.retile ts) bs es)
    (hns : ∀ a ∈ ns, a ∈ (z.retile ts).headers)
    (hdata : ∀ t ∈ ts, t ∈ z.tiles ∧ t.addr ∉ ns ∨
      word m' t.addr = t.size ∧ word m' (t.addr + 8) = t.stop 32) :
    ZoneAt m' (z.retile ts) num rem bs es where
  toZoneCore := h.toZoneCore.retile hS hg hns (fun _ ha => absurd ha List.not_mem_nil) hdata
  empties := h.empties.agreeOff hS (hg.fields_off (c := z.addr + 56)
    (fun b hb => hg.empties.subset hb) (by simp) hns fun _ ha => absurd ha List.not_mem_nil)

end FtMalloc
