import FtMalloc.Properties.Mappings

/-!
# How far zones are filled

A zone of a small class is 128 times as long as the largest block of the class with its header. The
zone header takes its share, though, and `find_zone` asks for room for one more header than the
block needs, so that the last of 128 large blocks may not fit. While a process only calls `malloc`,
for sizes of one class, this is the one way in which a zone is mapped too early, and it happens at
127 blocks.
-/

namespace FtMalloc

open HeapLib TiledZone

/-- The largest data size of a small class. -/
def EType.dataMax : EType → ℕ
  | .tiny => tinyDataMax
  | _ => smallDataMax

/-- All calls of the run are calls of `malloc` for sizes of the class, and the kernel refuses no
mapping. -/
structure Mallocs (type : EType) (tr : List (Transition Heap Event)) : Prop where
  calls : ∀ t ∈ tr, ∀ c r, t.event = .call c r → ∃ size, c = .malloc size ∧ getZoneType size = type
  granted : ∀ t ∈ tr, ∀ len, .mmap len none ∉ t.after.calls

/-- Every zone of the class holds at least the 128 blocks that it is made for. -/
def Filled (type : EType) (s : Heap) : Prop :=
  ∀ v ∈ view s, v.type = type.code → 128 ≤ v.blocks.length

/-- The zone holds 127 blocks, and with a block of `n` bytes more and a header for the rest they do
not fit. -/
def ZoneView.Tight (n : ℕ) (v : ZoneView) : Prop :=
  v.blocks.length = 127 ∧
    v.totalSpace < (v.blocks.map RegionView.size).sum + n + 129 * headerSize

/-- The request is accepted, no zone promises room for it, and a zone of the class is tight. -/
def Squeezed (P : Platform) (type : EType) (s : Heap) (size : ℕ) : Prop :=
  size ≤ P.maxAllocSize ∧ (∀ v ∈ view s, v.promises (roundUp size) = false) ∧
    ∃ v ∈ view s, v.type = type.code ∧ v.Tight (roundUp size)

variable {P : Platform} {s s' s₀ : Heap} {A : Arena P} {kernel : ℕ → Option ℕ} {z z' : TiledZone}
  {zs : List TiledZone} {type : EType} {f : Tile} {n b size : ℕ}

/-! ## Sizes of a class -/

/-- The small classes are not `LARGE`. -/
theorem EType.ne_large (htype : type = .tiny ∨ type = .small) : type ≠ .large := by
  rcases htype with rfl | rfl <;> decide

/-- Rounding does not pass a whole number of grains. -/
theorem roundUp_le {k : ℕ} (hk : alignment ∣ k) (hmax : k ≤ sizeMax - alignment) (hle : size ≤ k) :
    roundUp size ≤ k := by
  rw [roundUp, if_neg (by omega)]
  simp only [alignment] at *
  omega

/-- A size of a small class is rounded within the class. -/
theorem roundUp_class (hl : getZoneType size ≠ .large) :
    getZoneType (roundUp size) = getZoneType size ∧ roundUp size ≤ (getZoneType size).dataMax := by
  have hle := le_roundUp size
  rcases getZoneType_cases size with ⟨hclass, hpos, hmax⟩ | ⟨hclass, hpos, hmax⟩ | ⟨hclass, -⟩
  · have hround : roundUp size ≤ 160 := roundUp_le (by decide) (by decide) hmax
    rw [hclass]
    exact ⟨if_pos ⟨hpos.trans_le hle, hround⟩, hround⟩
  · have hround : roundUp size ≤ 3040 := roundUp_le (by decide) (by decide) hmax
    rw [hclass]
    refine ⟨?_, hround⟩
    rw [getZoneType, if_neg (by simp only [tinyDataMax, alignment]; omega)]
    exact if_pos ⟨hpos.trans_le hle, hround⟩
  · exact absurd hclass hl

/-- With pages of 4096 bytes, a zone of a small class has room for 128 of its largest blocks. -/
theorem Platform.zoneLength_eq (hpage : P.pagesize = 4096) (htype : type = .tiny ∨ type = .small) :
    P.zoneLength type n = 128 * (type.dataMax + headerSize) := by
  rcases htype with rfl | rfl
  · change P.pagesize * 6 % 2 ^ 64 = _
    rw [hpage]
    rfl
  · change P.pagesize * 6 % 2 ^ 64 * 16 % 2 ^ 64 = _
    rw [hpage]
    rfl

/-- The length of a framed zone is that of its class. -/
theorem TiledZone.Framed.len_eq (hz : z.Framed P) (htype : z.type = .tiny ∨ z.type = .small) :
    z.len = P.zoneLength z.type n := by
  rcases hz.sized with ⟨ht, hlen⟩ | ⟨ht, hlen⟩ | ht
  · rw [hlen, ht]
    rfl
  · rw [hlen, ht]
    rfl
  · exact absurd ht (EType.ne_large htype)

/-! ## Zones that are filled from the front -/

/-- A zone from which nothing was ever given back: it has one empty space and blocks of the class,
or it was filled up by at least 128 blocks. -/
inductive Packed (type : EType) (z : TiledZone) : Prop
  | room {f : Tile} (hfrees : frees z.tiles = [f])
      (hused : ∀ t ∈ useds z.tiles, t.size ≤ type.dataMax)
  | full (hfrees : frees z.tiles = []) (hcount : 128 ≤ (useds z.tiles).length)

/-- The space of a zone with one empty space. -/
theorem TiledZone.Laid.space (hz : z.Laid) (hfrees : frees z.tiles = [f]) :
    f.size + ((useds z.tiles).map Tile.size).sum + ((useds z.tiles).length + 1) * headerSize =
      z.len - zoneHeaderSize := by
  have hspace := hz.remaining_add_occupied
  have hremaining : z.remaining = f.size + headerSize := by
    rw [remaining, hfrees]
    rfl
  have hoccupied : occupied headerSize z.tiles =
      ((useds z.tiles).map Tile.size).sum + (useds z.tiles).length * headerSize := by
    rw [occupied, List.sum_map_add, List.map_const', List.sum_replicate, smul_eq_mul]
  rw [Nat.succ_mul]
  omega

/-- The cached maximum of a zone with one empty space. -/
theorem TiledZone.WellFormed.cache_eq (hz : z.WellFormed P) (hfrees : frees z.tiles = [f]) :
    z.cache = f.size := by
  rw [hz.cache (by rw [hfrees]; exact List.cons_ne_nil _ _), hfrees]
  exact Nat.max_zero _

/-- Blocks of a class are together at most that many times as long as the largest one. -/
theorem sum_size_le {ts : List Tile} {k : ℕ} (hts : ∀ t ∈ ts, t.size ≤ k) :
    (ts.map Tile.size).sum ≤ ts.length * k := by
  have hsum := List.sum_le_card_nsmul (ts.map Tile.size) k fun n hn => by
    obtain ⟨t, ht, rfl⟩ := List.mem_map.mp hn
    exact hts t ht
  rwa [List.length_map, smul_eq_mul] at hsum

/-- The room of a small class in a zone of 4096-byte pages. -/
theorem TiledZone.Framed.space (hz : z.Framed P) (hpage : P.pagesize = 4096)
    (htype : z.type = .tiny ∨ z.type = .small) :
    z.len - zoneHeaderSize = 128 * (z.type.dataMax + headerSize) - zoneHeaderSize := by
  rw [hz.len_eq htype (n := 0), P.zoneLength_eq hpage htype]

/-- When a block of `d` bytes more, a header for it and one for the rest use up the room of a small
class, there are at least 127 blocks. -/
theorem le_count_of_tight {d k total : ℕ} (htype : type = .tiny ∨ type = .small)
    (hd : d ≤ type.dataMax) (hsum : total ≤ k * type.dataMax)
    (hspace : 128 * (type.dataMax + headerSize) - zoneHeaderSize ≤ total + d + (k + 2) * headerSize) :
    127 ≤ k := by
  rcases htype with rfl | rfl
  · simp only [EType.dataMax, tinyDataMax, alignment, headerSize, zoneHeaderSize] at *
    omega
  · simp only [EType.dataMax, smallDataMax, tinyDataMax, alignment, headerSize, zoneHeaderSize] at *
    omega

/-- Taking a block from the only empty space of a zone leaves the other blocks. -/
theorem TiledZone.alloc_of_frees_eq (hc : Coalesced z.tiles) (hfrees : frees z.tiles = [f])
    (h : z.alloc n = some (b, z')) : frees z'.tiles = frees (carve headerSize minSplitSize n f) ∧
      ∃ pre post, useds z.tiles = pre ++ post ∧
        useds z'.tiles = pre ++ (useds (carve headerSize minSplitSize n f) ++ post) := by
  rw [TiledZone.alloc, Option.map_eq_some_iff] at h
  obtain ⟨⟨pre, t, post⟩, hcut, heq⟩ := h
  cases heq
  obtain ⟨ht, hp, -⟩ := cutAt_eq_some.mp hcut
  simp only [Bool.and_eq_true, Bool.not_eq_true', decide_eq_true_eq] at hp
  have hparts := hfrees
  rw [ht, frees_append, frees_cons, if_neg (by simp [hp.1])] at hparts
  have hlen := congrArg List.length hparts
  rw [List.length_append, List.length_cons, List.length_singleton] at hlen
  have hpre : frees pre = [] := List.length_eq_zero_iff.mp (by omega)
  have hpost : frees post = [] := List.length_eq_zero_iff.mp (by omega)
  rw [hpre, hpost] at hparts
  obtain rfl : t = f := List.singleton_inj.mp hparts
  refine ⟨?_, useds pre, useds post, ?_, useds_splice ..⟩
  · rw [splice_of_coalesced (coalesced_carve (ht ▸ hc) hp.1), refresh_tiles, retile_tiles,
      frees_append, frees_append, hpre, hpost, List.nil_append, List.append_nil]
  · rw [ht, useds_append, useds_cons, if_neg (by simp [hp.1])]

/-- Taking a block keeps the class of a zone. -/
theorem TiledZone.type_of_alloc (h : z.alloc n = some (b, z')) : z'.type = z.type := by
  rw [TiledZone.alloc, Option.map_eq_some_iff] at h
  obtain ⟨⟨pre, t, post⟩, -, heq⟩ := h
  cases heq
  exact splice_type ..

/-- Taking a block from a packed zone with room for a header more leaves it packed. -/
theorem Packed.alloc (hz : z.Framed P) (hc : Coalesced z.tiles) (hpage : P.pagesize = 4096)
    (htype : z.type = .tiny ∨ z.type = .small) (hpacked : Packed z.type z) (hn : alignment ∣ n)
    (hmax : n ≤ z.type.dataMax) (hroom : ∀ f ∈ frees z.tiles, n + headerSize ≤ f.size)
    (h : z.alloc n = some (b, z')) : Packed z.type z' := by
  cases hpacked with
  | full hfrees => exact absurd hfrees (Arena.frees_ne_nil_of_alloc h)
  | @room f hfrees hused =>
    have hf : f ∈ frees z.tiles := hfrees ▸ List.mem_singleton_self f
    obtain ⟨hfrees', pre, post, hold, hnew⟩ := alloc_of_frees_eq hc hfrees h
    rw [useds_carve] at hnew
    by_cases hrest : f.size - n < minSplitSize
    · -- sizes are whole grains, so that the rest is exactly the header that was asked for
      have hcount := le_count_of_tight htype hmax (sum_size_le hused) (by
        have hgrain := (hz.laid.grain f (mem_frees.mp hf).1).2
        have := hroom f hf
        rw [← hz.space hpage htype, ← hz.laid.space hfrees]
        simp only [alignment, headerSize, minSplitSize] at *
        omega)
      refine .full (by rw [hfrees', frees_carve, if_pos hrest]) ?_
      rw [hold] at hcount
      rw [hnew]
      simp only [List.length_append, List.length_singleton] at hcount ⊢
      omega
    · refine .room (by rw [hfrees', frees_carve, if_neg hrest]) fun u hu => ?_
      rw [hnew, if_neg hrest] at hu
      rcases List.mem_append.mp hu with hu | hu
      · exact hused u (hold ▸ List.mem_append_left _ hu)
      · rcases List.mem_cons.mp hu with rfl | hu
        · exact hmax
        · exact hused u (hold ▸ List.mem_append_right _ hu)

/-- The cached maximum of a packed zone is the size of its empty space. -/
theorem Packed.cache_eq (hz : z.WellFormed P) (hpacked : Packed type z) (hf : f ∈ frees z.tiles) :
    z.cache = f.size := by
  cases hpacked with
  | full hfrees => exact absurd hf (hfrees ▸ List.not_mem_nil)
  | room hfrees hused =>
    rw [hz.cache_eq hfrees]
    rw [hfrees] at hf
    rw [List.mem_singleton.mp hf]

/-- A packed zone that does not promise room holds 128 blocks unless it is tight. -/
theorem Packed.filled_iff (hz : z.WellFormed P) (hpage : P.pagesize = 4096)
    (htype : z.type = .tiny ∨ z.type = .small) (hpacked : Packed z.type z)
    (hmax : n ≤ z.type.dataMax) (hcache : z.cache < n + headerSize) :
    128 ≤ (ZoneView.ofZone z).blocks.length ↔ ¬(ZoneView.ofZone z).Tight n := by
  have hlen : (ZoneView.ofZone z).blocks.length = (useds z.tiles).length := List.length_map _
  have hsum : (ZoneView.ofZone z).blocks.map RegionView.size = (useds z.tiles).map Tile.size :=
    List.map_map
  rw [ZoneView.Tight, hlen, hsum]
  cases hpacked with
  | full hfrees hcount => exact iff_of_true hcount fun htight => by omega
  | @room f hfrees hused =>
    have hspace := hz.laid.space hfrees
    have hlargest := hz.cache_eq hfrees
    have hcount := le_count_of_tight htype hmax (sum_size_le hused) (by
      rw [← hz.space hpage htype, ← hspace]
      simp only [headerSize] at *
      omega)
    change _ ↔ ¬(_ ∧ z.len - zoneHeaderSize < _)
    rw [← hspace]
    simp only [headerSize] at *
    omega

/-- A fresh zone is packed. -/
theorem packed_fresh {a len : ℕ} : Packed type (fresh type a len) :=
  .room rfl fun _ ht => absurd ht List.not_mem_nil

/-! ## Runs of `malloc` -/

/-- All zones are of the class and packed. -/
def AllPacked (type : EType) (zs : List TiledZone) : Prop :=
  ∀ z ∈ zs, z.type = type ∧ Packed type z

/-- Replacing a zone by a packed one of the class keeps all zones packed. -/
theorem AllPacked.replace {pre post : List TiledZone} (hall : AllPacked type (pre ++ z :: post))
    (htype : z'.type = type) (hpacked : Packed type z') : AllPacked type (pre ++ z' :: post) := by
  intro w hw
  rcases List.mem_append.mp hw with hw | hw
  · exact hall w (List.mem_append_left _ hw)
  · rcases List.mem_cons.mp hw with rfl | hw
    · exact ⟨htype, hpacked⟩
    · exact hall w (List.mem_append_right _ (List.mem_cons_of_mem _ hw))

/-- The block of a fresh zone leaves it packed. -/
theorem packed_alloc_fresh {a : ℕ} (hpage : P.pagesize = 4096)
    (htype : getZoneType n = .tiny ∨ getZoneType n = .small) (hn : alignment ≤ n ∧ alignment ∣ n)
    (hmax : n ≤ (getZoneType n).dataMax)
    (hfresh : (fresh (getZoneType n) a (P.zoneLength (getZoneType n) n)).Framed P)
    (h : (fresh (getZoneType n) a (P.zoneLength (getZoneType n) n)).alloc n = some (b, z)) :
    Packed (getZoneType n) z := by
  refine Packed.alloc hfresh (List.IsChain.singleton _) hpage htype packed_fresh hn.2 hmax ?_ h
  intro f hf
  obtain rfl := List.mem_singleton.mp hf
  rw [P.zoneLength_eq hpage htype]
  simp only [headerSize, zoneHeaderSize]
  omega

/-- An allocation for the class keeps all zones packed. -/
theorem Arena.Allocated.allPacked {o : Outcome} (h : A.Allocated kernel n o)
    (hk : Zones.KernelFresh P A.zones kernel) (hpage : P.pagesize = 4096)
    (htype : getZoneType n = .tiny ∨ getZoneType n = .small) (hn : alignment ≤ n ∧ alignment ∣ n)
    (hmax : n ≤ (getZoneType n).dataMax) (hall : AllPacked (getZoneType n) A.zones) :
    AllPacked (getZoneType n) o.zones := by
  cases h with
  | @found pre post z z' b hsearch halloc =>
    obtain ⟨heq, hclass, -, hcache⟩ := Arena.search_eq_some hsearch
    have hz : z ∈ A.zones := by simp [heq]
    have hwf := A.wf z hz
    have hpacked := (hall z hz).2
    rw [heq] at hall
    rw [← hclass] at htype hmax hpacked hall ⊢
    refine hall.replace (type_of_alloc halloc) ?_
    refine hpacked.alloc hwf.toFramed hwf.coalesced hpage htype hn.2 hmax (fun f hf => ?_) halloc
    rwa [← hpacked.cache_eq hwf hf]
  | full => exact hall
  | huge => exact hall
  | refused => exact hall
  | @mapped a b z hsearch hans hgrain halloc =>
    obtain ⟨hlen, hbase, hpos, hbound, -⟩ := hk _ a hans
    have hpacked := packed_alloc_fresh hpage htype hn hmax
      (framed_fresh hn hlen hbase hpos hbound) halloc
    intro w hw
    rcases List.mem_cons.mp hw with rfl | hw
    · exact ⟨type_of_alloc halloc, hpacked⟩
    · exact hall w hw

/-- `malloc` for the class keeps all zones packed. -/
theorem Arena.allPacked_malloc (hk : Zones.KernelFresh P A.zones kernel) (hpage : P.pagesize = 4096)
    (htype : getZoneType size = .tiny ∨ getZoneType size = .small)
    (hall : AllPacked (getZoneType size) A.zones) :
    AllPacked (getZoneType size) (Zones.malloc P kernel size A.zones).zones := by
  have hl := EType.ne_large htype
  rw [Zones.malloc, Zones.mallocWithin]
  split
  · exact hall
  · next hok =>
    obtain ⟨hclass, hmax⟩ := roundUp_class hl
    have hgrain := grainSize_roundUp (n := size) (by omega)
    rw [← hclass] at hl htype hmax hall ⊢
    exact (A.allocate_cases hk hgrain).allPacked hk hpage htype (Arena.grain_of_class hgrain hl)
      hmax hall

/-- The state holds an arena with packed zones only. -/
def HoldsPacked (P : Platform) (type : EType) (s : Heap) : Prop :=
  ∃ A : Arena P, Holds s A ∧ AllPacked type A.zones

/-- A call of `malloc` for the class, or a store of the client, keeps the zones packed. -/
theorem HoldsPacked.step {e : Event} (hpage : P.pagesize = 4096)
    (htype : type = .tiny ∨ type = .small)
    (hcall : ∀ c r, e = .call c r → ∃ size, c = .malloc size ∧ getZoneType size = type)
    (h : HoldsPacked P type s) (hstep : Step P s e s') : HoldsPacked P type s' := by
  obtain ⟨A, hA, hall⟩ := h
  cases hstep with
  | call c hin hk hrun =>
    obtain ⟨size, rfl, rfl⟩ := hcall _ _ rfl
    obtain ⟨-, -, A', hA', hzones⟩ := (wp_of_run hrun).mp (hA.wp_outcome hk (.malloc size))
    refine ⟨A', hA', hzones ▸ ?_⟩
    exact Arena.allPacked_malloc (hA.rep.kernelFresh A.spread hk) hpage htype hall
  | store v hlive hx => exact ⟨A, hA.store v hlive hx, hall⟩

/-- In a run of `malloc` for the class, the zones are packed before every step. -/
theorem Mallocs.holdsPacked {tr : List (Transition Heap Event)} (hm : Mallocs type tr)
    (hpage : P.pagesize = 4096) (htype : type = .tiny ∨ type = .small) (hstart : Start s₀)
    (hrun : Run (Step P) s₀ tr s) :
    ∀ t ∈ tr, HoldsPacked P type t.before ∧ Step P t.before t.event t.after :=
  hrun.invariant_before ⟨Arena.empty P, hstart.holds, fun _ hz => absurd hz List.not_mem_nil⟩
    fun t ht h hstep => h.step hpage htype (hm.calls t ht) hstep

/-! ## Zones that are mapped too early -/

/-- When no zone promises room, the zones of the class are filled unless one is tight. -/
theorem Holds.filled_iff (h : Holds s A) (hpage : P.pagesize = 4096)
    (htype : type = .tiny ∨ type = .small) (hclass : getZoneType n = type) (hmax : n ≤ type.dataMax)
    (hall : AllPacked type A.zones) (hnone : ∀ v ∈ view s, v.promises n = false) :
    Filled type s ↔ ¬∃ v ∈ view s, v.type = type.code ∧ v.Tight n := by
  have hzone : ∀ v ∈ view s, v.type = type.code → (128 ≤ v.blocks.length ↔ ¬ v.Tight n) := by
    intro v hv hcode
    obtain ⟨z, hz, rfl⟩ := (h.rep.mem_view A.spread).mp hv
    obtain ⟨rfl, hpacked⟩ := hall z hz
    refine hpacked.filled_iff (A.wf z hz) hpage htype hmax (Nat.not_le.mp ?_)
    have hcache := hnone _ hv
    rwa [ZoneView.promises, hclass, decide_eq_true hcode, Bool.true_and,
      decide_eq_false_iff_not] at hcache
  constructor
  · rintro hfilled ⟨v, hv, hcode, htight⟩
    exact (hzone v hv hcode).mp (hfilled v hv hcode) htight
  · intro htight v hv hcode
    exact (hzone v hv hcode).mpr fun hv' => htight ⟨v, hv, hcode, hv'⟩

/-- An allocation that needs a zone and is refused it records the refusal. -/
theorem Arena.Allocated.calls_of_refused {o : Outcome} (h : A.Allocated kernel n o)
    (hclass : getZoneType n ≠ .large) (hsearch : Zones.search (getZoneType n) n A.zones = none)
    (hans : kernel (P.zoneLength (getZoneType n) n) = none) :
    o.calls = [.mmap (P.zoneLength (getZoneType n) n) none] := by
  cases h with
  | found hfound => exact absurd (hsearch.symm.trans hfound) (by simp)
  | full hfound => exact absurd (hsearch.symm.trans hfound) (by simp)
  | huge _ hl => exact absurd hl hclass
  | refused => rfl
  | mapped _ hgrant => exact absurd (hans.symm.trans hgrant) (by simp)

/-- When the kernel refuses nothing, an accepted size that no zone promises room for maps. -/
theorem Holds.mapped_iff_of_granted {r : ℕ} (h : Holds s A) (hk : s.KernelOk P kernel)
    (hclass : getZoneType (roundUp size) ≠ .large)
    (hrun : (Call.malloc size).run P kernel s = some (r, s'))
    (hgranted : ∀ len, .mmap len none ∉ s'.calls) : Mapped s s' ↔
      size ≤ P.maxAllocSize ∧ ∀ v ∈ view s, v.promises (roundUp size) = false := by
  obtain ⟨-, hbecame, -⟩ := (wp_of_run hrun).mp (h.wp_outcome hk (.malloc size))
  rw [hbecame.mapped_iff, Call.outcome, h.mallocWithin_maps_iff hk P.maxAllocSize hclass]
  refine and_congr_right fun hmax => and_iff_right_of_imp fun hnone hans => ?_
  have hpos := pos_of_small hclass
  have hrefused := (A.allocate_cases (h.rep.kernelFresh A.spread hk)
    (grainSize_roundUp hpos)).calls_of_refused hclass ((h.search_eq_none_iff hclass).mpr hnone) hans
  have hcalls := hbecame.calls
  rw [Call.outcome, Zones.malloc, Zones.mallocWithin, if_neg (by omega), hrefused] at hcalls
  refine hgranted (P.zoneLength (getZoneType (roundUp size)) (roundUp size)) ?_
  rw [hcalls]
  exact List.mem_cons_self

/-- A zone is mapped only when all zones of the class are filled exactly when the request is not
squeezed. -/
theorem Holds.malloc_filled_iff {r : ℕ} (h : Holds s A) (hk : s.KernelOk P kernel)
    (hpage : P.pagesize = 4096) (htype : getZoneType size = .tiny ∨ getZoneType size = .small)
    (hall : AllPacked (getZoneType size) A.zones)
    (hrun : (Call.malloc size).run P kernel s = some (r, s'))
    (hgranted : ∀ len, .mmap len none ∉ s'.calls) :
    (Mapped s s' → Filled (getZoneType size) s) ↔ ¬ Squeezed P (getZoneType size) s size := by
  have hl := EType.ne_large htype
  obtain ⟨hclass, hmax⟩ := roundUp_class hl
  rw [h.mapped_iff_of_granted hk (hclass ▸ hl) hrun hgranted, Squeezed, ← and_assoc, not_and]
  exact imp_congr_right fun hmaps => h.filled_iff hpage htype hclass hmax hall hmaps.2

/-! ## Filling a zone -/

/-- The zones after `k` calls of `malloc`, each with a kernel that would map far behind the others. -/
def Zones.pour (size : ℕ) : ℕ → List TiledZone
  | 0 => []
  | k + 1 =>
    (Zones.malloc .unlimited (kernelAt (65536 + k * 2 ^ 33)) size (Zones.pour size k)).zones

/-- A run of `malloc` for the class that has mapped nothing from `a` on. -/
structure Poured (type : EType) (a : ℕ) (tr : List (Transition Heap Event)) (s : Heap)
    (A : Arena .unlimited) : Prop where
  run : Run (Step .unlimited) Heap.blank tr s
  mallocs : Mallocs type tr
  holds : Holds s A
  far : ∀ x, a ≤ x → s.mapped x = false
  granted : ∀ len, .mmap len none ∉ s.calls

/-- One more call of `malloc` that is refused no mapping. -/
theorem Mallocs.snoc {tr : List (Transition Heap Event)} {r : ℕ} (hm : Mallocs type tr)
    (hclass : getZoneType size = type) (hgranted : ∀ len, .mmap len none ∉ s'.calls) :
    Mallocs type (tr ++ [⟨s, .call (.malloc size) r, s'⟩]) := by
  constructor
  · intro t ht
    rcases List.mem_append.mp ht with ht | ht
    · exact hm.calls t ht
    · obtain rfl := List.mem_singleton.mp ht
      rintro c r' heq
      cases heq
      exact ⟨size, rfl, hclass⟩
  · intro t ht
    rcases List.mem_append.mp ht with ht | ht
    · exact hm.granted t ht
    · obtain rfl := List.mem_singleton.mp ht
      exact hgranted

/-- A kernel that grants the zone refuses nothing. -/
theorem Arena.not_refused (hk : Zones.KernelFresh P A.zones kernel) (len : ℕ)
    (hgrant : kernel (P.zoneLength (getZoneType (roundUp size)) (roundUp size)) ≠ none) :
    .mmap len none ∉ (Zones.malloc P kernel size A.zones).calls := by
  rw [Zones.malloc, Zones.mallocWithin]
  split
  · exact List.not_mem_nil
  · have hcases := A.allocate_cases hk (grainSize_roundUp (n := size) (by omega))
    generalize Zones.allocate P kernel (roundUp size) A.zones = o at hcases
    cases hcases with
    | found => exact List.not_mem_nil
    | full => exact List.not_mem_nil
    | huge => exact List.not_mem_nil
    | refused _ hans => exact absurd hans hgrant
    | mapped => simp

/-- One more call of `malloc` in such a run. -/
theorem Poured.call {a : ℕ} {tr : List (Transition Heap Event)} {A : Arena .unlimited}
    (h : Poured type a tr s A) (size : ℕ) (hpage : 4096 ∣ a) (hpos : 0 < a) (hbound : a < 2 ^ 63)
    (htype : type = .tiny ∨ type = .small) (hclass : getZoneType size = type) :
    ∃ r s' A', Poured type (a + 2 ^ 33) (tr ++ [⟨s, .call (.malloc size) r, s'⟩]) s' A' ∧
      A'.zones = (Zones.malloc .unlimited (kernelAt a) size A.zones).zones ∧
      (Mapped s s' ↔ (Zones.malloc .unlimited (kernelAt a) size A.zones).Maps) := by
  have hk : s.KernelOk .unlimited (kernelAt a) := kernelOk_kernelAt hpage hpos hbound h.far
  have hl : getZoneType size ≠ .large := hclass ▸ EType.ne_large htype
  have hsize : size < 2 ^ 64 := by
    have := le_roundUp size
    rcases getZoneType_cases size with ⟨-, -, _⟩ | ⟨-, -, _⟩ | ⟨h, -⟩
    · omega
    · omega
    · exact absurd h hl
  have hgrant : kernelAt a (Platform.unlimited.zoneLength (getZoneType (roundUp size))
      (roundUp size)) ≠ none := by
    rw [(roundUp_class hl).1, hclass, Platform.zoneLength_eq rfl htype, kernelAt, if_pos]
    · exact Option.some_ne_none a
    · rcases htype with rfl | rfl <;> decide
  obtain ⟨r, s', A', hstep, hA', hzones, hbecame, hmapped⟩ :=
    h.holds.exists_call (c := .malloc size) hsize hk
  have hgranted : ∀ len, .mmap len none ∉ s'.calls := by
    intro len hmem
    rw [hbecame.calls] at hmem
    rcases List.mem_append.mp hmem with hmem | hmem
    · exact Arena.not_refused (h.holds.rep.kernelFresh A.spread hk) len hgrant hmem
    · exact h.granted len hmem
  have hfar : ∀ x, a + 2 ^ 33 ≤ x → s'.mapped x = false := by
    intro x hx
    refine Bool.eq_false_iff.mpr fun htrue => ?_
    obtain hold | ⟨len, b, hans, -, hlt⟩ := hmapped x htrue
    · rw [h.far x (by omega)] at hold
      cases hold
    · have hend := lt_of_kernelAt hans hlt
      change x < a + 2 ^ 32 + 4096 at hend
      omega
  exact ⟨r, s', A', ⟨h.run.snoc hstep, h.mallocs.snoc hclass hgranted, hA', hfar, hgranted⟩, hzones,
    hbecame.mapped_iff⟩

/-- Such a run of `k` calls. -/
theorem exists_poured (size : ℕ) (htype : type = .tiny ∨ type = .small)
    (hclass : getZoneType size = type) {k : ℕ} (hk : k ≤ 2 ^ 29) : ∃ tr s A,
      Poured type (65536 + k * 2 ^ 33) tr s A ∧ A.zones = Zones.pour size k := by
  induction k with
  | zero =>
    refine ⟨[], _, Arena.empty .unlimited, ⟨.nil, ⟨?_, ?_⟩, Start.holds ⟨rfl, rfl, rfl, rfl⟩,
      fun _ _ => rfl, fun _ => List.not_mem_nil⟩, rfl⟩
    · exact fun _ ht => absurd ht List.not_mem_nil
    · exact fun _ ht => absurd ht List.not_mem_nil
  | succ k ih =>
    obtain ⟨tr, s, A, h, hzones⟩ := ih (by omega)
    obtain ⟨r, s', A', h', hzones', -⟩ := h.call size
      (Nat.dvd_add (by decide) (Dvd.dvd.mul_left (by decide) k)) (by omega) (by omega) htype hclass
    rw [Nat.succ_mul, ← Nat.add_assoc]
    refine ⟨_, s', A', h', ?_⟩
    rw [hzones', hzones]
    rfl

/-- A zone is mapped too early when the call after 127 others maps one and a zone of the class has
less than 128 blocks. -/
theorem exists_early (size len a : ℕ) (htype : type = .tiny ∨ type = .small)
    (hclass : getZoneType size = type)
    (hearly : .mmap len (some a) ∈ (Zones.malloc .unlimited (kernelAt (65536 + 127 * 2 ^ 33)) size
      (Zones.pour size 127)).calls ∧
      ∃ z ∈ Zones.pour size 127, z.type = type ∧ (useds z.tiles).length < 128) :
    ∃ s₀ tr s, Start s₀ ∧ Run (Step .unlimited) s₀ tr s ∧ Mallocs type tr ∧
      ¬ ∀ t ∈ tr, ∀ size r, t.event = .call (.malloc size) r →
        Mapped t.before t.after → Filled type t.before := by
  obtain ⟨hmaps, z, hz, hztype, hfew⟩ := hearly
  obtain ⟨tr, s, A, h, hzones⟩ := exists_poured size htype hclass (k := 127) (by decide)
  obtain ⟨r, s', A', h', -, hmapped⟩ :=
    h.call size (by decide) (by decide) (by decide) htype hclass
  refine ⟨_, _, s', ⟨rfl, rfl, rfl, rfl⟩, h'.run, h'.mallocs, fun hall => ?_⟩
  rw [hzones] at hmapped
  have hfilled := hall _ (List.mem_append_right _ (List.mem_singleton_self _)) size r rfl
    (hmapped.mpr ⟨len, a, hmaps⟩) (.ofZone z)
    ((h.holds.rep.mem_view A.spread).mpr ⟨z, hzones ▸ hz, rfl⟩) (congrArg EType.code hztype)
  have hlen : (ZoneView.ofZone z).blocks.length = (useds z.tiles).length := List.length_map _
  omega

/-- The 128th block of 160 bytes, or of 3040 bytes, gets a second zone while the first one holds
127. -/
theorem zones_filled_counterexample :
    (∃ s₀ tr s, Start s₀ ∧ Run (Step .unlimited) s₀ tr s ∧ Mallocs .tiny tr ∧
      ¬ ∀ t ∈ tr, ∀ size r, t.event = .call (.malloc size) r →
        Mapped t.before t.after → Filled .tiny t.before) ∧
    ∃ s₀ tr s, Start s₀ ∧ Run (Step .unlimited) s₀ tr s ∧ Mallocs .small tr ∧
      ¬ ∀ t ∈ tr, ∀ size r, t.event = .call (.malloc size) r →
        Mapped t.before t.after → Filled .small t.before := by
  constructor
  · exact exists_early 160 24576 (65536 + 127 * 2 ^ 33) (.inl rfl) rfl (by decide +kernel)
  · exact exists_early 3040 393216 (65536 + 127 * 2 ^ 33) (.inr rfl) rfl (by decide +kernel)

/-- In every run from the start that only calls `malloc` for sizes of one small class, with pages of
4096 bytes and no mapping refused, a call maps a zone only when every zone of the class holds at
least 128 blocks, exactly when the call is not squeezed. -/
theorem zones_filled {tr : List (Transition Heap Event)} (hpage : P.pagesize = 4096)
    (htype : type = .tiny ∨ type = .small) (hstart : Start s₀) (hrun : Run (Step P) s₀ tr s)
    (hm : Mallocs type tr) : ∀ t ∈ tr, ∀ size r, t.event = .call (.malloc size) r →
      ((Mapped t.before t.after → Filled type t.before) ↔ ¬ Squeezed P type t.before size) := by
  intro t ht size r hevent
  obtain ⟨⟨A, hA, hall⟩, hstep⟩ := hm.holdsPacked hpage htype hstart hrun t ht
  obtain ⟨n, heq, rfl⟩ := hm.calls t ht _ _ hevent
  cases heq
  rw [hevent] at hstep
  cases hstep with
  | call c hin hk hcall =>
    exact hA.malloc_filled_iff hk hpage htype hall hcall (hm.granted t ht)

/-- The first request for 160 bytes maps a zone when there is none. -/
theorem zones_filled_witness : ∃ tr s, Run (Step .unlimited) Heap.blank tr s ∧ Mallocs .tiny tr ∧
    tr ≠ [] ∧ ∀ t ∈ tr, ∀ size r, t.event = .call (.malloc size) r →
      ((Mapped t.before t.after → Filled .tiny t.before) ↔
        ¬ Squeezed .unlimited .tiny t.before size) := by
  obtain ⟨tr, s, A, h, -⟩ := exists_poured 160 (.inl rfl) rfl (Nat.zero_le _)
  obtain ⟨r, s', A', h', -⟩ :=
    h.call 160 (by decide) (by decide) (by decide) (.inl rfl) rfl
  exact ⟨_, s', h'.run, h'.mallocs, List.append_ne_nil_of_right_ne_nil _ (List.cons_ne_nil _ _),
    zones_filled rfl (.inl rfl) ⟨rfl, rfl, rfl, rfl⟩ h'.run h'.mallocs⟩

end FtMalloc
