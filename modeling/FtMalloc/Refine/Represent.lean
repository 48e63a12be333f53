import FtMalloc.Abstract.Arena
import FtMalloc.Refine.Merge

/-!
# The zones in memory

`s.Rep P zs` says that the state holds exactly the zones `zs`: they are linked from `g_zones` in
this order, each is represented, and all their pages are mapped. An edit that writes inside one
zone, off its links and off the payload of kept blocks, keeps everything else represented and spares
the payload of every block that stays.
-/

namespace FtMalloc

open HeapLib TiledZone

/-- The state holds the zones `zs`. -/
structure Heap.Rep (P : Platform) (s : Heap) (zs : List TiledZone) : Prop where
  head : s.gZones = (zs.map TiledZone.addr).headD 0
  links : Segment zoneLinks s.mem 0 (zs.map TiledZone.addr) 0
  zone : ∀ z ∈ zs, ZoneRep s.mem z
  mapped : ∀ z ∈ zs, s.Valid z.addr (P.pageUp z.len)

/-- The payload bytes that a block of `L` shares with the block of `L'` at its address are the
same. -/
def Spared (L L' : Set Tile) (m m' : Memory) : Prop :=
  ∀ t ∈ L, ∀ t' ∈ L', t.addr = t'.addr →
    ∀ x, t.addr + headerSize ≤ x → x < t.stop headerSize → x < t'.stop headerSize → m' x = m x

/-- The mapped addresses after a kernel call. -/
def Syscall.remap (P : Platform) (c : Syscall) (mapped : ℕ → Bool) : ℕ → Bool :=
  match c with
  | .mmap _ none => mapped
  | .mmap len (some a) => fun x => decide (a ≤ x ∧ x < a + P.pageUp len) || mapped x
  | .munmap a len => fun x => !decide (a ≤ x ∧ x < a + P.pageUp len) && mapped x

/-- The mapped addresses after kernel calls, the latest of them first. -/
def remapAll (P : Platform) (calls : List Syscall) (mapped : ℕ → Bool) : ℕ → Bool :=
  calls.foldr (Syscall.remap P) mapped

/-- Kernel calls one after the other. -/
theorem remapAll_append (P : Platform) (c₂ c₁ : List Syscall) (mapped : ℕ → Bool) :
    remapAll P (c₂ ++ c₁) mapped = remapAll P c₂ (remapAll P c₁ mapped) := List.foldr_append

/-- Refused mappings change no mapped address. -/
theorem remapAll_idle {P : Platform} {calls : List Syscall} (mapped : ℕ → Bool)
    (h : ∀ c ∈ calls, ∃ len, c = .mmap len none) : remapAll P calls mapped = mapped := by
  induction calls with
  | nil => rfl
  | cons c cs ih =>
    obtain ⟨len, rfl⟩ := h c List.mem_cons_self
    exact ih fun c hc => h c (List.mem_cons_of_mem _ hc)

/-- An address that is mapped afterwards was mapped before or by one of the calls. -/
theorem mapped_of_remapAll {P : Platform} {calls : List Syscall} {mapped : ℕ → Bool} {x : ℕ}
    (h : remapAll P calls mapped x = true) : mapped x = true ∨
      ∃ len a, .mmap len (some a) ∈ calls ∧ a ≤ x ∧ x < a + P.pageUp len := by
  induction calls with
  | nil => exact .inl h
  | cons c cs ih =>
    have hlater (hcs : remapAll P cs mapped x = true) : mapped x = true ∨
        ∃ len a, .mmap len (some a) ∈ c :: cs ∧ a ≤ x ∧ x < a + P.pageUp len := by
      refine (ih hcs).imp_right ?_
      rintro ⟨len, a, hmem, hx⟩
      exact ⟨len, a, List.mem_cons_of_mem _ hmem, hx⟩
    change c.remap P (remapAll P cs mapped) x = true at h
    rcases c with ⟨len, _ | a⟩ | ⟨a, len⟩
    · exact hlater h
    · simp only [Syscall.remap, Bool.or_eq_true, decide_eq_true_eq] at h
      rcases h with h | h
      · exact .inr ⟨len, a, List.mem_cons_self, h⟩
      · exact hlater h
    · simp only [Syscall.remap, Bool.and_eq_true] at h
      exact hlater h.2

/-- From `s` to `s'` the zones `zs` become `zs'` by the kernel calls `calls`. -/
structure Heap.Became (P : Platform) (s s' : Heap) (zs zs' : List TiledZone)
    (calls : List Syscall) : Prop where
  rep : s'.Rep P zs'
  spared : Spared (Zones.live zs) (Zones.live zs') s.mem s'.mem
  lock : s'.gMallocLock = s.gMallocLock
  mapped : s'.mapped = remapAll P calls s.mapped
  calls : s'.calls = calls ++ s.calls
  wrapped : P.IntPages → s'.wrapped = s.wrapped

variable {P : Platform} {s s' : Heap} {m m' : Memory} {z z' w : TiledZone}
  {zs pre post : List TiledZone} {S : Set ℕ} {x : ℕ}

namespace Zones.Spread

/-- The zone headers are placed; the head link is outside the address space. -/
theorem placed (h : Spread P zs) : Placed zoneLinks (2 ^ 64) (zs.map TiledZone.addr) where
  pos := by
    intro a ha
    obtain ⟨z, hz, rfl⟩ := List.mem_map.mp ha
    have := (h.laid z hz).bound
    exact ⟨(h.laid z hz).pos, by omega⟩
  spaced := by
    refine List.pairwise_map.mpr (h.apart.imp_of_mem fun {z w} hz hw hzw => ?_)
    have hz' := (h.laid z hz).room
    have hw' := (h.laid w hw).room
    have := P.le_pageUp z.len
    have := P.le_pageUp w.len
    simp only [zoneLinks_width]
    rcases hzw with hzw | hzw <;> omega
  cell := by
    intro a ha
    obtain ⟨z, hz, rfl⟩ := List.mem_map.mp ha
    have := (h.laid z hz).bound
    have := (h.laid z hz).room
    simp only [zoneLinks_width]
    omega

/-- There are fewer zones than any loop bound. -/
theorem length_lt (h : Spread P zs) : zs.length < 2 ^ 64 := by
  have := h.placed.length_lt
  rwa [List.length_map] at this

end Zones.Spread

/-- A represented zone is mapped. -/
theorem Heap.Rep.valid (h : s.Rep P zs) (hz : z ∈ zs) : s.Valid z.addr z.len :=
  (h.mapped z hz).sub (Nat.le_refl _) (by have := P.le_pageUp z.len; omega)

/-- A change outside a zone, or to its links, keeps it represented. -/
theorem ZoneRep.frame (h : ZoneRep m z) (hz : z.Laid) (hS : AgreeOff S m m')
    (hoff : ∀ x ∈ S, z.addr ≤ x → x < z.addr + z.len → z.addr + 64 ≤ x ∧ x < z.addr + 80) :
    ZoneRep m' z := by
  have hroom := hz.room
  refine h.agreeOff hS (fun x hx hin => ?_) fun x hx t ht hin => ?_
  · have := hoff x hx (by omega) (by omega)
    omega
  · have hin' := hz.inside ht
    have := hoff x hx (by omega) (by omega)
    omega

/-- A zone edit writes inside the zone, off its links. -/
theorem churn_off (hx : x ∈ z.churn z') : z.addr ≤ x ∧ x < z.addr + z.len ∧
    ¬(z.addr + 64 ≤ x ∧ x < z.addr + 80) := ⟨hx.1, hx.2.1, hx.2.2.1⟩

/-- The links of the zones survive an edit of one zone. -/
theorem links_agreeOff {p : ℕ} (hl : Segment zoneLinks m p (zs.map TiledZone.addr) 0)
    (hS : AgreeOff S m m')
    (hoff : ∀ z ∈ zs, ∀ x ∈ S, ¬(z.addr + 64 ≤ x ∧ x < z.addr + 80)) :
    Segment zoneLinks m' p (zs.map TiledZone.addr) 0 := by
  refine hl.agreeOff hS fun a ha x hx hx' hxS => ?_
  obtain ⟨z, hz, rfl⟩ := List.mem_map.mp ha
  simp only [zoneLinks_prev, zoneLinks_next] at hx hx'
  exact hoff z hz x hxS (by omega)

/-- The links of the zones. -/
def zoneLinkBytes (zs : List TiledZone) : Set ℕ :=
  {x | ∃ z ∈ zs, z.addr + 64 ≤ x ∧ x < z.addr + 80}

/-- Inside a zone only its own links are links of zones. -/
theorem Zones.Spread.own_links (hsp : Spread P zs) (hz : z ∈ zs) (hx : x ∈ zoneLinkBytes zs)
    (hlo : z.addr ≤ x) (hhi : x < z.addr + z.len) : z.addr + 64 ≤ x ∧ x < z.addr + 80 := by
  obtain ⟨w, hw, hwlo, hwhi⟩ := hx
  have hroom := (hsp.laid w hw).room
  obtain rfl := hsp.eq_of_inside hz hw hlo hhi (by omega) (by omega)
  exact ⟨hwlo, hwhi⟩

/-- A change off all payloads spares them. -/
theorem spared_of_off {L L' : Set Tile} (hS : AgreeOff S m m')
    (hoff : ∀ t ∈ L, ∀ x ∈ S, ¬(t.addr + headerSize ≤ x ∧ x < t.stop headerSize)) :
    Spared L L' m m' :=
  fun t ht _ _ _ x hlo hhi _ => hS x fun hx => hoff t ht x hx ⟨hlo, hhi⟩

/-- The zones with the links of the zones overwritten: everything but the links is kept. -/
theorem Zones.Spread.payload_off (hsp : Spread P zs) {t : Tile} (ht : t ∈ Zones.live zs) :
    (∃ z ∈ zs, z.addr ≤ t.addr ∧ t.stop headerSize ≤ z.addr + z.len) ∧
      ∀ x ∈ zoneLinkBytes zs, ¬(t.addr + headerSize ≤ x ∧ x < t.stop headerSize) := by
  obtain ⟨z, hz, htz⟩ := ht
  have hin := (hsp.laid z hz).inside (mem_live.mp htz).1
  refine ⟨⟨z, hz, by omega, hin.2.2⟩, fun x hx hxt => ?_⟩
  simp only [headerSize] at hxt
  have := hsp.own_links hz hx (by omega) (by omega)
  omega

/-- Editing one zone keeps the zones represented. -/
theorem Heap.Rep.edit (h : s.Rep P (pre ++ z :: post)) (hsp : Zones.Spread P (pre ++ z :: post))
    (hz' : ZoneRep s'.mem z') (haddr : z'.addr = z.addr) (hlen : z'.len = z.len)
    (hw : s.Counts P.IntPages (z.churn z') s') : s'.Rep P (pre ++ z' :: post) := by
  have hgz : s'.gZones = s.gZones := by rw [hw.eq]
  have hmap : (pre ++ z' :: post).map TiledZone.addr = (pre ++ z :: post).map TiledZone.addr := by
    simp [haddr]
  have hother : ∀ w ∈ pre ++ post, ∀ x ∈ z.churn z', ¬(w.addr ≤ x ∧ x < w.addr + w.len) :=
    fun w hw x hx => hsp.off hw (churn_off hx).1 (churn_off hx).2.1
  have hmem : ∀ w ∈ pre ++ z' :: post, w = z' ∨ w ∈ pre ++ post := by
    intro w hw
    simp only [List.mem_append, List.mem_cons] at hw ⊢
    tauto
  exact
    { head := by rw [hgz, hmap]; exact h.head
      links := by
        rw [hmap]
        refine links_agreeOff h.links hw.agreeOff fun w hwm x hx => ?_
        rcases List.mem_append.mp hwm with hwm | hwm
        · have := hother w (List.mem_append_left _ hwm) x hx
          have := (hsp.laid w (List.mem_append_left _ hwm)).room
          omega
        · rcases List.mem_cons.mp hwm with rfl | hwm'
          · exact (churn_off hx).2.2
          · have := hother w (List.mem_append_right _ hwm') x hx
            have := (hsp.laid w (List.mem_append_right _ hwm)).room
            omega
      zone := by
        intro w hwm
        rcases hmem w hwm with rfl | hwm
        · exact hz'
        · refine (h.zone w (Zones.Spread.mem_of_around hwm)).frame
            (hsp.laid w (Zones.Spread.mem_of_around hwm)) hw.agreeOff fun x hx hlo hhi => ?_
          exact absurd ⟨hlo, hhi⟩ (hother w hwm x hx)
      mapped := by
        intro w hwm
        rw [hw.valid]
        rcases hmem w hwm with rfl | hwm
        · rw [haddr, hlen]
          exact h.mapped z (by simp)
        · exact h.mapped w (Zones.Spread.mem_of_around hwm) }

/-- Editing one zone spares the payload of every block that stays. -/
theorem Zones.Spread.spared_edit (hsp : Spread P (pre ++ z :: post)) (hz' : z'.Laid)
    (haddr : z'.addr = z.addr) (hlen : z'.len = z.len) (hS : AgreeOff (z.churn z') m m') :
    Spared (Zones.live (pre ++ z :: post)) (Zones.live (pre ++ z' :: post)) m m' := by
  rintro t ⟨w, hw, ht⟩ t' ⟨w', hw', ht'⟩ heq x hlo hhi hhi'
  have hin := (hsp.laid w hw).inside (mem_live.mp ht).1
  have hsp' := hsp.replace hz' haddr hlen
  have hin' := (hsp'.laid w' hw').inside (mem_live.mp ht').1
  simp only [headerSize] at hlo hhi hhi'
  refine hS x fun hx => ?_
  obtain ⟨hzlo, hzhi, -, hkept⟩ := hx
  have hwz : w = z := hsp.eq_of_inside (by simp) hw hzlo hzhi (by omega) (by omega)
  have hwz' : w' = z' :=
    hsp'.eq_of_inside (x := x) (by simp) hw' (by omega) (by omega) (by omega) (by omega)
  subst hwz hwz'
  exact hkept ⟨t, ht, t', ht', heq, by simpa using hlo, by simpa using hhi, by simpa using hhi'⟩

/-- Payload that was spared twice. -/
theorem Spared.trans {L L₁ L₂ : Set Tile} {m₁ m₂ : Memory} (h₁ : Spared L L₁ m m₁)
    (h₂ : Spared L₁ L₂ m₁ m₂) (hsub : L ⊆ L₁) : Spared L L₂ m m₂ :=
  fun t ht t' ht' heq x hlo hhi hhi' =>
  (h₂ t (hsub ht) t' ht' heq x hlo hhi hhi').trans (h₁ t ht t (hsub ht) rfl x hlo hhi hhi)

/-- One stretch of a call after another. -/
theorem Heap.Became.trans {s₁ s₂ : Heap} {zs₁ zs₂ : List TiledZone} {c₁ c₂ : List Syscall}
    (h₁ : s.Became P s₁ zs zs₁ c₁) (h₂ : s₁.Became P s₂ zs₁ zs₂ c₂)
    (hsub : Zones.live zs ⊆ Zones.live zs₁) : s.Became P s₂ zs zs₂ (c₂ ++ c₁) where
  rep := h₂.rep
  spared := h₁.spared.trans h₂.spared hsub
  lock := h₂.lock.trans h₁.lock
  mapped := by rw [h₂.mapped, h₁.mapped, remapAll_append]
  calls := by rw [h₂.calls, h₁.calls, List.append_assoc]
  wrapped := fun hpage => (h₂.wrapped hpage).trans (h₁.wrapped hpage)

/-- Editing one zone, from the state before to the state after. -/
theorem Heap.Rep.became_edit (h : s.Rep P (pre ++ z :: post))
    (hsp : Zones.Spread P (pre ++ z :: post)) (hz' : ZoneRep s'.mem z') (hlaid : z'.Laid)
    (haddr : z'.addr = z.addr) (hlen : z'.len = z.len) (hw : s.Counts P.IntPages (z.churn z') s') :
    s.Became P s' (pre ++ z :: post) (pre ++ z' :: post) [] where
  rep := h.edit hsp hz' haddr hlen hw
  spared := hsp.spared_edit hlaid haddr hlen hw.agreeOff
  lock := by rw [hw.eq]
  mapped := by rw [hw.eq]; rfl
  calls := by rw [hw.eq]; rfl
  wrapped := hw.wrapped

/-- Writing a payload keeps the zones represented. -/
theorem Heap.Rep.write_payload {t : Tile} (h : s.Rep P zs) (hsp : Zones.Spread P zs)
    (ht : t ∈ Zones.live zs) (hS : AgreeOff S s.mem m)
    (hin : ∀ x ∈ S, t.addr + headerSize ≤ x ∧ x < t.stop headerSize) : (s.withMem m).Rep P zs := by
  obtain ⟨z, hz, htz⟩ := ht
  have htile := (mem_live.mp htz).1
  have hinside := (hsp.laid z hz).inside htile
  simp only [headerSize] at hin
  exact
    { head := h.head
      links := links_agreeOff h.links hS fun w hw x hx hlink => by
        have hx' := hin x hx
        have := hsp.own_links hz ⟨w, hw, hlink⟩ (by omega) (by omega)
        omega
      zone := by
        intro w hw
        by_cases hwz : w = z
        · subst hwz
          exact (h.zone w hw).writePayload (hsp.laid w hw) htile hS hin
        · refine (h.zone w hw).frame (hsp.laid w hw) hS fun x hx hlo hhi => ?_
          have hx' := hin x hx
          exact absurd (hsp.eq_of_inside hz hw (x := x) (by omega) (by omega) hlo hhi) hwz
      mapped := h.mapped }

/-- The payload of a live block is mapped. -/
theorem Heap.Rep.valid_payload {t : Tile} (h : s.Rep P zs) (hsp : Zones.Spread P zs)
    (ht : t ∈ Zones.live zs) : s.Valid (t.addr + headerSize) t.size := by
  obtain ⟨z, hz, htz⟩ := ht
  have hinside := (hsp.laid z hz).inside (mem_live.mp htz).1
  simp only [Tile.stop] at hinside
  exact (h.valid hz).sub (by simp only [headerSize]; omega) (by simp only [headerSize]; omega)

/-- The first bytes of a block that stays at its address are kept. -/
theorem Spared.content {L L' : Set Tile} {t u : Tile} {n : ℕ} (h : Spared L L' m m') (ht : t ∈ L)
    (hu : u ∈ L') (heq : t.addr = u.addr) (hn : n ≤ u.size) :
    ∀ i < t.size, i < n → m' (t.addr + headerSize + i) = m (t.addr + headerSize + i) := by
  intro i hit hin
  refine h t ht u hu heq _ (Nat.le_add_right _ _) ?_ ?_ <;>
    simp only [Tile.stop, headerSize] <;> omega

end FtMalloc
