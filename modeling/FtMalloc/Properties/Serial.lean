import FtMalloc.Lib.Progress
import FtMalloc.Properties.Layout
import FtMalloc.Properties.Locking
import FtMalloc.Refine.Reports
import FtMalloc.Refine.Views

/-!
# The public calls under threads

`malloc`, `free` and `realloc` compute before they lock, and behind the lock each of them runs to
its only unlock. The reports test `g_zones` before they lock, and say that there are no zones when
they read null; behind the lock they print the zones. So any number of threads that make public
calls, in any interleaving, show what some run of one process shows: every call takes effect at one
moment between its invocation and its return. A report that reads null in the middle of another call
takes effect when `g_zones` is null, since a call that makes it null has nothing left to do but to
unlock.

`printf` may call `malloc`. When it does so behind the lock, which a report may hold, the thread
waits for itself for ever, and with it every call that needs the lock. Without such a call no thread
is ever stuck.

The threads only make calls: they do not store into their blocks in between.
-/

namespace FtMalloc

open HeapLib Process

variable {P : Platform} {kernel : ℕ → Option ℕ} {s : Heap} {zs : List TiledZone}
  {out : List Line}

/-! ## Requests -/

/-- The arguments of a call are values of their types. -/
def PublicCall.InRange : PublicCall → Prop
  | call c => c.InRange
  | showAllocMem => True
  | showAllocMemEx => True

/-- A public call, with the answers that the kernel is going to give to it. -/
structure Request where
  kernel : ℕ → Option ℕ
  call : PublicCall
  inRange : call.InRange

/-- The process of a request. -/
def Request.process (P : Platform) (r : Request) : Proc ℕ := r.call.process P r.kernel

/-- What `printf` may request on the calling thread: a buffer from `malloc`. -/
def Request.OfPrintf (r : Request) : Prop := ∃ size, r.call = .call (.malloc size)

/-- The answers of the kernel are as assumed in the state in which the request takes the lock. -/
def Request.Ready (P : Platform) (r : Request) (s : Heap) : Prop := s.KernelOk P r.kernel

/-- What `show_alloc_mem` prints behind the lock. -/
def Zones.lines (zs : List TiledZone) : List Line :=
  (zs.flatMap fun z => z.printed ++ [Line.gap]) ++
    [Line.total (zs.map fun z => dataBytes z.tiles).sum]

/-- What `show_alloc_mem_ex` prints behind the lock. -/
def Zones.linesEx (zs : List TiledZone) : List Line :=
  .gap :: .title "EXTENDED MEMORY INFO" :: .gap ::
    (zs.flatMap fun z => z.printedEx ++ [Line.gap]) ++
      .total (zs.map fun z => dataBytes (shown z.tiles)).sum ::
        .gap :: .title "DETAILED STATISTICS" :: .gap ::
          (zs.flatMap TiledZone.statistics ++ Zones.globals zs)

/-- The lines say that there are no zones, and `g_zones` is null, or they are those on the zones of
the state. -/
def Reports (P : Platform) (lines : List TiledZone → List Line) (s : Heap) (out : List Line) :
    Prop :=
  (out = [.noZones] ∧ s.gZones = null) ∨ ∃ A : Arena P, Holds s A ∧ out = lines A.zones

/-- A request that one process serves: from `s` to `s'`, with a result and the lines printed. -/
def Request.Serves (P : Platform) (r : Request) (s : Heap) (v : ℕ × List Line) (s' : Heap) : Prop :=
  match r.call with
  | .call c => v.2 = [] ∧ Step P s (.call c v.1) s'
  | .showAllocMem => v.1 = null ∧ s' = s ∧ Reports P Zones.lines s v.2
  | .showAllocMemEx => v.1 = null ∧ s' = s ∧ Reports P Zones.linesEx s v.2

/-- The requests under `g_malloc_lock`; without the lock a call looks at whether `g_zones` is null. -/
def contract (P : Platform) : Contract Request Heap Line ℕ where
  mutex := gMallocMutex
  inv := Reachable P
  view := Heap.NoZones
  pre := Request.Ready P
  spec := Request.Serves P
  view_set := fun _ _ => Iff.rfl

/-! ## Critical sections -/

section Sections

/-- Unlocking and returning. -/
theorem section_exit {α : Type} (a : α) : (release >>= fun _ => pure a : Proc α).Section := ⟨a, rfl⟩

/-- `align_size` computes. -/
theorem guarded_alignSize {α : Type} {size : ℕ} {f : ℕ → Proc α} (hf : (f (roundUp size)).Guarded) :
    (liftM (alignSize size) >>= f : Proc α).Guarded :=
  ⟨roundUp size, fun _ => run_of_wp (wp_alignSize.mpr ⟨rfl, rfl⟩), hf⟩

/-- `malloc` of a size in the limits has one critical section. -/
theorem guarded_malloc {size : ℕ} (h : ¬(size = 0 ∨ size > P.maxAllocSize)) :
    (Proc.malloc P kernel size).Guarded := by
  rw [Proc.malloc, if_neg h]
  refine guarded_alignSize ?_
  refine Section.lift fun zone => .ite (section_exit _) ?_
  refine Section.lift fun block => .ite (section_exit _) ?_
  exact Section.lift fun ptr => section_exit ptr

/-- `free` of a pointer that is not null has one critical section. -/
theorem guarded_free {ptr : ℕ} (h : ptr ≠ null) : (Proc.free P ptr).Guarded := by
  rw [Proc.free, if_neg h]
  refine Section.lift fun zone => .ite (section_exit _) ?_
  refine Section.lift fun block => Section.lift fun valid => .ite (section_exit _) ?_
  refine Section.lift fun type => .ite (Section.lift fun _ => section_exit _) ?_
  exact Section.lift fun _ => ⟨(), rfl⟩

/-- `realloc` behind the check of the block is in a critical section. -/
theorem section_reallocBlock (zone block ptr size : ℕ) :
    (Proc.reallocBlock P kernel zone block ptr size).Section := by
  refine Section.lift fun oldSize => .ite (Section.lift fun _ => section_exit ptr) ?_
  refine Section.lift fun newPtr => .ite (section_exit newPtr) ?_
  refine Section.lift fun newPtr => .ite (section_exit _) ?_
  exact Section.lift fun _ => Section.lift fun _ => section_exit newPtr

/-- `realloc` of a pointer that is not null to a size that is not zero has one critical section. -/
theorem guarded_realloc {ptr size : ℕ} (hptr : ptr ≠ null) (hsize : size ≠ 0) :
    (Proc.realloc P kernel ptr size).Guarded := by
  rw [Proc.realloc, if_neg hptr, if_neg hsize]
  refine guarded_alignSize ?_
  refine Section.lift fun zone => .ite (section_exit _) ?_
  refine Section.lift fun block => Section.lift fun valid => .ite (section_exit _) ?_
  exact section_reallocBlock zone block ptr _

end Sections

/-! ## What makes `g_zones` null comes last -/

section ViewLast

/-- `malloc` never makes `g_zones` null. -/
theorem viewLast_malloc (hkernel : ∀ len, kernel len ≠ some null) (size : ℕ) :
    (Proc.malloc P kernel size).ViewLast Heap.NoZones := by
  refine .ite trivial <| .lift (averts_alignSize _) fun size => ?_
  refine ViewLast.lift (averts_findZone hkernel _ _) fun zone => .ite trivial ?_
  refine .lift (averts_allocateBlock _ _) fun block => .ite trivial ?_
  exact .lift (averts_blockPayload _) fun ptr => trivial

/-- `free` unlocks at once when it has made `g_zones` null. -/
theorem viewLast_free (ptr : ℕ) : (Proc.free P ptr).ViewLast Heap.NoZones := by
  refine .ite trivial <| ViewLast.lift (averts_findZoneForPtr _) fun zone => .ite trivial ?_
  refine .lift (averts_blockFromPayload _) fun block => ?_
  refine .lift (averts_isValidBlock _ _) fun valid => .ite trivial ?_
  refine .lift (averts_load _ _) fun type => .ite ?_ ?_
  · exact .last fun _ => ⟨(), rfl⟩
  · exact .last fun _ => ⟨(), rfl⟩

/-- `realloc` unlocks at once when `realloc_free` has made `g_zones` null. -/
theorem viewLast_reallocBlock (hkernel : ∀ len, kernel len ≠ some null)
    (zone block ptr size : ℕ) :
    (Proc.reallocBlock P kernel zone block ptr size).ViewLast Heap.NoZones := by
  refine .lift (averts_load _ _) fun oldSize => .ite ?_ ?_
  · refine .lift (.bind (averts_szSub _ _) fun _ => ?_) fun _ => trivial
    exact .ite (averts_splitBlock _ _ _) (.pure _)
  refine .lift (.bind (averts_load _ _) fun _ => ?_) fun newPtr => .ite trivial ?_
  · exact .ite (averts_tryToExtendBlock _ _ _) (.pure _)
  refine .lift (averts_reallocMalloc hkernel _) fun newPtr => .ite trivial ?_
  exact .lift (averts_ftMemmove _ _ _) fun _ => .last fun _ => ⟨newPtr, rfl⟩

/-- `realloc` unlocks at once when it has made `g_zones` null. -/
theorem viewLast_realloc (hkernel : ∀ len, kernel len ≠ some null) (ptr size : ℕ) :
    (Proc.realloc P kernel ptr size).ViewLast Heap.NoZones := by
  refine .ite (viewLast_malloc hkernel size) <| .ite (viewLast_free ptr).map ?_
  refine .lift (averts_alignSize _) fun size => ?_
  refine ViewLast.lift (averts_findZoneForPtr _) fun zone => .ite trivial ?_
  refine .lift (averts_blockFromPayload _) fun block => ?_
  refine .lift (averts_isValidBlock _ _) fun valid => .ite trivial ?_
  exact viewLast_reallocBlock hkernel zone block ptr _

end ViewLast

/-! ## Requests are served atomically -/

/-- A call has one critical section, or it is refused before it locks, in every state. -/
theorem Call.guarded (c : Call) : (c.process P kernel).Guarded ∨
    c.process P kernel = .ret null ∧ ∀ s, c.run P (fun _ => none) s = some (null, s) := by
  have hmalloc (size : ℕ) : (Proc.malloc P kernel size).Guarded ∨
      Proc.malloc P kernel size = .ret null ∧
        ∀ s, FtMalloc.malloc P (fun _ => none) size s = some (null, s) := by
    by_cases h : size = 0 ∨ size > P.maxAllocSize
    · refine .inr ⟨if_pos h, fun s => ?_⟩
      rw [FtMalloc.malloc, if_pos h]
      rfl
    · exact .inl (guarded_malloc h)
  cases c with
  | malloc size => exact hmalloc size
  | free ptr =>
    by_cases h : ptr = null
    · subst h
      exact .inr ⟨rfl, fun s => rfl⟩
    · exact .inl (guarded_free h).map
  | realloc ptr size =>
    by_cases hptr : ptr = null
    · subst hptr
      exact hmalloc size
    · by_cases hsize : size = 0
      · subst hsize
        refine .inl ?_
        rw [process, Proc.realloc, if_neg hptr, if_pos rfl]
        exact (guarded_free hptr).map
      · exact .inl (guarded_realloc hptr hsize)

/-- A call that finds the kernel ready is served, when it is alone. -/
theorem Call.wpOut_process (c : Call) (hc : c.InRange) (h : Reachable P s)
    (hk : s.KernelOk P kernel) : wpOut gMallocMutex (c.process P kernel) (fun a out s' =>
      (out = [] ∧ Step P s (.call c a) s') ∧ Reachable P s') [] s := by
  rw [c.alone_process P kernel]
  obtain ⟨A, hA⟩ := h.exists_holds
  obtain ⟨a, s', hrun, -⟩ := hA.wp_call hk c
  have hstep : Step P s (.call c a) s' := .call c hc hk hrun
  exact ⟨a, s', hrun, ⟨rfl, hstep⟩, h.run (Run.single hstep)⟩

/-- A call makes `g_zones` null with its last piece only. -/
theorem Call.viewLast (hk : s.KernelOk P kernel) (c : Call) :
    (c.process P kernel).ViewLast Heap.NoZones := by
  have hkernel (len : ℕ) : kernel len ≠ some null := fun hans => by
    obtain ⟨-, -, hpos, -⟩ := hk len null hans
    exact absurd hpos (by decide)
  cases c with
  | malloc size => exact viewLast_malloc hkernel size
  | free ptr => exact (viewLast_free ptr).map
  | realloc ptr size => exact viewLast_realloc hkernel ptr size

/-- A call is atomic. -/
theorem Call.atomic (c : Call) (hc : c.InRange) :
    (c.process P kernel).Atomic (contract P) ⟨kernel, .call c, hc⟩ [] := by
  have hguarded : (c.process P kernel).Guarded ∨ c.process P kernel = .ret null ∧
      ∀ s, c.run P (fun _ => none) s = some (null, s) := c.guarded
  obtain h | ⟨h, hrun⟩ := hguarded
  · exact h.atomic (fun s hk => c.viewLast hk) fun s hs hk => c.wpOut_process hc hs hk
  · rw [h]
    exact fun s _ => ⟨rfl, .call c hc (fun _ _ hans => absurd hans (by simp)) (hrun s)⟩

/-- `show_alloc_mem` once it has the lock. -/
def showZones : Proc Unit := do
  let totalAllocated ← looping (fun v : ℕ × ℕ => do
    if v.1 = null then
      return .inr v.2
    let totalAllocated ← szAdd v.2 (← printZone v.1)
    printf .gap
    return .inl (← Zone.getNext v.1, totalAllocated)) (← getGZones, 0)
  printf (.total totalAllocated)
  release

/-- Behind the lock `show_alloc_mem` prints the lines on the zones. -/
theorem Heap.Rep.wpOut_showZones (h : s.Rep P zs) (hsp : Zones.Spread P zs)
    (hlock : s.gMallocLock = true) : wpOut gMallocMutex showZones (fun _ out' s' =>
      out' = out ++ Zones.lines zs ∧ s' = gMallocMutex.set false s) out s := by
  rw [showZones, wpOut_lift_bind, wp_getGZones, wpOut_bind]
  refine wpOut_mono (h.wpOut_printZones hsp) ?_
  rintro _ _ _ ⟨rfl, rfl, rfl⟩
  rw [printf, wpOut_perform_bind, wpOut_release, Mutex.wp_unlock hlock, Zones.lines,
    List.append_assoc]
  exact ⟨rfl, rfl⟩

/-- `show_alloc_mem_ex` once it has the lock. -/
def showZonesEx : Proc Unit := do
  printf .gap
  printf (.title "EXTENDED MEMORY INFO")
  printf .gap
  let totalAllocated ← looping (fun v : ℕ × ℕ => do
    if v.1 = null then
      return .inr v.2
    let totalAllocated ← szAdd v.2 (← printZoneEx v.1)
    printf .gap
    return .inl (← Zone.getNext v.1, totalAllocated)) (← getGZones, 0)
  printf (.total totalAllocated)
  printf .gap
  printf (.title "DETAILED STATISTICS")
  printf .gap
  let totals ← looping (fun v : ℕ × ℕ × ℕ => do
    if v.1 = null then
      return .inr v.2
    let counts ← printStatistics v.1
    return .inl (← Zone.getNext v.1, (v.2.1 + counts.1) % 2 ^ 32, (v.2.2 + counts.2) % 2 ^ 32))
    (← getGZones, 0, 0)
  printf (.title "GLOBAL STATISTICS")
  printf (.field "Total Allocated Blocks" totals.1)
  printf (.field "Total Empty Spaces" totals.2)
  printf .gap
  release

/-- Behind the lock `show_alloc_mem_ex` prints the lines on the zones. -/
theorem Heap.Rep.wpOut_showZonesEx (h : s.Rep P zs) (hsp : Zones.Spread P zs)
    (hne : ∀ z ∈ zs, z.tiles ≠ []) (hlock : s.gMallocLock = true) :
    wpOut gMallocMutex showZonesEx (fun _ out' s' =>
      out' = out ++ Zones.linesEx zs ∧ s' = gMallocMutex.set false s) out s := by
  rw [showZonesEx, printf, wpOut_perform_bind, printf, wpOut_perform_bind, printf,
    wpOut_perform_bind, wpOut_lift_bind, wp_getGZones, wpOut_bind]
  refine wpOut_mono (h.wpOut_printZonesEx hsp hne) ?_
  rintro _ _ _ ⟨rfl, rfl, rfl⟩
  simp only [printf]
  rw [wpOut_perform_bind, wpOut_perform_bind, wpOut_perform_bind, wpOut_perform_bind,
    wpOut_lift_bind, wp_getGZones, wpOut_bind]
  refine wpOut_mono (h.wpOut_printAllStatistics hsp) ?_
  rintro _ _ _ ⟨rfl, rfl, rfl⟩
  rw [wpOut_perform_bind, wpOut_perform_bind, wpOut_perform_bind, wpOut_perform_bind,
    wpOut_release, Mutex.wp_unlock hlock, Zones.linesEx]
  refine ⟨?_, rfl⟩
  simp only [List.append_assoc, List.cons_append, List.nil_append]
  rfl

/-- Behind the lock `show_alloc_mem` gives it back last. -/
theorem section_showZones : showZones.Section :=
  .lift fun _ => .bind (spares_printZones _).steady fun _ => ⟨(), rfl⟩

/-- `show_alloc_mem` does not assign `g_zones`. -/
theorem viewLast_showZones : showZones.ViewLast Heap.NoZones :=
  .lift averts_getGZones fun _ => .bind (spares_printZones _) fun _ => trivial

/-- Behind the lock `show_alloc_mem_ex` gives it back last. -/
theorem section_showZonesEx : showZonesEx.Section := by
  refine Section.lift (m := getGZones) fun zone => .bind (spares_printZonesEx _).steady ?_
  refine fun total => Section.lift (m := getGZones) fun zone => ?_
  exact .bind (spares_printAllStatistics _).steady fun totals => ⟨(), rfl⟩

/-- `show_alloc_mem_ex` does not assign `g_zones`. -/
theorem viewLast_showZonesEx : showZonesEx.ViewLast Heap.NoZones := by
  refine ViewLast.lift averts_getGZones fun zone => .bind (spares_printZonesEx _) fun total => ?_
  exact ViewLast.lift averts_getGZones fun zone => .bind (spares_printAllStatistics _)
    fun totals => trivial

/-- A report that tests `g_zones` before it locks is atomic, if behind the lock it prints lines on
the zones and changes nothing. -/
theorem atomic_report {r : Request} {p : Proc Unit} {lines : List TiledZone → List Line}
    (hserves : ∀ s out, Reports P lines s out → r.Serves P s (null, out) s) (hp : p.Section)
    (hlast : p.ViewLast Heap.NoZones)
    (hwp : ∀ s (A : Arena P), s.Rep P A.zones → s.gMallocLock = true →
      wpOut gMallocMutex p (fun _ out s' => out = lines A.zones ∧ s' = gMallocMutex.set false s)
        [] s) :
    Atomic (contract P) r ((do
        if (← getGZones) = null then
          printf .noZones
          return ()
        acquire
        p : Proc Unit) >>= fun _ => pure null) [] := by
  have hread (t : Heap) (h : t.gZones ≠ null) : Atomic (contract P) r
      ((if t.gZones = null then printf .noZones >>= fun _ => pure () else acquire >>= fun _ => p :
        Proc Unit) >>= fun _ => pure null) [] := by
    rw [if_neg h]
    refine ⟨hp.map, fun s hs _ => ⟨hlast.map, ?_⟩⟩
    obtain ⟨A, hA⟩ := hs.exists_holds
    change wpOut gMallocMutex (p >>= fun _ => pure null) _ [] (gMallocMutex.set true s)
    rw [wpOut_bind]
    refine wpOut_mono (hwp (gMallocMutex.set true s) A hA.rep.setLock rfl) fun _ out s' h => ?_
    have hself : gMallocMutex.set false (gMallocMutex.set true s) = s := setLock_self hA.unlocked
    obtain ⟨hout, rfl⟩ := h
    rw [hself, wpOut_pure]
    exact ⟨hserves s out (.inr ⟨A, hA, hout⟩), hs⟩
  have hnone (t : Heap) (h : t.gZones = null) : Commits
      (fun v => ∀ s, Reachable P s → s.NoZones → r.Serves P s v s)
      ((if t.gZones = null then printf .noZones >>= fun _ => pure () else acquire >>= fun _ => p :
        Proc Unit) >>= fun _ => pure null) [] := by
    rw [if_pos h]
    exact fun s _ hview => hserves s _ (.inl ⟨rfl, hview⟩)
  intro s
  refine ⟨s.gZones, rfl, ?_⟩
  by_cases hnull : s.gZones = null
  · exact .inr ⟨hnull, hnone s hnull⟩
  · exact .inl (hread s hnull)

/-- Every request is served atomically. -/
theorem Request.atomic (r : Request) : (r.process P).Atomic (contract P) r [] := by
  obtain ⟨kernel, call, inRange⟩ := r
  cases call with
  | call c => exact c.atomic inRange
  | showAllocMem =>
    refine atomic_report (fun s out h => ⟨rfl, rfl, h⟩) section_showZones viewLast_showZones
      fun s A h hlock => ?_
    exact h.wpOut_showZones A.spread hlock
  | showAllocMemEx =>
    refine atomic_report (fun s out h => ⟨rfl, rfl, h⟩) section_showZonesEx viewLast_showZonesEx
      fun s A h hlock => ?_
    refine h.wpOut_showZonesEx A.spread (fun z hz => ?_) hlock
    exact (A.wf z hz).tiles_ne_nil

/-! ## Threads -/

variable {τ : Type} [DecidableEq τ]

/-- Threads that make public calls. -/
abbrev Served (τ : Type) := Session τ Request Heap Line ℕ

/-- A step of one of the threads, with or without the lock, with the answers of the kernel as
assumed. What the threads do with their blocks in between is left out. -/
abbrev ServedStep (P : Platform) : Served τ → Option (Shown τ Request (ℕ × List Line)) →
    Served τ → Prop :=
  Session.Step gMallocMutex (Request.process P) {r | r.OfPrintf} (Request.Ready P)

/-- A step of one process that serves the requests of all threads one after the other. -/
abbrev SerialStep (P : Platform) : Object τ Request Heap (ℕ × List Line) →
    Option (Shown τ Request (ℕ × List Line)) → Object τ Request Heap (ℕ × List Line) → Prop :=
  Object.Step (Request.Serves P)

variable {S S' : Served τ} {tr : List (Transition (Served τ) (Option (Shown τ Request _)))} {i : τ}
  {f : Open Request Heap Line ℕ} {fs : List (Open Request Heap Line ℕ)}

/-- No thread has made a call, and nothing is mapped. -/
def Session.blank (τ : Type) : Served τ := ⟨Heap.blank, none, fun _ => []⟩

/-- `malloc(size)`, to which the kernel will give no memory. -/
def Request.malloc (size : ℕ) (h : size < 2 ^ 64) : Request :=
  ⟨fun _ => none, .call (.malloc size), h⟩

/-- Two threads invoke `malloc`, and one of them takes the lock. -/
theorem exists_contention : ∃ tr S f, Run (ServedStep .unlimited) (Session.blank Bool) tr S ∧
    Session.Quiet tr ∧ S.owner = some true ∧ S.stack false = [f] ∧
    f.op.kernel = fun _ => none := by
  let r : Request := .malloc 8 (by decide)
  obtain ⟨k, hbody⟩ : ∃ k : ℕ → Proc ℕ, Proc.malloc .unlimited (fun _ => none) 8 =
      .body (alignSize 8) fun n => .lock (k n) := ⟨_, if_neg (by decide)⟩
  have hprocess : r.process .unlimited = .body (alignSize 8) fun n => .lock (k n) := hbody
  have halign (s : Heap) : alignSize 8 s = some (roundUp 8, s) :=
    run_of_wp (wp_alignSize.mpr ⟨rfl, rfl⟩)
  have hready (s : Heap) : r.Ready .unlimited s := fun _ _ hans => absurd hans (by
    change ¬ none = _
    simp)
  have henter {i : Bool} {S : Served Bool} (hidle : S.stack i = []) :
      ServedStep .unlimited S (some (.invoke i r))
        (S.put i [⟨r, [], .body (alignSize 8) fun n => .lock (k n)⟩] S.state S.owner) := by
    rw [← hprocess]
    exact .enter r hidle
  have hbody {i : Bool} {S : Served Bool}
      (htop : S.stack i = [⟨r, [], .body (alignSize 8) fun n => .lock (k n)⟩]) :
      ServedStep .unlimited S none (S.put i [⟨r, [], .lock (k (roundUp 8))⟩] S.state S.owner) :=
    Session.Step.body htop (halign S.state)
  have hlock {i : Bool} {S : Served Bool} (htop : S.stack i = [⟨r, [], .lock (k (roundUp 8))⟩])
      (hfree : S.owner = none) : ServedStep .unlimited S none
      (S.put i [⟨r, [], k (roundUp 8)⟩] (gMallocMutex.set true S.state) (some i)) :=
    Session.Step.lock htop hfree (hready S.state)
  refine ⟨_, _, _, (((Run.nil.snoc (henter (i := false) rfl)).snoc
    (henter (i := true) rfl)).snoc (hbody Session.put_stack)).snoc
    (hlock Session.put_stack rfl), fun t ht i c hevent => ?_, rfl, rfl, rfl⟩
  simp only [List.nil_append, List.mem_append, List.mem_singleton] at ht
  rcases ht with ((rfl | rfl) | rfl) | rfl
  · exact (Option.some_ne_none i).symm
  · exact (Option.some_ne_none i).symm
  · cases hevent
  · cases hevent

/-- At the start the object with no calls simulates the threads. -/
theorem simulates_of_start (h : Session.Start Start S) :
    Session.Simulates (contract P) S S.object :=
  have hreach : Session.Start (Reachable P) S := ⟨⟨S.state, [], h.inv, .nil⟩, h.owner, h.stack⟩
  hreach.simulates

/-- Whatever the interleaving, and whatever `printf` calls, the threads show the same invocations
and responses, in the same order, as a run in which every call takes effect in one step of a single
process. Whenever the lock is free, the heap is that of this run, and it is reachable. -/
theorem calls_linearizable (hstart : Session.Start Start S) (hrun : Run (ServedStep P) S tr S') :
    ∃ tr' O, Run (SerialStep P) S.object tr' O ∧
      observed Option.toList tr' = observed Option.toList tr ∧ Reachable P O.state ∧
      (S'.owner = none → S'.state = O.state) := by
  obtain ⟨tr', O, hrun', hseen, h⟩ := (simulates_of_start hstart).run Request.atomic hrun
  exact ⟨tr', O, hrun', hseen, h.inv, fun hfree => (h.free hfree).symm⟩

/-- One thread has the lock, and the other waits for it. -/
theorem calls_linearizable_witness : ∃ (S : Served Bool) (tr : List (Transition _ _)),
    Run (ServedStep .unlimited) (Session.blank Bool) tr S ∧ S.owner = some true ∧
      ∃ tr' O, Run (SerialStep .unlimited) (Session.blank Bool).object tr' O ∧
        observed Option.toList tr' = observed Option.toList tr ∧ Reachable .unlimited O.state ∧
        (S.owner = none → S.state = O.state) := by
  obtain ⟨tr, S, f, hrun, -, howner, -⟩ := exists_contention
  exact ⟨S, tr, hrun, howner,
    calls_linearizable ⟨⟨rfl, rfl, rfl, rfl⟩, rfl, fun _ => rfl⟩ hrun⟩

/-- As long as no call of `printf` behind the lock calls `malloc`, no call is ever stuck: whatever
the other threads have done, the owner of the lock can go on until it gives the lock back, and then
every open call can return. But once a `malloc` of a size in the limits is called behind the lock,
that call never returns, and its thread has the lock ever after. -/
theorem calls_complete (hstart : Session.Start Start S) (hrun : Run (ServedStep P) S tr S') :
    (Session.Quiet tr → ∀ i f fs, S'.stack i = f :: fs → ∃ tr₁ S₁, Run (ServedStep P) S' tr₁ S₁ ∧
      observed Option.toList tr₁ = [] ∧ S₁.owner = none ∧
      (S₁.state.KernelOk P f.op.kernel → ∃ tr₂ S₂ v, Run (ServedStep P) S₁ tr₂ S₂ ∧
        observed Option.toList tr₂ = [.respond i v] ∧ S₂.stack i = fs)) ∧
    ∀ t ∈ tr, ∀ i r size, t.event = some (.invoke i r) → t.before.owner = some i →
      r.call = .call (.malloc size) → 0 < size → size ≤ P.maxAllocSize →
      S'.owner = some i ∧ ∃ out p fs, S'.stack i = ⟨r, out, p⟩ :: fs := by
  constructor
  · intro hquiet i f fs hopen
    obtain ⟨hcalm, O, h⟩ :=
      (simulates_of_start hstart).calm_of_run hstart.calm Request.atomic hrun hquiet
    exact h.completes hcalm Request.atomic hopen
  · intro t ht i r size hevent howner hcall hpos hle
    have hguarded : (r.process P).Guarded := by
      rw [Request.process, hcall]
      exact guarded_malloc (by omega)
    obtain ⟨hheld, out, p, fs, htop, -⟩ := Session.stuck_of_run hrun t ht i r hevent howner hguarded
    exact ⟨hheld, out, p, fs, htop⟩

/-- The thread that waits gets the lock when the other one has given it back. -/
theorem calls_complete_witness : ∃ (S' S₁ S₂ : Served Bool) (tr₁ tr₂ : List (Transition _ _))
    (v : ℕ × List Line),
    S'.owner = some true ∧ Run (ServedStep .unlimited) S' tr₁ S₁ ∧ S₁.owner = none ∧
      Run (ServedStep .unlimited) S₁ tr₂ S₂ ∧
      observed Option.toList tr₂ = [.respond false v] ∧ S₂.stack false = [] := by
  obtain ⟨tr, S, f, hrun, hquiet, howner, hopen, hkernel⟩ := exists_contention
  obtain ⟨tr₁, S₁, hrun₁, -, hfree, hdone⟩ :=
    (calls_complete ⟨⟨rfl, rfl, rfl, rfl⟩, rfl, fun _ => rfl⟩ hrun).1 hquiet false f [] hopen
  obtain ⟨tr₂, S₂, v, hrun₂, hseen, hstack⟩ := hdone fun _ _ hans => by
    rw [hkernel] at hans
    cases hans
  exact ⟨S, S₁, S₂, tr₁, tr₂, v, howner, hrun₁, hfree, hrun₂, hseen, hstack⟩

end FtMalloc
