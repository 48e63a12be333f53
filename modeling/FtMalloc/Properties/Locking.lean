import FtMalloc.Lib.Threads
import FtMalloc.Refine.Processes
import FtMalloc.Runs

/-!
# The discipline of the lock

Any number of threads make public calls, and `printf` may call `malloc` on the calling thread. A
thread holds the lock from one step of its call to another; what it does in between is one piece of
the program or a call of `printf`. Outside the lock a call only computes, or reads `g_zones` once.

`malloc`, `free` and `realloc` follow the discipline on every path. The reports call `printf` with
the lock, so they follow it only while `printf` does not call `malloc` there.
-/

namespace FtMalloc

open HeapLib Process

variable {P : Platform} {kernel : ℕ → Option ℕ}

/-! ## The processes -/

section Follows

/-- Unlocking and returning. -/
theorem follows_exit {α : Type} (a : α) :
    (release >>= fun _ => pure a : Proc α).Follows true false :=
  follows_release.bind fun _ => follows_pure a

/-- `malloc` follows the discipline. -/
theorem follows_malloc (size : ℕ) : (Proc.malloc P kernel size).Follows false false := by
  refine .ite (follows_pure _) ?_
  refine .lift fun size => follows_acquire.bind fun _ => ?_
  refine .lift fun zone => .ite (follows_exit _) ?_
  refine .lift fun block => .ite (follows_exit _) ?_
  exact .lift fun ptr => follows_exit ptr

/-- `free` follows the discipline. -/
theorem follows_free (ptr : ℕ) : (Proc.free P ptr).Follows false false := by
  refine .ite (follows_pure _) ?_
  refine follows_acquire.bind fun _ => .lift fun zone => .ite (follows_exit _) ?_
  refine .lift fun block => .lift fun valid => .ite (follows_exit _) ?_
  refine .lift fun type => .ite (.lift fun _ => follows_exit _) ?_
  exact .lift fun _ => follows_release

/-- `realloc` unlocks on every path behind the check of the block. -/
theorem follows_reallocBlock (zone block ptr size : ℕ) :
    (Proc.reallocBlock P kernel zone block ptr size).Follows true false := by
  refine .lift fun oldSize => .ite (.lift fun _ => follows_exit ptr) ?_
  refine .lift fun newPtr => .ite (follows_exit newPtr) ?_
  refine .lift fun newPtr => .ite (follows_exit _) ?_
  exact .lift fun _ => .lift fun _ => follows_exit newPtr

/-- `realloc` follows the discipline. -/
theorem follows_realloc (ptr size : ℕ) : (Proc.realloc P kernel ptr size).Follows false false := by
  refine .ite (follows_malloc size) ?_
  refine .ite ((follows_free ptr).bind fun _ => follows_pure _) ?_
  refine .lift fun size => follows_acquire.bind fun _ => ?_
  refine .lift fun zone => .ite (follows_exit _) ?_
  refine .lift fun block => .lift fun valid => .ite (follows_exit _) ?_
  exact follows_reallocBlock zone block ptr size

/-- A call of `printf`, and what follows. -/
theorem follows_printf {α : Type} {line : Line} {f : Unit → Proc α} {b c : Bool}
    (hf : (f ()).Follows b c) : (printf line >>= f).Follows b c :=
  (follows_perform line).bind fun _ => hf

/-- `print_zone` keeps the lock as it is. -/
theorem follows_printZone (zone : ℕ) {b : Bool} : (printZone zone).Follows b b := by
  refine .lift fun type => .lift fun start => follows_printf (.lift fun block => ?_)
  refine .iterate (fun v => .ite (follows_pure _) ?_) _ _
  refine .lift fun stop => .lift fun size => .lift fun bytes => follows_printf ?_
  exact .lift fun size => .lift fun total => .lift fun next => follows_pure _

/-- `show_alloc_mem` follows the discipline. -/
theorem follows_showAllocMem : showAllocMem.Follows false false := by
  refine .lift fun zones => .ite (follows_printf (follows_pure _)) ?_
  refine follows_acquire.bind fun _ => .lift fun zone => ?_
  refine Follows.bind (.iterate (fun v => .ite (follows_pure _) ?_) _ _) fun total => ?_
  · refine (follows_printZone _).bind fun bytes => .lift fun total => follows_printf ?_
    exact .lift fun next => follows_pure _
  · exact follows_printf follows_release

/-- The loops of `count_items` keep the lock as it is. -/
theorem follows_countFrom (item count : ℕ) {b : Bool} : (countFrom item count).Follows b b :=
  .iterate (fun _ => .ite (follows_pure _) (.lift fun _ => .lift fun _ => follows_pure _)) _ _

/-- The loop of the extended `print_zone` keeps the lock as it is. -/
theorem follows_printItem (itemCount : ℕ) (v : Scan) {b : Bool} :
    (printItem itemCount v).Follows b b := by
  refine .ite (follows_pure _) (.lift fun i => .ite ?_ (.ite ?_ (follows_pure _)))
  · refine .lift fun stop => .lift fun size => .lift fun bytes => follows_printf ?_
    exact .lift fun size => .lift fun total => .lift fun next => follows_pure _
  · refine .lift fun stop => .lift fun size => .lift fun bytes => follows_printf ?_
    exact .lift fun next => follows_pure _

/-- The extended `print_zone` keeps the lock as it is. -/
theorem follows_printZoneEx (zone : ℕ) {b : Bool} : (printZoneEx zone).Follows b b := by
  refine Follows.bind (.lift fun blocks => (follows_countFrom _ _).bind fun count =>
    .lift fun empties => follows_countFrom _ _) fun itemCount => .ite (follows_pure _) ?_
  refine .lift fun type => .lift fun start => .lift fun stop => .lift fun total => ?_
  refine .lift fun bytes => follows_printf (.lift fun block => .lift fun empty => ?_)
  exact .iterate (fun v => follows_printItem itemCount v) _ _

/-- The loop over the empty spaces keeps the lock as it is. -/
theorem follows_countEmpties (zone : ℕ) {b : Bool} : (countEmpties zone).Follows b b :=
  .lift fun _ => .iterate (fun _ => .ite (follows_pure _) (.lift fun _ => follows_pure _)) _ _

/-- The statistics keep the lock as it is. -/
theorem follows_printStatistics (zone : ℕ) {b : Bool} : (printStatistics zone).Follows b b := by
  refine .lift fun type => follows_printf (.lift fun start => follows_printf ?_)
  refine .lift fun stop => follows_printf (.lift fun total => follows_printf ?_)
  refine .lift fun remaining => follows_printf (.lift fun cache => follows_printf ?_)
  refine .lift fun num => follows_printf ((follows_countEmpties zone).bind fun count => ?_)
  exact follows_printf (follows_printf (.lift fun num => follows_pure _))

/-- `show_alloc_mem_ex` follows the discipline. -/
theorem follows_showAllocMemEx : showAllocMemEx.Follows false false := by
  refine .lift fun zones => .ite (follows_printf (follows_pure _)) ?_
  refine follows_acquire.bind fun _ => follows_printf (follows_printf (follows_printf ?_))
  refine .lift fun zone => Follows.bind (.iterate (fun v => .ite (follows_pure _) ?_) _ _)
    fun total => ?_
  · refine (follows_printZoneEx _).bind fun bytes => .lift fun total => follows_printf ?_
    exact .lift fun next => follows_pure _
  refine follows_printf (follows_printf (follows_printf (follows_printf (.lift fun zone => ?_))))
  refine Follows.bind (.iterate (fun v => .ite (follows_pure _) ?_) _ _) fun totals => ?_
  · exact (follows_printStatistics _).bind fun counts => .lift fun next => follows_pure _
  · exact follows_printf (follows_printf (follows_printf (follows_printf follows_release)))

end Follows

/-! ## Threads -/

/-- A call of a public function. -/
inductive PublicCall
  | call (c : Call)
  | showAllocMem
  | showAllocMemEx
deriving DecidableEq, Repr

/-- The process of a call; `free` returns nothing. -/
def Call.process (P : Platform) (kernel : ℕ → Option ℕ) : Call → Proc ℕ
  | malloc size => Proc.malloc P kernel size
  | free ptr => do
    Proc.free P ptr
    return null
  | realloc ptr size => Proc.realloc P kernel ptr size

/-- The process of a call; the reports return nothing. -/
def PublicCall.process (P : Platform) (kernel : ℕ → Option ℕ) : PublicCall → Proc ℕ
  | call c => c.process P kernel
  | showAllocMem => do
    FtMalloc.showAllocMem
    return null
  | showAllocMemEx => do
    FtMalloc.showAllocMemEx
    return null

/-- The public calls, with any answers of the kernel. -/
def publicCalls (P : Platform) : Set (Proc ℕ) := {p | ∃ kernel c, p = PublicCall.process P kernel c}

/-- What `printf` may call: `malloc`, for a buffer of any size. -/
def printfCalls (P : Platform) : Set (Proc ℕ) := {p | ∃ kernel size, p = Proc.malloc P kernel size}

variable {τ : Type} [DecidableEq τ] {T₀ T T' : Threads τ Heap Line ℕ} {i : τ}
  {tr : List (Transition (Threads τ Heap Line ℕ) (τ × Act))}

/-- A step of one of the threads. -/
abbrev ThreadStep (P : Platform) : Threads τ Heap Line ℕ → τ × Act →
    Threads τ Heap Line ℕ → Prop :=
  Threads.Step gMallocMutex (publicCalls P) (printfCalls P)

/-- No thread has made a call. -/
structure ThreadStart (T : Threads τ Heap Line ℕ) : Prop where
  state : FtMalloc.Start T.state
  owner : T.owner = none
  stack : ∀ i, T.stack i = []

/-- At the start the threads follow the discipline. -/
theorem ThreadStart.ordered (h : ThreadStart T) : T.Ordered := by
  intro i
  rw [h.stack, h.owner]
  exact decide_eq_false (Option.some_ne_none i).symm

/-- Every public function follows the discipline. -/
theorem follows_publicCalls : ∀ p ∈ publicCalls P, p.Follows false false := by
  rintro _ ⟨kernel, c, rfl⟩
  cases c with
  | call c =>
    cases c with
    | malloc size => exact follows_malloc size
    | free ptr => exact (follows_free ptr).bind fun _ => follows_pure _
    | realloc ptr size => exact follows_realloc ptr size
  | showAllocMem => exact follows_showAllocMem.bind fun _ => follows_pure _
  | showAllocMemEx => exact follows_showAllocMemEx.bind fun _ => follows_pure _

/-- What `printf` calls follows the discipline. -/
theorem follows_printfCalls : ∀ p ∈ printfCalls P, p.Follows false false := by
  rintro _ ⟨kernel, size, rfl⟩
  exact follows_malloc size

/-! ## A thread alone -/

/-- The processes of `malloc`, `free` and `realloc` alone are the calls of the program. -/
theorem Call.alone_process (P : Platform) (kernel : ℕ → Option ℕ) (c : Call) :
    Alone gMallocMutex (c.process P kernel) (c.run P kernel) := by
  cases c with
  | malloc size => exact alone_malloc P kernel size
  | free ptr => exact (alone_free P ptr).bind fun _ => alone_pure _
  | realloc ptr size => exact alone_realloc P kernel ptr size

/-- A thread that is not interrupted makes a call as the process with one thread makes it. -/
theorem Holds.reaches_call {A : Arena P} (h : Holds T.state A) (hk : T.state.KernelOk P kernel)
    (c : Call) (hidle : T.stack i = []) (howner : T.owner = none) :
    ∃ (s' : Heap) (A' : Arena P), Holds s' A' ∧
      A'.zones = (c.outcome P kernel A.zones).zones ∧
      Threads.Reaches gMallocMutex (publicCalls P) (printfCalls P) T (T.put i [] s' none) := by
  have henter : ThreadStep P T (i, .enter) _ :=
    Threads.Step.enter hidle ⟨kernel, .call c, rfl⟩
  have hrun := (Call.alone_process P kernel c (fun _ _ s' =>
    ∃ A' : Arena P, Holds s' A' ∧ A'.zones = (c.outcome P kernel A.zones).zones) [] T.state).mpr
    (wp_mono (h.wp_outcome hk c) fun _ _ hr => hr.2.2)
  obtain ⟨a, out, s', ⟨A', hA', hzones⟩, hreach⟩ := Threads.reaches_of_wpOut
    (T := T.put i [(PublicCall.call c).process P kernel] T.state T.owner)
    (follows_publicCalls _ ⟨kernel, .call c, rfl⟩) hrun Threads.put_stack howner
  rw [Threads.put_put] at hreach
  have hleave : ThreadStep P _ (i, .leave) _ := Threads.Step.leave (T := T.put i [.ret a] s' none)
    Threads.put_stack
  rw [Threads.put_put] at hleave
  exact ⟨s', A', hA', hzones, (henter.reaches nofun).trans (hreach.trans (hleave.reaches nofun))⟩

/-! ## The discipline -/

/-- A `malloc` of a size in the limits is about to lock after one step, whoever holds the lock. -/
theorem exists_lock_step {kernel : ℕ → Option ℕ} {size : ℕ} {rest : List (Proc ℕ)}
    (htop : T.stack i = Proc.malloc P kernel size :: rest)
    (hsize : ¬(size = 0 ∨ size > P.maxAllocSize)) : ∃ T' q, ThreadStep P T (i, .body) T' ∧
      T'.owner = T.owner ∧ T'.stack i = .lock q :: rest := by
  obtain ⟨k, hbody⟩ : ∃ k : ℕ → Proc ℕ, Proc.malloc P kernel size =
      .body (alignSize size) fun n => .lock (k n) := ⟨_, if_neg hsize⟩
  obtain ⟨n, s, halign, -⟩ := (wp_alignSize (Q := fun _ _ => True) (s := T.state)).mpr trivial
  rw [hbody] at htop
  exact ⟨_, k n, Threads.Step.body htop halign, rfl, Threads.put_stack⟩

/-- `malloc` called back with the lock returns with it, or locks it again after one more step. -/
theorem breach_of_callback {e : τ × Act} (hstep : ThreadStep P T e T') (hact : e.2 = .callback)
    (howner : T.owner = some e.1) :
    ¬ T'.Disciplined ∨ ∃ T'', ThreadStep P T' (e.1, .body) T'' ∧ ¬ T''.Disciplined := by
  cases hstep with
  | @callback i w p q rest htop hq =>
    obtain ⟨kernel, size, rfl⟩ := hq
    by_cases hsize : size = 0 ∨ size > P.maxAllocSize
    · refine .inl fun h => ?_
      have hret : Proc.malloc P kernel size = .ret null := if_pos hsize
      exact h.leave i null (.call w p :: rest) (by rw [Threads.put_stack, hret]) howner
    · obtain ⟨T'', q, hbody, howner', hlock⟩ := exists_lock_step
        (T := T.put i (Proc.malloc P kernel size :: .call w p :: rest) T.state T.owner)
        Threads.put_stack hsize
      exact .inr ⟨T'', hbody, fun h => h.lock i q _ hlock (howner'.trans howner)⟩
  | enter => cases hact
  | lock => cases hact
  | unlock => cases hact
  | body => cases hact
  | call => cases hact
  | leave => cases hact

/-- In every run of any number of threads: if no call of `printf` in a critical section calls
`malloc`, the threads follow the discipline of the lock, and every such call breaks it, at once or
with the next step of its thread. -/
theorem lock_disciplined (hstart : ThreadStart T₀) (hrun : Run (ThreadStep P) T₀ tr T) :
    (Threads.Quiet tr → T.Disciplined) ∧
      ∀ t ∈ tr, t.event.2 = .callback → t.before.owner = some t.event.1 →
        ¬ t.after.Disciplined ∨
          ∃ T', ThreadStep P t.after (t.event.1, .body) T' ∧ ¬ T'.Disciplined := by
  constructor
  · intro hquiet
    exact (Threads.ordered_of_run follows_publicCalls follows_printfCalls hrun hstart.ordered
      hquiet).disciplined
  · intro t ht hact howner
    obtain ⟨-, -, hstep⟩ := hrun.exists_before t ht
    exact breach_of_callback hstep hact howner

/-- With no zone `show_alloc_mem` calls `printf` before it locks. -/
theorem process_showAllocMem (P : Platform) (kernel : ℕ → Option ℕ) : ∃ k q,
    PublicCall.showAllocMem.process P kernel = .body getGZones k ∧
      k null = .call .noZones q :=
  ⟨_, _, rfl, rfl⟩

/-- With a zone `show_alloc_mem_ex` calls `printf` once it has locked. -/
theorem process_showAllocMemEx (P : Platform) (kernel : ℕ → Option ℕ) : ∃ k,
    PublicCall.showAllocMemEx.process P kernel = .body getGZones k ∧
      ∀ a, a ≠ null → ∃ q, k a = .lock (.call .gap q) := by
  refine ⟨_, rfl, fun a ha => ?_⟩
  dsimp only [Process.bind]
  rw [if_neg ha]
  exact ⟨_, rfl⟩

/-- No thread has made a call, and nothing is mapped. -/
def Threads.blank (τ : Type) : Threads τ Heap Line ℕ := ⟨Heap.blank, none, fun _ => []⟩

/-- With no zone `printf` may call `malloc`: the thread has not locked yet. -/
theorem lock_disciplined_witness : ∃ (T₀ T : Threads Bool Heap Line ℕ)
    (tr : List (Transition (Threads Bool Heap Line ℕ) (Bool × Act))), ThreadStart T₀ ∧
    Run (ThreadStep .unlimited) T₀ tr T ∧ (∃ t ∈ tr, t.event = (true, .callback)) ∧
    T.Disciplined := by
  obtain ⟨k, q, hp, hk⟩ := process_showAllocMem .unlimited fun _ => none
  have hstart : ThreadStart (Threads.blank Bool) := ⟨⟨rfl, rfl, rfl, rfl⟩, rfl, fun _ => rfl⟩
  have h₁ : ThreadStep .unlimited (Threads.blank Bool) (true, .enter) _ :=
    .enter rfl ⟨fun _ => none, .showAllocMem, rfl⟩
  rw [hp] at h₁
  have h₂ : ThreadStep .unlimited _ (true, .body) _ :=
    .body (T := (Threads.blank Bool).put true [.body getGZones k] Heap.blank none)
      Threads.put_stack (b := null) (s := Heap.blank) rfl
  rw [hk, Threads.put_put] at h₂
  have h₃ : ThreadStep .unlimited _ (true, .callback) _ :=
    .callback (T := (Threads.blank Bool).put true [.call .noZones q] Heap.blank none)
      Threads.put_stack ⟨fun _ => none, 1024, rfl⟩
  have hrun := ((Run.nil.snoc h₁).snoc h₂).snoc h₃
  refine ⟨_, _, _, hstart, hrun, ⟨_, List.mem_append_right _ (List.mem_singleton_self _), rfl⟩, ?_⟩
  refine (lock_disciplined hstart hrun).1 fun t ht hact => ?_
  simp only [List.nil_append, List.mem_append, List.mem_singleton] at ht
  rcases ht with (rfl | rfl) | rfl
  · cases hact
  · cases hact
  · exact (Option.some_ne_none true).symm

/-- After one `malloc`, `show_alloc_mem_ex` calls `printf` with the lock. When that call allocates
the buffer of the stream, the thread waits for itself. -/
theorem lock_disciplined_counterexample : ∃ (T₀ T : Threads Bool Heap Line ℕ)
    (tr : List (Transition (Threads Bool Heap Line ℕ) (Bool × Act))), ThreadStart T₀ ∧
    Run (ThreadStep .unlimited) T₀ tr T ∧
    (∃ q rest, T.stack true = .lock q :: rest ∧ T.owner = some true) ∧ ¬ T.Disciplined := by
  have hstart : ThreadStart (Threads.blank Bool) := ⟨⟨rfl, rfl, rfl, rfl⟩, rfl, fun _ => rfl⟩
  have hkernel : Heap.blank.KernelOk .unlimited (kernelAt 65536) :=
    kernelOk_kernelAt (by decide) (by decide) (by decide) fun _ _ => rfl
  obtain ⟨s, A, hA, hzones, tr, hmalloc, -⟩ := Holds.reaches_call (i := true)
    (T := Threads.blank Bool) hstart.state.holds hkernel (.malloc 8) rfl rfl
  have hne : s.gZones ≠ null := by
    rw [hA.rep.head, hzones]
    decide +kernel
  obtain ⟨k, hp, hk⟩ := process_showAllocMemEx .unlimited fun _ => none
  obtain ⟨q, hk⟩ := hk s.gZones hne
  have h₁ : ThreadStep .unlimited ((Threads.blank Bool).put true [] s none) (true, .enter) _ :=
    .enter Threads.put_stack ⟨fun _ => none, .showAllocMemEx, rfl⟩
  rw [hp, Threads.put_put] at h₁
  have h₂ : ThreadStep .unlimited _ (true, .body) _ :=
    .body (T := (Threads.blank Bool).put true [.body getGZones k] s none)
      Threads.put_stack (b := s.gZones) (s := s) rfl
  rw [hk, Threads.put_put] at h₂
  have h₃ : ThreadStep .unlimited _ (true, .lock) _ :=
    .lock (T := (Threads.blank Bool).put true [.lock (.call .gap q)] s none) Threads.put_stack rfl
  rw [Threads.put_put] at h₃
  have h₄ : ThreadStep .unlimited _ (true, .callback) _ :=
    .callback (T := (Threads.blank Bool).put true [.call .gap q]
      (gMallocMutex.set true s) (some true)) Threads.put_stack ⟨fun _ => none, 1024, rfl⟩
  rw [Threads.put_put] at h₄
  obtain ⟨T, p, h₅, howner, htop⟩ := exists_lock_step (P := .unlimited)
    (T := (Threads.blank Bool).put true (Proc.malloc .unlimited (fun _ => none) 1024 :: [.call .gap q])
    (gMallocMutex.set true s) (some true)) Threads.put_stack (by decide)
  have hrun := ((((hmalloc.snoc h₁).snoc h₂).snoc h₃).snoc h₄).snoc h₅
  exact ⟨_, T, _, hstart, hrun, ⟨p, _, htop, howner⟩, fun h => h.lock true p _ htop howner⟩

end FtMalloc
