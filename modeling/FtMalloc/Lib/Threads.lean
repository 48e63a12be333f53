import FtMalloc.Lib.Process
import FtMalloc.Lib.Runs

/-!
# Threads that share a lock

Any number of threads call functions, each of which is a process, over one state and one lock that
is not recursive. The pieces of the program, the lock operations and the library calls of all
threads interleave in any order. A library call may call back: it may make calls of its own on the
calling thread before it returns. A thread therefore has a stack of calls, the latest on top.

A process follows the discipline of the lock if it takes the lock only without it and gives it back
only with it, whatever the pieces of the program return. A run in which no thread calls back with
the lock keeps the discipline, if all functions follow it.
-/

namespace HeapLib

open Process

variable {τ σ ω α β : Type}

/-! ## The discipline of a process -/

namespace Process

/-- Started with the lock as `held` says, the process takes the lock only without it, gives it back
only with it, and returns with the lock as `post` says. -/
def Follows : Process σ ω α → Bool → Bool → Prop
  | ret _, held, post => held = post
  | lock p, held, post => held = false ∧ p.Follows true post
  | unlock p, held, post => held = true ∧ p.Follows false post
  | body _ k, held, post => ∀ b, (k b).Follows held post
  | call _ p, held, post => p.Follows held post

variable {p : Process σ ω α} {b c d : Bool}

theorem follows_pure (a : α) : (pure a : Process σ ω α).Follows b b := rfl

theorem follows_lift (m : Program σ α) : (liftM m : Process σ ω α).Follows b b := fun _ => rfl

theorem follows_acquire : (acquire : Process σ ω Unit).Follows false true := ⟨rfl, rfl⟩

theorem follows_release : (release : Process σ ω Unit).Follows true false := ⟨rfl, rfl⟩

theorem follows_perform (w : ω) : (perform w : Process σ ω Unit).Follows b b := rfl

/-- Sequential composition. -/
theorem Follows.bind {f : α → Process σ ω β} (hp : p.Follows b c)
    (hf : ∀ a, (f a).Follows c d) : (p >>= f).Follows b d := by
  induction p generalizing b with
  | ret a =>
    obtain rfl : b = c := hp
    exact hf a
  | lock p ih => exact ⟨hp.1, ih hp.2⟩
  | unlock p ih => exact ⟨hp.1, ih hp.2⟩
  | body m k ih => exact fun x => ih x (hp x)
  | call w p ih => exact ih hp

/-- A piece of the program, and what follows. -/
theorem Follows.lift {m : Program σ β} {f : β → Process σ ω α} (hf : ∀ x, (f x).Follows b c) :
    (liftM m >>= f).Follows b c :=
  (follows_lift m).bind hf

/-- Both branches of a conditional. -/
theorem Follows.ite {e : Prop} [Decidable e] {q : Process σ ω α} (hp : p.Follows b c)
    (hq : q.Follows b c) : (if e then p else q).Follows b c := by
  split
  · exact hp
  · exact hq

/-- A loop whose body keeps the lock as it is. -/
theorem Follows.iterate {step : β → Process σ ω (β ⊕ α)} (h : ∀ x, (step x).Follows b b)
    (fuel : ℕ) (x : β) : (iterate step fuel x).Follows b b := by
  induction fuel generalizing x with
  | zero => exact fun _ => rfl
  | succ fuel ih =>
    refine (h x).bind fun r => ?_
    cases r with
    | inl y => exact ih y
    | inr a => exact follows_pure a

end Process

/-! ## Interleavings -/

/-- The state of a process with threads: each has the stack of its calls that have not returned. -/
structure Threads (τ σ ω α : Type) where
  state : σ
  owner : Option τ
  stack : τ → List (Process σ ω α)

/-- What a thread does next. -/
inductive Act
  | enter
  | lock
  | unlock
  | body
  | call
  | callback
  | leave
deriving DecidableEq, Repr

namespace Threads

variable [DecidableEq τ]

/-- One thread gets another stack, with the state and the owner of the lock. -/
def put (T : Threads τ σ ω α) (i : τ) (ps : List (Process σ ω α)) (s : σ) (o : Option τ) :
    Threads τ σ ω α := ⟨s, o, Function.update T.stack i ps⟩

@[simp] theorem put_state {T : Threads τ σ ω α} {i : τ} {ps : List (Process σ ω α)} {s : σ}
    {o : Option τ} : (T.put i ps s o).state = s := rfl

@[simp] theorem put_owner {T : Threads τ σ ω α} {i : τ} {ps : List (Process σ ω α)} {s : σ}
    {o : Option τ} : (T.put i ps s o).owner = o := rfl

@[simp] theorem put_stack {T : Threads τ σ ω α} {i : τ} {ps : List (Process σ ω α)} {s : σ}
    {o : Option τ} : (T.put i ps s o).stack i = ps := Function.update_self ..

@[simp] theorem put_put {T : Threads τ σ ω α} {i : τ} {ps qs : List (Process σ ω α)} {s s' : σ}
    {o o' : Option τ} : (T.put i ps s o).put i qs s' o' = T.put i qs s' o' := by
  rw [put, put, put, Function.update_idem]

@[simp] theorem put_self {T : Threads τ σ ω α} {i : τ} :
    T.put i (T.stack i) T.state T.owner = T := by
  rw [put, Function.update_eq_self]

/-- One step of the thread `i`. The functions are `entries`, and a library call may call those of
`callbacks`. A thread that locks a held lock waits, for ever if it holds the lock itself. -/
inductive Step (μ : Mutex σ) (entries callbacks : Set (Process σ ω α)) :
    Threads τ σ ω α → τ × Act → Threads τ σ ω α → Prop
  | enter {T : Threads τ σ ω α} {i : τ} {p : Process σ ω α} (hidle : T.stack i = [])
      (hp : p ∈ entries) : Step μ entries callbacks T (i, .enter) (T.put i [p] T.state T.owner)
  | lock {T : Threads τ σ ω α} {i : τ} {p : Process σ ω α} {rest : List (Process σ ω α)}
      (htop : T.stack i = .lock p :: rest) (hfree : T.owner = none) :
      Step μ entries callbacks T (i, .lock)
        (T.put i (p :: rest) (μ.set true T.state) (some i))
  | unlock {T : Threads τ σ ω α} {i : τ} {p : Process σ ω α} {rest : List (Process σ ω α)}
      (htop : T.stack i = .unlock p :: rest) (howner : T.owner = some i) :
      Step μ entries callbacks T (i, .unlock)
        (T.put i (p :: rest) (μ.set false T.state) none)
  | body {T : Threads τ σ ω α} {i : τ} {β : Type} {m : Program σ β} {k : β → Process σ ω α} {b : β}
      {s : σ} {rest : List (Process σ ω α)} (htop : T.stack i = .body m k :: rest)
      (hrun : m T.state = some (b, s)) :
      Step μ entries callbacks T (i, .body) (T.put i (k b :: rest) s T.owner)
  | call {T : Threads τ σ ω α} {i : τ} {w : ω} {p : Process σ ω α} {rest : List (Process σ ω α)}
      (htop : T.stack i = .call w p :: rest) :
      Step μ entries callbacks T (i, .call) (T.put i (p :: rest) T.state T.owner)
  | callback {T : Threads τ σ ω α} {i : τ} {w : ω} {p q : Process σ ω α}
      {rest : List (Process σ ω α)} (htop : T.stack i = .call w p :: rest) (hq : q ∈ callbacks) :
      Step μ entries callbacks T (i, .callback)
        (T.put i (q :: .call w p :: rest) T.state T.owner)
  | leave {T : Threads τ σ ω α} {i : τ} {a : α} {rest : List (Process σ ω α)}
      (htop : T.stack i = .ret a :: rest) :
      Step μ entries callbacks T (i, .leave) (T.put i rest T.state T.owner)

/-- No thread is about to lock what it holds, to unlock what it does not hold, or to return from a
call with the lock. -/
structure Disciplined (T : Threads τ σ ω α) : Prop where
  lock : ∀ i p rest, T.stack i = .lock p :: rest → T.owner ≠ some i
  unlock : ∀ i p rest, T.stack i = .unlock p :: rest → T.owner = some i
  leave : ∀ i a rest, T.stack i = .ret a :: rest → T.owner ≠ some i

/-- The call on top of a stack follows the discipline with the lock as it is, those below without
it. -/
def Frames (held : Bool) : List (Process σ ω α) → Prop
  | [] => held = false
  | p :: rest => p.Follows held false ∧ ∀ q ∈ rest, q.Follows false false

/-- All threads follow the discipline. -/
def Ordered (T : Threads τ σ ω α) : Prop := ∀ i, Frames (decide (T.owner = some i)) (T.stack i)

variable {μ : Mutex σ} {entries callbacks : Set (Process σ ω α)} {T T' : Threads τ σ ω α} {i : τ}
  {e : τ × Act}

/-- Threads that follow the discipline are about to do nothing against it. -/
theorem Ordered.disciplined (h : T.Ordered) : T.Disciplined where
  lock := by
    intro i p rest htop
    have hi := h i
    rw [htop] at hi
    exact of_decide_eq_false hi.1.1
  unlock := by
    intro i p rest htop
    have hi := h i
    rw [htop] at hi
    exact of_decide_eq_true hi.1.1
  leave := by
    intro i a rest htop
    have hi := h i
    rw [htop] at hi
    exact of_decide_eq_false hi.1

/-- A step of one thread leaves the others as they are. -/
theorem Ordered.put {ps : List (Process σ ω α)} {s : σ} {o : Option τ} (h : T.Ordered)
    (howner : ∀ j, j ≠ i → (o = some j ↔ T.owner = some j))
    (hi : Frames (decide (o = some i)) ps) : (T.put i ps s o).Ordered := by
  intro j
  by_cases hj : j = i
  · subst hj
    rw [put_stack]
    exact hi
  · change Frames (decide (o = some j)) (Function.update T.stack i ps j)
    rw [Function.update_of_ne hj, decide_eq_decide.mpr (howner j hj)]
    exact h j

/-- A step keeps the discipline, unless it calls back with the lock. -/
theorem Step.ordered (hentries : ∀ p ∈ entries, p.Follows false false)
    (hcallbacks : ∀ p ∈ callbacks, p.Follows false false)
    (hstep : Step μ entries callbacks T e T') (h : T.Ordered)
    (hquiet : e.2 = .callback → T.owner ≠ some e.1) : T'.Ordered := by
  have htop {i : τ} {p : Process σ ω α} {rest : List (Process σ ω α)}
      (heq : T.stack i = p :: rest) : Frames (decide (T.owner = some i)) (p :: rest) := heq ▸ h i
  cases hstep with
  | @enter i p hidle hp =>
    have hi : Frames (decide (T.owner = some i)) [] := hidle ▸ h i
    refine h.put (fun _ _ => Iff.rfl) ⟨?_, fun q hq => absurd hq List.not_mem_nil⟩
    rw [show decide (T.owner = some i) = false from hi]
    exact hentries p hp
  | @lock i p rest heq hfree =>
    obtain ⟨⟨-, hp⟩, hrest⟩ := htop heq
    refine h.put (fun j hj => ?_) ⟨?_, hrest⟩
    · rw [hfree]
      exact iff_of_false (fun hij => hj (Option.some.inj hij).symm) (Option.some_ne_none j).symm
    · rwa [decide_eq_true rfl]
  | @unlock i p rest heq howner =>
    obtain ⟨⟨-, hp⟩, hrest⟩ := htop heq
    refine h.put (fun j hj => ?_) ⟨?_, hrest⟩
    · rw [howner]
      exact iff_of_false (Option.some_ne_none j).symm fun hij => hj (Option.some.inj hij).symm
    · rwa [decide_eq_false (Option.some_ne_none i).symm]
  | body heq hrun =>
    obtain ⟨hp, hrest⟩ := htop heq
    exact h.put (fun _ _ => Iff.rfl) ⟨hp _, hrest⟩
  | call heq =>
    obtain ⟨hp, hrest⟩ := htop heq
    exact h.put (fun _ _ => Iff.rfl) ⟨hp, hrest⟩
  | @callback i w p q rest heq hq =>
    obtain ⟨hp, hrest⟩ := htop heq
    have hfree : decide (T.owner = some i) = false := decide_eq_false (hquiet rfl)
    rw [hfree] at hp
    refine h.put (fun _ _ => Iff.rfl) ⟨?_, List.forall_mem_cons.mpr ⟨hp, hrest⟩⟩
    rw [hfree]
    exact hcallbacks q hq
  | @leave i a rest heq =>
    obtain ⟨hp, hrest⟩ := htop heq
    refine h.put (fun _ _ => Iff.rfl) ?_
    rw [show decide (T.owner = some i) = false from hp]
    cases rest with
    | nil => exact rfl
    | cons q rest => exact List.forall_mem_cons.mp hrest

/-- No thread calls back with the lock. -/
def Quiet (tr : List (Transition (Threads τ σ ω α) (τ × Act))) : Prop :=
  ∀ t ∈ tr, t.event.2 = .callback → t.before.owner ≠ some t.event.1

/-- A run in which no thread calls back with the lock keeps the discipline. -/
theorem ordered_of_run {tr : List (Transition (Threads τ σ ω α) (τ × Act))}
    (hentries : ∀ p ∈ entries, p.Follows false false)
    (hcallbacks : ∀ p ∈ callbacks, p.Follows false false)
    (hrun : Run (Step μ entries callbacks) T tr T') (h : T.Ordered) (hquiet : Quiet tr) :
    T'.Ordered :=
  hrun.preserves (I := Ordered) h fun t ht hbefore hstep =>
    hstep.ordered hentries hcallbacks hbefore (hquiet t ht)

/-! ## One thread alone -/

/-- `T'` is reached from `T` by a run in which no thread calls back with the lock. -/
def Reaches (μ : Mutex σ) (entries callbacks : Set (Process σ ω α)) (T T' : Threads τ σ ω α) :
    Prop :=
  ∃ tr, Run (Step μ entries callbacks) T tr T' ∧ Quiet tr

/-- No step. -/
theorem Reaches.refl (T : Threads τ σ ω α) : Reaches μ entries callbacks T T :=
  ⟨[], .nil, fun _ ht => absurd ht List.not_mem_nil⟩

/-- One run after another. -/
theorem Reaches.trans {T'' : Threads τ σ ω α} (h : Reaches μ entries callbacks T T')
    (h' : Reaches μ entries callbacks T' T'') : Reaches μ entries callbacks T T'' := by
  obtain ⟨tr, hrun, hquiet⟩ := h
  obtain ⟨tr', hrun', hquiet'⟩ := h'
  refine ⟨tr ++ tr', hrun.append hrun', fun t ht => ?_⟩
  exact (List.mem_append.mp ht).elim (hquiet t) (hquiet' t)

/-- A single step. -/
theorem Step.reaches (hstep : Step μ entries callbacks T e T')
    (hquiet : e.2 = .callback → T.owner ≠ some e.1) : Reaches μ entries callbacks T T' := by
  refine ⟨[] ++ [⟨T, e, T'⟩], Run.nil.snoc hstep, fun t ht => ?_⟩
  obtain rfl := List.mem_singleton.mp ht
  exact hquiet

/-- A process that succeeds alone also does so as a thread that gets the lock when it asks for it,
without calling back. -/
theorem reaches_of_wpOut {p : Process σ ω α} {held post : Bool} {out : List ω}
    {Q : α → List ω → σ → Prop} {rest : List (Process σ ω α)} (hp : p.Follows held post)
    (h : wpOut μ p Q out T.state) (htop : T.stack i = p :: rest)
    (howner : T.owner = if held then some i else none) :
    ∃ a out' s, Q a out' s ∧ Reaches μ entries callbacks T
      (T.put i (.ret a :: rest) s (if post then some i else none)) := by
  induction p generalizing T held out with
  | ret a =>
    obtain rfl : held = post := hp
    refine ⟨a, out, T.state, (wpOut_pure a).mp h, ?_⟩
    rw [← howner, ← htop, put_self]
    exact .refl T
  | lock p ih =>
    obtain ⟨rfl, hp⟩ := hp
    have h' : wpOut μ (acquire >>= fun _ => p) Q out T.state := h
    rw [wpOut_bind, wpOut_acquire] at h'
    obtain ⟨_, s, hlock, h'⟩ := h'
    change (if μ.held T.state then none else some ((), μ.set true T.state)) = _ at hlock
    split at hlock
    · cases hlock
    · cases hlock
      have hstep : Step μ entries callbacks T (i, .lock) _ := .lock htop howner
      obtain ⟨a, out', s', hQ, hrest⟩ :=
        ih (T := T.put i (p :: rest) (μ.set true T.state) (some i)) hp h' put_stack rfl
      rw [put_put] at hrest
      exact ⟨a, out', s', hQ, (hstep.reaches nofun).trans hrest⟩
  | unlock p ih =>
    obtain ⟨rfl, hp⟩ := hp
    have h' : wpOut μ (release >>= fun _ => p) Q out T.state := h
    rw [wpOut_bind, wpOut_release] at h'
    obtain ⟨_, s, hunlock, h'⟩ := h'
    change (if μ.held T.state then some ((), μ.set false T.state) else none) = _ at hunlock
    split at hunlock
    · cases hunlock
      have hstep : Step μ entries callbacks T (i, .unlock) _ := .unlock htop howner
      obtain ⟨a, out', s', hQ, hrest⟩ :=
        ih (T := T.put i (p :: rest) (μ.set false T.state) none) hp h' put_stack rfl
      rw [put_put] at hrest
      exact ⟨a, out', s', hQ, (hstep.reaches nofun).trans hrest⟩
    · cases hunlock
  | body m k ih =>
    have h' : wpOut μ (liftM m >>= k) Q out T.state := h
    rw [wpOut_bind, wpOut_lift] at h'
    obtain ⟨b, s, hbody, h'⟩ := h'
    have hstep : Step μ entries callbacks T (i, .body) _ := .body htop hbody
    obtain ⟨a, out', s', hQ, hrest⟩ :=
      ih b (T := T.put i (k b :: rest) s T.owner) (hp b) h' put_stack howner
    rw [put_put] at hrest
    exact ⟨a, out', s', hQ, (hstep.reaches nofun).trans hrest⟩
  | call w p ih =>
    have h' : wpOut μ (perform w >>= fun _ => p) Q out T.state := h
    rw [wpOut_bind, wpOut_perform] at h'
    have hstep : Step μ entries callbacks T (i, .call) _ := .call htop
    obtain ⟨a, out', s', hQ, hrest⟩ :=
      ih (T := T.put i (p :: rest) T.state T.owner) hp h' put_stack howner
    rw [put_put] at hrest
    exact ⟨a, out', s', hQ, (hstep.reaches nofun).trans hrest⟩

end Threads

end HeapLib
