import FtMalloc.Lib.Threads

/-!
# Sessions of threads and atomic objects

An atomic object says what operations look like that happen in one step: between its invocation and
its response an operation takes effect at some moment, by one step of a sequential specification. In
a session threads execute the operations as processes. An operation responds with its result and the
labels of the library calls that it has made. In a library call a thread may invoke further
operations, also with the lock; one that asks for the lock is then never served.
-/

namespace HeapLib

open Process

variable {τ ι σ ω α ρ : Type}

/-! ## The object -/

/-- What is seen of the threads: operations are invoked and respond. -/
inductive Shown (τ ι ρ : Type)
  | invoke (i : τ) (c : ι)
  | respond (i : τ) (r : ρ)

/-- A state, and for each thread its operations that have not responded, the latest on top, each
with its response once it has taken effect. -/
structure Object (τ ι σ ρ : Type) where
  state : σ
  calls : τ → List (ι × Option ρ)

namespace Object

variable [DecidableEq τ]

/-- One thread gets other operations. -/
def put (O : Object τ ι σ ρ) (i : τ) (xs : List (ι × Option ρ)) (s : σ) : Object τ ι σ ρ :=
  ⟨s, Function.update O.calls i xs⟩

@[simp] theorem put_state {O : Object τ ι σ ρ} {i : τ} {xs : List (ι × Option ρ)} {s : σ} :
    (O.put i xs s).state = s := rfl

@[simp] theorem put_calls {O : Object τ ι σ ρ} {i : τ} {xs : List (ι × Option ρ)} {s : σ} :
    (O.put i xs s).calls i = xs := Function.update_self ..

theorem put_calls_of_ne {O : Object τ ι σ ρ} {i j : τ} {xs : List (ι × Option ρ)} {s : σ}
    (h : j ≠ i) : (O.put i xs s).calls j = O.calls j := Function.update_of_ne h ..

@[simp] theorem put_put {O : Object τ ι σ ρ} {i : τ} {xs ys : List (ι × Option ρ)} {s s' : σ} :
    (O.put i xs s).put i ys s' = O.put i ys s' := by
  rw [put, put, put, Function.update_idem]

/-- The calls need not change. -/
theorem put_self (O : Object τ ι σ ρ) (i : τ) : O.put i (O.calls i) O.state = O := by
  rw [put, Function.update_eq_self]

/-- An operation takes effect by a step of `spec`, after its invocation and before its response. -/
inductive Step (spec : ι → σ → ρ → σ → Prop) :
    Object τ ι σ ρ → Option (Shown τ ι ρ) → Object τ ι σ ρ → Prop
  | invoke {O : Object τ ι σ ρ} (i : τ) (c : ι) :
      Step spec O (some (.invoke i c)) (O.put i ((c, none) :: O.calls i) O.state)
  | effect {O : Object τ ι σ ρ} {i : τ} {c : ι} {r : ρ} {s : σ} {xs : List (ι × Option ρ)}
      (htop : O.calls i = (c, none) :: xs) (hspec : spec c O.state r s) :
      Step spec O none (O.put i ((c, some r) :: xs) s)
  | respond {O : Object τ ι σ ρ} {i : τ} {c : ι} {r : ρ} {xs : List (ι × Option ρ)}
      (htop : O.calls i = (c, some r) :: xs) :
      Step spec O (some (.respond i r)) (O.put i xs O.state)

end Object

/-! ## Threads with the operations they execute -/

/-- An operation that has not responded: the labels of its library calls so far, and what is left to
do of it. -/
structure Open (ι σ ω α : Type) where
  op : ι
  out : List ω
  left : Process σ ω α

/-- The state of the threads, with the operation of each call. -/
structure Session (τ ι σ ω α : Type) where
  state : σ
  owner : Option τ
  stack : τ → List (Open ι σ ω α)

namespace Session

variable [DecidableEq τ]

/-- One thread gets another stack, with the state and the owner of the lock. -/
def put (S : Session τ ι σ ω α) (i : τ) (fs : List (Open ι σ ω α)) (s : σ) (o : Option τ) :
    Session τ ι σ ω α := ⟨s, o, Function.update S.stack i fs⟩

@[simp] theorem put_state {S : Session τ ι σ ω α} {i : τ} {fs : List (Open ι σ ω α)} {s : σ}
    {o : Option τ} : (S.put i fs s o).state = s := rfl

@[simp] theorem put_owner {S : Session τ ι σ ω α} {i : τ} {fs : List (Open ι σ ω α)} {s : σ}
    {o : Option τ} : (S.put i fs s o).owner = o := rfl

@[simp] theorem put_stack {S : Session τ ι σ ω α} {i : τ} {fs : List (Open ι σ ω α)} {s : σ}
    {o : Option τ} : (S.put i fs s o).stack i = fs := Function.update_self ..

theorem put_stack_of_ne {S : Session τ ι σ ω α} {i j : τ} {fs : List (Open ι σ ω α)} {s : σ}
    {o : Option τ} (h : j ≠ i) : (S.put i fs s o).stack j = S.stack j := Function.update_of_ne h ..

@[simp] theorem put_put {S : Session τ ι σ ω α} {i : τ} {fs gs : List (Open ι σ ω α)} {s s' : σ}
    {o o' : Option τ} : (S.put i fs s o).put i gs s' o' = S.put i gs s' o' := by
  rw [put, put, put, Function.update_idem]

/-- The stack need not change. -/
theorem put_self (S : Session τ ι σ ω α) (i : τ) : S.put i (S.stack i) S.state S.owner = S := by
  rw [put, Function.update_eq_self]

/-- One step of a thread. The operation `c` is the process `proc c`; a library call may invoke an
operation of `callable`. Whoever takes the lock finds the state as `pre` says. -/
inductive Step (μ : Mutex σ) (proc : ι → Process σ ω α) (callable : Set ι) (pre : ι → σ → Prop) :
    Session τ ι σ ω α → Option (Shown τ ι (α × List ω)) → Session τ ι σ ω α → Prop
  | enter {S : Session τ ι σ ω α} {i : τ} (c : ι) (hidle : S.stack i = []) :
      Step μ proc callable pre S (some (.invoke i c))
        (S.put i [⟨c, [], proc c⟩] S.state S.owner)
  | callback {S : Session τ ι σ ω α} {i : τ} {c d : ι} {out : List ω} {w : ω}
      {p : Process σ ω α} {fs : List (Open ι σ ω α)} (htop : S.stack i = ⟨c, out, .call w p⟩ :: fs)
      (hd : d ∈ callable) :
      Step μ proc callable pre S (some (.invoke i d))
        (S.put i (⟨d, [], proc d⟩ :: ⟨c, out, .call w p⟩ :: fs) S.state S.owner)
  | lock {S : Session τ ι σ ω α} {i : τ} {c : ι} {out : List ω} {p : Process σ ω α}
      {fs : List (Open ι σ ω α)} (htop : S.stack i = ⟨c, out, .lock p⟩ :: fs)
      (hfree : S.owner = none) (hpre : pre c S.state) :
      Step μ proc callable pre S none
        (S.put i (⟨c, out, p⟩ :: fs) (μ.set true S.state) (some i))
  | unlock {S : Session τ ι σ ω α} {i : τ} {c : ι} {out : List ω} {p : Process σ ω α}
      {fs : List (Open ι σ ω α)} (htop : S.stack i = ⟨c, out, .unlock p⟩ :: fs)
      (howner : S.owner = some i) :
      Step μ proc callable pre S none (S.put i (⟨c, out, p⟩ :: fs) (μ.set false S.state) none)
  | body {S : Session τ ι σ ω α} {i : τ} {c : ι} {out : List ω} {γ : Type} {m : Program σ γ}
      {k : γ → Process σ ω α} {b : γ} {s : σ} {fs : List (Open ι σ ω α)}
      (htop : S.stack i = ⟨c, out, .body m k⟩ :: fs) (hrun : m S.state = some (b, s)) :
      Step μ proc callable pre S none (S.put i (⟨c, out, k b⟩ :: fs) s S.owner)
  | call {S : Session τ ι σ ω α} {i : τ} {c : ι} {out : List ω} {w : ω} {p : Process σ ω α}
      {fs : List (Open ι σ ω α)} (htop : S.stack i = ⟨c, out, .call w p⟩ :: fs) :
      Step μ proc callable pre S none (S.put i (⟨c, out ++ [w], p⟩ :: fs) S.state S.owner)
  | respond {S : Session τ ι σ ω α} {i : τ} {c : ι} {out : List ω} {a : α}
      {fs : List (Open ι σ ω α)} (htop : S.stack i = ⟨c, out, .ret a⟩ :: fs) :
      Step μ proc callable pre S (some (.respond i (a, out))) (S.put i fs S.state S.owner)

/-! ## Operations with one critical section -/

end Session

namespace Process

/-- With the lock the process gives it back once, and then it returns. -/
def Section : Process σ ω α → Prop
  | ret _ => False
  | lock _ => False
  | unlock p => ∃ a, p = ret a
  | body _ k => ∀ b, (k b).Section
  | call _ p => p.Section

/-- Without the lock the process only computes, until it takes the lock for its critical section. -/
def Guarded : Process σ ω α → Prop
  | ret _ => False
  | lock p => p.Section
  | unlock _ => False
  | body m k => ∃ b, (∀ s, m s = some (b, s)) ∧ (k b).Guarded
  | call _ _ => False

/-- The process takes and gives back no lock. -/
def Steady : Process σ ω α → Prop
  | ret _ => True
  | lock _ => False
  | unlock _ => False
  | body _ k => ∀ b, (k b).Steady
  | call _ p => p.Steady

variable {β : Type} {p : Process σ ω α}

/-- Steps without the lock, and what follows. -/
theorem Section.bind {q : Process σ ω β} {f : β → Process σ ω α} (hq : q.Steady)
    (hf : ∀ b, (f b).Section) : (q >>= f).Section := by
  induction q with
  | ret b => exact hf b
  | lock q _ => exact hq.elim
  | unlock q _ => exact hq.elim
  | body m k ih => exact fun x => ih x (hq x)
  | call w q ih => exact ih hq

/-- A piece of the program, and what follows. -/
theorem Section.lift {m : Program σ β} {f : β → Process σ ω α} (hf : ∀ b, (f b).Section) :
    (liftM m >>= f : Process σ ω α).Section := hf

/-- Both branches of a conditional. -/
theorem Section.ite {e : Prop} [Decidable e] {q : Process σ ω α} (hp : p.Section)
    (hq : q.Section) : (if e then p else q).Section := by
  split
  · exact hp
  · exact hq

/-- The result of a critical section may be exchanged. -/
theorem Section.map {f : α → β} (hp : p.Section) :
    (p >>= fun a => pure (f a) : Process σ ω β).Section := by
  induction p with
  | ret a => exact hp.elim
  | lock p _ => exact hp.elim
  | unlock p _ =>
    obtain ⟨a, rfl⟩ := hp
    exact ⟨f a, rfl⟩
  | body m k ih => exact fun x => ih x (hp x)
  | call w p ih => exact ih hp

/-- The result of a guarded process may be exchanged. -/
theorem Guarded.map {f : α → β} (hp : p.Guarded) :
    (p >>= fun a => pure (f a) : Process σ ω β).Guarded := by
  induction p with
  | ret a => exact hp.elim
  | lock p _ => exact Section.map hp
  | unlock p _ => exact hp.elim
  | body m k ih =>
    obtain ⟨b, hm, hb⟩ := hp
    exact ⟨b, hm, ih b hb⟩
  | call w p _ => exact hp.elim

end Process

/-! ## Calls that never return -/

namespace Session

variable [DecidableEq τ] {μ : Mutex σ} {proc : ι → Process σ ω α} {callable : Set ι}
  {pre : ι → σ → Prop} {S S' : Session τ ι σ ω α} {e : Option (Shown τ ι (α × List ω))} {i : τ}
  {c : ι}

/-- The thread `i` holds the lock, and its latest call, which is `c`, is going to ask for it. -/
def Stuck (S : Session τ ι σ ω α) (i : τ) (c : ι) : Prop :=
  S.owner = some i ∧ ∃ out p fs, S.stack i = ⟨c, out, p⟩ :: fs ∧ p.Guarded

/-- No step of any thread ends this. -/
theorem Stuck.step (h : S.Stuck i c) (hstep : Step μ proc callable pre S e S') : S'.Stuck i c := by
  obtain ⟨howner, out, p, fs, htop, hguarded⟩ := h
  -- another thread leaves the owner and the stack as they are
  have hother {j : τ} {gs : List (Open ι σ ω α)} {s : σ} (hj : j ≠ i) :
      (S.put j gs s S.owner).Stuck i c :=
    ⟨howner, out, p, fs, (put_stack_of_ne hj.symm).trans htop, hguarded⟩
  have hsame {j : τ} {f : Open ι σ ω α} {gs : List (Open ι σ ω α)} (hj : j = i)
      (hstack : S.stack j = f :: gs) : f = ⟨c, out, p⟩ ∧ gs = fs := by
    rw [hj, htop] at hstack
    cases hstack
    exact ⟨rfl, rfl⟩
  cases hstep with
  | @enter j d hidle =>
    refine hother fun hj => ?_
    rw [hj, htop] at hidle
    cases hidle
  | @callback j d d' out' w q gs hstack hd =>
    refine hother fun hj => ?_
    obtain ⟨heq, -⟩ := hsame hj hstack
    cases heq
    exact hguarded
  | lock hstack hfree hpre =>
    rw [hfree] at howner
    cases howner
  | @unlock j d out' q gs hstack hheld =>
    obtain rfl := Option.some.inj (hheld.symm.trans howner)
    obtain ⟨heq, -⟩ := hsame rfl hstack
    cases heq
    exact hguarded.elim
  | @body j d out' γ m k b s gs hstack hrun =>
    by_cases hj : j = i
    · obtain ⟨heq, rfl⟩ := hsame hj hstack
      subst hj
      cases heq
      obtain ⟨b', hm, hb⟩ := hguarded
      rw [hm, Option.some.injEq, Prod.mk.injEq] at hrun
      obtain ⟨rfl, rfl⟩ := hrun
      exact ⟨howner, out, _, gs, put_stack, hb⟩
    · exact hother hj
  | @call j d out' w q gs hstack =>
    refine hother fun hj => ?_
    obtain ⟨heq, -⟩ := hsame hj hstack
    cases heq
    exact hguarded
  | @respond j d out' a gs hstack =>
    refine hother fun hj => ?_
    obtain ⟨heq, -⟩ := hsame hj hstack
    cases heq
    exact hguarded

/-- A thread that invokes with the lock what asks for the lock waits for itself ever after, and
nobody else gets the lock. -/
theorem stuck_of_run {tr : List (Transition _ _)} (hrun : Run (Step μ proc callable pre) S tr S') :
    ∀ t ∈ tr, ∀ i c, t.event = some (.invoke i c) → t.before.owner = some i → (proc c).Guarded →
      S'.Stuck i c := by
  induction hrun with
  | nil => exact fun t ht => absurd ht List.not_mem_nil
  | snoc hrun hstep ih =>
    intro t ht i c hevent howner hguarded
    rcases List.mem_append.mp ht with ht | ht
    · exact (ih t ht i c hevent howner hguarded).step hstep
    · obtain rfl := List.mem_singleton.mp ht
      subst hevent
      cases hstep with
      | enter c hidle => exact ⟨howner, [], _, [], put_stack, hguarded⟩
      | callback htop hd => exact ⟨howner, [], _, _, put_stack, hguarded⟩

/-- No thread invokes an operation with the lock. -/
def Quiet (tr : List (Transition (Session τ ι σ ω α) (Option (Shown τ ι (α × List ω))))) : Prop :=
  ∀ t ∈ tr, ∀ i c, t.event = some (.invoke i c) → t.before.owner ≠ some i

end Session

end HeapLib
