import FtMalloc.Lib.Sessions

/-!
# Critical sections as single steps

Threads whose operations leave the state alone without the lock and give the lock back last are
simulated by an atomic object: they show the same invocations and responses in the same order,
whatever the interleaving.

Without the lock an operation may look at one property of the state, the view, and respond at once
when it holds. What it looks at can be a state in the middle of a critical section. It is still the
view of a state of the object if critical sections make the view true by their last piece only: the
section then takes effect before the operation that has looked.
-/

namespace HeapLib

open Process

variable {τ ι σ ω α : Type}

/-- What is known of operations under a lock: an invariant of the state between critical sections,
the view, what an operation expects of the state in which it takes the lock, and what it does as a
single step. -/
structure Contract (ι σ ω α : Type) where
  mutex : Mutex σ
  inv : σ → Prop
  view : σ → Prop
  pre : ι → σ → Prop
  spec : ι → σ → α × List ω → σ → Prop
  view_set : ∀ b s, view (mutex.set b s) ↔ view s

/-! ## Atomic processes -/

namespace Process

/-- The process makes library calls only and returns; its response satisfies `Q`. -/
def Commits (Q : α × List ω → Prop) : Process σ ω α → List ω → Prop
  | ret a, out => Q (a, out)
  | lock _, _ => False
  | unlock _, _ => False
  | body _ _, _ => False
  | call w p, out => p.Commits Q (out ++ [w])

/-- No piece of the process makes the view true, except for one that is followed by giving the lock
back and returning. -/
def ViewLast (V : σ → Prop) : Process σ ω α → Prop
  | ret _ => True
  | lock p => p.ViewLast V
  | unlock p => p.ViewLast V
  | body m k => (Averts V m ∨ ∀ b, ∃ a, k b = unlock (ret a)) ∧ ∀ b, (k b).ViewLast V
  | call _ p => p.ViewLast V

/-- The process uses no lock, and no piece of it makes the view true. -/
def Spares (V : σ → Prop) : Process σ ω α → Prop
  | ret _ => True
  | lock _ => False
  | unlock _ => False
  | body m k => Averts V m ∧ ∀ b, (k b).Spares V
  | call _ p => p.Spares V

/-- Behind the labels `out`, the process leaves the state alone without the lock, and is a step of
the operation `c`: from the state in which it returns, from that in which it takes the lock, or from
every state with the view if it finds the view and then only makes library calls. -/
def Atomic (K : Contract ι σ ω α) (c : ι) : Process σ ω α → List ω → Prop
  | ret a, out => ∀ s, K.inv s → K.spec c s (a, out) s
  | lock p, out => p.Section ∧ ∀ s, K.inv s → K.pre c s → p.ViewLast K.view ∧
      wpOut K.mutex p (fun a out' s' => K.spec c s (a, out') s' ∧ K.inv s') out (K.mutex.set true s)
  | unlock _, _ => False
  | body m k, out => ∀ s, ∃ b, m s = some (b, s) ∧ ((k b).Atomic K c out ∨
      K.view s ∧ (k b).Commits (fun r => ∀ t, K.inv t → K.view t → K.spec c t r t) out)
  | call w p, out => p.Atomic K c (out ++ [w])

variable {β : Type} {K : Contract ι σ ω α} {c : ι} {V : σ → Prop} {p : Process σ ω α}
  {Q : α × List ω → Prop} {out : List ω}

/-- The response of a process that commits is known before the library calls. -/
theorem Commits.exists_response (h : p.Commits Q out) :
    ∃ r, Q r ∧ p.Commits (fun x => x = r) out := by
  induction p generalizing out with
  | ret a => exact ⟨(a, out), h, rfl⟩
  | lock p _ => exact h.elim
  | unlock p _ => exact h.elim
  | body m k _ => exact h.elim
  | call w p ih => exact ih h

/-- A process that commits has no critical section. -/
theorem Commits.not_section (h : p.Commits Q out) : ¬ p.Section := by
  induction p generalizing out with
  | ret a => exact id
  | lock p _ => exact h.elim
  | unlock p _ => exact h.elim
  | body m k _ => exact h.elim
  | call w p ih => exact ih h

/-- An atomic process has not got the lock. -/
theorem Atomic.not_section (s : σ) (h : p.Atomic K c out) : ¬ p.Section := by
  induction p generalizing out with
  | ret a => exact id
  | lock p _ => exact id
  | unlock p _ => exact h.elim
  | body m k ih =>
    intro hsection
    obtain ⟨b, -, hb | ⟨-, hb⟩⟩ := h s
    · exact ih b hb (hsection b)
    · exact hb.not_section (hsection b)
  | call w p ih => exact ih h

/-- Returning a value. -/
theorem Spares.pure (a : α) : (Pure.pure a : Process σ ω α).Spares V := trivial

/-- Sequential composition. -/
theorem Spares.bind {q : Process σ ω β} {f : β → Process σ ω α} (hq : q.Spares V)
    (hf : ∀ b, (f b).Spares V) : (q >>= f).Spares V := by
  induction q with
  | ret b => exact hf b
  | lock q _ => exact hq.elim
  | unlock q _ => exact hq.elim
  | body m k ih => exact ⟨hq.1, fun b => ih b (hq.2 b)⟩
  | call w q ih => exact ih hq

/-- A piece of the program that does not make the view true, and what follows. -/
theorem Spares.lift {m : Program σ β} {f : β → Process σ ω α} (hm : Averts V m)
    (hf : ∀ b, (f b).Spares V) : (liftM m >>= f : Process σ ω α).Spares V := ⟨hm, hf⟩

/-- Both branches of a conditional. -/
theorem Spares.ite {e : Prop} [Decidable e] {q : Process σ ω α} (hp : p.Spares V)
    (hq : q.Spares V) : (if e then p else q).Spares V := by
  split
  · exact hp
  · exact hq

/-- A loop. -/
theorem Spares.iterate {step : β → Process σ ω (β ⊕ α)} (h : ∀ x, (step x).Spares V) (fuel : ℕ)
    (x : β) : (iterate step fuel x).Spares V := by
  induction fuel generalizing x with
  | zero => exact ⟨⟨nofun⟩, fun _ => trivial⟩
  | succ fuel ih =>
    refine (h x).bind fun r => ?_
    cases r with
    | inl y => exact ih y
    | inr a => trivial

/-- Such a process takes and gives back no lock. -/
theorem Spares.steady (h : p.Spares V) : p.Steady := by
  induction p with
  | ret a => trivial
  | lock p _ => exact h
  | unlock p _ => exact h
  | body m k ih => exact fun b => ih b (h.2 b)
  | call w p ih => exact ih h

/-- Steps that use no lock and do not make the view true, and what follows. -/
theorem ViewLast.bind {q : Process σ ω β} {f : β → Process σ ω α} (hq : q.Spares V)
    (hf : ∀ b, (f b).ViewLast V) : (q >>= f).ViewLast V := by
  induction q with
  | ret b => exact hf b
  | lock q _ => exact hq.elim
  | unlock q _ => exact hq.elim
  | body m k ih => exact ⟨.inl hq.1, fun b => ih b (hq.2 b)⟩
  | call w q ih => exact ih hq

/-- A piece of the program that does not make the view true, and what follows. -/
theorem ViewLast.lift {m : Program σ β} {f : β → Process σ ω α} (hm : Averts V m)
    (hf : ∀ b, (f b).ViewLast V) : (liftM m >>= f : Process σ ω α).ViewLast V := ⟨.inl hm, hf⟩

/-- The last piece of the program. -/
theorem ViewLast.last {m : Program σ β} {f : β → Process σ ω α}
    (hf : ∀ b, ∃ a, f b = unlock (ret a)) : (liftM m >>= f : Process σ ω α).ViewLast V := by
  refine ⟨.inr hf, fun b => ?_⟩
  obtain ⟨a, ha⟩ := hf b
  change (f b).ViewLast V
  rw [ha]
  trivial

/-- Both branches of a conditional. -/
theorem ViewLast.ite {e : Prop} [Decidable e] {q : Process σ ω α} (hp : p.ViewLast V)
    (hq : q.ViewLast V) : (if e then p else q).ViewLast V := by
  split
  · exact hp
  · exact hq

/-- The result may be exchanged. -/
theorem ViewLast.map {f : α → β} (hp : p.ViewLast V) :
    (p >>= fun a => pure (f a) : Process σ ω β).ViewLast V := by
  induction p with
  | ret a => trivial
  | lock p ih => exact ih hp
  | unlock p ih => exact ih hp
  | body m k ih =>
    refine ⟨hp.1.imp id fun hlast b => ?_, fun b => ih b (hp.2 b)⟩
    obtain ⟨a, ha⟩ := hlast b
    refine ⟨f a, ?_⟩
    change (k b).bind _ = _
    rw [ha]
    rfl
  | call w p ih => exact ih hp

/-- A guarded process that alone, from every state, is a step of the operation, is one in any
company. -/
theorem Guarded.atomic (hp : p.Guarded)
    (hview : ∀ s, K.pre c s → p.ViewLast K.view)
    (h : ∀ s, K.inv s → K.pre c s →
      wpOut K.mutex p (fun a out' s' => K.spec c s (a, out') s' ∧ K.inv s') out s) :
    p.Atomic K c out := by
  induction p with
  | ret a => exact hp.elim
  | lock p _ =>
    refine ⟨hp, fun s hI hpre => ⟨hview s hpre, ?_⟩⟩
    have hs : wpOut K.mutex (acquire >>= fun _ => p) _ out s := h s hI hpre
    rw [wpOut_bind, wpOut_acquire] at hs
    obtain ⟨_, s', hlock, hs⟩ := hs
    change (if K.mutex.held s then none else some ((), K.mutex.set true s)) = _ at hlock
    split at hlock
    · cases hlock
    · cases hlock
      exact hs
  | unlock p _ => exact hp.elim
  | body m k ih =>
    obtain ⟨b, hm, hb⟩ := hp
    refine fun s => ⟨b, hm s, .inl (ih b hb (fun t ht => (hview t ht).2 b) fun t hI hpre => ?_)⟩
    have ht : wpOut K.mutex (liftM m >>= k) _ out t := h t hI hpre
    rw [wpOut_lift_bind] at ht
    exact (wp_of_run (hm t)).mp ht
  | call w p _ => exact hp.elim

end Process

end HeapLib
