import FtMalloc.Lib.Program

/-!
# Processes that take a lock and call a library

A process is a tree of steps: it runs pieces of a program, takes and gives back one lock, and makes
labelled calls of a library. Executed alone it is a program that also returns the labels of its
calls, which is how output is observed. `wpOut p Q out s` says that `p`, run from `s` behind the
labels `out`, succeeds with a result, labels and a state satisfying `Q`.
-/

namespace HeapLib

variable {σ ω α β γ δ : Type}

/-- The lock word in a state. -/
structure Mutex (σ : Type) where
  held : σ → Bool
  set : Bool → σ → σ

/-- Take the lock; this never returns while the lock is held. -/
def Mutex.lock (μ : Mutex σ) : Program σ Unit := fun s =>
  if μ.held s then none else some ((), μ.set true s)

/-- Give the lock back, which is undefined while the lock is not held. -/
def Mutex.unlock (μ : Mutex σ) : Program σ Unit := fun s =>
  if μ.held s then some ((), μ.set false s) else none

/-- Taking a free lock. -/
theorem Mutex.wp_lock {μ : Mutex σ} {Q : Unit → σ → Prop} {s : σ} (h : μ.held s = false) :
    wp μ.lock Q s ↔ Q () (μ.set true s) :=
  wp_of_run (if_neg (by simp [h]))

/-- Giving a held lock back. -/
theorem Mutex.wp_unlock {μ : Mutex σ} {Q : Unit → σ → Prop} {s : σ} (h : μ.held s = true) :
    wp μ.unlock Q s ↔ Q () (μ.set false s) :=
  wp_of_run (if_pos h)

/-- What is left to do of a call. -/
inductive Process (σ ω α : Type) : Type 1
  | ret (a : α)
  | lock (p : Process σ ω α)
  | unlock (p : Process σ ω α)
  | body {β : Type} (m : Program σ β) (k : β → Process σ ω α)
  | call (w : ω) (p : Process σ ω α)

namespace Process

/-- Sequential composition. -/
def bind : Process σ ω α → (α → Process σ ω β) → Process σ ω β
  | ret a, f => f a
  | lock p, f => lock (p.bind f)
  | unlock p, f => unlock (p.bind f)
  | body m k, f => body m fun b => (k b).bind f
  | call w p, f => call w (p.bind f)

instance : Monad (Process σ ω) where
  pure := ret
  bind := bind

instance : MonadLift (Program σ) (Process σ ω) where
  monadLift m := body m ret

/-- Take the lock. -/
def acquire : Process σ ω Unit := lock (ret ())

/-- Give the lock back. -/
def release : Process σ ω Unit := unlock (ret ())

/-- Call the library. -/
def perform (w : ω) : Process σ ω Unit := call w (ret ())

/-- Repeat `step` at most `fuel` times; `inl` carries the next loop state and `inr` leaves. -/
def iterate (step : β → Process σ ω (β ⊕ α)) : ℕ → β → Process σ ω α
  | 0, _ => body abort ret
  | fuel + 1, b => do
    match ← step b with
    | .inl b' => iterate step fuel b'
    | .inr a => pure a

/-- The process as a program that runs alone and returns the labels of its calls. -/
def exec (μ : Mutex σ) : Process σ ω α → Program σ (α × List ω)
  | ret a => pure (a, [])
  | lock p => μ.lock >>= fun _ => p.exec μ
  | unlock p => μ.unlock >>= fun _ => p.exec μ
  | body m k => m >>= fun b => (k b).exec μ
  | call w p => p.exec μ >>= fun r => pure (r.1, w :: r.2)

/-- Total weakest precondition of a process that runs alone, behind the labels `out`. -/
def wpOut (μ : Mutex σ) (p : Process σ ω α) (Q : α → List ω → σ → Prop) (out : List ω) (s : σ) :
    Prop :=
  wp (p.exec μ) (fun r s' => Q r.1 (out ++ r.2) s') s

variable {μ : Mutex σ} {p : Process σ ω α} {Q R : α → List ω → σ → Prop} {out : List ω} {s : σ}

/-- Returning a value changes nothing. -/
@[simp] theorem wpOut_pure (a : α) : wpOut μ (pure a : Process σ ω α) Q out s ↔ Q a out s := by
  change wp (pure (a, [])) _ s ↔ _
  rw [wp_pure, List.append_nil]

/-- A library call adds its label. -/
@[simp] theorem wpOut_perform {w : ω} {Q : Unit → List ω → σ → Prop} :
    wpOut μ (perform w) Q out s ↔ Q () (out ++ [w]) s := by
  change wp ((pure ((), []) : Program σ (Unit × List ω)) >>= fun r => pure (r.1, w :: r.2)) _ s ↔ _
  rw [wp_bind, wp_pure, wp_pure]

/-- A piece of the program. -/
theorem wpOut_lift {m : Program σ α} :
    wpOut μ (liftM m : Process σ ω α) Q out s ↔ wp m (fun a s' => Q a out s') s := by
  change wp (m >>= fun a => pure (a, [])) _ s ↔ _
  rw [wp_bind]
  refine wp_congr fun _ _ => ?_
  rw [wp_pure, List.append_nil]

/-- Taking the lock. -/
theorem wpOut_acquire {Q : Unit → List ω → σ → Prop} :
    wpOut μ acquire Q out s ↔ wp μ.lock (fun _ s' => Q () out s') s := by
  change wp (μ.lock >>= fun _ => pure ((), [])) _ s ↔ _
  rw [wp_bind]
  refine wp_congr fun _ _ => ?_
  rw [wp_pure, List.append_nil]

/-- Giving the lock back. -/
theorem wpOut_release {Q : Unit → List ω → σ → Prop} :
    wpOut μ release Q out s ↔ wp μ.unlock (fun _ s' => Q () out s') s := by
  change wp (μ.unlock >>= fun _ => pure ((), [])) _ s ↔ _
  rw [wp_bind]
  refine wp_congr fun _ _ => ?_
  rw [wp_pure, List.append_nil]

/-- Sequential composition. -/
@[simp] theorem wpOut_bind {f : α → Process σ ω β} {Q : β → List ω → σ → Prop} :
    wpOut μ (p >>= f) Q out s ↔ wpOut μ p (fun a out' s' => wpOut μ (f a) Q out' s') out s := by
  induction p generalizing out s with
  | ret a => exact (wpOut_pure a (Q := fun a out' s' => wpOut μ (f a) Q out' s')).symm
  | lock p ih =>
    change wp (μ.lock >>= fun _ => exec μ (p >>= f)) _ s ↔ wp (μ.lock >>= fun _ => exec μ p) _ s
    rw [wp_bind, wp_bind]
    exact wp_congr fun _ _ => ih
  | unlock p ih =>
    change wp (μ.unlock >>= fun _ => exec μ (p >>= f)) _ s ↔ wp (μ.unlock >>= fun _ => exec μ p) _ s
    rw [wp_bind, wp_bind]
    exact wp_congr fun _ _ => ih
  | body m k ih =>
    change wp (m >>= fun b => exec μ (k b >>= f)) _ s ↔ wp (m >>= fun b => exec μ (k b)) _ s
    rw [wp_bind, wp_bind]
    exact wp_congr fun b _ => ih b
  | call w p ih =>
    change wp (exec μ (p >>= f) >>= fun r => pure (r.1, w :: r.2)) _ s ↔
      wp (exec μ p >>= fun r => pure (r.1, w :: r.2)) _ s
    rw [wp_bind, wp_bind]
    have h := @ih (out ++ [w]) s
    simp only [wpOut, List.append_assoc, List.singleton_append] at h
    refine (wp_congr fun _ _ => wp_pure ..).trans (h.trans ?_)
    refine wp_congr fun _ _ => ?_
    rw [wp_pure]
    simp only [wpOut, List.append_assoc, List.cons_append]

/-- A piece of the program, and what follows. -/
theorem wpOut_lift_bind {m : Program σ α} {f : α → Process σ ω β} {Q : β → List ω → σ → Prop} :
    wpOut μ (liftM m >>= f) Q out s ↔ wp m (fun a s' => wpOut μ (f a) Q out s') s := by
  rw [wpOut_bind, wpOut_lift]

/-- A library call, and what follows. -/
theorem wpOut_perform_bind {w : ω} {f : Unit → Process σ ω β} {Q : β → List ω → σ → Prop} :
    wpOut μ (perform w >>= f) Q out s ↔ wpOut μ (f ()) Q (out ++ [w]) s := by
  rw [wpOut_bind, wpOut_perform]

/-- The branch taken when the condition is known to hold. -/
theorem wpOut_ite_pos {c : Prop} [Decidable c] {q : Process σ ω α} (hc : c) :
    wpOut μ (if c then p else q) Q out s ↔ wpOut μ p Q out s := by
  rw [if_pos hc]

/-- The branch taken when the condition is known to fail. -/
theorem wpOut_ite_neg {c : Prop} [Decidable c] {q : Process σ ω α} (hc : ¬ c) :
    wpOut μ (if c then p else q) Q out s ↔ wpOut μ q Q out s := by
  rw [if_neg hc]

/-- A postcondition may be weakened. -/
theorem wpOut_mono (h : wpOut μ p Q out s) (hQR : ∀ a out' s', Q a out' s' → R a out' s') :
    wpOut μ p R out s :=
  wp_mono h fun r s' hr => hQR r.1 (out ++ r.2) s' hr

/-- A known run decides every postcondition. -/
theorem wpOut_iff_of_eq {a : α} {out' : List ω} {s' : σ}
    (h : wpOut μ p (fun b o t => b = a ∧ o = out' ∧ t = s') out s) :
    wpOut μ p Q out s ↔ Q a out' s' := by
  obtain ⟨r, t, hrun, rfl, rfl, rfl⟩ := h
  exact wp_of_run hrun

/-- Loop rule: a variant that every repetition decreases bounds the number of iterations. -/
theorem wpOut_iterate {step : β → Process σ ω (β ⊕ α)} (inv : ℕ → β → List ω → σ → Prop)
    (hstep : ∀ n b out s, inv n b out s → wpOut μ (step b) (fun r out' s' =>
      r.elim (fun b' => ∃ k < n, inv k b' out' s') (fun a => Q a out' s')) out s)
    {fuel n : ℕ} {b : β} (hfuel : n < fuel) (h : inv n b out s) :
    wpOut μ (iterate step fuel b) Q out s := by
  induction fuel generalizing n b out s with
  | zero => omega
  | succ fuel ih =>
    rw [iterate, wpOut_bind]
    apply wpOut_mono (hstep n b out s h)
    intro r out' s' hr
    cases r with
    | inl b' =>
      obtain ⟨k, hk, hinv⟩ := hr
      exact ih (by omega) hinv
    | inr a => exact (wpOut_pure a).mpr hr

/-- Fold rule: a loop that walks along a list, accumulates with `f` and performs the calls `g`,
changes nothing and leaves behind the last element. -/
theorem wpOut_iterate_fold {step : β × δ → Process σ ω ((β × δ) ⊕ δ)} {key : γ → β} {l : List γ}
    {b : β} {d : δ} {f : δ → γ → δ} {g : γ → List ω} {Q : δ → List ω → σ → Prop} {fuel : ℕ}
    (hnil : ∀ c out, wpOut μ (step (b, c)) (fun r out' s' =>
      r = .inr c ∧ out' = out ∧ s' = s) out s)
    (hcons : ∀ pre a post, l = pre ++ a :: post → ∀ out,
      wpOut μ (step (key a, pre.foldl f d)) (fun r out' s' =>
        r = .inl ((post.map key).headD b, f (pre.foldl f d) a) ∧ out' = out ++ g a ∧
          s' = s) out s)
    (hfuel : l.length < fuel) (hQ : Q (l.foldl f d) (out ++ l.flatMap g) s) :
    wpOut μ (iterate step fuel ((l.map key).headD b, d)) Q out s := by
  refine wpOut_iterate (fun n v out' s' => s' = s ∧ ∃ pre post, l = pre ++ post ∧
    post.length = n ∧ v = ((post.map key).headD b, pre.foldl f d) ∧
    out' = out ++ pre.flatMap g) ?_ hfuel ⟨rfl, [], l, rfl, rfl, rfl, by simp⟩
  rintro n v out' s' ⟨rfl, pre, post, hl, hn, rfl, rfl⟩
  cases post with
  | nil =>
    refine wpOut_mono (hnil _ _) ?_
    rintro _ _ _ ⟨rfl, rfl, rfl⟩
    rw [hl, List.append_nil] at hQ
    exact hQ
  | cons a post =>
    refine wpOut_mono (hcons pre a post hl _) ?_
    rintro _ _ _ ⟨rfl, rfl, rfl⟩
    rw [List.length_cons] at hn
    exact ⟨post.length, by omega, rfl, pre ++ [a], post, by simp [hl], rfl,
      by rw [List.foldl_append]; rfl, by simp⟩

/-! ## Processes that are programs -/

/-- Executed alone the process is the program `m`, and it makes no library call. -/
def Alone (μ : Mutex σ) (p : Process σ ω α) (m : Program σ α) : Prop :=
  ∀ (Q : α → List ω → σ → Prop) out s, wpOut μ p Q out s ↔ wp m (fun a s' => Q a out s') s

variable {m : Program σ α}

theorem alone_pure (a : α) : Alone μ (pure a : Process σ ω α) (pure a) := fun Q out s =>
  (wpOut_pure a).trans (wp_pure a (fun a s' => Q a out s') s).symm

theorem alone_lift (m : Program σ α) : Alone μ (liftM m : Process σ ω α) m := fun _ _ _ =>
  wpOut_lift

theorem alone_acquire : Alone μ (acquire : Process σ ω Unit) μ.lock := fun _ _ _ => wpOut_acquire

theorem alone_release : Alone μ (release : Process σ ω Unit) μ.unlock := fun _ _ _ =>
  wpOut_release

/-- Sequential composition. -/
theorem Alone.bind {f : α → Process σ ω β} {g : α → Program σ β} (hp : Alone μ p m)
    (hf : ∀ a, Alone μ (f a) (g a)) : Alone μ (p >>= f) (m >>= g) := by
  intro Q out s
  rw [wpOut_bind, wp_bind, hp]
  exact wp_congr fun a s' => hf a Q out s'

/-- Both branches of a conditional. -/
theorem Alone.ite {c : Prop} [Decidable c] {q : Process σ ω α} {n : Program σ α}
    (hp : Alone μ p m) (hq : Alone μ q n) :
    Alone μ (if c then p else q) (if c then m else n) := by
  split
  · exact hp
  · exact hq

end Process

end HeapLib
