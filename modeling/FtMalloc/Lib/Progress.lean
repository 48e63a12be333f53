import FtMalloc.Lib.Linearization

/-!
# Progress

As long as no thread invokes an operation with the lock, the owner of the lock is in its critical
section. Left alone it gives the lock back, and then any open call can respond, if the state is as
its operation expects it.
-/

namespace HeapLib

open Process

variable {τ ι σ ω α : Type} [DecidableEq τ]

namespace Session

variable {K : Contract ι σ ω α} {S S' : Session τ ι σ ω α} {O O' : Object τ ι σ (α × List ω)}
  {i : τ} {e : Option (Shown τ ι (α × List ω))} {proc : ι → Process σ ω α} {callable : Set ι}
  {f : Open ι σ ω α} {fs : List (Open ι σ ω α)} {c : ι} {out : List ω} {p : Process σ ω α}
  {s : σ}

/-! ## Quiet runs -/

omit [DecidableEq τ] in
/-- The latest call of the owner of the lock is in its critical section. -/
def Calm (S : Session τ ι σ ω α) : Prop :=
  ∀ i, S.owner = some i → ∃ f fs, S.stack i = f :: fs ∧ f.left.Section

omit [DecidableEq τ] in
/-- The call on top, when it is that of the owner. -/
theorem Calm.top (h : S.Calm) (htop : S.stack i = f :: fs) (howner : S.owner = some i) :
    f.left.Section := by
  obtain ⟨f', fs', heq, hsection⟩ := h i howner
  rw [htop] at heq
  cases heq
  exact hsection

/-- One thread gets another stack, with a critical section on top if it owns the lock. -/
theorem Calm.put {o : Option τ} (h : S.Calm) (hothers : ∀ j, j ≠ i → o = some j → S.owner = some j)
    (hi : o = some i → ∃ f gs, fs = f :: gs ∧ f.left.Section) : (S.put i fs s o).Calm := by
  intro j howner
  by_cases hj : j = i
  · subst hj
    rw [put_stack]
    exact hi howner
  · rw [put_stack_of_ne hj]
    exact h j (hothers j hj howner)

/-- A step stays calm, unless it invokes an operation with the lock. -/
theorem Calm.step (h : S.Calm) (hsim : Simulates K S O)
    (hstep : Step K.mutex proc callable K.pre S e S')
    (hquiet : ∀ i c, e = some (.invoke i c) → S.owner ≠ some i) : S'.Calm := by
  have hown {i : τ} (j : τ) : j ≠ i → S.owner = some j → S.owner = some j := fun _ => id
  cases hstep with
  | @enter i c hidle => exact h.put hown fun howner => absurd howner (hquiet i c rfl)
  | @callback i c d out w p fs htop hd =>
    exact h.put hown fun howner => absurd howner (hquiet i d rfl)
  | @lock i c out p fs htop hfree hpre =>
    obtain ⟨x, xs, -, -, hf, -⟩ := hsim.idle htop id
    cases hf with
    | done hcommits => exact hcommits.elim
    | pending hatomic =>
      exact h.put (fun j hj heq => absurd (Option.some.inj heq).symm hj)
        fun _ => ⟨_, _, rfl, hatomic.1⟩
  | unlock htop howner => exact h.put nofun nofun
  | body htop hrun => exact h.put hown fun howner => ⟨_, _, rfl, h.top htop howner _⟩
  | @call i c out w p fs htop =>
    refine h.put hown fun howner => ⟨_, _, rfl, ?_⟩
    exact show (Process.call w p).Section from h.top htop howner
  | respond htop => exact h.put hown fun howner => (h.top htop howner).elim

/-- A quiet run ends calm. -/
theorem Simulates.calm_of_run {tr : List (Transition _ _)} (h : Simulates K S O) (hcalm : S.Calm)
    (hproc : ∀ c, (proc c).Atomic K c []) (hrun : Run (Step K.mutex proc callable K.pre) S tr S')
    (hquiet : Quiet tr) : S'.Calm ∧ ∃ O', Simulates K S' O' :=
  hrun.preserves (I := fun S => S.Calm ∧ ∃ O, Simulates K S O) ⟨hcalm, O, h⟩
    fun t ht hbefore hstep => by
      obtain ⟨hcalm, O, hsim⟩ := hbefore
      obtain ⟨-, O', -, -, hsim'⟩ := hsim.step hproc hstep
      exact ⟨hcalm.step hsim hstep (hquiet t ht), O', hsim'⟩

omit [DecidableEq τ] in
/-- At the start nobody has the lock. -/
theorem Start.calm {I : σ → Prop} (h : Start I S) : S.Calm := fun i howner => by
  rw [h.owner] at howner
  cases howner

/-! ## Calls left alone -/

section

variable (proc callable)

/-- A thread in its critical section, left alone, gives the lock back and is about to respond. -/
theorem exists_release {Q : α → List ω → σ → Prop} (hsection : p.Section)
    (hwp : wpOut K.mutex p Q out S.state) (htop : S.stack i = ⟨c, out, p⟩ :: fs)
    (howner : S.owner = some i) : ∃ tr a out' s,
      Run (Step K.mutex proc callable K.pre) S tr (S.put i (⟨c, out', .ret a⟩ :: fs) s none) ∧
        observed Option.toList tr = [] := by
  induction p generalizing S out with
  | ret a => exact hsection.elim
  | lock p _ => exact hsection.elim
  | unlock p _ =>
    obtain ⟨a, rfl⟩ := hsection
    exact ⟨_, a, out, _, Run.single (.unlock htop howner), rfl⟩
  | body m k ih =>
    change wpOut K.mutex (liftM m >>= k) Q out S.state at hwp
    rw [wpOut_lift_bind] at hwp
    obtain ⟨b, s, hrun, hwp⟩ := hwp
    have hstep : Step K.mutex proc callable K.pre S none _ := .body htop hrun
    obtain ⟨tr, a, out', s', hrest, hseen⟩ := ih b (hsection b)
      (S := S.put i (⟨c, out, k b⟩ :: fs) s S.owner) hwp put_stack howner
    rw [put_put] at hrest
    exact ⟨_, a, out', s', (Run.single hstep).append hrest, hseen⟩
  | call w p ih =>
    change wpOut K.mutex (perform w >>= fun _ => p) Q out S.state at hwp
    rw [wpOut_perform_bind] at hwp
    have hstep : Step K.mutex proc callable K.pre S none _ := .call htop
    obtain ⟨tr, a, out', s', hrest, hseen⟩ := ih hsection
      (S := S.put i (⟨c, out ++ [w], p⟩ :: fs) S.state S.owner) hwp put_stack howner
    rw [put_put] at hrest
    exact ⟨_, a, out', s', (Run.single hstep).append hrest, hseen⟩

/-- A call whose response is known responds when it is left alone. -/
theorem exists_respond_of_commits {Q : α × List ω → Prop} (hcommits : p.Commits Q out)
    (htop : S.stack i = ⟨c, out, p⟩ :: fs) : ∃ tr r,
      Run (Step K.mutex proc callable K.pre) S tr (S.put i fs S.state S.owner) ∧
        observed Option.toList tr = [.respond i r] := by
  induction p generalizing S out with
  | ret a => exact ⟨_, _, Run.single (.respond htop), rfl⟩
  | lock p _ => exact hcommits.elim
  | unlock p _ => exact hcommits.elim
  | body m k _ => exact hcommits.elim
  | call w p ih =>
    have hstep : Step K.mutex proc callable K.pre S none _ := .call htop
    obtain ⟨tr, r, hrest, hseen⟩ := ih hcommits
      (S := S.put i (⟨c, out ++ [w], p⟩ :: fs) S.state S.owner) put_stack
    rw [put_put] at hrest
    exact ⟨_, r, (Run.single hstep).append hrest, hseen⟩

/-- An atomic operation responds if it finds the lock free and is left alone. -/
theorem exists_respond (hatomic : p.Atomic K c out) (htop : S.stack i = ⟨c, out, p⟩ :: fs)
    (hfree : S.owner = none) (hI : K.inv S.state) (hpre : K.pre c S.state) : ∃ tr r s,
      Run (Step K.mutex proc callable K.pre) S tr (S.put i fs s none) ∧
        observed Option.toList tr = [.respond i r] := by
  induction p generalizing S out with
  | ret a =>
    have hstep : Step K.mutex proc callable K.pre S _ _ := .respond htop
    rw [hfree] at hstep
    exact ⟨_, _, _, Run.single hstep, rfl⟩
  | lock p _ =>
    obtain ⟨hsection, hwp⟩ := hatomic
    have hstep : Step K.mutex proc callable K.pre S none _ := .lock htop hfree hpre
    obtain ⟨tr, a, out', s, hrest, hseen⟩ := exists_release proc callable
      (S := S.put i (⟨c, out, p⟩ :: fs) (K.mutex.set true S.state) (some i)) hsection
      (hwp S.state hI hpre).2 put_stack rfl
    rw [put_put] at hrest
    have hlast : Step K.mutex proc callable K.pre (S.put i (⟨c, out', .ret a⟩ :: fs) s none) _ _ :=
      .respond put_stack
    rw [put_put] at hlast
    refine ⟨_, (a, out'), _, ((Run.single hstep).append hrest).append (Run.single hlast), ?_⟩
    rw [observed_append, observed_append, hseen]
    rfl
  | unlock p _ => exact hatomic.elim
  | body m k ih =>
    obtain ⟨b, hrun, hb⟩ := hatomic S.state
    have hstep : Step K.mutex proc callable K.pre S none _ := .body htop hrun
    rcases hb with hb | ⟨-, hb⟩
    · obtain ⟨tr, r, s, hrest, hseen⟩ := ih b hb
        (S := S.put i (⟨c, out, k b⟩ :: fs) S.state S.owner) put_stack hfree hI hpre
      rw [put_put] at hrest
      exact ⟨_, r, s, (Run.single hstep).append hrest, hseen⟩
    · obtain ⟨tr, r, hrest, hseen⟩ := exists_respond_of_commits (K := K) proc callable hb
        (S := S.put i (⟨c, out, k b⟩ :: fs) S.state S.owner) put_stack
      rw [put_put] at hrest
      have hdone := (Run.single hstep).append hrest
      rw [put_owner, hfree] at hdone
      exact ⟨_, r, _, hdone, hseen⟩
  | call w p ih =>
    have hstep : Step K.mutex proc callable K.pre S none _ := .call htop
    obtain ⟨tr, r, s, hrest, hseen⟩ := ih hatomic
      (S := S.put i (⟨c, out ++ [w], p⟩ :: fs) S.state S.owner) put_stack hfree hI hpre
    rw [put_put] at hrest
    exact ⟨_, r, s, (Run.single hstep).append hrest, hseen⟩

/-- A calm owner of the lock, left alone, gives it back without a response. -/
theorem Simulates.exists_free (h : Simulates K S O) (hcalm : S.Calm) : ∃ tr S₁,
    Run (Step K.mutex proc callable K.pre) S tr S₁ ∧ observed Option.toList tr = [] ∧
      S₁.owner = none ∧ ∀ i, (S₁.stack i).tail = (S.stack i).tail ∧
        (S₁.stack i).head?.map Open.op = (S.stack i).head?.map Open.op := by
  cases howner : S.owner with
  | none => exact ⟨[], S, .nil, rfl, howner, fun i => ⟨rfl, rfl⟩⟩
  | some j =>
    obtain ⟨⟨c, out, p⟩, fs, htop, hsection⟩ := hcalm j howner
    have hsame {out' : List ω} {a : α} {s : σ} (i : τ) :
        ((S.put j (⟨c, out', .ret a⟩ :: fs) s none).stack i).tail = (S.stack i).tail ∧
        ((S.put j (⟨c, out', .ret a⟩ :: fs) s none).stack i).head?.map Open.op =
          (S.stack i).head?.map Open.op := by
      by_cases hi : i = j
      · subst hi
        rw [put_stack, htop]
        exact ⟨rfl, rfl⟩
      · rw [put_stack_of_ne hi]
        exact ⟨rfl, rfl⟩
    obtain ⟨-, x, xs, -, -, hbusy, -⟩ := h.busy htop hsection
    cases hbusy with
    | pending hsection _ _ hwp =>
      obtain ⟨tr, a, out', s, hrun, hseen⟩ :=
        exists_release proc callable hsection hwp htop howner
      exact ⟨tr, _, hrun, hseen, rfl, hsame⟩
    | done _ => exact ⟨_, _, Run.single (.unlock htop howner), rfl, rfl, hsame⟩

end

/-- In a calm session no call is stuck. The owner of the lock can give it back, and then any open
call can respond, if the state is then as the operation expects it. -/
theorem Simulates.completes (h : Simulates K S O) (hcalm : S.Calm)
    (hproc : ∀ c, (proc c).Atomic K c []) (htop : S.stack i = f :: fs) :
    ∃ tr S₁, Run (Step K.mutex proc callable K.pre) S tr S₁ ∧ observed Option.toList tr = [] ∧
      S₁.owner = none ∧ (K.pre f.op S₁.state → ∃ tr' S₂ r,
        Run (Step K.mutex proc callable K.pre) S₁ tr' S₂ ∧
          observed Option.toList tr' = [.respond i r] ∧ S₂.stack i = fs) := by
  obtain ⟨tr, S₁, hrun, hseen, hfree, hsame⟩ := h.exists_free proc callable hcalm
  refine ⟨tr, S₁, hrun, hseen, hfree, fun hpre => ?_⟩
  obtain ⟨_, O₁, -, -, h₁⟩ := h.run hproc hrun
  obtain ⟨htail, hhead⟩ := hsame i
  rw [htop] at htail hhead
  cases hfs : S₁.stack i with
  | nil =>
    rw [hfs] at hhead
    cases hhead
  | cons g gs =>
    rw [hfs] at htail hhead
    obtain rfl : gs = fs := htail
    have hop : g.op = f.op := Option.some.inj hhead
    obtain ⟨x, xs, -, -, ⟨hidle, -⟩ | ⟨howner, -⟩⟩ := h₁.top hfs
    · cases hidle with
      | pending hatomic =>
        obtain rfl := hop
        obtain ⟨tr', r, s, hrun', hseen'⟩ := exists_respond proc callable hatomic hfs hfree
          (h₁.free hfree ▸ h₁.inv) hpre
        exact ⟨tr', _, r, hrun', hseen', put_stack⟩
      | done hcommits =>
        obtain ⟨tr', r, hrun', hseen'⟩ :=
          exists_respond_of_commits proc callable hcommits hfs
        exact ⟨tr', _, r, hrun', hseen', put_stack⟩
    · rw [hfree] at howner
      cases howner

end Session

end HeapLib
