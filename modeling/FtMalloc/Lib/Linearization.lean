import FtMalloc.Lib.AtomicObject

/-!
# Linearization

The simulation of a session by the atomic object. A call either has not taken effect, or it has and
its response is known. The object is in the state in which the lock was last free, or in the state
that the call with the lock is about to leave, when a call that has looked at the view needs it to
have taken effect.
-/

namespace HeapLib

open Process

variable {τ ι σ ω α : Type}

namespace Session

/-- A call without the lock: it has not taken effect and is atomic, or it has and its response is
known. -/
inductive Idle (K : Contract ι σ ω α) : Open ι σ ω α → ι × Option (α × List ω) → Prop
  | pending {c : ι} {out : List ω} {p : Process σ ω α} (h : p.Atomic K c out) :
      Idle K ⟨c, out, p⟩ (c, none)
  | done {c : ι} {out : List ω} {p : Process σ ω α} {r : α × List ω}
      (h : p.Commits (fun x => x = r) out) : Idle K ⟨c, out, p⟩ (c, some r)

/-- The call with the lock, in the state `s`: what is left is the rest of a step from `base`, or it
has taken effect, is about to give the lock back, and `base` is the state that it leaves. -/
inductive Busy (K : Contract ι σ ω α) (base s : σ) : Open ι σ ω α → ι × Option (α × List ω) → Prop
  | pending {c : ι} {out : List ω} {p : Process σ ω α} (hsection : p.Section)
      (hlast : p.ViewLast K.view) (hview : K.view s → K.view base ∨ ∃ a, p = .unlock (.ret a))
      (hwp : wpOut K.mutex p (fun a out' s' => K.spec c base (a, out') s' ∧ K.inv s') out s) :
      Busy K base s ⟨c, out, p⟩ (c, none)
  | done {c : ι} {out : List ω} {a : α} (hbase : base = K.mutex.set false s) :
      Busy K base s ⟨c, out, .unlock (.ret a)⟩ (c, some (a, out))

/-- The call on top waits for a library call. -/
def Waits (fs : List (Open ι σ ω α)) : Prop := ∀ f ∈ fs.head?, ∃ w p, f.left = .call w p

/-- The calls of a thread, one of which has the lock if `held` says so. -/
inductive Matches (K : Contract ι σ ω α) (base s : σ) :
    Bool → List (Open ι σ ω α) → List (ι × Option (α × List ω)) → Prop
  | nil : Matches K base s false [] []
  | idle {held : Bool} {f : Open ι σ ω α} {fs : List (Open ι σ ω α)}
      {x : ι × Option (α × List ω)} {xs : List (ι × Option (α × List ω))} (hf : Idle K f x)
      (hwaits : Waits fs) (hfs : Matches K base s held fs xs) :
      Matches K base s held (f :: fs) (x :: xs)
  | busy {f : Open ι σ ω α} {fs : List (Open ι σ ω α)} {x : ι × Option (α × List ω)}
      {xs : List (ι × Option (α × List ω))} (hf : Busy K base s f x) (hwaits : Waits fs)
      (hfs : Matches K base s false fs xs) : Matches K base s true (f :: fs) (x :: xs)

variable {K : Contract ι σ ω α} {f : Open ι σ ω α} {fs : List (Open ι σ ω α)}
  {x : ι × Option (α × List ω)} {xs : List (ι × Option (α × List ω))} {base base' s s' : σ}
  {c : ι} {out : List ω} {p : Process σ ω α}

/-- Without the lock there is no critical section. -/
theorem Idle.not_section (s : σ) (h : Idle K f x) : ¬ f.left.Section := by
  cases h with
  | pending h => exact h.not_section s
  | done h => exact h.not_section

/-- With the lock there is one. -/
theorem Busy.isSection (h : Busy K base s f x) : f.left.Section := by
  cases h with
  | pending hsection => exact hsection
  | done => exact ⟨_, rfl⟩

/-- One step of a critical section that runs a piece of the program. -/
theorem Busy.body {γ : Type} {m : Program σ γ} {k : γ → Process σ ω α} {b : γ}
    (h : Busy K base s ⟨c, out, .body m k⟩ x) (hrun : m s = some (b, s')) :
    Busy K base s' ⟨c, out, k b⟩ x := by
  cases h with
  | pending hsection hlast hview hwp =>
    change wpOut K.mutex (liftM m >>= k) _ out s at hwp
    rw [wpOut_lift_bind] at hwp
    refine .pending (hsection b) (hlast.2 b) (fun hs' => ?_) ((wp_of_run hrun).mp hwp)
    rcases hlast.1 with haverts | hend
    · rcases hview (haverts.of_run s b s' hrun hs') with hbase | ⟨a, ha⟩
      · exact .inl hbase
      · cases ha
    · exact .inr (hend b)

/-- One step of a critical section that calls the library. -/
theorem Busy.call {w : ω} (h : Busy K base s ⟨c, out, .call w p⟩ x) :
    Busy K base s ⟨c, out ++ [w], p⟩ x := by
  cases h with
  | pending hsection hlast hview hwp =>
    change wpOut K.mutex (perform w >>= fun _ => p) _ out s at hwp
    rw [wpOut_perform_bind] at hwp
    refine .pending hsection hlast (fun hs => ?_) hwp
    rcases hview hs with hbase | ⟨a, ha⟩
    · exact .inl hbase
    · cases ha

/-- What a call that is about to give the lock back does as a single step. -/
theorem spec_of_wpOut_unlock {a : α}
    (h : wpOut K.mutex (.unlock (.ret a)) (fun a out' s' => K.spec c base (a, out') s' ∧ K.inv s')
      out s) : K.spec c base (a, out) (K.mutex.set false s) ∧ K.inv (K.mutex.set false s) := by
  change wpOut K.mutex (release >>= fun _ => pure a) _ out s at h
  rw [wpOut_bind, wpOut_release] at h
  obtain ⟨_, s', hunlock, h⟩ := h
  change (if K.mutex.held s then some ((), K.mutex.set false s) else none) = _ at hunlock
  split at hunlock
  · cases hunlock
    exact (wpOut_pure a).mp h
  · cases hunlock

/-- The calls of a thread without the lock match in any states. -/
theorem Matches.rebase (h : Matches K base s false fs xs) : Matches K base' s' false fs xs := by
  generalize hheld : false = held at h
  induction h with
  | nil => exact .nil
  | idle hf hwaits _ ih => exact .idle hf hwaits (ih hheld)
  | busy => cases hheld

/-- If the view holds in the middle of a critical section, it holds of the object, or the call with
the lock is on top and about to give it back. -/
theorem Matches.view (h : Matches K base s true fs xs) (hview : K.view s) : K.view base ∨
    ∃ c out a fs' xs', fs = ⟨c, out, .unlock (.ret a)⟩ :: fs' ∧ xs = (c, none) :: xs' ∧
      Waits fs' ∧ Matches K base s false fs' xs' ∧
      K.spec c base (a, out) (K.mutex.set false s) ∧ K.inv (K.mutex.set false s) := by
  generalize hheld : true = held at h
  induction h with
  | nil => cases hheld
  | idle hf hwaits hfs ih =>
    rcases ih hheld with hbase | ⟨c, out, a, fs', xs', rfl, -⟩
    · exact .inl hbase
    · obtain ⟨w, p, hcall⟩ := hwaits _ rfl
      cases hcall
  | busy hf hwaits hfs ih =>
    cases hf with
    | pending hsection hlast hseen hwp =>
      rcases hseen hview with hbase | ⟨a, rfl⟩
      · exact .inl hbase
      · exact .inr ⟨_, _, a, _, _, rfl, rfl, hwaits, hfs, spec_of_wpOut_unlock hwp⟩
    | done hbase =>
      rw [hbase]
      exact .inl ((K.view_set false s).mpr hview)

variable [DecidableEq τ]

/-- The object is in the state in which the lock was last free, or in that which the owner of the
lock is about to leave. -/
structure Simulates (K : Contract ι σ ω α) (S : Session τ ι σ ω α)
    (O : Object τ ι σ (α × List ω)) : Prop where
  inv : K.inv O.state
  free : S.owner = none → O.state = S.state
  calls : ∀ i, Matches K O.state S.state (decide (S.owner = some i)) (S.stack i) (O.calls i)

variable {S S' : Session τ ι σ ω α} {O O' : Object τ ι σ (α × List ω)} {i : τ}
  {e : Option (Shown τ ι (α × List ω))} {proc : ι → Process σ ω α} {callable : Set ι}

/-- The call on top of a thread has the lock or has not. -/
theorem Simulates.top (h : Simulates K S O) (htop : S.stack i = f :: fs) :
    ∃ x xs, O.calls i = x :: xs ∧ Waits fs ∧
      (Idle K f x ∧ Matches K O.state S.state (decide (S.owner = some i)) fs xs ∨
        S.owner = some i ∧ Busy K O.state S.state f x ∧
          Matches K O.state S.state false fs xs) := by
  have hi := h.calls i
  rw [htop] at hi
  generalize hys : O.calls i = ys at hi
  generalize hheld : decide (S.owner = some i) = held at hi
  cases hi with
  | idle hf hwaits hfs => exact ⟨_, _, rfl, hwaits, .inl ⟨hf, hfs⟩⟩
  | busy hf hwaits hfs => exact ⟨_, _, rfl, hwaits, .inr ⟨of_decide_eq_true hheld, hf, hfs⟩⟩

/-- The call on top, when it is not in a critical section. -/
theorem Simulates.idle (h : Simulates K S O) (htop : S.stack i = f :: fs)
    (hnot : ¬ f.left.Section) : ∃ x xs, O.calls i = x :: xs ∧ Waits fs ∧ Idle K f x ∧
      Matches K O.state S.state (decide (S.owner = some i)) fs xs := by
  obtain ⟨x, xs, hxs, hwaits, ⟨hf, hfs⟩ | ⟨-, hf, -⟩⟩ := h.top htop
  · exact ⟨x, xs, hxs, hwaits, hf, hfs⟩
  · exact absurd hf.isSection hnot

/-- The call on top, when it is in a critical section. -/
theorem Simulates.busy (h : Simulates K S O) (htop : S.stack i = f :: fs)
    (hsection : f.left.Section) : S.owner = some i ∧ ∃ x xs, O.calls i = x :: xs ∧ Waits fs ∧
      Busy K O.state S.state f x ∧ Matches K O.state S.state false fs xs := by
  obtain ⟨x, xs, hxs, hwaits, ⟨hf, -⟩ | ⟨howner, hf, hfs⟩⟩ := h.top htop
  · exact absurd hsection (hf.not_section S.state)
  · exact ⟨howner, x, xs, hxs, hwaits, hf, hfs⟩

/-- One thread changes its calls, and neither the lock nor the state changes. -/
theorem Simulates.put (h : Simulates K S O)
    (hi : Matches K O.state S.state (decide (S.owner = some i)) fs xs) :
    Simulates K (S.put i fs S.state S.owner) (O.put i xs O.state) where
  inv := h.inv
  free := h.free
  calls := by
    intro j
    by_cases hj : j = i
    · subst hj
      rw [put_stack, Object.put_calls]
      exact hi
    · rw [put_stack_of_ne hj, Object.put_calls_of_ne hj]
      exact h.calls j

/-- One thread changes its calls and the states, with the lock or by taking it or giving it back. -/
theorem Simulates.update {o : Option τ} (h : Simulates K S O) (hinv : K.inv base)
    (hfree : o = none → base = s) (hothers : ∀ j, j ≠ i → S.owner ≠ some j ∧ o ≠ some j)
    (hi : Matches K base s (decide (o = some i)) fs xs) :
    Simulates K (S.put i fs s o) (O.put i xs base) where
  inv := hinv
  free := hfree
  calls := by
    intro j
    by_cases hj : j = i
    · subst hj
      rw [put_stack, Object.put_calls]
      exact hi
    · have hmatch := h.calls j
      rw [decide_eq_false (hothers j hj).1] at hmatch
      rw [put_stack_of_ne hj, Object.put_calls_of_ne hj, put_owner,
        decide_eq_false (hothers j hj).2]
      exact hmatch.rebase

omit [DecidableEq τ] in
/-- The lock has one owner. -/
theorem owner_ne_of_ne {o : Option τ} {j : τ} (howner : o = some i) (hj : j ≠ i) : o ≠ some j := by
  rw [howner]
  exact fun hij => hj (Option.some.inj hij).symm

/-- If the view holds, the object can get to a state in which it holds. -/
theorem Simulates.exists_view (h : Simulates K S O) (hview : K.view S.state) : ∃ tr O',
    Run (Object.Step K.spec) O tr O' ∧ observed Option.toList tr = [] ∧ Simulates K S O' ∧
      K.view O'.state := by
  cases howner : S.owner with
  | none => exact ⟨[], O, .nil, rfl, h, h.free howner ▸ hview⟩
  | some j =>
    have hj := h.calls j
    rw [decide_eq_true howner] at hj
    rcases hj.view hview with hbase | ⟨c, out, a, fs, xs, hfs, hxs, hwaits, hrest, hspec, hinv⟩
    · exact ⟨[], O, .nil, rfl, h, hbase⟩
    · refine ⟨_, _, Run.single (.effect hxs hspec), rfl, ?_, (K.view_set false _).mpr hview⟩
      rw [← S.put_self j]
      refine h.update hinv (fun hnone => ?_)
        (fun k hk => ⟨owner_ne_of_ne howner hk, owner_ne_of_ne howner hk⟩) ?_
      · rw [howner] at hnone
        cases hnone
      · rw [decide_eq_true howner, hfs]
        exact .busy (.done rfl) hwaits hrest.rebase

/-! ## The simulation -/

/-- The object does nothing. -/
theorem Simulates.silent (h : Simulates K S' O) : ∃ tr O', Run (Object.Step K.spec) O tr O' ∧
    observed Option.toList tr = [] ∧ Simulates K S' O' := ⟨[], O, .nil, rfl, h⟩

/-- A step of a call that runs a piece of the program. -/
theorem Simulates.body {γ : Type} {m : Program σ γ} {k : γ → Process σ ω α} {b : γ}
    (h : Simulates K S O) (htop : S.stack i = ⟨c, out, .body m k⟩ :: fs)
    (hrun : m S.state = some (b, s)) : ∃ tr O', Run (Object.Step K.spec) O tr O' ∧
      observed Option.toList tr = [] ∧ Simulates K (S.put i (⟨c, out, k b⟩ :: fs) s S.owner) O' := by
  obtain ⟨x, xs, hxs, hwaits, ⟨hf, hfs⟩ | ⟨howner, hf, hfs⟩⟩ := h.top htop
  · cases hf with
    | done hcommits => exact hcommits.elim
    | pending hatomic =>
      obtain ⟨b', hrun', hb⟩ := hatomic S.state
      rw [hrun', Option.some.injEq, Prod.mk.injEq] at hrun
      obtain ⟨rfl, rfl⟩ := hrun
      rcases hb with hb | ⟨hview, hb⟩
      · refine Simulates.silent ?_
        rw [← O.put_self i, hxs]
        exact h.put (.idle (.pending hb) hwaits hfs)
      · -- the call has seen the view: it takes effect now
        obtain ⟨tr, O', hrun', hseen, h', hview'⟩ := h.exists_view hview
        obtain ⟨y, ys, hys, -, hf', hfs'⟩ := h'.idle htop (hatomic.not_section S.state)
        cases hf' with
        | done hcommits => exact hcommits.elim
        | pending _ =>
          obtain ⟨r, hr, hcommits⟩ := hb.exists_response
          have heffect : Object.Step K.spec O' none _ := .effect hys (hr O'.state h'.inv hview')
          refine ⟨_, _, hrun'.append (Run.single heffect), ?_, ?_⟩
          · rw [observed_append, hseen]
            rfl
          · exact h'.put (.idle (.done hcommits) hwaits hfs')
  · refine Simulates.silent ?_
    rw [← O.put_self i, hxs]
    refine h.update h.inv (fun hnone => ?_)
      (fun j hj => ⟨owner_ne_of_ne howner hj, owner_ne_of_ne howner hj⟩) ?_
    · rw [howner] at hnone
      cases hnone
    · rw [decide_eq_true howner]
      exact .busy (hf.body hrun) hwaits hfs.rebase

/-- A call responds. -/
theorem Simulates.respond {a : α} (h : Simulates K S O)
    (htop : S.stack i = ⟨c, out, .ret a⟩ :: fs) : ∃ tr O', Run (Object.Step K.spec) O tr O' ∧
      observed Option.toList tr = [.respond i (a, out)] ∧
      Simulates K (S.put i fs S.state S.owner) O' := by
  obtain ⟨x, xs, hxs, -, hf, hfs⟩ := h.idle htop id
  cases hf with
  | pending hatomic =>
    -- the call has not taken the lock: it takes effect as it returns
    have heffect : Object.Step K.spec O none (O.put i ((c, some (a, out)) :: xs) O.state) :=
      .effect hxs (hatomic O.state h.inv)
    have hrespond : Object.Step K.spec (O.put i ((c, some (a, out)) :: xs) O.state) _ _ :=
      .respond Object.put_calls
    rw [Object.put_put, Object.put_state] at hrespond
    exact ⟨_, _, (Run.single heffect).append (Run.single hrespond), rfl, h.put hfs⟩
  | @done _ _ _ r hcommits =>
    obtain rfl : (a, out) = r := hcommits
    exact ⟨_, _, Run.single (.respond hxs), rfl, h.put hfs⟩

/-- Every step of the threads is matched by the object, and shows the same. -/
theorem Simulates.step (h : Simulates K S O) (hproc : ∀ c, (proc c).Atomic K c [])
    (hstep : Step K.mutex proc callable K.pre S e S') : ∃ tr O',
      Run (Object.Step K.spec) O tr O' ∧ observed Option.toList tr = e.toList ∧
        Simulates K S' O' := by
  cases hstep with
  | @enter i c hidle =>
    have hi := h.calls i
    rw [hidle] at hi
    exact ⟨_, _, Run.single (.invoke i c), rfl, h.put (.idle (.pending (hproc c)) nofun hi)⟩
  | @callback i c d out w p fs htop hd =>
    have hi := h.calls i
    rw [htop] at hi
    refine ⟨_, _, Run.single (.invoke i d), rfl, h.put (.idle (.pending (hproc d)) ?_ hi)⟩
    rintro f ⟨⟩
    exact ⟨w, p, rfl⟩
  | @lock i c out p fs htop hfree hpre =>
    have hne (j : τ) : S.owner ≠ some j := hfree ▸ (Option.some_ne_none j).symm
    obtain ⟨x, xs, hxs, hwaits, hf, hfs⟩ := h.idle htop id
    cases hf with
    | done hcommits => exact hcommits.elim
    | pending hatomic =>
      obtain ⟨hlast, hwp⟩ := hatomic.2 S.state (h.free hfree ▸ h.inv) hpre
      refine Simulates.silent ?_
      rw [← O.put_self i, hxs, h.free hfree]
      refine h.update (h.free hfree ▸ h.inv) nofun
        (fun j hj => ⟨hne j, owner_ne_of_ne rfl hj⟩) ?_
      rw [decide_eq_true rfl]
      rw [decide_eq_false (hne i)] at hfs
      exact .busy (.pending hatomic.1 hlast (fun hs => .inl ((K.view_set true _).mp hs)) hwp)
        hwaits hfs.rebase
  | @unlock i c out p fs htop howner =>
    have hothers (j : τ) (hj : j ≠ i) : S.owner ≠ some j ∧ (none : Option τ) ≠ some j :=
      ⟨owner_ne_of_ne howner hj, (Option.some_ne_none j).symm⟩
    have hnone : decide ((none : Option τ) = some i) = false :=
      decide_eq_false (Option.some_ne_none i).symm
    obtain ⟨x, xs, hxs, hwaits, ⟨hf, -⟩ | ⟨-, hf, hfs⟩⟩ := h.top htop
    · cases hf with
      | pending hatomic => exact hatomic.elim
      | done hcommits => exact hcommits.elim
    · cases hf with
      | pending hsection hlast hview hwp =>
        obtain ⟨a, rfl⟩ := hsection
        obtain ⟨hspec, hinv⟩ := spec_of_wpOut_unlock hwp
        refine ⟨_, _, Run.single (.effect hxs hspec), rfl,
          h.update hinv (fun _ => rfl) hothers ?_⟩
        rw [hnone]
        exact .idle (.done rfl) hwaits hfs.rebase
      | done hbase =>
        refine Simulates.silent ?_
        rw [← O.put_self i, hxs]
        refine h.update h.inv (fun _ => hbase) hothers ?_
        rw [hnone]
        exact .idle (.done rfl) hwaits hfs.rebase
  | body htop hrun => exact h.body htop hrun
  | @call i c out w p fs htop =>
    refine Simulates.silent ?_
    rw [← O.put_self i]
    obtain ⟨x, xs, hxs, hwaits, ⟨hf, hfs⟩ | ⟨howner, hf, hfs⟩⟩ := h.top htop
    · rw [hxs]
      refine h.put ?_
      cases hf with
      | pending hatomic => exact .idle (.pending hatomic) hwaits hfs
      | done hcommits => exact .idle (.done hcommits) hwaits hfs
    · rw [hxs]
      refine h.put ?_
      rw [decide_eq_true howner]
      exact .busy hf.call hwaits hfs
  | respond htop => exact h.respond htop

/-- No thread has made a call. -/
structure Start (I : σ → Prop) (S : Session τ ι σ ω α) : Prop where
  inv : I S.state
  owner : S.owner = none
  stack : ∀ i, S.stack i = []

omit [DecidableEq τ] in
/-- The object with no calls, in the state of a session. -/
def object (S : Session τ ι σ ω α) : Object τ ι σ (α × List ω) := ⟨S.state, fun _ => []⟩

/-- At the start the object simulates the threads. -/
theorem Start.simulates (h : Start K.inv S) : Simulates K S S.object where
  inv := h.inv
  free := fun _ => rfl
  calls := by
    intro i
    rw [h.owner, h.stack, decide_eq_false (Option.some_ne_none i).symm]
    exact .nil

/-- Every run of threads whose operations are atomic is matched by a run of the object that shows
the same invocations and responses. -/
theorem Simulates.run {tr : List (Transition _ _)} (h : Simulates K S O)
    (hproc : ∀ c, (proc c).Atomic K c []) (hrun : Run (Step K.mutex proc callable K.pre) S tr S') :
    ∃ tr' O', Run (Object.Step K.spec) O tr' O' ∧
      observed Option.toList tr' = observed Option.toList tr ∧ Simulates K S' O' :=
  hrun.simulate (Simulates K) h fun _ _ _ _ hsim hstep => hsim.step hproc hstep

end Session

end HeapLib
