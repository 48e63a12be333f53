import Mathlib

/-!
# Runs of a labelled transition system

A run is the list of the transitions taken, in order, each with the states before and after it. What
every transition preserves holds at the end of a run, and it holds before each of its transitions.
-/

namespace HeapLib

variable {σ ε : Type*}

/-- A transition between two states, with its label. -/
structure Transition (σ ε : Type*) where
  before : σ
  event : ε
  after : σ

/-- `tr` leads from `s` to the last state by transitions of `step`. -/
inductive Run (step : σ → ε → σ → Prop) (s : σ) : List (Transition σ ε) → σ → Prop
  | nil : Run step s [] s
  | snoc {tr : List (Transition σ ε)} {s₁ s₂ : σ} {e : ε} (h : Run step s tr s₁)
      (hstep : step s₁ e s₂) : Run step s (tr ++ [⟨s₁, e, s₂⟩]) s₂

namespace Run

variable {step : σ → ε → σ → Prop} {s s' s'' : σ} {tr tr' : List (Transition σ ε)}

/-- What the transitions of a run preserve holds at its end. -/
theorem preserves {I : σ → Prop} (h : Run step s tr s') (hs : I s)
    (hkeep : ∀ t ∈ tr, I t.before → step t.before t.event t.after → I t.after) : I s' := by
  induction h with
  | nil => exact hs
  | snoc _ hstep ih =>
    have hbefore := ih fun t ht => hkeep t (List.mem_append_left _ ht)
    exact hkeep _ (List.mem_append_right _ (List.mem_singleton_self _)) hbefore hstep

/-- Every transition of a run is taken from a state that a run reaches. -/
theorem exists_before (h : Run step s tr s') :
    ∀ t ∈ tr, ∃ tr', Run step s tr' t.before ∧ step t.before t.event t.after := by
  induction h with
  | nil => exact fun t ht => absurd ht List.not_mem_nil
  | snoc hrun hstep ih =>
    intro t ht
    rcases List.mem_append.mp ht with ht | ht
    · exact ih t ht
    · obtain rfl := List.mem_singleton.mp ht
      exact ⟨_, hrun, hstep⟩

/-- What the transitions of a run preserve holds before each of them. -/
theorem invariant_before {I : σ → Prop} (h : Run step s tr s') (hs : I s)
    (hkeep : ∀ t ∈ tr, I t.before → step t.before t.event t.after → I t.after) :
    ∀ t ∈ tr, I t.before ∧ step t.before t.event t.after := by
  induction h with
  | nil => exact fun t ht => absurd ht List.not_mem_nil
  | snoc hrun hstep ih =>
    have hkeep' := fun t ht => hkeep t (List.mem_append_left _ ht)
    intro t ht
    rcases List.mem_append.mp ht with ht | ht
    · exact ih hkeep' t ht
    · obtain rfl := List.mem_singleton.mp ht
      exact ⟨hrun.preserves hs hkeep', hstep⟩

/-- A run followed by another one. -/
theorem append (h : Run step s tr s') (h' : Run step s' tr' s'') :
    Run step s (tr ++ tr') s'' := by
  induction h' with
  | nil => rwa [List.append_nil]
  | snoc _ hstep ih =>
    rw [← List.append_assoc]
    exact ih.snoc hstep

/-- A run of a single transition. -/
theorem single {e : ε} (h : step s e s') : Run step s [⟨s, e, s'⟩] s' :=
  Run.nil.snoc h

end Run

/-! ## Simulation -/

/-- What is seen of a run, when a transition shows what `seen` says of its label. -/
def observed {ν : Type*} (seen : ε → List ν) (tr : List (Transition σ ε)) : List ν :=
  tr.flatMap fun t => seen t.event

/-- Of one run after another, first what is seen of the one is seen. -/
theorem observed_append {ν : Type*} (seen : ε → List ν) (tr tr' : List (Transition σ ε)) :
    observed seen (tr ++ tr') = observed seen tr ++ observed seen tr' := List.flatMap_append

/-- A run of which every label is seen. -/
theorem observed_all (tr : List (Transition σ ε)) :
    observed (fun e => [e]) tr = tr.map Transition.event := by
  induction tr with
  | nil => rfl
  | cons t tr ih => exact congrArg (t.event :: ·) ih

/-- If every transition is matched by a run that shows the same, then so is every run. -/
theorem Run.simulate {σ' ε' ν : Type*} {step : σ → ε → σ → Prop} {step' : σ' → ε' → σ' → Prop}
    {seen : ε → List ν} {seen' : ε' → List ν} {s s' : σ} {t : σ'} {tr : List (Transition σ ε)}
    (sim : σ → σ' → Prop) (hrun : Run step s tr s') (hs : sim s t)
    (hstep : ∀ s e s₁ t, sim s t → step s e s₁ →
      ∃ tr' t₁, Run step' t tr' t₁ ∧ observed seen' tr' = seen e ∧ sim s₁ t₁) :
    ∃ tr' t', Run step' t tr' t' ∧ observed seen' tr' = observed seen tr ∧ sim s' t' := by
  induction hrun with
  | nil => exact ⟨[], t, .nil, rfl, hs⟩
  | @snoc tr s₁ s₂ e hrun hlast ih =>
    obtain ⟨tr₁, t₁, hrun₁, hseen₁, hsim₁⟩ := ih
    obtain ⟨tr₂, t₂, hrun₂, hseen₂, hsim₂⟩ := hstep s₁ e s₂ t₁ hsim₁ hlast
    refine ⟨tr₁ ++ tr₂, t₂, hrun₁.append hrun₂, ?_, hsim₂⟩
    rw [observed_append, observed_append, hseen₁, hseen₂]
    simp only [observed, List.flatMap_cons, List.flatMap_nil, List.append_nil]

end HeapLib
