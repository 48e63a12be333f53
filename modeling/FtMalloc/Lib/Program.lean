import Mathlib

/-!
# State programs that may fail, and their weakest preconditions

A program transforms a state and returns a value, or fails. `wp p Q s` says that `p` run
from `s` succeeds in a state satisfying `Q`, so failure and success are both settled by it.
Loops are bounded iterations: running out of iterations is a failure, and the loop rule asks
for a variant that excludes it.
-/

namespace HeapLib

variable {σ α β : Type}

/-- A state transformer returning a value, or failing. -/
abbrev Program (σ α : Type) := StateT σ Option α

/-- The program that never returns. -/
def abort : Program σ α := fun _ => none

/-- Total weakest precondition. -/
def wp (p : Program σ α) (Q : α → σ → Prop) (s : σ) : Prop :=
  ∃ a s', p s = some (a, s') ∧ Q a s'

/-- Returning a value changes nothing. -/
@[simp] theorem wp_pure (a : α) (Q : α → σ → Prop) (s : σ) :
    wp (pure a : Program σ α) Q s ↔ Q a s := by
  constructor
  · rintro ⟨a', s', h, hQ⟩
    cases h
    exact hQ
  · exact fun hQ => ⟨a, s, rfl, hQ⟩

/-- Sequential composition. -/
@[simp] theorem wp_bind (p : Program σ α) (f : α → Program σ β) (Q : β → σ → Prop) (s : σ) :
    wp (p >>= f) Q s ↔ wp p (fun a => wp (f a) Q) s := by
  constructor
  · rintro ⟨b, s', h, hQ⟩
    change (p s).bind (fun r => f r.1 r.2) = some (b, s') at h
    obtain ⟨⟨a, s₁⟩, hp, hf⟩ := Option.bind_eq_some_iff.mp h
    exact ⟨a, s₁, hp, b, s', hf, hQ⟩
  · rintro ⟨a, s₁, hp, b, s', hf, hQ⟩
    refine ⟨b, s', ?_, hQ⟩
    change (p s).bind (fun r => f r.1 r.2) = some (b, s')
    rw [hp]
    exact hf

/-- A known run decides every postcondition. -/
theorem wp_of_run {p : Program σ α} {Q : α → σ → Prop} {s s' : σ} {a : α}
    (hrun : p s = some (a, s')) : wp p Q s ↔ Q a s' :=
  ⟨fun h => by
    obtain ⟨a', s₁, hp, hQ⟩ := h
    rw [hp, Option.some.injEq, Prod.mk.injEq] at hrun
    obtain ⟨rfl, rfl⟩ := hrun
    exact hQ, fun hQ => ⟨a, s', hrun, hQ⟩⟩

/-- A postcondition that fixes the result and the state determines the run. -/
theorem run_of_wp {p : Program σ α} {s s' : σ} {a : α}
    (h : wp p (fun b t => b = a ∧ t = s') s) : p s = some (a, s') := by
  obtain ⟨b, t, hrun, rfl, rfl⟩ := h
  exact hrun

/-- A known run goes on with what follows. -/
theorem run_bind {p : Program σ α} {f : α → Program σ β} {s s' : σ} {a : α}
    (hrun : p s = some (a, s')) : (p >>= f) s = f a s' := by
  change (p s).bind (fun r => f r.1 r.2) = f a s'
  rw [hrun]
  rfl

/-- A conditional runs the selected branch. -/
theorem wp_ite (c : Prop) [Decidable c] (p q : Program σ α) (Q : α → σ → Prop) (s : σ) :
    wp (if c then p else q) Q s ↔ if c then wp p Q s else wp q Q s := by
  split <;> rfl

/-- The branch taken when the condition is known to hold. -/
theorem wp_ite_pos {c : Prop} [Decidable c] {p q : Program σ α} {Q : α → σ → Prop} {s : σ}
    (hc : c) : wp (if c then p else q) Q s ↔ wp p Q s := by
  rw [if_pos hc]

/-- The branch taken when the condition is known to fail. -/
theorem wp_ite_neg {c : Prop} [Decidable c] {p q : Program σ α} {Q : α → σ → Prop} {s : σ}
    (hc : ¬ c) : wp (if c then p else q) Q s ↔ wp q Q s := by
  rw [if_neg hc]

/-- A postcondition may be weakened. -/
theorem wp_mono {p : Program σ α} {Q R : α → σ → Prop} {s : σ} (h : wp p Q s)
    (hQR : ∀ a s', Q a s' → R a s') : wp p R s := by
  obtain ⟨a, s', hp, hQ⟩ := h
  exact ⟨a, s', hp, hQR a s' hQ⟩

/-- Equivalent postconditions. -/
theorem wp_congr {p : Program σ α} {Q R : α → σ → Prop} {s : σ} (hQR : ∀ a s', Q a s' ↔ R a s') :
    wp p Q s ↔ wp p R s :=
  exists₂_congr fun a s' => and_congr_right fun _ => hQR a s'

/-- Two postconditions of one run. -/
theorem wp_and {p : Program σ α} {Q R : α → σ → Prop} {s : σ} (hQ : wp p Q s) (hR : wp p R s) :
    wp p (fun a s' => Q a s' ∧ R a s') s := by
  obtain ⟨a, s', hp, hQ⟩ := hQ
  exact ⟨a, s', hp, hQ, (wp_of_run hp).mp hR⟩

/-- Repeat `body` at most `fuel` times; `inl` carries the next loop state and `inr` leaves. -/
def iterate (body : β → Program σ (β ⊕ α)) : ℕ → β → Program σ α
  | 0, _ => abort
  | fuel + 1, b => do
    match ← body b with
    | .inl b' => iterate body fuel b'
    | .inr a => pure a

/-- Loop rule: a variant that every repetition decreases bounds the number of iterations. -/
theorem wp_iterate {body : β → Program σ (β ⊕ α)} {Q : α → σ → Prop} (inv : ℕ → β → σ → Prop)
    (hstep : ∀ n b s, inv n b s →
      wp (body b) (fun r s' => r.elim (fun b' => ∃ k < n, inv k b' s') (fun a => Q a s')) s)
    {fuel n : ℕ} {b : β} {s : σ} (hfuel : n < fuel) (h : inv n b s) :
    wp (iterate body fuel b) Q s := by
  induction fuel generalizing n b s with
  | zero => omega
  | succ fuel ih =>
    rw [iterate, wp_bind]
    apply wp_mono (hstep n b s h)
    intro r s' hr
    cases r with
    | inl b' =>
      obtain ⟨k, hk, hinv⟩ := hr
      exact ih (by omega) hinv
    | inr a => exact (wp_pure a Q s').mpr hr

/-- What every repetition keeps holds when the loop leaves, if it does. -/
theorem wp_iterate_keeps {body : β → Program σ (β ⊕ α)} {Q R : α → σ → Prop} (inv : β → σ → Prop)
    (hstep : ∀ b s r s', inv b s → body b s = some (r, s') →
      r.elim (fun b' => inv b' s') (fun a => R a s'))
    {fuel : ℕ} {b : β} {s : σ} (h : wp (iterate body fuel b) Q s) (hinv : inv b s) :
    wp (iterate body fuel b) (fun a s' => Q a s' ∧ R a s') s := by
  induction fuel generalizing b s with
  | zero =>
    obtain ⟨a, s', hrun, -⟩ := h
    cases hrun
  | succ fuel ih =>
    rw [iterate, wp_bind] at h ⊢
    obtain ⟨r, s', hrun, hr⟩ := h
    have hkeep := hstep b s r s' hinv hrun
    refine ⟨r, s', hrun, ?_⟩
    cases r with
    | inl b' => exact ih hr hkeep
    | inr a => exact (wp_pure _ _ _).mpr ⟨(wp_pure _ _ _).mp hr, hkeep⟩

/-- Scan rule: a loop that walks along a list and leaves at the first element for which `p` has an
answer, or with `d` behind the last one, computes `findSome?` and changes nothing. -/
theorem wp_iterate_scan {γ : Type} {body : β → Program σ (β ⊕ α)} {Q : α → σ → Prop} {key : γ → β}
    {l : List γ} {b₀ : β} {p : γ → Option α} {d : α} {fuel : ℕ} {s : σ}
    (hnil : wp (body b₀) (fun r s' => r = .inr d ∧ s' = s) s)
    (hcons : ∀ pre a post, l = pre ++ a :: post → wp (body (key a)) (fun r s' =>
      r = (match p a with | some v => .inr v | none => .inl ((post.map key).headD b₀)) ∧
        s' = s) s)
    (hfuel : l.length < fuel) (hQ : Q ((l.findSome? p).getD d) s) :
    wp (iterate body fuel ((l.map key).headD b₀)) Q s := by
  refine wp_iterate (fun n b s' => s' = s ∧ ∃ pre post, l = pre ++ post ∧ post.length = n ∧
    b = (post.map key).headD b₀ ∧ l.findSome? p = post.findSome? p) ?_ hfuel
    ⟨rfl, [], l, rfl, rfl, rfl, rfl⟩
  rintro n b s' ⟨rfl, pre, post, hl, hn, rfl, hfind⟩
  cases post with
  | nil =>
    refine wp_mono hnil ?_
    rintro _ _ ⟨rfl, rfl⟩
    rw [hfind] at hQ
    exact hQ
  | cons a post =>
    refine wp_mono (hcons pre a post hl) ?_
    rintro _ _ ⟨rfl, rfl⟩
    rw [hfind, List.findSome?_cons] at hQ
    rw [List.findSome?_cons] at hfind
    cases hp : p a with
    | some v =>
      rw [hp] at hQ
      exact hQ
    | none =>
      rw [hp] at hfind
      rw [List.length_cons] at hn
      exact ⟨post.length, by omega, rfl, pre ++ [a], post, by simp [hl], rfl, rfl, hfind⟩

/-! ## A part of the state -/

/-- The program on a part of a larger state. -/
def onPart {τ : Type} (get : τ → σ) (set : σ → τ → τ) (p : Program σ α) : Program τ α := fun t =>
  (p (get t)).map fun r => (r.1, set r.2 t)

/-- A program on a part leaves the rest alone. -/
theorem wp_onPart {τ : Type} {get : τ → σ} {set : σ → τ → τ} {p : Program σ α} {Q : α → τ → Prop}
    {t : τ} : wp (onPart get set p) Q t ↔ wp p (fun a s' => Q a (set s' t)) (get t) := by
  constructor
  · rintro ⟨a, t', hrun, hQ⟩
    obtain ⟨r, hr, heq⟩ := Option.map_eq_some_iff.mp hrun
    cases heq
    exact ⟨r.1, r.2, hr, hQ⟩
  · rintro ⟨a, s', hrun, hQ⟩
    exact ⟨a, set s' t, by rw [onPart, hrun]; rfl, hQ⟩

/-! ## Properties that no run makes true -/

/-- No run of the program makes `V` true. -/
structure Averts (V : σ → Prop) (p : Program σ α) : Prop where
  of_run : ∀ s a s', p s = some (a, s') → V s' → V s

namespace Averts

variable {V : σ → Prop} {p q : Program σ α}

/-- Returning a value changes nothing. -/
theorem pure (a : α) : Averts V (Pure.pure a : Program σ α) := by
  refine ⟨?_⟩
  rintro s b s' ⟨rfl, rfl⟩
  exact id

/-- Sequential composition. -/
theorem bind {f : α → Program σ β} (hp : Averts V p) (hf : ∀ a, Averts V (f a)) :
    Averts V (p >>= f) := by
  refine ⟨fun s b s' hrun hV => ?_⟩
  change (p s).bind (fun r => f r.1 r.2) = some (b, s') at hrun
  obtain ⟨⟨a, s₁⟩, hfirst, hrest⟩ := Option.bind_eq_some_iff.mp hrun
  exact hp.of_run s a s₁ hfirst ((hf a).of_run s₁ b s' hrest hV)

/-- Both branches of a conditional. -/
theorem ite {c : Prop} [Decidable c] (hp : Averts V p) (hq : Averts V q) :
    Averts V (if c then p else q) := by
  split
  · exact hp
  · exact hq

/-- A loop. -/
theorem iterate {body : β → Program σ (β ⊕ α)} (h : ∀ b, Averts V (body b)) (fuel : ℕ) (b : β) :
    Averts V (iterate body fuel b) := by
  induction fuel generalizing b with
  | zero => exact ⟨nofun⟩
  | succ fuel ih =>
    refine (h b).bind fun r => ?_
    cases r with
    | inl b' => exact ih b'
    | inr a => exact .pure a

end Averts

end HeapLib
