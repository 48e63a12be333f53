import FtMalloc.Lib.Slices
import FtMalloc.Source.Sorting

/-!
# What the sorts do to an array

`merge` makes the merged list of two slices. `merge_split` keeps the two arrays alike before it
sorts a slice of one of them. `quick_split` returns only if the pivot occurs once, and then it is
where it belongs.
-/

namespace FtMalloc

open HeapLib

variable {s s' s'' : Ints} {p q r : ℕ} {i j k l m n v : ℤ} {α : Type}

/-! ## Accesses -/

theorem wp_getInt {Q : ℤ → Ints → Prop} (h : 0 ≤ i ∧ i < s.size p) :
    wp (getInt p i) Q s ↔ Q (s.cell p i) s := wp_of_run (if_pos h)

theorem wp_putInt {Q : Unit → Ints → Prop} (h : 0 ≤ i ∧ i < s.size p) :
    wp (putInt p i v) Q s ↔ Q () (s.put p i v) := wp_of_run (if_pos h)

/-- A value of type `int` is kept, any other has no outcome. -/
theorem wp_int {Q : ℤ → Ints → Prop} :
    wp (int v) Q s ↔ (-2 ^ 31 ≤ v ∧ v < 2 ^ 31) ∧ Q v s := by
  rw [int]
  by_cases h : -2 ^ 31 ≤ v ∧ v < 2 ^ 31
  · rw [if_pos h, wp_pure, and_iff_right h]
  · rw [if_neg h]
    constructor
    · rintro ⟨_, _, habort, _⟩
      cases habort
    · exact fun hv => absurd hv.1 h

theorem wp_int_of_range {Q : ℤ → Ints → Prop} (h : -2 ^ 31 ≤ v ∧ v < 2 ^ 31) :
    wp (int v) Q s ↔ Q v s := wp_int.trans (and_iff_right h)

namespace Ints

@[simp] theorem size_put : (s.put p i v).size = s.size := rfl

theorem cell_put : (s.put p i v).cell p = Function.update (s.cell p) i v :=
  Function.update_self ..

@[simp] theorem cell_put_same : (s.put p i v).cell p i = v := by
  rw [cell_put, Function.update_self]

theorem cell_put_of_ne (h : j ≠ i) : (s.put p i v).cell p j = s.cell p j := by
  rw [cell_put, Function.update_of_ne h]

theorem cell_put_other (h : q ≠ p) : (s.put p i v).cell q = s.cell q := Function.update_of_ne h ..

/-- Nothing changes but the slices from `i` up to `n` of some arrays. -/
structure Within (A : Set ℕ) (i n : ℤ) (s s' : Ints) : Prop where
  size : s'.size = s.size
  other : ∀ q ∉ A, s'.cell q = s.cell q
  outside : ∀ p k, ¬(i ≤ k ∧ k < n) → s'.cell p k = s.cell p k

variable {A B : Set ℕ}

theorem Within.refl (A : Set ℕ) (i n : ℤ) (s : Ints) : s.Within A i n s :=
  ⟨rfl, fun _ _ => rfl, fun _ _ _ => rfl⟩

theorem Within.trans (h : s.Within A i n s') (h' : s'.Within A i n s'') : s.Within A i n s'' :=
  ⟨h'.size.trans h.size, fun q hq => (h'.other q hq).trans (h.other q hq),
    fun p k hk => (h'.outside p k hk).trans (h.outside p k hk)⟩

theorem Within.mono (h : s.Within A i n s') (hA : A ⊆ B) (hi : j ≤ i) (hn : n ≤ m) :
    s.Within B j m s' :=
  ⟨h.size, fun q hq => h.other q fun hmem => hq (hA hmem),
    fun p k hk => h.outside p k (by omega)⟩

/-- A store into the slice. -/
theorem within_put (hp : p ∈ A) (hk : i ≤ k ∧ k < n) : s.Within A i n (s.put p k v) := by
  refine ⟨rfl, fun q hq => cell_put_other fun heq => hq (heq ▸ hp), fun q l hl => ?_⟩
  by_cases hq : q = p
  · subst hq
    exact cell_put_of_ne fun heq => hl (heq ▸ hk)
  · rw [cell_put_other hq]

end Ints

/-! ## `merge` -/

/-- The list of `merge`. -/
def merged (xs ys : List ℤ) : List ℤ := xs.merge ys fun x y => decide (x ≤ y)

/-- The next value comes from the left. -/
theorem merged_left {x : ℤ} {xs ys : List ℤ} (h : ∀ y ∈ ys.head?, x ≤ y) :
    merged (x :: xs) ys = x :: merged xs ys := by
  rw [merged, merged]
  cases ys with
  | nil => rw [List.merge_right, List.merge_right]
  | cons y ys => exact List.cons_merge_cons_pos _ _ _ (decide_eq_true (h y rfl))

/-- The next value comes from the right. -/
theorem merged_right {y : ℤ} {xs ys : List ℤ} (h : ∀ x ∈ xs.head?, ¬x ≤ y) :
    merged xs (y :: ys) = y :: merged xs ys := by
  rw [merged, merged]
  cases xs with
  | nil => rw [List.nil_merge, List.nil_merge]
  | cons x xs => exact List.cons_merge_cons_neg _ _ _ fun hle => h x rfl (of_decide_eq_true hle)

/-- The first value of a slice. -/
theorem head?_slice {a : ℤ → α} : ∀ x ∈ (slice a i n).head?, i < n ∧ x = a i := by
  intro x hx
  by_cases h : i < n
  · rw [slice_cons h] at hx
    exact ⟨h, (Option.some.inj hx).symm⟩
  · rw [slice_of_ge (by omega)] at hx
    cases hx

/-- One more value. -/
theorem slice_put (h : i ≤ j) :
    slice ((s.put p j v).cell p) i (j + 1) = slice (s.cell p) i j ++ [v] := by
  rw [slice_concat h, Ints.cell_put_same]
  refine congrArg (· ++ [v]) (slice_congr fun k _ hk => Ints.cell_put_of_ne hk.ne)

/-- The condition of `merge`. -/
theorem wp_mergeLeft {Q : Bool → Ints → Prop} (hi : 0 ≤ i) (hm : 0 ≤ m)
    (hsize : n ≤ s.size p) (hmid : j ≤ s.size p) : wp (mergeLeft p i m j n) Q s ↔
      Q (decide (i < j ∧ (n ≤ m ∨ s.cell p i ≤ s.cell p m))) s := by
  rw [mergeLeft]
  by_cases hleft : i < j
  · rw [wp_ite_pos hleft]
    by_cases hright : m ≥ n
    · rw [wp_ite_pos hright, wp_pure, decide_eq_true ⟨hleft, .inl hright⟩]
    · have hcond : (i < j ∧ (n ≤ m ∨ s.cell p i ≤ s.cell p m)) ↔ s.cell p i ≤ s.cell p m := by
        omega
      rw [wp_ite_neg hright, wp_bind, wp_getInt (by omega), wp_bind, wp_getInt (by omega), wp_pure,
        decide_eq_decide.mpr hcond]
  · rw [wp_ite_neg hleft, wp_pure, decide_eq_false fun h => hleft h.1]

/-- `merge` of two slices one behind the other. -/
theorem wp_merge (hpq : p ≠ q) (hi : 0 ≤ i) (hin : i ≤ n) (hp : n ≤ s.size p) (hq : n ≤ s.size q)
    (hn : n + i < 2 ^ 31) (hm : (n + i).tdiv 2 = m) (him : i ≤ m) (hmn : m ≤ n)
    (hint : n < 2 ^ 31) : wp (merge p i n q) (fun _ s' => s.Within {q} i n s' ∧
      slice (s'.cell q) i n = merged (slice (s.cell p) i m) (slice (s.cell p) m n)) s := by
  rw [merge, wp_bind, wp_int_of_range (by omega), hm]
  refine wp_iterate (fun k v s' => s.Within {q} i n s' ∧ (n - v.2.1).toNat = k ∧
    (i ≤ v.1 ∧ v.1 ≤ m) ∧ (m ≤ v.2.2 ∧ v.2.2 ≤ n) ∧ v.2.1 - i = (v.1 - i) + (v.2.2 - m) ∧
    slice (s'.cell q) i v.2.1 ++
      merged (slice (s.cell p) v.1 m) (slice (s.cell p) v.2.2 n) =
        merged (slice (s.cell p) i m) (slice (s.cell p) m n)) ?_ (n := (n - i).toNat) ?_ ?_
  · rintro k ⟨i', j, m'⟩ s' ⟨hwithin, rfl, hi', hm', hj, hmerged⟩
    have hcell : s'.cell p = s.cell p := hwithin.other p fun hmem => hpq hmem
    have hp' : s'.size p = s.size p := congrFun hwithin.size p
    have hq' : s'.size q = s.size q := congrFun hwithin.size q
    dsimp only at hi' hm' hj hmerged ⊢
    rw [mergeStep]
    dsimp only
    by_cases hlt : j < n
    · rw [wp_ite_pos hlt, wp_bind, wp_mergeLeft (by omega) (by omega) (by omega) (by omega)]
      by_cases hcond : i' < m ∧ (n ≤ m' ∨ s'.cell p i' ≤ s'.cell p m')
      · rw [wp_ite_pos (decide_eq_true hcond), wp_bind, wp_getInt (by omega), wp_bind,
          wp_putInt (by omega), wp_bind, wp_int_of_range (by omega), wp_bind,
          wp_int_of_range (by omega), wp_pure]
        refine ⟨_, ?_, hwithin.trans (Ints.within_put rfl (by omega)), rfl, by dsimp only; omega,
          hm', by dsimp only; omega, ?_⟩
        · dsimp only
          omega
        · rw [slice_put (by omega), List.append_assoc, ← hmerged, slice_cons hcond.1,
            merged_left fun y hy => ?_, hcell]
          · rfl
          · obtain ⟨hlast, rfl⟩ := head?_slice y hy
            rw [← hcell]
            exact hcond.2.resolve_left (by omega)
      · rw [wp_ite_neg (by simpa using hcond), wp_bind, wp_getInt (by omega), wp_bind,
          wp_putInt (by omega), wp_bind, wp_int_of_range (by omega), wp_bind,
          wp_int_of_range (by omega), wp_pure]
        refine ⟨_, ?_, hwithin.trans (Ints.within_put rfl (by omega)), rfl, hi',
          by dsimp only; omega, by dsimp only; omega, ?_⟩
        · dsimp only
          omega
        · have hright : slice (s.cell p) m' n =
              s'.cell p m' :: slice (s.cell p) (m' + 1) n := by
            rw [slice_cons (by omega), hcell]
          rw [slice_put (by omega), List.append_assoc, ← hmerged, hright,
            merged_right fun x hx hle => ?_]
          · rfl
          · obtain ⟨hfirst, rfl⟩ := head?_slice x hx
            exact hcond ⟨hfirst, .inr (by rwa [hcell] at hle ⊢)⟩
    · rw [wp_ite_neg hlt, wp_pure]
      obtain rfl : i' = m := by omega
      obtain rfl : m' = n := by omega
      obtain rfl : j = m' := by omega
      have hnil : merged [] [] = [] := List.nil_merge []
      rw [slice_of_ge (Int.le_refl i'), slice_of_ge (Int.le_refl j), hnil, List.append_nil]
        at hmerged
      exact ⟨hwithin, hmerged⟩
  · rw [loopBound]
    omega
  · refine ⟨.refl .., rfl, ⟨Int.le_refl i, him⟩, ⟨Int.le_refl m, hmn⟩, by dsimp only; omega, ?_⟩
    rw [slice_of_ge (Int.le_refl i), List.nil_append]

/-- Merging two sorted lists. -/
theorem merged_sorted {xs ys : List ℤ} (hx : xs.Pairwise (· ≤ ·)) (hy : ys.Pairwise (· ≤ ·)) :
    (merged xs ys).Pairwise (· ≤ ·) := by
  have hsorted : (merged xs ys).Pairwise fun x y => decide (x ≤ y) = true :=
    List.pairwise_merge
      (fun _ _ _ hab hbc => decide_eq_true ((of_decide_eq_true hab).trans (of_decide_eq_true hbc)))
      (fun a b => by simpa using Int.le_total a b) xs ys
      (hx.imp fun h => decide_eq_true h) (hy.imp fun h => decide_eq_true h)
  exact hsorted.imp fun h => of_decide_eq_true h

/-- The values of the merged list. -/
theorem merged_perm (xs ys : List ℤ) : (merged xs ys).Perm (xs ++ ys) :=
  List.merge_perm_append _

/-! ## `merge_sort` -/

/-- The slice of `p` from `i` up to `n` is sorted. -/
structure SortedFrom (p : ℕ) (i n : ℤ) (s s' : Ints) : Prop where
  sorted : (slice (s'.cell p) i n).Pairwise (· ≤ ·)
  perm : (slice (s'.cell p) i n).Perm (slice (s.cell p) i n)

/-- `merge_split` sorts a slice, if the two arrays are alike there. -/
theorem wp_mergeSplit (hpq : p ≠ q) (hi : 0 ≤ i) (hp : n ≤ s.size p) (hq : n ≤ s.size q)
    (hn : n ≤ 2 ^ 30) (hsame : ∀ k, i ≤ k → k < n → s.cell q k = s.cell p k) :
    wp (mergeSplit p i n q) (fun _ s' => s.Within {p, q} i n s' ∧ SortedFrom p i n s s') s := by
  induction h : (n - i).toNat using Nat.strong_induction_on generalizing s p q i n with
  | _ d ih =>
    rw [mergeSplit]
    by_cases hshort : n - i ≤ 1
    · rw [wp_ite_pos hshort, wp_pure]
      refine ⟨.refl .., ?_, List.Perm.refl _⟩
      exact pairwise_slice.mpr fun k l hk hkl hl => by omega
    · obtain ⟨him, hmn⟩ := middle_bounds (i := i) (n := n) (by omega)
      rw [wp_ite_neg hshort, wp_bind, wp_int_of_range (by omega), wp_bind]
      generalize hm : (n + i).tdiv 2 = m at him hmn
      refine wp_mono (ih (m - i).toNat (by omega) hpq.symm hi (by omega) (by omega) (by omega)
        (fun k hk hkm => (hsame k hk (by omega)).symm) rfl) ?_
      rintro _ s₁ ⟨hwithin₁, hsorted₁⟩
      rw [wp_bind]
      have hp₁ : s₁.size p = s.size p := congrFun hwithin₁.size p
      have hq₁ : s₁.size q = s.size q := congrFun hwithin₁.size q
      refine wp_mono (ih (n - m).toNat (by omega) hpq.symm (by omega) (by omega) (by omega) hn
        (fun k hk hkn => ?_) rfl) ?_
      · rw [hwithin₁.outside p k (by omega), hwithin₁.outside q k (by omega),
          hsame k (by omega) hkn]
      · rintro _ s₂ ⟨hwithin₂, hsorted₂⟩
        have hp₂ : s₂.size p = s₁.size p := congrFun hwithin₂.size p
        have hq₂ : s₂.size q = s₁.size q := congrFun hwithin₂.size q
        refine wp_mono (wp_merge hpq.symm hi (by omega) (by omega) (by omega) (by omega) hm him.le
          hmn.le (by omega)) ?_
        rintro _ s₃ ⟨hwithin₃, hmerged⟩
        have hleft : slice (s₂.cell q) i m = slice (s₁.cell q) i m :=
          slice_congr fun k _ hk => hwithin₂.outside q k (by omega)
        have hright : slice (s₁.cell q) m n = slice (s.cell q) m n :=
          slice_congr fun k hk _ => hwithin₁.outside q k (by omega)
        have hperm : (slice (s₂.cell q) i m ++ slice (s₂.cell q) m n).Perm
            (slice (s.cell q) i m ++ slice (s.cell q) m n) := by
          rw [hleft, ← hright]
          exact hsorted₁.perm.append hsorted₂.perm
        rw [slice_append him.le hmn.le, slice_append him.le hmn.le,
          slice_congr fun k hk hkn => hsame k hk hkn] at hperm
        have hswap : ({q, p} : Set ℕ) ⊆ {p, q} := (Set.pair_comm q p).subset
        refine ⟨(hwithin₁.mono hswap (Int.le_refl i) hmn.le).trans
          ((hwithin₂.mono hswap him.le (Int.le_refl n)).trans
            (hwithin₃.mono (by simp) (Int.le_refl i) (Int.le_refl n))), ?_, ?_⟩
        · rw [hmerged, hleft]
          exact merged_sorted hsorted₁.sorted hsorted₂.sorted
        · have happend := merged_perm (slice (s₂.cell q) i m) (slice (s₂.cell q) m n)
          rw [slice_append him.le hmn.le, ← hmerged] at happend
          exact happend.trans hperm

/-- The loop of `merge_sort` copies the first `i` values. -/
theorem wp_copyInts (hpq : p ≠ q) (hi : 0 ≤ i) (hp : i ≤ s.size p) (hq : i ≤ s.size q)
    (hint : i < 2 ^ 31) : wp (iterate (copyInts p q) loopBound (i, 0)) (fun n s' => n = i ∧
      s.Within {q} 0 i s' ∧ ∀ k, 0 ≤ k → k < i → s'.cell q k = s.cell p k) s := by
  refine wp_iterate (fun k v s' => v.1.toNat = k ∧ 0 ≤ v.1 ∧ 0 ≤ v.2 ∧ v.1 + v.2 = i ∧
    s.Within {q} 0 i s' ∧ ∀ k, 0 ≤ k → k < v.2 → s'.cell q k = s.cell p k) ?_ (n := i.toNat)
    (by rw [loopBound]; omega) ⟨rfl, hi, Int.le_refl 0, Int.add_zero i, .refl .., fun k _ _ => by
      dsimp only at *
      omega⟩
  rintro _ ⟨j, n⟩ s' ⟨rfl, hj, hn, hsum, hwithin, hcopied⟩
  have hp' : s'.size p = s.size p := congrFun hwithin.size p
  have hq' : s'.size q = s.size q := congrFun hwithin.size q
  have hcell : s'.cell p = s.cell p := hwithin.other p fun hmem => hpq hmem
  dsimp only at hj hn hsum hcopied ⊢
  rw [copyInts]
  dsimp only
  by_cases hzero : j ≠ 0
  · rw [wp_ite_pos hzero, wp_bind, wp_getInt (by omega), wp_bind, wp_putInt (by omega), wp_bind,
      wp_int_of_range (by omega), wp_bind, wp_int_of_range (by omega), wp_pure]
    refine ⟨_, ?_, rfl, by dsimp only; omega, by dsimp only; omega, by dsimp only; omega,
      hwithin.trans (Ints.within_put rfl (by omega)), fun k hk hkn => ?_⟩
    · dsimp only
      omega
    · by_cases hkn' : k = n
      · rw [hkn', Ints.cell_put_same, hcell]
      · rw [Ints.cell_put_of_ne hkn']
        exact hcopied k hk (by dsimp only at hkn; omega)
  · rw [wp_ite_neg hzero, wp_pure]
    obtain rfl : n = i := by omega
    exact ⟨rfl, hwithin, hcopied⟩

/-- The sum of the last two indices is computed on the way. -/
theorem lt_of_wp_mergeSplit {Q : Unit → Ints → Prop} (h : wp (mergeSplit p i n q) Q s) (hi : 0 ≤ i)
    (hn : 2 ≤ n - i) : n + (n - 2) < 2 ^ 31 := by
  induction hd : (n - i).toNat using Nat.strong_induction_on generalizing s p q i Q with
  | _ d ih =>
    rw [mergeSplit, wp_ite_neg (by omega), wp_bind, wp_int, wp_bind] at h
    obtain ⟨hsum, -, s₁, -, hrest⟩ := h
    rw [wp_bind] at hrest
    by_cases htwo : n - i = 2
    · omega
    · have hmid : (n + i).tdiv 2 = (n + i) / 2 := Int.tdiv_eq_ediv_of_nonneg (by omega)
      rw [hmid] at hrest
      exact ih (n - (n + i) / 2).toNat (by omega) hrest (by omega) (by omega) rfl

/-! ## `quick_split` -/

/-- The first inner loop goes to the next value that is not below the pivot. -/
theorem wp_skipBelow {pivot : ℤ} (hi : 0 ≤ i) (hk : i ≤ k ∧ k < s.size p) (hint : k < 2 ^ 31)
    (hpivot : pivot ≤ s.cell p k) :
    wp (skipBelow p pivot i) (fun r s' => s' = s ∧ (i ≤ r ∧ r ≤ k) ∧ pivot ≤ s.cell p r ∧
      ∀ l, i ≤ l → l < r → s.cell p l < pivot) s := by
  refine wp_iterate (fun n j s' => s' = s ∧ (k - j).toNat = n ∧ (i ≤ j ∧ j ≤ k) ∧
    ∀ l, i ≤ l → l < j → s.cell p l < pivot) ?_ (n := (k - i).toNat) ?_
    ⟨rfl, rfl, ⟨Int.le_refl i, hk.1⟩, fun l hl hli => by omega⟩
  · rintro _ j s' ⟨hs, rfl, hj, hbelow⟩
    subst s'
    rw [wp_bind, wp_getInt (by omega)]
    by_cases hlt : s.cell p j < pivot
    · have hne : j ≠ k := fun heq => by
        rw [heq] at hlt
        omega
      rw [wp_ite_pos hlt, wp_bind, wp_int_of_range (by omega), wp_pure]
      refine ⟨_, by omega, rfl, rfl, by omega, fun l hl hlj => ?_⟩
      by_cases hlast : l = j
      · rwa [hlast]
      · exact hbelow l hl (by omega)
    · rw [wp_ite_neg hlt, wp_pure]
      exact ⟨rfl, hj, not_lt.mp hlt, hbelow⟩
  · rw [loopBound]
    omega

/-- The second inner loop goes back to a value that is not above the pivot. -/
theorem wp_skipAbove {pivot : ℤ} (hj : j < s.size p) (hk : 0 ≤ k ∧ k ≤ j) (hint : j < 2 ^ 31)
    (hpivot : s.cell p k ≤ pivot) :
    wp (skipAbove p pivot j) (fun r s' => s' = s ∧ (k ≤ r ∧ r ≤ j) ∧ s.cell p r ≤ pivot ∧
      ∀ l, r < l → l ≤ j → pivot < s.cell p l) s := by
  refine wp_iterate (fun n i s' => s' = s ∧ (i - k).toNat = n ∧ (k ≤ i ∧ i ≤ j) ∧
    ∀ l, i < l → l ≤ j → pivot < s.cell p l) ?_ (n := (j - k).toNat) ?_
    ⟨rfl, rfl, ⟨hk.2, Int.le_refl j⟩, fun l hl hlj => by omega⟩
  · rintro _ i s' ⟨hs, rfl, hi, habove⟩
    subst s'
    rw [wp_bind, wp_getInt (by omega)]
    by_cases hgt : s.cell p i > pivot
    · have hne : i ≠ k := fun heq => by
        rw [heq] at hgt
        omega
      rw [wp_ite_pos hgt, wp_bind, wp_int_of_range (by omega), wp_pure]
      refine ⟨_, by omega, rfl, rfl, by omega, fun l hl hlj => ?_⟩
      by_cases hlast : l = i
      · rwa [hlast]
      · exact habove l (by omega) hlj
    · rw [wp_ite_neg hgt, wp_pure]
      exact ⟨rfl, hi, not_lt.mp hgt, habove⟩
  · rw [loopBound]
    omega

/-- The loop of `quick_split` from `s₀` on, with `i` and `j` around the pivot. -/
structure Splits (p : ℕ) (start len pivot : ℤ) (s₀ : Ints) (i j : ℤ) (s : Ints) : Prop where
  within : s₀.Within {p} start (len + 1) s
  shuffled : Shuffled start (len + 1) (s₀.cell p) (s.cell p)
  bounds : start ≤ i ∧ j ≤ len
  below : ∀ l, start ≤ l → l < i → s.cell p l < pivot
  above : ∀ l, j < l → l ≤ len → pivot < s.cell p l
  between : ∃ k, (i ≤ k ∧ k ≤ j) ∧ s.cell p k = pivot
  first : s₀.cell p start < pivot → s.cell p start = s₀.cell p start
  last : pivot < s₀.cell p len → s.cell p len = s₀.cell p len

variable {start len pivot : ℤ} {s₀ : Ints}

/-- Exchanging two values with two stores. -/
theorem cell_swap (s : Ints) (p : ℕ) (i j : ℤ) :
    ((s.put p i (s.cell p j)).put p j (s.cell p i)).cell p = s.cell p ∘ Equiv.swap i j := by
  funext k
  rw [Ints.cell_put, Ints.cell_put, Function.comp_apply, Equiv.swap_apply_def]
  by_cases hj : k = j
  · subst hj
    rw [Function.update_self]
    by_cases hi : k = i
    · rw [if_pos hi, hi]
    · rw [if_neg hi, if_pos rfl]
  · rw [Function.update_of_ne hj, if_neg hj]
    by_cases hi : k = i
    · rw [hi, Function.update_self, if_pos rfl]
    · rw [Function.update_of_ne hi, if_neg hi]

/-- The exchange of two values on the wrong sides keeps the pivot between `i` and `j`. -/
theorem Splits.swap (h : Splits p start len pivot s₀ i j s) (hij : i < j)
    (hi : pivot ≤ s.cell p i) (hj : s.cell p j ≤ pivot) :
    Splits p start len pivot s₀ i j ((s.put p i (s.cell p j)).put p j (s.cell p i)) := by
  obtain ⟨hstart, hlen⟩ := h.bounds
  have hcell (l : ℤ) (hi : l ≠ i) (hj : l ≠ j) :
      ((s.put p i (s.cell p j)).put p j (s.cell p i)).cell p l = s.cell p l := by
    rw [cell_swap, Function.comp_apply, Equiv.swap_apply_of_ne_of_ne hi hj]
  have hput (s : Ints) (l v : ℤ) (hl : start ≤ l ∧ l < len + 1) :
      s.Within {p} start (len + 1) (s.put p l v) := Ints.within_put rfl hl
  refine ⟨h.within.trans ((hput s i _ (by omega)).trans (hput _ j _ (by omega))), ?_, h.bounds,
    fun l hl hli => ?_, fun l hl hlj => ?_, ?_, fun hfirst => ?_, fun hlast => ?_⟩
  · rw [cell_swap]
    exact h.shuffled.trans (shuffled_swap (by omega) (by omega))
  · rw [hcell l (by omega) (by omega)]
    exact h.below l hl hli
  · rw [hcell l (by omega) (by omega)]
    exact h.above l hl hlj
  · obtain ⟨k, hk, hpivot⟩ := h.between
    refine ⟨Equiv.swap i j k, ?_, ?_⟩
    · rw [Equiv.swap_apply_def]
      split
      · omega
      · split <;> omega
    · rw [cell_swap, Function.comp_apply, Equiv.swap_apply_self, hpivot]
  · have hkeep := h.first hfirst
    have hne : start ≠ i := fun heq => by
      rw [← heq] at hi
      omega
    rw [hcell start hne (by omega), hkeep]
  · have hkeep := h.last hlast
    have hne : len ≠ j := fun heq => by
      rw [← heq] at hj
      omega
    rw [hcell len (by omega) hne, hkeep]

/-- One turn of `quick_split`. -/
theorem wp_quickStep (h : Splits p start len pivot s₀ i j s) (h0 : 0 ≤ start)
    (hsize : len < s.size p) (hint : len < 2 ^ 31) :
    wp (quickStep p pivot (i, j)) (fun r s' => r.elim
      (fun v => Splits p start len pivot s₀ v.1 v.2 s' ∧ (i ≤ v.1 ∧ v.1 < v.2 ∧ v.2 ≤ j) ∧
        s'.cell p v.1 ≤ pivot ∧ pivot ≤ s'.cell p v.2 ∧
        (v.1 = i → v.2 = j → pivot ≤ s.cell p i ∧ s.cell p j ≤ pivot))
      (fun k => Splits p start len pivot s₀ k k s')) s := by
  obtain ⟨hstart, hlen⟩ := h.bounds
  obtain ⟨k, hk, hpivot⟩ := h.between
  rw [quickStep, wp_bind]
  dsimp only
  refine wp_mono (wp_skipBelow (k := k) (by omega) (by omega) (by omega) hpivot.ge) ?_
  rintro i' s' ⟨hs, hi', hnot, hbelow⟩
  subst s'
  rw [wp_bind]
  refine wp_mono (wp_skipAbove (k := k) (by omega) (by omega) (by omega) hpivot.le) ?_
  rintro j' s' ⟨hs, hj', hnot', habove⟩
  subst s'
  have hscan : Splits p start len pivot s₀ i' j' s := by
    refine ⟨h.within, h.shuffled, by omega, fun l hl hli => ?_, fun l hl hlj => ?_,
      ⟨k, by omega, hpivot⟩, h.first, h.last⟩
    · by_cases hlow : l < i
      · exact h.below l hl hlow
      · exact hbelow l (by omega) hli
    · by_cases hhigh : j < l
      · exact h.above l hhigh hlj
      · exact habove l hl (by omega)
  by_cases hmeet : i' ≥ j'
  · obtain rfl : i' = j' := by omega
    rw [wp_ite_pos hmeet, wp_pure]
    exact hscan
  · rw [wp_ite_neg hmeet, wp_bind, wp_getInt (by omega), wp_bind, wp_getInt (by omega), wp_bind,
      wp_putInt (by omega), wp_bind, wp_putInt (by rw [Ints.size_put]; omega), wp_pure]
    refine ⟨hscan.swap (by omega) hnot hnot', ⟨hi'.1, by dsimp only; omega, hj'.2⟩, ?_, ?_,
      fun hi hj => ?_⟩
    · rw [cell_swap, Function.comp_apply, Equiv.swap_apply_left]
      exact hnot'
    · rw [cell_swap, Function.comp_apply, Equiv.swap_apply_right]
      exact hnot
    · dsimp only at hi hj
      rw [← hi, ← hj]
      exact ⟨hnot, hnot'⟩

/-- Before the first turn. -/
theorem Splits.init (hk : start ≤ k ∧ k ≤ len) :
    Splits p start len (s.cell p k) s start len s :=
  ⟨.refl .., .refl .., ⟨Int.le_refl start, Int.le_refl len⟩, fun l hl hlt => by omega,
    fun l hl hle => by omega, ⟨k, hk, rfl⟩, fun _ => rfl, fun _ => rfl⟩

/-- `quick_split` finds the place of the pivot, if it returns. -/
theorem wp_quickSplit_keeps {Q : ℤ → Ints → Prop} (h : wp (quickSplit p start len) Q s)
    (h0 : 0 ≤ start) (hlt : 1 < len - start) (hsize : len < s.size p) (hint : len < 2 ^ 31) :
    wp (quickSplit p start len) (fun k s' => Q k s' ∧
      Splits p start len (s.cell p ((len + start).tdiv 2)) s k k s') s := by
  obtain ⟨hlow, hhigh⟩ := middle_bounds hlt
  have hmid : (start + len).tdiv 2 = (len + start).tdiv 2 := by rw [Int.add_comm]
  rw [quickSplit, wp_bind, wp_int] at h ⊢
  refine ⟨h.1, ?_⟩
  have hrest := h.2
  rw [hmid, wp_bind, wp_getInt (by omega)] at hrest ⊢
  refine wp_iterate_keeps (fun v s' => Splits p start len _ s v.1 v.2 s') ?_ hrest
    (.init (k := (len + start).tdiv 2) (by omega))
  intro v s₁ r s₂ hsplits hrun
  have hsize₁ : s₁.size p = s.size p := congrFun hsplits.within.size p
  have hturn := (wp_of_run hrun).mp (wp_quickStep hsplits h0 (by omega) hint)
  cases r with
  | inl v' => exact hturn.1
  | inr k => exact hturn

/-- `quick_split` returns, if the values are different. -/
theorem wp_quickSplit (hnodup : (slice (s.cell p) start (len + 1)).Nodup)
    (h0 : 0 ≤ start) (hlt : 1 < len - start) (hsize : len < s.size p)
    (hint : len ≤ 2 ^ 30) : wp (quickSplit p start len) (fun k s' =>
      Splits p start len (s.cell p ((len + start).tdiv 2)) s k k s') s := by
  obtain ⟨hlow, hhigh⟩ := middle_bounds hlt
  have hmid : (start + len).tdiv 2 = (len + start).tdiv 2 := by rw [Int.add_comm]
  rw [quickSplit, wp_bind, wp_int_of_range (by omega), hmid, wp_bind, wp_getInt (by omega)]
  generalize hpivot : s.cell p ((len + start).tdiv 2) = pivot
  have hfirst : Splits p start len pivot s start len s := hpivot ▸ .init (by omega)
  -- an exchange leaves one of the two values away from the pivot, so the next turn goes on
  refine wp_iterate (fun n v s' => Splits p start len pivot s v.1 v.2 s' ∧
    (v.1 ≤ v.2 ∧ 2 * (v.2 - v.1).toNat ≤ n) ∧
    (pivot ≤ s'.cell p v.1 → s'.cell p v.2 ≤ pivot → 2 * (v.2 - v.1).toNat < n)) ?_
    (n := 2 * (len - start).toNat + 1) (by rw [loopBound]; omega)
    ⟨hfirst, by dsimp only; omega, fun _ _ => Nat.lt_succ_self _⟩
  rintro n ⟨i, j⟩ s₁ ⟨hsplits, ⟨hij, hn⟩, hstill⟩
  have hsize₁ : s₁.size p = s.size p := congrFun hsplits.within.size p
  dsimp only at hij hn hstill
  refine wp_mono (wp_quickStep hsplits h0 (by omega) (by omega)) ?_
  rintro (v | k) s₂ hturn
  · obtain ⟨hsplits₂, hv, hleft, hright, hsame⟩ := hturn
    obtain ⟨hstart, hlen⟩ := hsplits₂.bounds
    have hnodup₂ := hsplits₂.shuffled.perm.nodup_iff.mpr hnodup
    have hne : s₂.cell p v.1 ≠ s₂.cell p v.2 :=
      pairwise_slice.mp hnodup₂ v.1 v.2 (by omega) (by omega) (by omega)
    by_cases hmoved : v.1 = i ∧ v.2 = j
    · have hlt := hstill (hsame hmoved.1 hmoved.2).1 (hsame hmoved.1 hmoved.2).2
      rw [← hmoved.1, ← hmoved.2] at hlt
      exact ⟨2 * (v.2 - v.1).toNat, hlt, hsplits₂, ⟨by omega, Nat.le_refl _⟩,
        fun hge hle => by omega⟩
    · exact ⟨2 * (v.2 - v.1).toNat + 1, by omega, hsplits₂, ⟨by omega, by omega⟩,
        fun _ _ => by omega⟩
  · exact hturn

/-! ## `quick_sort` -/

/-- `quick_sort` does not look at two values. -/
theorem wp_quickSort_short {depth : ℕ} {Q : Unit → Ints → Prop}
    (hint : -2 ^ 31 ≤ len - start) (h : len - start ≤ 1) :
    wp (quickSort (depth + 1) p start len) Q s ↔ Q () s := by
  rw [quickSort, wp_bind, wp_int_of_range (by omega), wp_ite_pos h, wp_pure]

/-- What `quick_sort` does to more than two values, or to two that are in order. -/
structure QuickSorted (p : ℕ) (start len : ℤ) (s s' : Ints) : Prop where
  within : s.Within {p} start (len + 1) s'
  shuffled : Shuffled start (len + 1) (s.cell p) (s'.cell p)
  sorted : (len - start = 1 → s.cell p start < s.cell p len) →
    ∀ k l, start ≤ k → k < l → l ≤ len → s'.cell p k < s'.cell p l

/-- Up to two values stay as they are. -/
theorem QuickSorted.short (h : len - start ≤ 1) : QuickSorted p start len s s := by
  refine ⟨.refl .., .refl .., fun hpair k l hk hkl hl => ?_⟩
  obtain rfl : k = start := by omega
  obtain rfl : l = len := by omega
  exact hpair (by omega)

/-- Sorting on both sides of the pivot. -/
theorem Splits.sorted (h : Splits p start len pivot s k k s₀)
    (hleft : QuickSorted p start k s₀ s') (hright : QuickSorted p k len s' s'') :
    QuickSorted p start len s s'' := by
  obtain ⟨hstart, hlen⟩ := h.bounds
  have hpivot : s₀.cell p k = pivot := by
    obtain ⟨l, hl, heq⟩ := h.between
    obtain rfl : l = k := by omega
    exact heq
  -- the values on the right of `k` are greater than the one at `k`, also after sorting the left
  have habove (l : ℤ) (hl : k < l) (hle : l ≤ len) : s'.cell p k < s'.cell p l := by
    rw [hleft.within.outside p l (by omega)]
    obtain ⟨m, hm, heq⟩ := hleft.shuffled.exists_eq (k := k) (by omega)
    rw [← heq]
    refine lt_of_le_of_lt ?_ (h.above l hl hle)
    by_cases hk : m = k
    · rw [hk, hpivot]
    · exact (h.below m hm.1 (by omega)).le
  have hbelow (l m : ℤ) (hl : start ≤ l) (hlm : l < m) (hm : m ≤ k) :
      s'.cell p l < s'.cell p m :=
    hleft.sorted (fun _ => hpivot ▸ h.below start (Int.le_refl start) (by omega)) l m hl hlm hm
  refine ⟨h.within.trans ((hleft.within.mono subset_rfl (Int.le_refl start) (by omega)).trans
      (hright.within.mono subset_rfl hstart (Int.le_refl _))),
    h.shuffled.trans ((hleft.shuffled.mono (Int.le_refl start) (by omega)).trans
      (hright.shuffled.mono hstart (Int.le_refl _))), fun _ l m hl hlm hm => ?_⟩
  by_cases hlk : k ≤ l
  · exact hright.sorted (fun _ => habove len (by omega) (Int.le_refl len)) l m hlk hlm hm
  · rw [hright.within.outside p l (by omega)]
    by_cases hmk : k ≤ m
    · obtain ⟨j, hj, heq⟩ := hright.shuffled.exists_eq (k := m) (by omega)
      rw [← heq]
      refine lt_of_lt_of_le (hbelow l k hl (by omega) (Int.le_refl k)) ?_
      by_cases hjk : j = k
      · rw [hjk]
      · exact (habove j (by omega) (by omega)).le
    · rw [hright.within.outside p m (by omega)]
      exact hbelow l m hl hlm (by omega)

/-- `quick_sort` sorts, if it returns. -/
theorem wp_quickSort_keeps {depth : ℕ} {Q : Unit → Ints → Prop}
    (h : wp (quickSort depth p start len) Q s) (h0 : 0 ≤ start) (hsize : len < s.size p)
    (hint : len < 2 ^ 31) : wp (quickSort depth p start len)
      (fun u s' => Q u s' ∧ QuickSorted p start len s s') s := by
  induction depth generalizing s start len Q with
  | zero =>
    obtain ⟨_, _, hrun, -⟩ := h
    cases hrun
  | succ depth ih =>
    rw [quickSort, wp_bind, wp_int] at h ⊢
    refine ⟨h.1, ?_⟩
    have hrest := h.2
    by_cases hshort : len - start ≤ 1
    · rw [wp_ite_pos hshort, wp_pure] at hrest ⊢
      exact ⟨hrest, .short hshort⟩
    · rw [wp_ite_neg hshort, wp_bind] at hrest ⊢
      refine wp_mono (wp_quickSplit_keeps hrest h0 (by omega) hsize hint) ?_
      rintro k s₁ ⟨hk, hsplits⟩
      have hsize₁ : s₁.size p = s.size p := congrFun hsplits.within.size p
      obtain ⟨hstart, hlen⟩ := hsplits.bounds
      rw [wp_bind] at hk ⊢
      refine wp_mono (ih hk h0 (by omega) (by omega)) ?_
      rintro _ s₂ ⟨hk₂, hleft⟩
      have hsize₂ : s₂.size p = s₁.size p := congrFun hleft.within.size p
      refine wp_mono (ih hk₂ (by omega) (by omega) hint) ?_
      exact fun _ s₃ h₃ => ⟨h₃.1, hsplits.sorted hleft h₃.2⟩

/-- The pivot goes to the first place only if it is the least value, and then that value was not
there before. -/
theorem Splits.least (h : Splits p start len pivot s start start s₀) (hne : pivot ≠ s.cell p start) :
    (∀ l, start ≤ l → l ≤ len → s₀.cell p start ≤ s₀.cell p l) ∧ pivot < s.cell p start := by
  obtain ⟨k, hk, hpivot⟩ := h.between
  obtain rfl : k = start := by omega
  have hle (l : ℤ) (hl : k ≤ l) (hlen : l ≤ len) : s₀.cell p k ≤ s₀.cell p l := by
    by_cases hlk : l = k
    · rw [hlk]
    · rw [hpivot]
      exact (h.above l (by omega) hlen).le
  refine ⟨hle, lt_of_le_of_ne ?_ hne⟩
  by_contra hgt
  have hkeep := h.first (by omega)
  omega

/-- The pivot goes to the last place only if it is the greatest value, and then that value was not
there before. -/
theorem Splits.greatest (h : Splits p start len pivot s len len s₀) (hne : pivot ≠ s.cell p len) :
    (∀ l, start ≤ l → l ≤ len → s₀.cell p l ≤ s₀.cell p len) ∧ s.cell p len < pivot := by
  obtain ⟨k, hk, hpivot⟩ := h.between
  obtain rfl : k = len := by omega
  have hle (l : ℤ) (hl : start ≤ l) (hlen : l ≤ k) : s₀.cell p l ≤ s₀.cell p k := by
    by_cases hlk : l = k
    · rw [hlk]
    · rw [hpivot]
      exact (h.below l hl (by omega)).le
  refine ⟨hle, lt_of_le_of_ne ?_ hne.symm⟩
  by_contra hgt
  have hkeep := h.last (by omega)
  omega

/-- `quick_sort` returns, if the values are different. A call whose slice is not shorter has the
least value in the first place or the greatest in the last, which `f` and `g` count. -/
theorem wp_quickSort {depth f g : ℕ} (hnodup : (slice (s.cell p) start (len + 1)).Nodup)
    (h0 : 0 ≤ start) (hsize : len < s.size p) (hint : len ≤ 2 ^ 30)
    (hstartlen : start ≤ len)
    (hf : f = 0 → ∀ l, start ≤ l → l ≤ len → s.cell p start ≤ s.cell p l)
    (hg : g = 0 → ∀ l, start ≤ l → l ≤ len → s.cell p l ≤ s.cell p len)
    (hdepth : 3 * (len - start).toNat + f + g < depth) :
    wp (quickSort depth p start len) (fun _ s' => QuickSorted p start len s s') s := by
  induction depth generalizing s start len f g with
  | zero => omega
  | succ depth ih =>
    by_cases hshort : len - start ≤ 1
    · exact (wp_quickSort_short (by omega) hshort).mpr (.short hshort)
    · rw [quickSort, wp_bind, wp_int_of_range (by omega)]
      obtain ⟨hlow, hhigh⟩ := middle_bounds (i := start) (n := len) (by omega)
      rw [wp_ite_neg hshort, wp_bind]
      refine wp_mono (wp_quickSplit hnodup h0 (by omega) hsize hint) ?_
      intro k s₁ hsplits
      generalize (len + start).tdiv 2 = mid at hlow hhigh hsplits
      have hdiff := pairwise_slice.mp hnodup
      have hsize₁ : s₁.size p = s.size p := congrFun hsplits.within.size p
      obtain ⟨hstart, hlen⟩ := hsplits.bounds
      have hnodup₁ := hsplits.shuffled.perm.nodup_iff.mpr hnodup
      have hcalls : ∃ f₁ g₁ f₂ g₂,
          (f₁ = 0 → ∀ l, start ≤ l → l ≤ k → s₁.cell p start ≤ s₁.cell p l) ∧
          (g₁ = 0 → ∀ l, start ≤ l → l ≤ k → s₁.cell p l ≤ s₁.cell p k) ∧
          (∀ s₂, QuickSorted p start k s₁ s₂ →
            (f₂ = 0 → ∀ l, k ≤ l → l ≤ len → s₂.cell p k ≤ s₂.cell p l) ∧
            (g₂ = 0 → ∀ l, k ≤ l → l ≤ len → s₂.cell p l ≤ s₂.cell p len)) ∧
          3 * (k - start).toNat + f₁ + g₁ < depth ∧ 3 * (len - k).toNat + f₂ + g₂ < depth := by
        by_cases hfirst : k = start
        · subst k
          obtain ⟨hleast, hlt⟩ := hsplits.least (hdiff start mid (by omega) hlow (by omega)).symm
          have hpos : f ≠ 0 := fun hzero => by
            have := hf hzero mid (by omega) (by omega)
            omega
          refine ⟨1, 1, 0, g, by simp, by simp, fun s₂ hleft => ?_, by omega, by omega⟩
          rw [hleft.shuffled.eq_of_singleton]
          refine ⟨fun _ => hleast, fun hzero l hl hle => ?_⟩
          have hgreatest := hg hzero
          rw [hsplits.last (lt_of_le_of_ne (hgreatest mid (by omega) (by omega))
            (hdiff mid len (by omega) hhigh (by omega)))]
          obtain ⟨m, hm, heq⟩ := hsplits.shuffled.exists_eq (k := l) (by omega)
          rw [← heq]
          exact hgreatest m (by omega) (by omega)
        · by_cases hlast : k = len
          · subst k
            obtain ⟨hgreatest, hlt⟩ := hsplits.greatest (hdiff mid len (by omega) hhigh (by omega))
            have hpos : g ≠ 0 := fun hzero => by
              have := hg hzero mid (by omega) (by omega)
              omega
            refine ⟨f, 0, 1, 1, fun hzero l hl hle => ?_, fun _ => hgreatest, by simp, by omega,
              by omega⟩
            have hleast := hf hzero
            rw [hsplits.first (lt_of_le_of_ne (hleast mid (by omega) (by omega))
              (hdiff start mid (by omega) hlow (by omega)))]
            obtain ⟨m, hm, heq⟩ := hsplits.shuffled.exists_eq (k := l) (by omega)
            rw [← heq]
            exact hleast m (by omega) (by omega)
          · exact ⟨1, 1, 1, 1, by simp, by simp, by simp, by omega, by omega⟩
      obtain ⟨f₁, g₁, f₂, g₂, hf₁, hg₁, hcall₂, hdepth₁, hdepth₂⟩ := hcalls
      rw [wp_bind]
      refine wp_mono (ih (pairwise_slice_mono hnodup₁ (Int.le_refl start) (by omega)) h0
        (by omega) (by omega) hstart hf₁ hg₁ hdepth₁) ?_
      intro _ s₂ hleft
      have hsize₂ : s₂.size p = s₁.size p := congrFun hleft.within.size p
      have hshuffled := hleft.shuffled.mono (Int.le_refl start) (by omega : k + 1 ≤ len + 1)
      have hnodup₂ := hshuffled.perm.nodup_iff.mpr hnodup₁
      obtain ⟨hf₂, hg₂⟩ := hcall₂ s₂ hleft
      refine wp_mono (ih (pairwise_slice_mono hnodup₂ hstart (Int.le_refl _)) (by omega)
        (by omega) (by omega) hlen hf₂ hg₂ hdepth₂) ?_
      exact fun _ s₃ hright => hsplits.sorted hleft hright

end FtMalloc
