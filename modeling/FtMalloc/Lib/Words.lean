import Mathlib

/-!
# Words

The words of a list are its longest parts without a separator. They come one after the other: a
separator in front is skipped, and the first word goes up to the next separator.
-/

namespace HeapLib

variable {α : Type} [DecidableEq α] {c x : α} {xs ys : List α} {ws : List (List α)}

/-- The words of a list between separators `c`. -/
def words (c : α) (xs : List α) : List (List α) := (xs.splitOn c).filter fun w => !w.isEmpty

@[simp] theorem words_nil : words c [] = [] := by
  rw [words, List.splitOn_nil]
  rfl

/-- A separator in front is skipped. -/
@[simp] theorem words_cons_self : words c (c :: xs) = words c xs := by
  have hnil : words c ([] ++ c :: xs) = words c xs := by
    rw [words, List.splitOn_append_cons_self_of_not_mem List.not_mem_nil]
    rfl
  exact hnil

/-- The first word goes up to the next separator. -/
theorem words_append_cons (hys : c ∉ ys) (hne : ys ≠ []) :
    words c (ys ++ c :: xs) = ys :: words c xs := by
  rw [words, List.splitOn_append_cons_self_of_not_mem hys, List.filter_cons_of_pos]
  · rfl
  · rwa [Bool.not_eq_true', List.isEmpty_eq_false_iff]

/-- Without a separator there is one word. -/
theorem words_of_not_mem (hys : c ∉ ys) (hne : ys ≠ []) : words c ys = [ys] := by
  rw [words, List.splitOn_eq_singleton hys, List.filter_cons_of_pos, List.filter_nil]
  rwa [Bool.not_eq_true', List.isEmpty_eq_false_iff]

/-- Separators in front are skipped. -/
theorem words_dropWhile : words c (xs.dropWhile fun x => x = c) = words c xs := by
  induction xs with
  | nil => rfl
  | cons x xs ih =>
    by_cases hx : x = c
    · subst hx
      rw [List.dropWhile_cons_of_pos (by simp), ih, words_cons_self]
    · rw [List.dropWhile_cons_of_neg (by simpa using hx)]

/-- The first word, and those behind it. -/
theorem words_cons_of_ne (hx : x ≠ c) : words c (x :: xs) =
    ((x :: xs).takeWhile fun x => x ≠ c) :: words c ((x :: xs).dropWhile fun x => x ≠ c) := by
  have hsplit := List.takeWhile_append_dropWhile (p := fun x => decide (x ≠ c)) (l := x :: xs)
  have hmem : c ∉ (x :: xs).takeWhile fun x => x ≠ c := fun hc => by
    have := List.mem_takeWhile_imp hc
    simp at this
  have hne : ((x :: xs).takeWhile fun x => x ≠ c) ≠ [] := by
    rw [List.takeWhile_cons_of_pos (by simpa using hx)]
    exact List.cons_ne_nil _ _
  cases hrest : (x :: xs).dropWhile fun x => x ≠ c with
  | nil =>
    rw [hrest, List.append_nil] at hsplit
    rw [words_nil, ← words_of_not_mem hmem hne, hsplit]
  | cons y ys =>
    have hy : y = c := by
      have hhead := List.head?_dropWhile_not (fun x => decide (x ≠ c)) (x :: xs)
      rw [hrest] at hhead
      simpa using hhead
    subst hy
    rw [hrest] at hsplit
    rw [words_cons_self, ← words_append_cons hmem hne, hsplit]

/-- Induction along the words of a list. -/
@[elab_as_elim] theorem words_induction {motive : List α → Prop} (c : α) (xs : List α)
    (nil : motive []) (separator : ∀ xs, motive xs → motive (c :: xs))
    (word : ∀ x xs, x ≠ c → motive ((x :: xs).dropWhile fun x => x ≠ c) → motive (x :: xs)) :
    motive xs := by
  induction hn : xs.length using Nat.strong_induction_on generalizing xs with
  | _ n ih =>
    cases xs with
    | nil => exact nil
    | cons x xs =>
      rw [List.length_cons] at hn
      by_cases hx : x = c
      · rw [hx]
        exact separator xs (ih _ (by omega) xs rfl)
      · have hle : (xs.dropWhile fun x => x ≠ c).length ≤ xs.length :=
          (List.dropWhile_sublist _).length_le
        refine word x xs hx (ih _ ?_ _ rfl)
        rw [List.dropWhile_cons_of_pos (by simpa using hx)]
        omega

/-- There are at most as many words as elements. -/
theorem length_words_le : (words c xs).length ≤ xs.length := by
  induction xs using words_induction c with
  | nil => simp
  | separator xs ih =>
    rw [words_cons_self, List.length_cons]
    omega
  | word x xs hx ih =>
    have hle : (xs.dropWhile fun x => x ≠ c).length ≤ xs.length :=
      (List.dropWhile_sublist _).length_le
    rw [words_cons_of_ne hx, List.length_cons, List.length_cons]
    rw [List.dropWhile_cons_of_pos (by simpa using hx)] at ih ⊢
    omega

/-- Joining with one more at the end. -/
theorem intercalate_concat {γ : Type} (sep x : List γ) (l : List (List γ)) :
    sep.intercalate (l ++ [x]) = (l.map (· ++ sep)).flatten ++ x := by
  induction l with
  | nil => simp
  | cons y l ih =>
    rw [List.cons_append, List.intercalate_cons_of_ne_nil (by simp), ih, List.map_cons,
      List.flatten_cons]
    simp only [List.append_assoc]

/-- What a joined list has, a part or the separator has. -/
theorem mem_intercalate {γ : Type} {sep : List γ} {l : List (List γ)} {x : γ}
    (h : x ∈ sep.intercalate l) : x ∈ sep ∨ ∃ w ∈ l, x ∈ w := by
  induction l using List.reverseRecOn with
  | nil =>
    rw [List.intercalate_nil] at h
    exact absurd h List.not_mem_nil
  | append_singleton l y _ =>
    rw [intercalate_concat, List.mem_append, List.mem_flatten] at h
    obtain ⟨w, hw, hx⟩ | hx := h
    · obtain ⟨v, hv, rfl⟩ := List.mem_map.mp hw
      exact (List.mem_append.mp hx).symm.imp_right fun hx => ⟨v, by simp [hv], hx⟩
    · exact .inr ⟨y, by simp, hx⟩

/-- The length of a joined list. -/
theorem length_intercalate_le {γ : Type} (sep : List γ) (l : List (List γ)) :
    (sep.intercalate l).length ≤ (l.map List.length).sum + l.length * sep.length := by
  have hflat (l : List (List γ)) : (l.map (· ++ sep)).flatten.length =
      (l.map List.length).sum + l.length * sep.length := by
    induction l with
    | nil => simp
    | cons y l ih =>
      simp only [List.map_cons, List.flatten_cons, List.length_append, List.sum_cons,
        List.length_cons, ih, Nat.succ_mul]
      omega
  induction l using List.reverseRecOn with
  | nil => simp
  | append_singleton l y _ =>
    rw [intercalate_concat, List.length_append, hflat, List.map_append, List.sum_append,
      List.length_append, List.map_singleton, List.sum_singleton, Nat.add_mul]
    omega

/-- Words that are joined by separators are found again. -/
theorem words_intercalate (h : ∀ w ∈ ws, w ≠ [] ∧ c ∉ w) : words c ([c].intercalate ws) = ws := by
  cases hws : ws with
  | nil => rw [List.intercalate_nil, words_nil]
  | cons w ws' =>
    rw [← hws, words, List.splitOn_intercalate c (fun w hw => (h w hw).2) (by simp [hws]),
      List.filter_eq_self]
    intro w hw
    rw [Bool.not_eq_true', List.isEmpty_eq_false_iff]
    exact (h w hw).1

end HeapLib
