import Mathlib

/-!
# Lines

The first line of a list ends with the first separator, or with the list. Whoever reads line after
line, from several lists in any order, gets each list piece by piece.
-/

namespace HeapLib

variable {α ι : Type} [DecidableEq α] [DecidableEq ι] {c : α} {xs ys : List α}

/-- The first line, with its separator. -/
def firstLine (c : α) (xs : List α) : List α :=
  xs.takeWhile (fun x => x ≠ c) ++ (xs.dropWhile fun x => x ≠ c).take 1

/-- What is behind the first line. -/
def afterLine (c : α) (xs : List α) : List α := (xs.dropWhile fun x => x ≠ c).drop 1

/-- The first line and the rest. -/
theorem firstLine_append_afterLine (c : α) (xs : List α) :
    firstLine c xs ++ afterLine c xs = xs := by
  rw [firstLine, afterLine, List.append_assoc, List.take_append_drop, List.takeWhile_append_dropWhile]

/-- The first line is a prefix. -/
theorem prefix_firstLine (c : α) (xs : List α) : firstLine c xs <+: xs :=
  ⟨afterLine c xs, firstLine_append_afterLine c xs⟩

/-- What is behind the first line is a suffix. -/
theorem afterLine_suffix (c : α) (xs : List α) : afterLine c xs <:+ xs :=
  ⟨firstLine c xs, firstLine_append_afterLine c xs⟩

/-- The separator in front of the rest. -/
theorem exists_separator (h : c ∈ xs) :
    xs.dropWhile (fun x => x ≠ c) = c :: afterLine c xs := by
  rw [afterLine]
  cases hd : xs.dropWhile fun x => x ≠ c with
  | nil =>
    rw [List.dropWhile_eq_nil_iff] at hd
    exact absurd (hd c h) (by simp)
  | cons x zs =>
    have hhead := List.head?_dropWhile_not (fun x => decide (x ≠ c)) xs
    rw [hd, List.head?_cons] at hhead
    obtain rfl : x = c := by simpa using hhead
    rfl

/-- A list without separator is one line. -/
theorem firstLine_of_notMem (h : c ∉ xs) : firstLine c xs = xs ∧ afterLine c xs = [] := by
  have hall : ∀ x ∈ xs, decide (x ≠ c) = true := fun x hx =>
    decide_eq_true fun heq => h (heq ▸ hx)
  rw [firstLine, afterLine, List.dropWhile_eq_nil_iff.mpr hall, List.takeWhile_eq_self_iff.mpr hall]
  exact ⟨List.append_nil _, rfl⟩

/-- The first line of a list that has a separator. -/
theorem firstLine_of_mem (h : c ∈ xs) :
    firstLine c xs = xs.takeWhile (fun x => x ≠ c) ++ [c] := by
  rw [firstLine, exists_separator h]
  rfl

/-- More lines behind a separator. -/
theorem firstLine_append (h : c ∈ xs) :
    firstLine c (xs ++ ys) = firstLine c xs ∧ afterLine c (xs ++ ys) = afterLine c xs ++ ys := by
  have hsplit : xs.takeWhile (fun x => x ≠ c) ++ c :: (afterLine c xs ++ ys) = xs ++ ys := by
    rw [← List.cons_append, ← exists_separator h, ← List.append_assoc,
      List.takeWhile_append_dropWhile]
  have hall : ∀ x ∈ xs.takeWhile (fun x => x ≠ c), decide (x ≠ c) = true := fun x hx =>
    List.mem_takeWhile_imp (p := fun x => decide (x ≠ c)) hx
  have hmem : c ∈ xs ++ ys := List.mem_append_left _ h
  have htake : (xs ++ ys).takeWhile (fun x => x ≠ c) = xs.takeWhile (fun x => x ≠ c) := by
    rw [← hsplit, List.takeWhile_append_of_pos hall, List.takeWhile_cons_of_neg (by simp),
      List.append_nil]
  rw [firstLine_of_mem h, firstLine_of_mem hmem, htake]
  refine ⟨rfl, ?_⟩
  have hdrop : (xs ++ ys).dropWhile (fun x => x ≠ c) = c :: (afterLine c xs ++ ys) := by
    rw [← hsplit, List.dropWhile_append_of_pos hall, List.dropWhile_cons_of_neg (by simp)]
  rw [afterLine, hdrop]
  rfl

/-- There is a first line unless the list is empty. -/
theorem firstLine_eq_nil_iff : firstLine c xs = [] ↔ xs = [] := by
  constructor
  · intro h
    by_cases hc : c ∈ xs
    · rw [firstLine_of_mem hc] at h
      exact absurd h (List.append_ne_nil_of_right_ne_nil _ (List.cons_ne_nil _ _))
    · rwa [(firstLine_of_notMem hc).1] at h
  · rintro rfl
    rfl

/-! ## Several lists -/

/-- The lines that are read from the lists `f`, one from a list each time. -/
def readLines (c : α) (f : ι → List α) : List ι → List (List α)
  | [] => []
  | i :: is => firstLine c (f i) :: readLines c (Function.update f i (afterLine c (f i))) is

/-- What is left of the lists. -/
def leftOver (c : α) (f : ι → List α) : List ι → ι → List α
  | [] => f
  | i :: is => leftOver c (Function.update f i (afterLine c (f i))) is

end HeapLib
