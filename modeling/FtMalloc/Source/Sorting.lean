import FtMalloc.Lib.Program
import FtMalloc.Machine

/-!
# Sorting arrays of numbers

`merge_sort.c` and `quick_sort.c`. The arrays of a program are found by their pointers; an access
outside of an array and a result that is no `int` have no outcome.
-/

namespace FtMalloc

open HeapLib

/-- Arrays of `int`, by their pointers. -/
structure Ints where
  size : ℕ → ℕ
  cell : ℕ → ℤ → ℤ

namespace Ints

/-- The arrays with `v` at `i` of `list`. -/
def put (s : Ints) (list : ℕ) (i v : ℤ) : Ints :=
  { s with cell := Function.update s.cell list (Function.update (s.cell list) i v) }

end Ints

/-- `list[i]`. -/
def getInt (list : ℕ) (i : ℤ) : Program Ints ℤ := fun s =>
  if 0 ≤ i ∧ i < s.size list then some (s.cell list i, s) else none

/-- `list[i] = v`. -/
def putInt (list : ℕ) (i v : ℤ) : Program Ints Unit := fun s =>
  if 0 ≤ i ∧ i < s.size list then some ((), s.put list i v) else none

/-- A result of type `int`. -/
def int (z : ℤ) : Program Ints ℤ := if -2 ^ 31 ≤ z ∧ z < 2 ^ 31 then pure z else abort

/-! ## `merge_sort.c` -/

/-- The condition of `merge`, whether the next value is on the left. -/
def mergeLeft (list : ℕ) (i m middle last : ℤ) : Program Ints Bool := do
  if i < middle then
    if m ≥ last then
      return true
    else
      return decide ((← getInt list i) ≤ (← getInt list m))
  else
    return false

/-- The loop of `merge`, which carries `i`, `j` and `m`. -/
def mergeStep (list listTemp : ℕ) (middle last : ℤ) (v : ℤ × ℤ × ℤ) :
    Program Ints ((ℤ × ℤ × ℤ) ⊕ Unit) := do
  if v.2.1 < last then
    if ← mergeLeft list v.1 v.2.2 middle last then
      putInt listTemp v.2.1 (← getInt list v.1)
      return .inl (← int (v.1 + 1), ← int (v.2.1 + 1), v.2.2)
    else
      putInt listTemp v.2.1 (← getInt list v.2.2)
      return .inl (v.1, ← int (v.2.1 + 1), ← int (v.2.2 + 1))
  else
    return .inr ()

/-- `merge`. -/
def merge (list : ℕ) (i n : ℤ) (listTemp : ℕ) : Program Ints Unit := do
  let m := (← int (n + i)).tdiv 2
  iterate (mergeStep list listTemp m n) loopBound (i, i, m)

/-- The middle of a slice of more than one value. -/
theorem middle_bounds {i n : ℤ} (h : 1 < n - i) : i < (n + i).tdiv 2 ∧ (n + i).tdiv 2 < n := by
  have hsum := Int.tmod_add_mul_tdiv (n + i) 2
  have hlt := Int.tmod_lt_of_pos (n + i) (by decide : (0 : ℤ) < 2)
  have hgt := Int.lt_tmod_of_pos (n + i) (by decide : (0 : ℤ) < 2)
  omega

/-- `merge_split`. -/
def mergeSplit (list : ℕ) (i n : ℤ) (listTemp : ℕ) : Program Ints Unit :=
  if n - i ≤ 1 then
    pure ()
  else do
    let _ ← int (n + i)
    mergeSplit listTemp i ((n + i).tdiv 2) list
    mergeSplit listTemp ((n + i).tdiv 2) n list
    merge listTemp i n list
termination_by (n - i).toNat
decreasing_by
  all_goals
    have := middle_bounds (i := i) (n := n) (by omega)
    omega

/-- The loop of `merge_sort`, which carries `i` and `n`. -/
def copyInts (list listTemp : ℕ) (v : ℤ × ℤ) : Program Ints ((ℤ × ℤ) ⊕ ℤ) := do
  if v.1 ≠ 0 then
    putInt listTemp v.2 (← getInt list v.2)
    return .inl (← int (v.1 - 1), ← int (v.2 + 1))
  else
    return .inr v.2

/-- `merge_sort`. -/
def mergeSort (list : ℕ) (i : ℤ) (listTemp : ℕ) : Program Ints Unit := do
  let n ← iterate (copyInts list listTemp) loopBound (i, 0)
  mergeSplit list 0 n listTemp

/-! ## `quick_sort.c` -/

/-- The first inner loop of `quick_split`, which carries `i`. -/
def skipBelow (list : ℕ) (pivot i : ℤ) : Program Ints ℤ :=
  iterate (fun i : ℤ => do
    if (← getInt list i) < pivot then
      return .inl (← int (i + 1))
    else
      return .inr i) loopBound i

/-- The second inner loop of `quick_split`, which carries `j`. -/
def skipAbove (list : ℕ) (pivot j : ℤ) : Program Ints ℤ :=
  iterate (fun j : ℤ => do
    if (← getInt list j) > pivot then
      return .inl (← int (j - 1))
    else
      return .inr j) loopBound j

/-- The outer loop of `quick_split`, which carries `i` and `j`. -/
def quickStep (list : ℕ) (pivot : ℤ) (v : ℤ × ℤ) : Program Ints ((ℤ × ℤ) ⊕ ℤ) := do
  let i ← skipBelow list pivot v.1
  let j ← skipAbove list pivot v.2
  if i ≥ j then
    return .inr j
  else
    let temp ← getInt list i
    putInt list i (← getInt list j)
    putInt list j temp
    return .inl (i, j)

/-- `quick_split`. -/
def quickSplit (list : ℕ) (start len : ℤ) : Program Ints ℤ := do
  let pivot ← getInt list ((← int (start + len)).tdiv 2)
  iterate (quickStep list pivot) loopBound (start, len)

/-- `quick_sort`, with at most `depth` calls inside each other. -/
def quickSort : ℕ → ℕ → ℤ → ℤ → Program Ints Unit
  | 0, _, _, _ => abort
  | depth + 1, list, start, len => do
    if (← int (len - start)) ≤ 1 then
      return ()
    else
      let split ← quickSplit list start len
      quickSort depth list start split
      quickSort depth list split len

end FtMalloc
