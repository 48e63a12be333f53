import FtMalloc.Source.Strings

/-!
# Arrays of strings

The functions of `libft` on arrays of strings that a null pointer ends: `ft_split.c`, `array_len.c`,
`array_free.c`, `array_dup.c`, `array_char_len.c` and `array_to_str.c`. An `int` that overflows has
no outcome.
-/

namespace FtMalloc

open HeapLib

/-- `i + 1` in `int`. -/
def intSucc (i : ℕ) : M ℕ := if i + 1 < 2 ^ 31 then pure (i + 1) else abort

/-- A `char const **`: an address, or a constant array. -/
inductive Texts
  | heap (a : ℕ)
  | const (texts : List Text)

namespace Texts

/-- `texts[i]`. -/
def get : Texts → ℕ → M Text
  | heap a, i => do return .heap (← load 8 (a + 8 * i))
  | const texts, i => if i ≤ texts.length then pure (texts.getD i (.heap null)) else abort

/-- `!texts`. -/
def isNull : Texts → Bool
  | heap a => a = null
  | const _ => false

end Texts

/-! ## `ft_split.c` -/

/-- A loop that goes from `i` along bytes for which `more` holds. -/
def skipWhile (s : Text) (more : ℕ → Bool) (i : ℕ) : M ℕ :=
  forever (fun i : ℕ => do
    if more (← s.get i) then
      return .inl (← intSucc i)
    else
      return .inr i) i

/-- The loop over separators of `count_split` and `ft_split`. -/
def skipSeparators (s : Text) (c i : ℕ) : M ℕ := skipWhile s (fun x => x = c && x ≠ 0) i

/-- The loop over a word of `word_len` and `ft_split`. -/
def skipWord (s : Text) (c i : ℕ) : M ℕ := skipWhile s (fun x => x ≠ c && x ≠ 0) i

/-- The body of the second loop of `count_split`, which carries `i` and `n`. -/
def countWord (s : Text) (c : ℕ) (v : ℕ × ℕ) : M ((ℕ × ℕ) ⊕ ℕ) := do
  let x ← s.get v.1
  if x = 0 then
    return .inr v.2
  else if x = c then
    let y ← s.get (v.1 + 1)
    if y ≠ c ∧ y ≠ 0 then
      let n ← intSucc v.2
      return .inl (← intSucc v.1, n)
    else
      return .inl (← intSucc v.1, v.2)
  else
    return .inl (← intSucc v.1, v.2)

/-- `count_split`. -/
def countSplit (s : Text) (c : ℕ) : M ℕ := do
  let i ← skipSeparators s c 0
  let n := if (← s.get i) = 0 then 0 else 1
  forever (countWord s c) (i, n)

/-- `word_len`. -/
def wordLen (s : Text) (c : ℕ) : M ℕ := skipWord s c 0

section

variable {P : Platform} (K : Kernel P)

/-- `free_split`. The loop carries `nb`. -/
def freeSplit (P : Platform) (array : ℕ) (nb : ℤ) : M ℕ := do
  forever (fun nb : ℤ => do
    if nb ≥ 0 then
      free P (← load 8 (array + 8 * nb.toNat))
      return .inl (nb - 1)
    else
      return .inr ()) nb
  free P array
  return null

/-- The body of the loop of `ft_split`, which carries `i`, `n` and `nb`. It leaves with `nb`, or
with nothing when the function has returned. -/
def splitWord (s : Text) (c array : ℕ) (v : ℕ × ℕ × ℕ) : T ((ℕ × ℕ × ℕ) ⊕ Option ℕ) := do
  if v.1 = 0 then
    return .inr (some v.2.2)
  else
    let n ← skipSeparators s c v.2.1
    let word ← ftSubstr K s n (← wordLen (s.add n) c)
    store 8 (array + 8 * v.2.2) word
    let word ← load 8 (array + 8 * v.2.2)
    let nb ← intSucc v.2.2
    if word = null then
      let _ ← freeSplit P array ((nb : ℤ) - 1)
      return .inr none
    else
      let n ← skipWord s c n
      return .inl (v.1 - 1, n, nb)

/-- `ft_split`. -/
def ftSplit (s : Text) (c : UInt8) : T ℕ := do
  let i ← countSplit s c.toNat
  let array ← K.malloc (8 * (← intSucc i) % 2 ^ 64)
  if array = null then
    return null
  else
    match ← iterate (splitWord K s c.toNat array) loopBound (i, 0, 0) with
    | none => return null
    | some nb =>
      store 8 (array + 8 * nb) null
      return array

/-! ## Arrays -/

/-- `array_len`. The loop carries `i`. -/
def arrayLen (array : Texts) : M ℕ := do
  if array.isNull then
    return 0
  else
    forever (fun i : ℕ => do
      if (← array.get i).isNull then
        return .inr i
      else
        return .inl (← intSucc i)) 0

/-- `array_free`. The loop carries `i`. -/
def arrayFree (P : Platform) (array : ℕ) : M Unit := do
  if array = null then
    return ()
  else
    forever (fun i : ℕ => do
      let a ← load 8 (array + 8 * i)
      if a = null then
        return .inr ()
      else
        free P a
        return .inl (← intSucc i)) 0
    free P array

/-- `array_dup`. The loop carries `i`. -/
def arrayDup (array : Texts) : T ℕ := do
  let len ← arrayLen array
  let copy ← ftCalloc K (← intSucc len) 8
  if copy = null then
    return null
  else
    iterate (fun i : ℕ => do
      if i < len then
        let dup ← ftStrdup K (← array.get i)
        store 8 (copy + 8 * i) dup
        if (← load 8 (copy + 8 * i)) = null then
          arrayFree P copy
          return .inr null
        else
          return .inl (← intSucc i)
      else
        return .inr copy) loopBound 0

/-- `array_char_len`. The loop carries `i` and `len`. -/
def arrayCharLen (array : Texts) : M ℕ :=
  forever (fun v : ℕ × ℕ => do
    let a ← array.get v.1
    if a.isNull then
      return .inr v.2
    else
      let n ← ftStrlen a
      return .inl (← intSucc v.1, (v.2 + n) % 2 ^ 64)) (0, 0)

/-- The body of the loop of `array_to_str`, which carries `i`. -/
def appendText (array : Texts) (spliter : UInt8) (str size i : ℕ) : M (ℕ ⊕ Unit) := do
  let a ← array.get i
  if a.isNull then
    return .inr ()
  else
    let _ ← ftStrlcat str a size
    let i ← intSucc i
    if spliter = 0 then
      return .inl i
    else if (← array.get i).isNull then
      return .inl i
    else
      let _ ← ftStrlcat str (.const [spliter] 0) size
      return .inl i

/-- The length that `array_to_str` computes. -/
def joinedLen (array : Texts) (spliter : UInt8) : M ℕ := do
  if spliter = 0 then
    arrayCharLen array
  else
    let len ← arrayCharLen array
    return (len + (← arrayLen array)) % 2 ^ 64

/-- `array_to_str`. -/
def arrayToStr (array : Texts) (spliter : UInt8) : T ℕ := do
  let len ← joinedLen array spliter
  let str ← ftCalloc K ((len + 1) % 2 ^ 64) 1
  if str = null then
    return null
  else
    forever (appendText array spliter str ((len + 1) % 2 ^ 64)) 0
    return str

end

end FtMalloc
