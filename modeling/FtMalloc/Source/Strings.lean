import FtMalloc.Source.Calls

/-!
# Strings

The functions of `libft` that make strings in blocks of the heap, over `malloc.c` and `free.c`. A
`char const *` is an address of the heap or a place in a constant. Counters wrap as the source
declares them; the machine does not record it.
-/

namespace FtMalloc

open HeapLib

/-- The kernel over a whole program: an answer may depend on all that has happened before. -/
structure Kernel (P : Platform) where
  answer : Heap → ℕ → Option ℕ
  ok : ∀ s : Heap, s.KernelOk P (answer s)

/-- `malloc`, with an answer of the kernel. -/
def Kernel.serve {P : Platform} (K : Kernel P) (size : ℕ) : M ℕ := fun s =>
  FtMalloc.malloc P (K.answer s) size s

/-- A process that asks for memory. Whether a request has been `refused` is a record that no
function reads. -/
structure Task where
  heap : Heap
  refused : Bool

/-- A program of such a process. -/
abbrev T (α : Type) := Program Task α

instance : MonadLift (Program Heap) (Program Task) where
  monadLift := onPart Task.heap fun s w => { w with heap := s }

/-- A call of `malloc` in a program. -/
def Kernel.malloc {P : Platform} (K : Kernel P) (size : ℕ) : T ℕ := do
  let ptr ← K.serve size
  if ptr = null then
    fun w => some (null, { w with refused := true })
  else
    return ptr

/-- A `char const *`: an address, or a place in a constant that its terminator ends. -/
inductive Text
  | heap (a : ℕ)
  | const (str : List UInt8) (i : ℕ)

namespace Text

/-- `text[i]`. -/
def get : Text → ℕ → M ℕ
  | heap a, i => load 1 (a + i)
  | const str j, i => if j + i ≤ str.length then pure (str.getD (j + i) 0).toNat else abort

/-- `text + n`. -/
def add : Text → ℕ → Text
  | heap a, n => heap (a + n)
  | const str i, n => const str (i + n)

/-- `!text`. -/
def isNull : Text → Bool
  | heap a => a = null
  | const _ _ => false

end Text

/-! ## Bytes -/

/-- `ft_memset`. The loop carries `i`. -/
def ftMemset (dest c n : ℕ) : M ℕ := do
  forever (fun i : ℕ => do
    if n > i then
      store 1 (dest + i) c
      return .inl ((i + 1) % 2 ^ 64)
    else
      return .inr ()) 0
  return dest

/-- `ft_bzero`. -/
def ftBzero (dest n : ℕ) : M Unit := do
  let _ ← ftMemset dest 0 n

/-- `ft_strlen`. The loop carries `i`. -/
def ftStrlen (str : Text) : M ℕ := do
  if str.isNull then
    return 0
  else
    forever (fun i : ℕ => do
      if (← str.get i) = 0 then
        return .inr i
      else
        return .inl ((i + 1) % 2 ^ 64)) 0

/-- `ft_strlcpy`. The loop carries `i`. -/
def ftStrlcpy (dest : ℕ) (src : Text) (size : ℕ) : M ℕ := do
  if size > 0 then
    let i ← forever (fun i : ℕ => do
      if i < size - 1 then
        let c ← src.get i
        if c = 0 then
          return .inr i
        else
          store 1 (dest + i) c
          return .inl ((i + 1) % 2 ^ 64)
      else
        return .inr i) 0
    store 1 (dest + i) 0
  ftStrlen src

/-- `ft_strlcat`. The loop carries `i` and `n`. -/
def ftStrlcat (dest : ℕ) (src : Text) (size : ℕ) : M ℕ := do
  let destLen ← ftStrlen (.heap dest)
  if dest = null ∨ src.isNull then
    return 0
  else if size = 0 ∨ size ≤ destLen then
    return ((← ftStrlen src) + size) % 2 ^ 64
  else
    let n ← forever (fun v : ℕ × ℕ => do
      let c ← src.get v.1
      if c ≠ 0 ∧ v.1 < size - destLen - 1 then
        store 1 (dest + v.2) c
        return .inl ((v.1 + 1) % 2 ^ 64, (v.2 + 1) % 2 ^ 64)
      else
        return .inr v.2) (0, destLen)
    store 1 (dest + n) 0
    return (destLen + (← ftStrlen src)) % 2 ^ 64

/-! ## New strings -/

section

variable {P : Platform} (K : Kernel P)

/-- `ft_calloc`. -/
def ftCalloc (len size : ℕ) : T ℕ := do
  let array ← K.malloc (len * size % 2 ^ 64)
  if array = null then
    return null
  else
    ftBzero array (len * size % 2 ^ 64)
    return array

/-- `ft_strdup`. -/
def ftStrdup (str : Text) : T ℕ := do
  let len ← ftStrlen str
  let dup ← K.malloc ((len + 1) % 2 ^ 64)
  if dup = null then
    return null
  else
    let _ ← ftStrlcpy dup str ((len + 1) % 2 ^ 64)
    return dup

/-- The block of `ft_substr`. -/
def ftSubstrBlock (s : Text) (start len : ℕ) : T ℕ := do
  let n ← ftStrlen s
  if start ≥ n then
    ftCalloc K 1 1
  else if len > n - start then
    ftCalloc K (n - start + 1) 1
  else
    ftCalloc K ((len + 1) % 2 ^ 64) 1

/-- `ft_substr`. The loop carries `len`, `i` and `start`. -/
def ftSubstr (s : Text) (start len : ℕ) : T ℕ := do
  let str ← ftSubstrBlock K s start len
  if str = null then
    return null
  else if start ≥ (← ftStrlen s) then
    return str
  else
    forever (fun v : ℕ × ℕ × ℕ => do
      if v.1 = 0 then
        return .inr ()
      else
        let c ← s.get v.2.2
        if c = 0 then
          return .inr ()
        else
          store 1 (str + v.2.1) c
          return .inl (v.1 - 1, (v.2.1 + 1) % 2 ^ 32, (v.2.2 + 1) % 2 ^ 32)) (len, 0, start)
    return str

end

end FtMalloc
