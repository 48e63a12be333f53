import FtMalloc.Source.Arrays
import Mathlib.Data.Stream.Defs

/-!
# Reading lines

`get_next_line.c` and `ft_strchr.c`. A process has, beside its heap, the static array `temp` and the
answers that the next calls of `read` will get. A loop carries its variables in the order in which
the source declares them.
-/

namespace FtMalloc

open HeapLib

/-- The answers that the next calls of `read` will get. An answer is a failure, or some bytes, none
at the end of a file. The bytes need not end. -/
abbrev Answers := Stream' (Option (List UInt8))

/-- A process that reads. -/
structure World extends Task where
  temp : ℕ → ℕ
  input : ℕ → Answers

/-- The process with `str` in `temp[i]`. -/
def World.withTemp (w : World) (i str : ℕ) : World :=
  { w with temp := Function.update w.temp i str }

/-- A program of such a process. -/
abbrev W (α : Type) := Program World α

/-- A program on the heap. -/
def onHeap {α : Type} (p : M α) : W α :=
  onPart (fun w => w.heap) (fun s w => { w with heap := s }) p

/-- A program that asks for memory. -/
def onTask {α : Type} (p : T α) : W α := onPart World.toTask (fun t w => { w with toTask := t }) p

/-! ## `read` -/

/-- The next answer for at most `count` bytes, and those behind it. What does not fit comes next. -/
def answer (count : ℕ) (answers : Answers) : Option (List UInt8) × Answers :=
  match answers.head with
  | none => (none, answers.tail)
  | some bs => (some (bs.take count),
      if bs.length ≤ count then answers.tail else answers.tail.cons (some (bs.drop count)))

/-- The answer of the kernel. -/
def nextInput (fd count : ℕ) : W (Option (List UInt8)) := fun w =>
  some ((answer count (w.input fd)).1,
    { w with input := Function.update w.input fd (answer count (w.input fd)).2 })

/-- Bytes that the kernel writes. -/
def storeBytes (a : ℕ) : List UInt8 → M Unit
  | [] => pure ()
  | b :: bs => do
    store 1 a b.toNat
    storeBytes (a + 1) bs

/-- `read`. -/
def read (fd : ℤ) (buf count : ℕ) : W ℤ := do
  match ← nextInput fd.toNat count with
  | none => return -1
  | some bs =>
    onHeap (storeBytes buf bs)
    return bs.length

/-! ## `ft_strchr.c` -/

/-- The comparison of a `char` with `(unsigned char)c`. A `char` is signed. -/
def isChar (x c : ℕ) : Bool := x < 128 && x = c % 256

/-- `ft_strchr`. The loop carries `i`. -/
def ftStrchr (str c : ℕ) : M ℕ := do
  if str = null then
    return null
  else
    forever (fun i : ℕ => do
      let x ← load 1 (str + i)
      if x ≠ 0 then
        if isChar x c then
          return .inr (str + i)
        else
          return .inl (← intSucc i)
      else if isChar x c then
        return .inr (str + i)
      else
        return .inr null) 0

/-! ## `get_next_line.c` -/

/-- The macros `OPEN_MAX` and `BUFFER_SIZE`, which is an `int`. -/
structure Limits where
  openMax : ℕ
  bufferSize : ℤ

/-- The loop of `order_nl` over the bytes behind the newline at `i`. -/
def copyBehind (str res i : ℕ) : M Unit := do
  let i ← intSucc i
  forever (fun v : ℕ × ℕ => do
    let c ← load 1 (str + v.1)
    if c ≠ 0 then
      store 1 (res + v.2) c
      return .inl (← intSucc v.1, ← intSucc v.2)
    else
      return .inr ()) (i, 0)

/-- The `len` of `substr_nl`. -/
def lineLen (str : ℕ) : M ℕ := do
  let len ← forever (fun len : ℕ => do
    let c ← load 1 (str + len)
    if c ≠ 0 ∧ c ≠ 10 then
      return .inl ((len + 1) % 2 ^ 64)
    else
      return .inr len) 0
  if (← load 1 (str + len)) = 10 then
    return (len + 1) % 2 ^ 64
  else
    return len

section

variable {P : Platform} (K : Kernel P) (L : Limits)

/-- `ft_calloc` in such a process. -/
def request (len size : ℕ) : W ℕ := onTask (ftCalloc K len size)

/-- `order_nl`. -/
def orderNl (str : ℕ) : W ℕ := do
  let i ← onHeap (skipWhile (.heap str) (fun x => x ≠ 0 && x ≠ 10) 0)
  if (← onHeap (load 1 (str + i))) = 0 then
    onHeap (free P str)
    return null
  else
    let res ← request K ((← onHeap (ftStrlen (.heap str))) - i + 1) 1
    if res = null then
      onHeap (free P str)
      return null
    else
      onHeap (copyBehind str res i)
      onHeap (free P str)
      return res

/-- `substr_nl`. -/
def substrNl (str : ℕ) : W ℕ := do
  if (← onHeap (load 1 str)) = 0 then
    return null
  else
    let len ← onHeap (lineLen str)
    let res ← request K ((len + 1) % 2 ^ 64) 1
    if res = null then
      return null
    else
      let _ ← onHeap (ftStrlcpy res (.heap str) ((len + 1) % 2 ^ 64))
      return res

/-- The `s1` of `strjoin_nl`. -/
def joinHead (s1 : ℕ) : W ℕ := if s1 = null then request K 1 1 else pure s1

/-- `strjoin_nl`. -/
def strjoinNl (s1 s2 : ℕ) : W ℕ := do
  let s1 ← joinHead K s1
  if s1 = null then
    return null
  else if s2 = null then
    onHeap (free P s1)
    return null
  else
    let len1 ← onHeap (ftStrlen (.heap s1))
    let len2 ← onHeap (ftStrlen (.heap s2))
    let str ← request K ((len1 + len2 + 1) % 2 ^ 64) 1
    if str = null then
      onHeap (free P s1)
      return null
    else
      let _ ← onHeap (ftStrlcpy str (.heap s1) ((len1 + 1) % 2 ^ 64))
      let _ ← onHeap (ftStrlcpy (str + len1) (.heap s2) ((len2 + 1) % 2 ^ 64))
      onHeap (free P s1)
      return str

/-- The loop of `read_nl`, which carries `str` and `data`. -/
def readMore (res : ℕ) (fd : ℤ) (v : ℕ × ℤ) : W ((ℕ × ℤ) ⊕ ℕ) := do
  if (← onHeap (ftStrchr v.1 10)) = null ∧ v.2 ≠ 0 then
    let data ← read fd res L.bufferSize.toNat
    if data = -1 then
      onHeap (free P res)
      onHeap (free P v.1)
      return .inr null
    else if data = 0 then
      onHeap (free P res)
      return .inr v.1
    else
      onHeap (store 1 (res + data.toNat) 0)
      let str ← strjoinNl K v.1 res
      if str = null then
        onHeap (free P res)
        return .inr str
      else
        return .inl (str, data)
  else
    onHeap (free P res)
    return .inr v.1

/-- `read_nl`. -/
def readNl (str : ℕ) (fd : ℤ) : W ℕ := do
  let res ← request K (← onHeap (intSucc L.bufferSize.toNat)) 1
  if res = null then
    onHeap (free P str)
    return null
  else
    iterate (readMore K L res fd) loopBound (str, 2)

/-- `temp[fd]`. -/
def getTemp (fd : ℤ) : W ℕ := fun w =>
  if 0 ≤ fd ∧ fd < L.openMax then some (w.temp fd.toNat, w) else none

/-- `temp[fd] = str`. -/
def setTemp (fd : ℤ) (str : ℕ) : W Unit := fun w =>
  if 0 ≤ fd ∧ fd < L.openMax then some ((), w.withTemp fd.toNat str) else none

/-- `get_next_line`. -/
def getNextLine (fd : ℤ) : W ℕ := do
  if fd < 0 ∨ L.bufferSize ≤ 0 ∨ fd > L.openMax then
    return null
  else
    let temp ← readNl K L (← getTemp L fd) fd
    setTemp L fd temp
    if temp = null then
      return null
    else
      let res ← substrNl K temp
      if res = null then
        onHeap (free P temp)
        setTemp L fd null
        return null
      else
        setTemp L fd (← orderNl K temp)
        return res

/-- A program that reads a line from one descriptor after the other. -/
def getNextLines : List ℤ → W (List ℕ)
  | [] => pure []
  | fd :: fds => do
    let res ← getNextLine K L fd
    return res :: (← getNextLines fds)

end

end FtMalloc
