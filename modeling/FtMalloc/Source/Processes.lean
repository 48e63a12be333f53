import FtMalloc.Source.Calls
import FtMalloc.Source.Reports

/-!
# The public calls as processes

`malloc`, `free` and `realloc` once more, with the lock operations as steps of a process, so that
threads can interleave at them. What lies between two of these steps is a piece of the program.
Executed alone the processes are the calls of `malloc.c`, `free.c` and `realloc.c`.
-/

namespace FtMalloc

open HeapLib Process

variable (P : Platform) (kernel : ℕ → Option ℕ)

namespace Proc

/-- `malloc`. -/
def malloc (size : ℕ) : Proc ℕ := do
  if size = 0 ∨ size > P.maxAllocSize then
    return null
  let size ← alignSize size
  acquire
  let type := getZoneType size
  let zone ← findZone P kernel type size
  if zone = null then
    release
    return null
  let block ← allocateBlock zone size
  if block = null then
    release
    return null
  let ptr ← blockPayload block
  release
  return ptr

/-- `free`. -/
def free (ptr : ℕ) : Proc Unit := do
  if ptr = null then
    return ()
  acquire
  let zone ← findZoneForPtr ptr
  if zone = null then
    release
    return ()
  let block ← blockFromPayload ptr
  if !(← isValidBlock block zone) then
    release
    return ()
  if (← Zone.getType zone) = EType.large.code then
    freeLargeZone P zone
    release
    return ()
  convertBlockToEmpty zone block
  release

/-- `realloc` behind the search for the zone and the check of the block. -/
def reallocBlock (zone block ptr : ℕ) (size : ℕ) : Proc ℕ := do
  let oldSize ← Block.getDataSize block
  if oldSize ≥ size then
    (do if (← szSub oldSize size) ≥ minSplitSize then
          splitBlock zone block size : M Unit)
    release
    return ptr
  let newPtr ← (do
    if (getZoneType size).code = (← Zone.getType zone) then
      tryToExtendBlock zone block size
    else
      pure null : M ℕ)
  if newPtr ≠ null then
    release
    return newPtr
  let newPtr ← reallocMalloc P kernel size
  if newPtr = null then
    release
    return null
  let _ ← ftMemmove newPtr ptr oldSize
  reallocFree P ptr
  release
  return newPtr

/-- `realloc`. -/
def realloc (ptr : ℕ) (size : ℕ) : Proc ℕ := do
  if ptr = null then
    return ← malloc P kernel size
  if size = 0 then
    free P ptr
    return null
  let size ← alignSize size
  acquire
  let zone ← findZoneForPtr ptr
  if zone = null then
    release
    return null
  let block ← blockFromPayload ptr
  if !(← isValidBlock block zone) then
    release
    return null
  reallocBlock P kernel zone block ptr size

end Proc

end FtMalloc
