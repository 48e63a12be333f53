import FtMalloc.Lib.Process
import FtMalloc.Source.Blocks

/-!
# The reports

`show_alloc_mem.c` and `show_alloc_mem_ex.c`. A report is a process whose library calls are those of
`printf`, labelled with what they print. Colours are left out.
-/

namespace FtMalloc

open HeapLib Process

/-- What a call of `printf` prints. -/
inductive Line
  /-- `No zones allocated` -/
  | noZones
  /-- An empty line. -/
  | gap
  /-- `%s : %p` -/
  | zone (type : String) (start : ℕ)
  /-- `%p - %p : %zu bytes` -/
  | block (addr stop bytes : ℕ)
  /-- `Total : %zu bytes` -/
  | total (bytes : ℕ)
  /-- `ZONE: %s : %p - %p : %zu bytes` -/
  | zoneEx (type : String) (start stop bytes : ℕ)
  /-- `BLOCK: %p - %p : %zu bytes` -/
  | blockEx (addr stop bytes : ℕ)
  /-- `EMPTY: %p - %p : %zu bytes` -/
  | emptyEx (addr stop bytes : ℕ)
  /-- A title between two bars. -/
  | title (text : String)
  /-- `Zone: %s` -/
  | zoneName (type : String)
  /-- A field of the statistics. -/
  | field (name : String) (value : ℕ)
deriving DecidableEq, Repr

/-- `g_malloc_lock`. -/
def gMallocMutex : Mutex Heap := ⟨Heap.gMallocLock, fun b s => { s with gMallocLock := b }⟩

/-- A process of the program. -/
abbrev Proc (α : Type) := Process Heap Line α

/-- `printf`. -/
def printf (line : Line) : Proc Unit := perform line

/-- A loop with calls of `printf`; `inl` goes round again and `inr` leaves. -/
def looping {α β : Type} (step : β → Proc (β ⊕ α)) (b : β) : Proc α := iterate step loopBound b

/-- `get_type_str`. -/
def getTypeStr (type : ℕ) : String :=
  if type = EType.tiny.code then "TINY" else if type = EType.small.code then "SMALL" else "LARGE"

/-! ## `show_alloc_mem.c` -/

/-- `print_zone` of `show_alloc_mem.c`. The loop carries `block` and `total_allocated`. -/
def printZone (zone : ℕ) : Proc ℕ := do
  printf (.zone (getTypeStr (← Zone.getType zone)) (← Zone.getStart zone))
  looping (fun v : ℕ × ℕ => do
    if v.1 = null then
      return .inr v.2
    printf (.block v.1 (← Block.getEnd v.1) (← szAdd (← Block.getDataSize v.1) headerSize))
    let totalAllocated ← szAdd v.2 (← Block.getDataSize v.1)
    return .inl (← Block.getNext v.1, totalAllocated)) (← Zone.getBlocks zone, 0)

/-- `show_alloc_mem`. The loop carries `zone` and `total_allocated`. -/
def showAllocMem : Proc Unit := do
  if (← getGZones) = null then
    printf .noZones
    return ()
  acquire
  let totalAllocated ← looping (fun v : ℕ × ℕ => do
    if v.1 = null then
      return .inr v.2
    let totalAllocated ← szAdd v.2 (← printZone v.1)
    printf .gap
    return .inl (← Zone.getNext v.1, totalAllocated)) (← getGZones, 0)
  printf (.total totalAllocated)
  release

/-! ## `show_alloc_mem_ex.c` -/

/-- The loops of `count_items`, which carry the item and `count`. -/
def countFrom (item count : ℕ) : Proc ℕ :=
  looping (fun v : ℕ × ℕ => do
    if v.1 = null then
      return .inr v.2
    let count ← szAdd v.2 1
    return .inl (← Block.getNext v.1, count)) (item, count)

/-- `count_items`. -/
def countItems (zone : ℕ) : Proc ℕ := do
  let count ← countFrom (← Zone.getBlocks zone) 0
  countFrom (← Zone.getEmptySpaces zone) count

/-- The variables of the loop of `print_zone` in `show_alloc_mem_ex.c`. -/
structure Scan where
  i : ℕ
  block : ℕ
  empty : ℕ
  totalAllocated : ℕ

/-- The body of that loop. -/
def printItem (itemCount : ℕ) (v : Scan) : Proc (Scan ⊕ ℕ) := do
  if v.i ≥ itemCount then
    return .inr v.totalAllocated
  let i ← szAdd v.i 1
  if v.block ≠ null ∧ v.block < v.empty then
    printf (.blockEx v.block (← Block.getEnd v.block)
      (← szAdd (← Block.getDataSize v.block) headerSize))
    let totalAllocated ← szAdd v.totalAllocated (← Block.getDataSize v.block)
    return .inl ⟨i, ← Block.getNext v.block, v.empty, totalAllocated⟩
  if v.empty ≠ null then
    printf (.emptyEx v.empty (← Block.getEnd v.empty)
      (← szAdd (← Block.getDataSize v.empty) headerSize))
    return .inl ⟨i, v.block, ← Block.getNext v.empty, v.totalAllocated⟩
  return .inl { v with i := i }

/-- `print_zone` of `show_alloc_mem_ex.c`. -/
def printZoneEx (zone : ℕ) : Proc ℕ := do
  let itemCount ← countItems zone
  if itemCount = 0 then
    return 0
  printf (.zoneEx (getTypeStr (← Zone.getType zone)) (← Zone.getStart zone) (← Zone.getEnd zone)
    (← szAdd (← Zone.getTotalSpace zone) zoneHeaderSize))
  looping (printItem itemCount) ⟨0, ← Zone.getBlocks zone, ← Zone.getEmptySpaces zone, 0⟩

/-- The loop over the empty spaces in the statistics. It carries `block` and the representation of
the `int` `empty_count`. -/
def countEmpties (zone : ℕ) : Proc ℕ := do
  looping (fun v : ℕ × ℕ => do
    if v.1 = null then
      return .inr v.2
    return .inl (← Block.getNext v.1, (v.2 + 1) % 2 ^ 32)) (← Zone.getEmptySpaces zone, 0)

/-- The statistics of a zone. The result is the numbers of blocks and of empty spaces. -/
def printStatistics (zone : ℕ) : Proc (ℕ × ℕ) := do
  printf (.zoneName (getTypeStr (← Zone.getType zone)))
  printf (.field "Start" (← Zone.getStart zone))
  printf (.field "End" (← Zone.getEnd zone))
  printf (.field "Total Space" (← Zone.getTotalSpace zone))
  printf (.field "Remaining Space" (← Zone.getRemainingSpace zone))
  printf (.field "Max Free Space" (← Zone.getMaxFreeSpaceSize zone))
  printf (.field "Allocated Blocks" (← Zone.getBlocksNum zone))
  let emptyCount ← countEmpties zone
  printf (.field "Empty Spaces" emptyCount)
  printf .gap
  return (← Zone.getBlocksNum zone, emptyCount)

/-- `show_alloc_mem_ex`. The loops carry `zone` and the totals. -/
def showAllocMemEx : Proc Unit := do
  if (← getGZones) = null then
    printf .noZones
    return ()
  acquire
  printf .gap
  printf (.title "EXTENDED MEMORY INFO")
  printf .gap
  let totalAllocated ← looping (fun v : ℕ × ℕ => do
    if v.1 = null then
      return .inr v.2
    let totalAllocated ← szAdd v.2 (← printZoneEx v.1)
    printf .gap
    return .inl (← Zone.getNext v.1, totalAllocated)) (← getGZones, 0)
  printf (.total totalAllocated)
  printf .gap
  printf (.title "DETAILED STATISTICS")
  printf .gap
  let totals ← looping (fun v : ℕ × ℕ × ℕ => do
    if v.1 = null then
      return .inr v.2
    let counts ← printStatistics v.1
    return .inl (← Zone.getNext v.1, (v.2.1 + counts.1) % 2 ^ 32, (v.2.2 + counts.2) % 2 ^ 32))
    (← getGZones, 0, 0)
  printf (.title "GLOBAL STATISTICS")
  printf (.field "Total Allocated Blocks" totals.1)
  printf (.field "Total Empty Spaces" totals.2)
  printf .gap
  release

end FtMalloc
