import FtMalloc.Source.Blocks

/-!
# Zones and the public calls

The functions of `malloc_find_zone.c`, the zone functions of `free_utils.c`, and `malloc`, `free`
and `realloc` with the private copies `realloc_malloc` and `realloc_free`. `kernel` is the answer
that the kernel gives to the at most one `mmap` of the call, as a function of the length asked for.
-/

namespace FtMalloc

open HeapLib

variable (P : Platform) (kernel : ℕ → Option ℕ)

/-! ## `malloc_find_zone.c` -/

/-- `zone_init`. -/
def zoneInit (newZone : ℕ) (type : EType) (zoneSize : ℕ) : M Unit := do
  Zone.setStart newZone newZone
  Zone.setEnd newZone (← szAdd newZone zoneSize)
  Zone.setType newZone type.code
  Zone.setBlocksNum newZone 0
  Zone.setTotalSpace newZone (← szSub zoneSize zoneHeaderSize)
  Zone.setRemainingSpace newZone (← Zone.getTotalSpace newZone)
  Zone.setMaxFreeSpaceSize newZone (← Zone.getTotalSpace newZone)
  Zone.setBlocks newZone null
  Zone.setEmptySpaces newZone (← szAdd (← Zone.getStart newZone) zoneHeaderSize)
  Block.setDataSize (← Zone.getEmptySpaces newZone)
    (← szSub (← Zone.getTotalSpace newZone) headerSize)
  Block.setEnd (← Zone.getEmptySpaces newZone) (← Zone.getEnd newZone)
  Block.setPrev (← Zone.getEmptySpaces newZone) null
  Block.setNext (← Zone.getEmptySpaces newZone) null
  Zone.setPrev newZone null
  Zone.setNext newZone (← getGZones)
  (do if (← getGZones) ≠ null then
        Zone.setPrev (← getGZones) newZone)
  setGZones newZone

/-- `create_large_zone`. -/
def createLargeZone (size : ℕ) : M ℕ := do
  if size > sizeMax - headerSize - zoneHeaderSize then
    return null
  let zoneSize ← szAdd (← szAdd size headerSize) zoneHeaderSize
  let newZone ← mmap P kernel zoneSize
  if newZone = mapFailed then
    return null
  zoneInit newZone .large zoneSize
  return newZone

/-- `create_zone`. -/
def createZone (type : EType) : M ℕ := do
  if type ≠ .tiny ∧ type ≠ .small then
    return null
  let zoneSize := if type = .tiny then P.tinyZoneSize else P.smallZoneSize
  let newZone ← mmap P kernel zoneSize
  if newZone = mapFailed then
    return null
  zoneInit newZone type zoneSize
  return newZone

/-- The loop of `find_zone` over `g_zones`. -/
def searchZone (type : EType) (size : ℕ) : M ℕ := do
  forever (fun zone => do
    if zone = null then
      return .inr null
    if type.code = (← Zone.getType zone) then
      if (← Zone.getMaxFreeSpaceSize zone) ≥ (← szAdd size headerSize) then
        return .inr zone
      return .inl (← Zone.getNext zone)
    return .inl (← Zone.getNext zone)) (← getGZones)

/-- `find_zone`. -/
def findZone (type : EType) (size : ℕ) : M ℕ := do
  if type = .large then
    return ← createLargeZone P kernel size
  let zone ← searchZone type size
  if zone ≠ null then
    return zone
  createZone P kernel type

/-! ## The zone functions of `free_utils.c` -/

/-- `find_zone_for_ptr`. -/
def findZoneForPtr (ptr : ℕ) : M ℕ := do
  if ptr = null then
    return null
  forever (fun zone => do
    if zone = null then
      return .inr null
    if (← Zone.getStart zone) ≤ ptr then
      if (← Zone.getEnd zone) > ptr then
        return .inr zone
      return .inl (← Zone.getNext zone)
    return .inl (← Zone.getNext zone)) (← getGZones)

/-- `free_large_zone`. -/
def freeLargeZone (zone : ℕ) : M Unit := do
  (do if (← Zone.getPrev zone) ≠ null then
        Zone.setNext (← Zone.getPrev zone) (← Zone.getNext zone)
      else
        setGZones (← Zone.getNext zone))
  (do if (← Zone.getNext zone) ≠ null then
        Zone.setPrev (← Zone.getNext zone) (← Zone.getPrev zone))
  munmap P zone (← szAdd (← Zone.getTotalSpace zone) zoneHeaderSize)

/-! ## `malloc.c`, `free.c` and `realloc.c` -/

/-- `malloc`. -/
def malloc (size : ℕ) : M ℕ := do
  if size = 0 ∨ size > P.maxAllocSize then
    return null
  let size ← alignSize size
  lockMutex
  let type := getZoneType size
  let zone ← findZone P kernel type size
  if zone = null then
    unlockMutex
    return null
  let block ← allocateBlock zone size
  if block = null then
    unlockMutex
    return null
  let ptr ← blockPayload block
  unlockMutex
  return ptr

/-- `free`. -/
def free (ptr : ℕ) : M Unit := do
  if ptr = null then
    return ()
  lockMutex
  let zone ← findZoneForPtr ptr
  if zone = null then
    unlockMutex
    return ()
  let block ← blockFromPayload ptr
  if !(← isValidBlock block zone) then
    unlockMutex
    return ()
  if (← Zone.getType zone) = EType.large.code then
    freeLargeZone P zone
    unlockMutex
    return ()
  convertBlockToEmpty zone block
  unlockMutex

/-- `realloc_malloc`. -/
def reallocMalloc (size : ℕ) : M ℕ := do
  if size = 0 ∨ size > P.reallocMaxAllocSize then
    return null
  let size ← alignSize size
  let type := getZoneType size
  let zone ← findZone P kernel type size
  if zone = null then
    return null
  let block ← allocateBlock zone size
  if block = null then
    return null
  blockPayload block

/-- `realloc_free`. -/
def reallocFree (ptr : ℕ) : M Unit := do
  if ptr = null then
    return ()
  let zone ← findZoneForPtr ptr
  if zone = null then
    return ()
  let block ← blockFromPayload ptr
  if !(← isValidBlock block zone) then
    return ()
  if (← Zone.getType zone) = EType.large.code then
    freeLargeZone P zone
    return ()
  convertBlockToEmpty zone block

/-- The end of `realloc`, from the call of `realloc_malloc` on. -/
def reallocMove (ptr size oldSize : ℕ) : M ℕ := do
  let newPtr ← reallocMalloc P kernel size
  if newPtr = null then
    unlockMutex
    return null
  let _ ← ftMemmove newPtr ptr oldSize
  reallocFree P ptr
  unlockMutex
  return newPtr

/-- `realloc` behind the search for the zone and the check of the block. -/
def reallocBlock (zone block ptr : ℕ) (size : ℕ) : M ℕ := do
  let oldSize ← Block.getDataSize block
  if oldSize ≥ size then
    (do if (← szSub oldSize size) ≥ minSplitSize then
          splitBlock zone block size)
    unlockMutex
    return ptr
  let newPtr ← (do
    if (getZoneType size).code = (← Zone.getType zone) then
      tryToExtendBlock zone block size
    else
      pure null)
  if newPtr ≠ null then
    unlockMutex
    return newPtr
  reallocMove P kernel ptr size oldSize

/-- `realloc`. -/
def realloc (ptr : ℕ) (size : ℕ) : M ℕ := do
  if ptr = null then
    return ← malloc P kernel size
  if size = 0 then
    free P ptr
    return null
  let size ← alignSize size
  lockMutex
  let zone ← findZoneForPtr ptr
  if zone = null then
    unlockMutex
    return null
  let block ← blockFromPayload ptr
  if !(← isValidBlock block zone) then
    unlockMutex
    return null
  reallocBlock P kernel zone block ptr size

end FtMalloc
