import FtMalloc.Machine

/-!
# Blocks and empty spaces inside one zone

The functions of `malloc_utils.c`, `malloc_allocate_block.c`, `free_utils.c`,
`free_convert_block_to_empty.c`, `realloc_utils.c` and `realloc_try_to_extend_block.c` that work
inside one zone, and the copy loops of `ft_memcpy.c` and `ft_memmove.c`. The address-ordered
insertion that the sources write out three times is `insertSorted`; the two assignments to the
inserted node's own links are made in one order here.
-/

namespace FtMalloc

open HeapLib

/-- `block_payload`. -/
def blockPayload (block : ℕ) : M ℕ := szAdd block headerSize

/-- `block_end`. -/
def blockEnd (block : ℕ) : M ℕ := do
  szAdd (← szAdd block headerSize) (← Block.getDataSize block)

/-- `block_from_payload`. -/
def blockFromPayload (ptr : ℕ) : M ℕ := szSub ptr headerSize

/-- `align_size`. The mask is `-alignment` as a `size_t`. -/
def alignSize (size : ℕ) : M ℕ := do
  if size > sizeMax - alignment then
    return size
  return (← szSub (← szAdd size alignment) 1) &&& (2 ^ 64 - alignment)

/-- `get_zone_type`. -/
def getZoneType (size : ℕ) : EType :=
  if size ≥ tinyDataMin ∧ size ≤ tinyDataMax then .tiny
  else if size ≥ smallDataMin ∧ size ≤ smallDataMax then .small
  else .large

/-- `update_empty_stats`. -/
def updateEmptyStats (zone : ℕ) : M Unit := do
  if zone = null then
    return ()
  if (← Zone.getEmptySpaces zone) = null then
    return ()
  Zone.setMaxFreeSpaceSize zone (← Block.getDataSize (← Zone.getEmptySpaces zone))
  forever (fun emptyIter => do
    if emptyIter = null then
      return .inr ()
    if (← Block.getDataSize emptyIter) > (← Zone.getMaxFreeSpaceSize zone) then
      Zone.setMaxFreeSpaceSize zone (← Block.getDataSize emptyIter)
      return .inl (← Block.getNext emptyIter)
    return .inl (← Block.getNext emptyIter)) (← Zone.getEmptySpaces zone)

/-- The fields of a `t_block`. -/
structure BlockHeader where
  dataSize : ℕ
  stop : ℕ
  prev : ℕ
  next : ℕ

/-- A `t_block *` that may point to a header in a zone or to a copy on the stack. -/
inductive BlockRef
  | heap (block : ℕ)
  | stack (header : BlockHeader)

/-- Is the pointer null? The address of a stack object never is. -/
def BlockRef.isNull : BlockRef → Bool
  | .heap block => block = null
  | .stack _ => false

/-- `ref->prev`. -/
def BlockRef.getPrev : BlockRef → M ℕ
  | .heap block => Block.getPrev block
  | .stack header => pure header.prev

/-- `ref->next`. -/
def BlockRef.getNext : BlockRef → M ℕ
  | .heap block => Block.getNext block
  | .stack header => pure header.next

/-- `replace_block`. -/
def replaceBlock (zone : ℕ) (old : BlockRef) (new : ℕ) (type : EType) : M Unit := do
  if zone = null ∨ old.isNull ∨ new = null then
    return ()
  Block.setPrev new (← old.getPrev)
  Block.setNext new (← old.getNext)
  (do if (← old.getPrev) ≠ null then
        Block.setNext (← old.getPrev) new
      else if type = .empty then
        Zone.setEmptySpaces zone new
      else
        Zone.setBlocks zone new)
  if (← old.getNext) ≠ null then
    Block.setPrev (← old.getNext) new

/-- `remove_block`. -/
def removeBlock (zone : ℕ) (old : BlockRef) (type : EType) : M Unit := do
  if zone = null ∨ old.isNull then
    return ()
  (do if (← old.getPrev) ≠ null then
        Block.setNext (← old.getPrev) (← old.getNext)
      else if type = .empty then
        Zone.setEmptySpaces zone (← old.getNext)
      else
        Zone.setBlocks zone (← old.getNext))
  if (← old.getNext) ≠ null then
    Block.setPrev (← old.getNext) (← old.getPrev)

/-- Insert `node` in address order into the list whose head pointer is stored at `cell`. -/
def insertSorted (cell node : ℕ) : M Unit := do
  let head ← load 8 cell
  if head = null ∨ node < head then
    Block.setNext node head
    Block.setPrev node null
    (do if (← load 8 cell) ≠ null then
          Block.setPrev (← load 8 cell) node)
    store 8 cell node
  else
    let iter ← forever (fun iter => do
      if (← Block.getNext iter) = null then
        return .inr iter
      if (← Block.getNext iter) < node then
        return .inl (← Block.getNext iter)
      return .inr iter) head
    Block.setNext node (← Block.getNext iter)
    Block.setPrev node iter
    (do if (← Block.getNext iter) ≠ null then
          Block.setPrev (← Block.getNext iter) node)
    Block.setNext iter node

/-! ## `malloc_allocate_block.c` -/

/-- `find_empty_space`. -/
def findEmptySpace (zone : ℕ) (size : ℕ) : M ℕ := do
  if (← Zone.getEmptySpaces zone) = null then
    return null
  forever (fun empty => do
    if empty = null then
      return .inr null
    if (← Block.getDataSize empty) ≥ size then
      return .inr empty
    return .inl (← Block.getNext empty)) (← Zone.getEmptySpaces zone)

/-- `add_block_to_list`. -/
def addBlockToList (zone newBlock : ℕ) : M Unit := insertSorted (zone + 48) newBlock

/-- `update_empty_spaces`. -/
def updateEmptySpaces (zone : ℕ) (oldEmpty : BlockHeader) (newBlock : ℕ) : M Unit := do
  if oldEmpty.dataSize ≠ 0 then
    let newEmpty ← Block.getEnd newBlock
    Block.setDataSize newEmpty oldEmpty.dataSize
    Block.setEnd newEmpty oldEmpty.stop
    replaceBlock zone (.stack oldEmpty) newEmpty .empty
  else
    removeBlock zone (.stack oldEmpty) .empty

/-- `allocate_from_empty`. -/
def allocateFromEmpty (zone empty : ℕ) (size : ℕ) : M ℕ := do
  let leftover ← szSub (← Block.getDataSize empty) size
  let oldDataSize ← (if leftover ≥ minSplitSize then szSub leftover headerSize else pure 0)
  let oldEmpty : BlockHeader :=
    { dataSize := oldDataSize
      stop := ← Block.getEnd empty
      prev := ← Block.getPrev empty
      next := ← Block.getNext empty }
  let newBlock := empty
  Block.setDataSize newBlock size
  (do if oldEmpty.dataSize = 0 then
        Block.setDataSize newBlock (← szAdd (← Block.getDataSize newBlock) leftover))
  Block.setEnd newBlock (← blockEnd newBlock)
  Block.setPrev newBlock null
  Block.setNext newBlock null
  updateEmptySpaces zone oldEmpty newBlock
  addBlockToList zone newBlock
  Zone.setBlocksNum zone (← uAdd (← Zone.getBlocksNum zone) 1)
  Zone.setRemainingSpace zone (← szSub (← Zone.getRemainingSpace zone)
    (← szAdd (← Block.getDataSize newBlock) headerSize))
  updateEmptyStats zone
  return newBlock

/-- `allocate_block`. -/
def allocateBlock (zone : ℕ) (size : ℕ) : M ℕ := do
  let empty ← findEmptySpace zone size
  if empty = null then
    return null
  allocateFromEmpty zone empty size

/-! ## `free_utils.c` and `free_convert_block_to_empty.c` -/

/-- `is_valid_block`. -/
def isValidBlock (block zone : ℕ) : M Bool := do
  if block = null ∨ zone = null then
    return false
  forever (fun blockList => do
    if blockList = null then
      return .inr false
    if blockList = block then
      return .inr true
    return .inl (← Block.getNext blockList)) (← Zone.getBlocks zone)

/-- One round of the loop of `merge_empty_spaces`. -/
def mergeRound (empty : ℕ) : M (ℕ ⊕ Unit) := do
  if empty = null then
    return .inr ()
  if (← Block.getNext empty) = null then
    return .inr ()
  let nextEmpty ← Block.getNext empty
  let gap ← szSub nextEmpty (← Block.getEnd empty)
  if gap < minSplitSize then
    Block.setDataSize empty (← szAdd (← Block.getDataSize empty)
      (← szAdd (← szAdd gap (← Block.getDataSize nextEmpty)) headerSize))
    Block.setEnd empty (← Block.getEnd nextEmpty)
    Block.setNext empty (← Block.getNext nextEmpty)
    (do if (← Block.getNext nextEmpty) ≠ null then
          Block.setPrev (← Block.getNext nextEmpty) empty)
    return .inl empty
  return .inl nextEmpty

/-- `merge_empty_spaces`. -/
def mergeEmptySpaces (zone : ℕ) : M Unit := do
  forever mergeRound (← Zone.getEmptySpaces zone)
  updateEmptyStats zone

/-- `convert_block_to_empty`. -/
def convertBlockToEmpty (zone block : ℕ) : M Unit := do
  removeBlock zone (.heap block) .block
  Zone.setBlocksNum zone (← uSub (← Zone.getBlocksNum zone) 1)
  Zone.setRemainingSpace zone (← szAdd (← Zone.getRemainingSpace zone)
    (← szAdd (← Block.getDataSize block) headerSize))
  insertSorted (zone + 56) block
  mergeEmptySpaces zone

/-! ## `realloc_utils.c` and `realloc_try_to_extend_block.c` -/

/-- `split_block`. -/
def splitBlock (zone block : ℕ) (newSize : ℕ) : M Unit := do
  let leftover ← szSub (← Block.getDataSize block) newSize
  if leftover < minSplitSize then
    return ()
  Block.setDataSize block newSize
  Block.setEnd block (← blockEnd block)
  Zone.setRemainingSpace zone (← szAdd (← Zone.getRemainingSpace zone) leftover)
  let newEmpty ← Block.getEnd block
  Block.setDataSize newEmpty (← szSub leftover headerSize)
  Block.setEnd newEmpty (← blockEnd newEmpty)
  insertSorted (zone + 56) newEmpty
  mergeEmptySpaces zone

/-- `find_empty_after`. -/
def findEmptyAfter (zone block : ℕ) : M ℕ := do
  if (← Zone.getEmptySpaces zone) = null then
    return null
  forever (fun emptyIter => do
    if emptyIter = null then
      return .inr null
    if emptyIter > (← Block.getEnd block) then
      return .inr null
    if (← Block.getEnd block) = emptyIter then
      return .inr emptyIter
    return .inl (← Block.getNext emptyIter)) (← Zone.getEmptySpaces zone)

/-- `find_empty_before`. -/
def findEmptyBefore (zone block : ℕ) : M ℕ := do
  if (← Zone.getEmptySpaces zone) = null then
    return null
  forever (fun emptyIter => do
    if emptyIter = null then
      return .inr null
    if (← Block.getEnd emptyIter) > block then
      return .inr null
    if block = (← Block.getEnd emptyIter) then
      return .inr emptyIter
    return .inl (← Block.getNext emptyIter)) (← Zone.getEmptySpaces zone)

/-- `ft_memcpy`: bytes in ascending order. -/
def ftMemcpy (dest src n : ℕ) : M ℕ := do
  if dest = null ∧ src = null then
    return dest
  forever (fun i => do
    if n > i then
      store 1 (dest + i) (← load 1 (src + i))
      return .inl (i + 1)
    return .inr dest) 0

/-- `ft_memmove`: ascending when the destination is below the source, else descending. -/
def ftMemmove (dest src n : ℕ) : M ℕ := do
  if dest = null ∧ src = null then
    return dest
  if dest < src then
    return ← ftMemcpy dest src n
  forever (fun n => do
    if n = 0 then
      return .inr dest
    let n := n - 1
    store 1 (dest + n) (← load 1 (src + n))
    return .inl n) n

/-- `extend_block`. -/
def extendBlock (zone block : ℕ) (size : ℕ) : M ℕ := do
  let empty ← findEmptyAfter zone block
  if empty = null then
    return null
  let availableSpace ← szAdd (← szAdd (← Block.getDataSize block) headerSize)
    (← Block.getDataSize empty)
  if availableSpace < size then
    return null
  removeBlock zone (.heap empty) .empty
  Zone.setRemainingSpace zone (← szSub (← Zone.getRemainingSpace zone)
    (← szAdd headerSize (← Block.getDataSize empty)))
  Block.setDataSize block availableSpace
  Block.setEnd block (← blockEnd block)
  (do if (← szSub (← Block.getDataSize block) size) ≥ minSplitSize then
        splitBlock zone block size
      else
        updateEmptyStats zone)
  blockPayload block

/-- `extend_block_back`. -/
def extendBlockBack (zone block : ℕ) (size : ℕ) : M ℕ := do
  let empty ← findEmptyBefore zone block
  if empty = null then
    return null
  let availableSpace ← szAdd (← szAdd (← Block.getDataSize empty) headerSize)
    (← Block.getDataSize block)
  if availableSpace < size then
    return null
  removeBlock zone (.heap empty) .empty
  Zone.setRemainingSpace zone (← szSub (← Zone.getRemainingSpace zone)
    (← szAdd headerSize (← Block.getDataSize empty)))
  let newBlock := empty
  Block.setDataSize newBlock availableSpace
  Block.setEnd newBlock (← Block.getEnd block)
  replaceBlock zone (.heap block) newBlock .block
  let oldPayload ← blockPayload block
  let newPayload ← blockPayload newBlock
  let _ ← ftMemmove newPayload oldPayload (← Block.getDataSize block)
  (do if (← szSub (← Block.getDataSize newBlock) size) ≥ minSplitSize then
        splitBlock zone newBlock size
      else
        updateEmptyStats zone)
  blockPayload newBlock

/-- `try_to_extend_block`. -/
def tryToExtendBlock (zone block : ℕ) (size : ℕ) : M ℕ := do
  let newPtr ← extendBlock zone block size
  if newPtr ≠ null then
    return newPtr
  extendBlockBack zone block size

end FtMalloc
