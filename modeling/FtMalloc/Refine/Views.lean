import FtMalloc.Lib.AtomicObject
import FtMalloc.Source.Calls
import FtMalloc.Source.Reports

/-!
# Zones do not vanish in the middle of a call

`show_alloc_mem` and `show_alloc_mem_ex` test `g_zones` before they lock. Of the pieces of the
program only `free_large_zone` can make `g_zones` null: `zone_init` assigns a mapping, and nothing
else assigns it.
-/

namespace FtMalloc

open HeapLib Process

/-- `g_zones` is null. -/
def Heap.NoZones (s : Heap) : Prop := s.gZones = null

section

variable {P : Platform} {kernel : ℕ → Option ℕ} {α β : Type}

/-! ## The machine -/

/-- Reading memory. -/
theorem averts_load (n a : ℕ) : Averts Heap.NoZones (load n a) := by
  refine ⟨fun s v s' hrun hV => ?_⟩
  unfold load at hrun
  split at hrun
  · cases hrun
    exact hV
  · cases hrun

/-- Writing memory. -/
theorem averts_store (n a v : ℕ) : Averts Heap.NoZones (store n a v) := by
  refine ⟨fun s u s' hrun hV => ?_⟩
  unfold store at hrun
  split at hrun
  · cases hrun
    exact hV
  · cases hrun

/-- Adding in `size_t`. -/
theorem averts_szAdd (a b : ℕ) : Averts Heap.NoZones (szAdd a b) := by
  refine ⟨fun s v s' hrun hV => ?_⟩
  unfold szAdd at hrun
  split at hrun <;> cases hrun <;> exact hV

/-- Subtracting in `size_t`. -/
theorem averts_szSub (a b : ℕ) : Averts Heap.NoZones (szSub a b) := by
  refine ⟨fun s v s' hrun hV => ?_⟩
  unfold szSub at hrun
  split at hrun <;> cases hrun <;> exact hV

/-- Adding in `u_int`. -/
theorem averts_uAdd (a b : ℕ) : Averts Heap.NoZones (uAdd a b) := by
  refine ⟨fun s v s' hrun hV => ?_⟩
  unfold uAdd at hrun
  split at hrun <;> cases hrun <;> exact hV

/-- Reading `g_zones`. -/
theorem averts_getGZones : Averts Heap.NoZones getGZones := by
  refine ⟨?_⟩
  rintro s v s' ⟨rfl, rfl⟩
  exact id

/-- Assigning a zone to `g_zones`. -/
theorem averts_setGZones {v : ℕ} (hv : v ≠ null) : Averts Heap.NoZones (setGZones v) := by
  refine ⟨?_⟩
  rintro s u s' ⟨rfl, rfl⟩ hV
  exact absurd hV hv

/-- `mmap` by a kernel that never maps address zero, and what follows. -/
theorem averts_mmap_bind {len : ℕ} {f : ℕ → M β} (hkernel : ∀ len, kernel len ≠ some null)
    (hf : ∀ a, a ≠ null → Averts Heap.NoZones (f a)) :
    Averts Heap.NoZones (mmap P kernel len >>= f) := by
  refine ⟨fun s b s' hrun hV => ?_⟩
  change (mmap P kernel len s).bind (fun r => f r.1 r.2) = some (b, s') at hrun
  rw [mmap] at hrun
  cases hans : kernel len with
  | none =>
    rw [hans] at hrun
    exact (hf mapFailed (by decide)).of_run { s with calls := .mmap len none :: s.calls } b s'
      hrun hV
  | some a =>
    rw [hans] at hrun
    refine (hf a fun ha => ?_).of_run (s.map P a len) b s' hrun hV
    exact hkernel len (hans.trans (congrArg some ha))

/-- A loop of the program. -/
theorem averts_forever {body : β → M (β ⊕ α)} (h : ∀ b, Averts Heap.NoZones (body b)) (b : β) :
    Averts Heap.NoZones (forever body b) := .iterate h loopBound b

/-! ## Inside one zone -/

/-- `block_payload`. -/
theorem averts_blockPayload (block : ℕ) : Averts Heap.NoZones (blockPayload block) :=
  averts_szAdd _ _

/-- `block_end`. -/
theorem averts_blockEnd (block : ℕ) : Averts Heap.NoZones (blockEnd block) :=
  .bind (averts_szAdd _ _) fun _ => .bind (averts_load _ _) fun _ => averts_szAdd _ _

/-- `block_from_payload`. -/
theorem averts_blockFromPayload (ptr : ℕ) : Averts Heap.NoZones (blockFromPayload ptr) :=
  averts_szSub _ _

/-- `align_size`. -/
theorem averts_alignSize (size : ℕ) : Averts Heap.NoZones (alignSize size) :=
  .ite (.pure _) <| .bind (averts_szAdd _ _) fun _ => .bind (averts_szSub _ _) fun _ => .pure _

/-- `update_empty_stats`. -/
theorem averts_updateEmptyStats (zone : ℕ) : Averts Heap.NoZones (updateEmptyStats zone) := by
  refine .ite (.pure _) <| .bind (averts_load _ _) fun _ => .ite (.pure _) ?_
  refine .bind (averts_load _ _) fun _ => .bind (averts_load _ _) fun _ => ?_
  refine .bind (averts_store _ _ _) fun _ => .bind (averts_load _ _) fun _ => ?_
  refine averts_forever (fun empty => .ite (.pure _) ?_) _
  refine .bind (averts_load _ _) fun _ => .bind (averts_load _ _) fun _ => .ite ?_ ?_
  · refine .bind (averts_load _ _) fun _ => .bind (averts_store _ _ _) fun _ => ?_
    exact .bind (averts_load _ _) fun _ => .pure _
  · exact .bind (averts_load _ _) fun _ => .pure _

/-- `ref->prev`. -/
theorem averts_getPrev (ref : BlockRef) : Averts Heap.NoZones ref.getPrev := by
  cases ref with
  | heap block => exact averts_load _ _
  | stack header => exact .pure _

/-- `ref->next`. -/
theorem averts_getNext (ref : BlockRef) : Averts Heap.NoZones ref.getNext := by
  cases ref with
  | heap block => exact averts_load _ _
  | stack header => exact .pure _

/-- `replace_block`. -/
theorem averts_replaceBlock (zone : ℕ) (old : BlockRef) (new : ℕ) (type : EType) :
    Averts Heap.NoZones (replaceBlock zone old new type) := by
  refine .ite (.pure _) <| .bind (averts_getPrev old) fun _ => ?_
  refine .bind (averts_store _ _ _) fun _ => .bind (averts_getNext old) fun _ => ?_
  refine .bind (averts_store _ _ _) fun _ => .bind ?_ fun _ => ?_
  · refine .bind (averts_getPrev old) fun _ => .ite ?_ ?_
    · exact .bind (averts_getPrev old) fun _ => averts_store _ _ _
    · exact .ite (averts_store _ _ _) (averts_store _ _ _)
  · refine .bind (averts_getNext old) fun _ => .ite ?_ (.pure _)
    exact .bind (averts_getNext old) fun _ => averts_store _ _ _

/-- `remove_block`. -/
theorem averts_removeBlock (zone : ℕ) (old : BlockRef) (type : EType) :
    Averts Heap.NoZones (removeBlock zone old type) := by
  refine .ite (.pure _) <| .bind ?_ fun _ => ?_
  · refine .bind (averts_getPrev old) fun _ => .ite ?_ (.ite ?_ ?_)
    · refine .bind (averts_getPrev old) fun _ => ?_
      exact .bind (averts_getNext old) fun _ => averts_store _ _ _
    · exact .bind (averts_getNext old) fun _ => averts_store _ _ _
    · exact .bind (averts_getNext old) fun _ => averts_store _ _ _
  · refine .bind (averts_getNext old) fun _ => .ite ?_ (.pure _)
    refine .bind (averts_getNext old) fun _ => ?_
    exact .bind (averts_getPrev old) fun _ => averts_store _ _ _

/-- The address-ordered insertion. -/
theorem averts_insertSorted (cell node : ℕ) : Averts Heap.NoZones (insertSorted cell node) := by
  refine .bind (averts_load _ _) fun head => .ite ?_ ?_
  · refine .bind (averts_store _ _ _) fun _ => .bind (averts_store _ _ _) fun _ => ?_
    refine .bind (.bind (averts_load _ _) fun _ => .ite ?_ (.pure _)) fun _ => averts_store _ _ _
    exact .bind (averts_load _ _) fun _ => averts_store _ _ _
  · refine .bind (averts_forever (fun iter => ?_) _) fun iter => ?_
    · refine .bind (averts_load _ _) fun _ => .ite (.pure _) ?_
      refine .bind (averts_load _ _) fun _ => .ite ?_ (.pure _)
      exact .bind (averts_load _ _) fun _ => .pure _
    refine .bind (averts_load _ _) fun _ => .bind (averts_store _ _ _) fun _ => ?_
    refine .bind (averts_store _ _ _) fun _ => .bind ?_ fun _ => averts_store _ _ _
    refine .bind (averts_load _ _) fun _ => .ite ?_ (.pure _)
    exact .bind (averts_load _ _) fun _ => averts_store _ _ _

/-- `find_empty_space`. -/
theorem averts_findEmptySpace (zone size : ℕ) :
    Averts Heap.NoZones (findEmptySpace zone size) := by
  refine .bind (averts_load _ _) fun _ => .ite (.pure _) <| .bind (averts_load _ _) fun _ => ?_
  refine averts_forever (fun empty => .ite (.pure _) ?_) _
  refine .bind (averts_load _ _) fun _ => .ite (.pure _) ?_
  exact .bind (averts_load _ _) fun _ => .pure _

/-- `update_empty_spaces`. -/
theorem averts_updateEmptySpaces (zone : ℕ) (oldEmpty : BlockHeader) (newBlock : ℕ) :
    Averts Heap.NoZones (updateEmptySpaces zone oldEmpty newBlock) := by
  refine .ite ?_ (averts_removeBlock _ _ _)
  refine .bind (averts_load _ _) fun _ => .bind (averts_store _ _ _) fun _ => ?_
  exact .bind (averts_store _ _ _) fun _ => averts_replaceBlock _ _ _ _

/-- `allocate_from_empty`. -/
theorem averts_allocateFromEmpty (zone empty size : ℕ) :
    Averts Heap.NoZones (allocateFromEmpty zone empty size) := by
  refine .bind (averts_load _ _) fun _ => .bind (averts_szSub _ _) fun leftover => ?_
  refine .bind (.ite (averts_szSub _ _) (.pure _)) fun oldDataSize => ?_
  refine .bind (averts_load _ _) fun _ => .bind (averts_load _ _) fun _ => ?_
  refine .bind (averts_load _ _) fun _ => .bind (averts_store _ _ _) fun _ => ?_
  refine .bind (.ite ?_ (.pure _)) fun _ => .bind (averts_blockEnd _) fun _ => ?_
  · refine .bind (averts_load _ _) fun _ => ?_
    exact .bind (averts_szAdd _ _) fun _ => averts_store _ _ _
  refine .bind (averts_store _ _ _) fun _ => .bind (averts_store _ _ _) fun _ => ?_
  refine .bind (averts_store _ _ _) fun _ => .bind (averts_updateEmptySpaces _ _ _) fun _ => ?_
  refine .bind (averts_insertSorted _ _) fun _ => .bind (averts_load _ _) fun _ => ?_
  refine .bind (averts_uAdd _ _) fun _ => .bind (averts_store _ _ _) fun _ => ?_
  refine .bind (averts_load _ _) fun _ => .bind (averts_load _ _) fun _ => ?_
  refine .bind (averts_szAdd _ _) fun _ => .bind (averts_szSub _ _) fun _ => ?_
  refine .bind (averts_store _ _ _) fun _ => ?_
  exact .bind (averts_updateEmptyStats _) fun _ => .pure _

/-- `allocate_block`. -/
theorem averts_allocateBlock (zone size : ℕ) : Averts Heap.NoZones (allocateBlock zone size) := by
  refine .bind (averts_findEmptySpace _ _) fun empty => .ite (.pure _) ?_
  exact averts_allocateFromEmpty _ _ _

/-- `is_valid_block`. -/
theorem averts_isValidBlock (block zone : ℕ) :
    Averts Heap.NoZones (isValidBlock block zone) := by
  refine .ite (.pure _) <| .bind (averts_load _ _) fun _ => ?_
  refine averts_forever (fun iter => .ite (.pure _) <| .ite (.pure _) ?_) _
  exact .bind (averts_load _ _) fun _ => .pure _

/-- `merge_empty_spaces`. -/
theorem averts_mergeEmptySpaces (zone : ℕ) : Averts Heap.NoZones (mergeEmptySpaces zone) := by
  refine .bind (averts_load _ _) fun _ => ?_
  refine .bind (averts_forever (fun empty => .ite (.pure _) ?_) _) fun _ =>
    averts_updateEmptyStats _
  refine .bind (averts_load _ _) fun _ => .ite (.pure _) <| .bind (averts_load _ _) fun _ => ?_
  refine .bind (averts_load _ _) fun _ => .bind (averts_szSub _ _) fun gap => .ite ?_ (.pure _)
  refine .bind (averts_load _ _) fun _ => .bind (averts_load _ _) fun _ => ?_
  refine .bind (averts_szAdd _ _) fun _ => .bind (averts_szAdd _ _) fun _ => ?_
  refine .bind (averts_szAdd _ _) fun _ => .bind (averts_store _ _ _) fun _ => ?_
  refine .bind (averts_load _ _) fun _ => .bind (averts_store _ _ _) fun _ => ?_
  refine .bind (averts_load _ _) fun _ => .bind (averts_store _ _ _) fun _ => ?_
  refine .bind (.bind (averts_load _ _) fun _ => .ite ?_ (.pure _)) fun _ => .pure _
  exact .bind (averts_load _ _) fun _ => averts_store _ _ _

/-- `split_block`. -/
theorem averts_splitBlock (zone block newSize : ℕ) :
    Averts Heap.NoZones (splitBlock zone block newSize) := by
  refine .bind (averts_load _ _) fun _ => .bind (averts_szSub _ _) fun leftover => ?_
  refine .ite (.pure _) <| .bind (averts_store _ _ _) fun _ => .bind (averts_blockEnd _) fun _ => ?_
  refine .bind (averts_store _ _ _) fun _ => .bind (averts_load _ _) fun _ => ?_
  refine .bind (averts_szAdd _ _) fun _ => .bind (averts_store _ _ _) fun _ => ?_
  refine .bind (averts_load _ _) fun _ => .bind (averts_szSub _ _) fun _ => ?_
  refine .bind (averts_store _ _ _) fun _ => .bind (averts_blockEnd _) fun _ => ?_
  refine .bind (averts_store _ _ _) fun _ => .bind (averts_insertSorted _ _) fun _ => ?_
  exact averts_mergeEmptySpaces _

/-- `find_empty_after`. -/
theorem averts_findEmptyAfter (zone block : ℕ) :
    Averts Heap.NoZones (findEmptyAfter zone block) := by
  refine .bind (averts_load _ _) fun _ => .ite (.pure _) <| .bind (averts_load _ _) fun _ => ?_
  refine averts_forever (fun empty => .ite (.pure _) <| .bind (averts_load _ _) fun _ => ?_) _
  refine .ite (.pure _) <| .bind (averts_load _ _) fun _ => .ite (.pure _) ?_
  exact .bind (averts_load _ _) fun _ => .pure _

/-- `find_empty_before`. -/
theorem averts_findEmptyBefore (zone block : ℕ) :
    Averts Heap.NoZones (findEmptyBefore zone block) := by
  refine .bind (averts_load _ _) fun _ => .ite (.pure _) <| .bind (averts_load _ _) fun _ => ?_
  refine averts_forever (fun empty => .ite (.pure _) <| .bind (averts_load _ _) fun _ => ?_) _
  refine .ite (.pure _) <| .bind (averts_load _ _) fun _ => .ite (.pure _) ?_
  exact .bind (averts_load _ _) fun _ => .pure _

/-- `ft_memcpy`. -/
theorem averts_ftMemcpy (dest src n : ℕ) : Averts Heap.NoZones (ftMemcpy dest src n) := by
  refine .ite (.pure _) <| averts_forever (fun i => .ite ?_ (.pure _)) _
  exact .bind (averts_load _ _) fun _ => .bind (averts_store _ _ _) fun _ => .pure _

/-- `ft_memmove`. -/
theorem averts_ftMemmove (dest src n : ℕ) : Averts Heap.NoZones (ftMemmove dest src n) := by
  refine .ite (.pure _) <| .ite (averts_ftMemcpy _ _ _) ?_
  refine averts_forever (fun n => .ite (.pure _) ?_) _
  exact .bind (averts_load _ _) fun _ => .bind (averts_store _ _ _) fun _ => .pure _

/-- The end of the two extensions: what is left over is split off. -/
theorem averts_trim (zone block size : ℕ) : Averts Heap.NoZones (do
    (do if (← szSub (← Block.getDataSize block) size) ≥ minSplitSize then
          splitBlock zone block size
        else
          updateEmptyStats zone)
    blockPayload block) := by
  refine .bind (.bind (averts_load _ _) fun _ => .bind (averts_szSub _ _) fun _ => ?_) fun _ =>
    averts_blockPayload _
  exact .ite (averts_splitBlock _ _ _) (averts_updateEmptyStats _)

/-- `extend_block`. -/
theorem averts_extendBlock (zone block size : ℕ) :
    Averts Heap.NoZones (extendBlock zone block size) := by
  refine .bind (averts_findEmptyAfter _ _) fun empty => .ite (.pure _) ?_
  refine .bind (averts_load _ _) fun _ => .bind (averts_szAdd _ _) fun _ => ?_
  refine .bind (averts_load _ _) fun _ => .bind (averts_szAdd _ _) fun _ => .ite (.pure _) ?_
  refine .bind (averts_removeBlock _ _ _) fun _ => .bind (averts_load _ _) fun _ => ?_
  refine .bind (averts_load _ _) fun _ => .bind (averts_szAdd _ _) fun _ => ?_
  refine .bind (averts_szSub _ _) fun _ => .bind (averts_store _ _ _) fun _ => ?_
  refine .bind (averts_store _ _ _) fun _ => .bind (averts_blockEnd _) fun _ => ?_
  exact .bind (averts_store _ _ _) fun _ => averts_trim _ _ _

/-- `extend_block_back`. -/
theorem averts_extendBlockBack (zone block size : ℕ) :
    Averts Heap.NoZones (extendBlockBack zone block size) := by
  refine .bind (averts_findEmptyBefore _ _) fun empty => .ite (.pure _) ?_
  refine .bind (averts_load _ _) fun _ => .bind (averts_szAdd _ _) fun _ => ?_
  refine .bind (averts_load _ _) fun _ => .bind (averts_szAdd _ _) fun _ => .ite (.pure _) ?_
  refine .bind (averts_removeBlock _ _ _) fun _ => .bind (averts_load _ _) fun _ => ?_
  refine .bind (averts_load _ _) fun _ => .bind (averts_szAdd _ _) fun _ => ?_
  refine .bind (averts_szSub _ _) fun _ => .bind (averts_store _ _ _) fun _ => ?_
  refine .bind (averts_store _ _ _) fun _ => .bind (averts_load _ _) fun _ => ?_
  refine .bind (averts_store _ _ _) fun _ => .bind (averts_replaceBlock _ _ _ _) fun _ => ?_
  refine .bind (averts_blockPayload _) fun _ => .bind (averts_blockPayload _) fun _ => ?_
  refine .bind (averts_load _ _) fun _ => .bind (averts_ftMemmove _ _ _) fun _ => ?_
  exact averts_trim _ _ _

/-- `try_to_extend_block`. -/
theorem averts_tryToExtendBlock (zone block size : ℕ) :
    Averts Heap.NoZones (tryToExtendBlock zone block size) := by
  refine .bind (averts_extendBlock _ _ _) fun newPtr => .ite (.pure _) ?_
  exact averts_extendBlockBack _ _ _

/-! ## Zones -/

/-- `zone_init` of a mapping. -/
theorem averts_zoneInit {newZone : ℕ} (h : newZone ≠ null) (type : EType) (zoneSize : ℕ) :
    Averts Heap.NoZones (zoneInit newZone type zoneSize) := by
  refine .bind (averts_store _ _ _) fun _ => .bind (averts_szAdd _ _) fun _ => ?_
  refine .bind (averts_store _ _ _) fun _ => .bind (averts_store _ _ _) fun _ => ?_
  refine .bind (averts_store _ _ _) fun _ => .bind (averts_szSub _ _) fun _ => ?_
  refine .bind (averts_store _ _ _) fun _ => .bind (averts_load _ _) fun _ => ?_
  refine .bind (averts_store _ _ _) fun _ => .bind (averts_load _ _) fun _ => ?_
  refine .bind (averts_store _ _ _) fun _ => .bind (averts_store _ _ _) fun _ => ?_
  refine .bind (averts_load _ _) fun _ => .bind (averts_szAdd _ _) fun _ => ?_
  refine .bind (averts_store _ _ _) fun _ => .bind (averts_load _ _) fun _ => ?_
  refine .bind (averts_load _ _) fun _ => .bind (averts_szSub _ _) fun _ => ?_
  refine .bind (averts_store _ _ _) fun _ => .bind (averts_load _ _) fun _ => ?_
  refine .bind (averts_load _ _) fun _ => .bind (averts_store _ _ _) fun _ => ?_
  refine .bind (averts_load _ _) fun _ => .bind (averts_store _ _ _) fun _ => ?_
  refine .bind (averts_load _ _) fun _ => .bind (averts_store _ _ _) fun _ => ?_
  refine .bind (averts_store _ _ _) fun _ => .bind averts_getGZones fun _ => ?_
  refine .bind (averts_store _ _ _) fun _ => .bind ?_ fun _ => averts_setGZones h
  refine .bind averts_getGZones fun _ => .ite ?_ (.pure _)
  exact .bind averts_getGZones fun _ => averts_store _ _ _

/-- `find_zone`. -/
theorem averts_findZone (hkernel : ∀ len, kernel len ≠ some null) (type : EType) (size : ℕ) :
    Averts Heap.NoZones (findZone P kernel type size) := by
  refine .ite (.ite (.pure _) ?_) ?_
  · refine .bind (averts_szAdd _ _) fun _ => .bind (averts_szAdd _ _) fun zoneSize => ?_
    refine averts_mmap_bind hkernel fun newZone hne => .ite (.pure _) ?_
    exact .bind (averts_zoneInit hne _ _) fun _ => .pure _
  refine .bind ?_ fun zone => .ite (.pure _) <| .ite (.pure _) ?_
  · refine .bind averts_getGZones fun _ => averts_forever (fun zone => .ite (.pure _) ?_) _
    refine .bind (averts_load _ _) fun _ => .ite ?_ (.bind (averts_load _ _) fun _ => .pure _)
    refine .bind (averts_load _ _) fun _ => .bind (averts_szAdd _ _) fun _ => .ite (.pure _) ?_
    exact .bind (averts_load _ _) fun _ => .pure _
  · refine averts_mmap_bind hkernel fun newZone hne => .ite (.pure _) ?_
    exact .bind (averts_zoneInit hne _ _) fun _ => .pure _

/-- `find_zone_for_ptr`. -/
theorem averts_findZoneForPtr (ptr : ℕ) : Averts Heap.NoZones (findZoneForPtr ptr) := by
  refine .ite (.pure _) <| .bind averts_getGZones fun _ => ?_
  refine averts_forever (fun zone => .ite (.pure _) <| .bind (averts_load _ _) fun _ => ?_) _
  refine .ite ?_ (.bind (averts_load _ _) fun _ => .pure _)
  refine .bind (averts_load _ _) fun _ => .ite (.pure _) ?_
  exact .bind (averts_load _ _) fun _ => .pure _

/-- `realloc_malloc`. -/
theorem averts_reallocMalloc (hkernel : ∀ len, kernel len ≠ some null) (size : ℕ) :
    Averts Heap.NoZones (reallocMalloc P kernel size) := by
  refine .ite (.pure _) <| .bind (averts_alignSize _) fun size => ?_
  refine .bind (averts_findZone hkernel _ _) fun zone => .ite (.pure _) ?_
  refine .bind (averts_allocateBlock _ _) fun block => .ite (.pure _) ?_
  exact averts_blockPayload _

end

/-! ## The reports -/

section

variable {α : Type}

/-- A call of `printf`, and what follows. -/
theorem spares_printf {line : Line} {f : Unit → Proc α} (hf : (f ()).Spares Heap.NoZones) :
    (printf line >>= f).Spares Heap.NoZones := hf

/-- `print_zone`. -/
theorem spares_printZone (zone : ℕ) : (printZone zone).Spares Heap.NoZones := by
  refine .lift (averts_load _ _) fun type => .lift (averts_load _ _) fun start => ?_
  refine spares_printf <| .lift (averts_load _ _) fun block => ?_
  refine .iterate (fun v => .ite (.pure _) ?_) _ _
  refine .lift (averts_load _ _) fun stop => .lift (averts_load _ _) fun size => ?_
  refine .lift (averts_szAdd _ _) fun bytes => spares_printf ?_
  refine .lift (averts_load _ _) fun size => .lift (averts_szAdd _ _) fun total => ?_
  exact .lift (averts_load _ _) fun next => .pure _

/-- The loop of `show_alloc_mem`. -/
theorem spares_printZones (v : ℕ × ℕ) : (looping (fun v : ℕ × ℕ => do
    if v.1 = null then
      return .inr v.2
    let totalAllocated ← szAdd v.2 (← printZone v.1)
    printf .gap
    return .inl (← Zone.getNext v.1, totalAllocated)) v : Proc ℕ).Spares Heap.NoZones := by
  refine .iterate (fun v => .ite (.pure _) <| (spares_printZone _).bind fun bytes => ?_) _ _
  refine .lift (averts_szAdd _ _) fun total => spares_printf ?_
  exact .lift (averts_load _ _) fun next => .pure _

/-- The loops of `count_items`. -/
theorem spares_countFrom (item count : ℕ) : (countFrom item count).Spares Heap.NoZones := by
  refine .iterate (fun v => .ite (.pure _) <| .lift (averts_szAdd _ _) fun count => ?_) _ _
  exact .lift (averts_load _ _) fun next => .pure _

/-- The loop of the extended `print_zone`. -/
theorem spares_printItem (itemCount : ℕ) (v : Scan) :
    (printItem itemCount v).Spares Heap.NoZones := by
  refine .ite (.pure _) <| .lift (averts_szAdd _ _) fun i => .ite ?_ (.ite ?_ (.pure _))
  · refine .lift (averts_load _ _) fun stop => .lift (averts_load _ _) fun size => ?_
    refine .lift (averts_szAdd _ _) fun bytes => spares_printf ?_
    refine .lift (averts_load _ _) fun size => .lift (averts_szAdd _ _) fun total => ?_
    exact .lift (averts_load _ _) fun next => .pure _
  · refine .lift (averts_load _ _) fun stop => .lift (averts_load _ _) fun size => ?_
    refine .lift (averts_szAdd _ _) fun bytes => spares_printf ?_
    exact .lift (averts_load _ _) fun next => .pure _

/-- The extended `print_zone`. -/
theorem spares_printZoneEx (zone : ℕ) : (printZoneEx zone).Spares Heap.NoZones := by
  refine Spares.bind (.lift (averts_load _ _) fun blocks => ?_) fun itemCount => ?_
  · refine (spares_countFrom _ _).bind fun count => .lift (averts_load _ _) fun empties => ?_
    exact spares_countFrom _ _
  refine .ite (.pure _) <| .lift (averts_load _ _) fun type => .lift (averts_load _ _) fun start => ?_
  refine .lift (averts_load _ _) fun stop => .lift (averts_load _ _) fun total => ?_
  refine .lift (averts_szAdd _ _) fun bytes => spares_printf ?_
  refine .lift (averts_load _ _) fun block => .lift (averts_load _ _) fun empty => ?_
  exact .iterate (spares_printItem itemCount) _ _

/-- The first loop of `show_alloc_mem_ex`. -/
theorem spares_printZonesEx (v : ℕ × ℕ) : (looping (fun v : ℕ × ℕ => do
    if v.1 = null then
      return .inr v.2
    let totalAllocated ← szAdd v.2 (← printZoneEx v.1)
    printf .gap
    return .inl (← Zone.getNext v.1, totalAllocated)) v : Proc ℕ).Spares Heap.NoZones := by
  refine .iterate (fun v => .ite (.pure _) <| (spares_printZoneEx _).bind fun bytes => ?_) _ _
  refine .lift (averts_szAdd _ _) fun total => spares_printf ?_
  exact .lift (averts_load _ _) fun next => .pure _

/-- The loop over the empty spaces. -/
theorem spares_countEmpties (zone : ℕ) : (countEmpties zone).Spares Heap.NoZones := by
  refine .lift (averts_load _ _) fun empty => .iterate (fun v => .ite (.pure _) ?_) _ _
  exact .lift (averts_load _ _) fun next => .pure _

/-- The statistics of a zone. -/
theorem spares_printStatistics (zone : ℕ) : (printStatistics zone).Spares Heap.NoZones := by
  refine .lift (averts_load _ _) fun type => spares_printf ?_
  refine .lift (averts_load _ _) fun start => spares_printf ?_
  refine .lift (averts_load _ _) fun stop => spares_printf ?_
  refine .lift (averts_load _ _) fun total => spares_printf ?_
  refine .lift (averts_load _ _) fun remaining => spares_printf ?_
  refine .lift (averts_load _ _) fun cache => spares_printf ?_
  refine .lift (averts_load _ _) fun num => spares_printf ?_
  refine (spares_countEmpties zone).bind fun count => spares_printf <| spares_printf ?_
  exact .lift (averts_load _ _) fun num => .pure _

/-- The second loop of `show_alloc_mem_ex`. -/
theorem spares_printAllStatistics (v : ℕ × ℕ × ℕ) : (looping (fun v : ℕ × ℕ × ℕ => do
    if v.1 = null then
      return .inr v.2
    let counts ← printStatistics v.1
    return .inl (← Zone.getNext v.1, (v.2.1 + counts.1) % 2 ^ 32, (v.2.2 + counts.2) % 2 ^ 32)) v :
    Proc (ℕ × ℕ)).Spares Heap.NoZones := by
  refine .iterate (fun v => .ite (.pure _) <| (spares_printStatistics _).bind fun counts => ?_) _ _
  exact .lift (averts_load _ _) fun next => .pure _

end

end FtMalloc
