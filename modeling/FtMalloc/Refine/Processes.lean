import FtMalloc.Source.Processes

/-!
# The public calls, executed alone

A process of `malloc`, `free` or `realloc` that no other thread interrupts is the program of the
same name, piece by piece and with the same lock operations.
-/

namespace FtMalloc

open HeapLib Process

variable (P : Platform) (kernel : ℕ → Option ℕ)

/-- Unlocking and returning. -/
theorem alone_exit {α : Type} (a : α) :
    Alone gMallocMutex (release >>= fun _ => pure a : Proc α) (unlockMutex >>= fun _ => pure a) :=
  .bind alone_release fun _ => alone_pure a

/-- `malloc` alone. -/
theorem alone_malloc (size : ℕ) :
    Alone gMallocMutex (Proc.malloc P kernel size) (malloc P kernel size) := by
  refine .ite (alone_pure _) ?_
  refine .bind (alone_lift _) fun size => .bind alone_acquire fun _ => ?_
  refine .bind (alone_lift _) fun zone => .ite (alone_exit _) ?_
  refine .bind (alone_lift _) fun block => .ite (alone_exit _) ?_
  exact .bind (alone_lift _) fun ptr => alone_exit ptr

/-- `free` alone. -/
theorem alone_free (ptr : ℕ) : Alone gMallocMutex (Proc.free P ptr) (free P ptr) := by
  refine .ite (alone_pure _) ?_
  refine .bind alone_acquire fun _ => .bind (alone_lift _) fun zone => .ite (alone_exit _) ?_
  refine .bind (alone_lift _) fun block => .bind (alone_lift _) fun valid =>
    .ite (alone_exit _) ?_
  refine .bind (alone_lift _) fun type => .ite (.bind (alone_lift _) fun _ => alone_exit _) ?_
  exact .bind (alone_lift _) fun _ => alone_release

/-- `realloc` alone, behind the check of the block. -/
theorem alone_reallocBlock (zone block ptr size : ℕ) :
    Alone gMallocMutex (Proc.reallocBlock P kernel zone block ptr size)
      (reallocBlock P kernel zone block ptr size) := by
  refine .bind (alone_lift _) fun oldSize => .ite ?_ ?_
  · exact .bind (alone_lift _) fun _ => alone_exit ptr
  refine .bind (alone_lift _) fun newPtr => .ite (alone_exit newPtr) ?_
  refine .bind (alone_lift _) fun newPtr => .ite (alone_exit _) ?_
  exact .bind (alone_lift _) fun _ => .bind (alone_lift _) fun _ => alone_exit newPtr

/-- `realloc` alone. -/
theorem alone_realloc (ptr size : ℕ) :
    Alone gMallocMutex (Proc.realloc P kernel ptr size) (realloc P kernel ptr size) := by
  refine .ite (alone_malloc P kernel size) ?_
  refine .ite (.bind (alone_free P ptr) fun _ => alone_pure _) ?_
  refine .bind (alone_lift _) fun size => .bind alone_acquire fun _ => ?_
  refine .bind (alone_lift _) fun zone => .ite (alone_exit _) ?_
  refine .bind (alone_lift _) fun block => .bind (alone_lift _) fun valid =>
    .ite (alone_exit _) ?_
  exact alone_reallocBlock P kernel zone block ptr size

end FtMalloc
