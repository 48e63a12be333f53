import FtMalloc.Lib.Lines
import FtMalloc.Refine.Arrays
import FtMalloc.Source.Files
import Mathlib.Data.Stream.Init

/-!
# What `read` delivers

A descriptor has answers for all calls of `read` to come. If their bytes end, each call of `read`
takes some of them off the front, in whatever pieces.
-/

namespace FtMalloc

open HeapLib

variable {P : Platform} {K : Kernel P} {L : Limits} {w w' w'' : World} {s : Heap} {C : Store UInt8}
  {u v bs rest : List UInt8} {p q r i n : ℕ} {fd : ℤ} {α : Type}

/-! ## Steps of the heap -/

/-- A program on the heap. -/
theorem wp_onHeap {p : M α} {Q : α → World → Prop} :
    wp (onHeap p) Q w ↔ wp p (fun a s' => Q a { w with heap := s' }) w.heap := wp_onPart

/-- A program that asks for memory. -/
theorem wp_onTask {p : T α} {Q : α → World → Prop} :
    wp (onTask p) Q w ↔ wp p (fun a t => Q a { w with toTask := t }) w.toTask := wp_onPart

/-- Nothing but the heap changes, and the record of refused requests. -/
structure World.Kept (w w' : World) : Prop where
  temp : w'.temp = w.temp
  input : w'.input = w.input
  refused : w.refused = true → w'.refused = true

theorem World.Kept.trans (h : w.Kept w') (h' : w'.Kept w'') : w.Kept w'' :=
  ⟨h'.temp.trans h.temp, h'.input.trans h.input, fun hw => h'.refused (h.refused hw)⟩

/-- A step of the heap. -/
theorem World.kept_heap (w : World) (s : Heap) : w.Kept { w with heap := s } := ⟨rfl, rfl, id⟩

/-! ## `read` -/

/-- The bytes that the first `n` answers deliver. -/
def delivered (as : Answers) (n : ℕ) : List UInt8 := (as.take n).flatMap fun a => a.getD []

/-- The first `n` answers deliver all bytes. -/
def SettledBy (as : Answers) (n : ℕ) : Prop := ∀ m, n ≤ m → delivered as m = delivered as n

/-- The bytes end. -/
def Ends (as : Answers) : Prop := ∃ n, SettledBy as n

open Classical in
/-- The bytes that the answers deliver, if these end. -/
noncomputable def content (as : Answers) : List UInt8 :=
  if h : Ends as then delivered as h.choose else []

/-- Answers for a file of bytes that are not zero: none fails, and none is empty before the end. -/
def Plain (as : Answers) : Prop :=
  ∀ k, ∃ bs, as.get k = some bs ∧ 0 ∉ bs ∧ (bs = [] → ∀ j, k ≤ j → as.get j = some [])

variable {as : Answers} {a : Option (List UInt8)} {count : ℕ}

/-- The first answer and those behind it. -/
theorem delivered_succ : delivered as (n + 1) = as.head.getD [] ++ delivered as.tail n := by
  rw [delivered, Stream'.take_succ, List.flatMap_cons, delivered]

/-- Nothing is delivered at the end of a file. -/
theorem delivered_eq_nil (h : ∀ k, as.get k = some []) : delivered as n = [] := by
  induction n generalizing as with
  | zero => rfl
  | succ n ih =>
    have hhead : as.head = some [] := h 0
    have htail : delivered as.tail n = [] := ih fun k => h (k + 1)
    rw [delivered_succ, hhead, htail]
    rfl

/-- At the end of a file the bytes are settled. -/
theorem settledBy_of_end (h : ∀ k, as.get k = some []) : SettledBy as 0 :=
  fun _ _ => delivered_eq_nil h

/-- What is settled is the content. -/
theorem SettledBy.content_eq (h : SettledBy as n) : content as = delivered as n := by
  have hends : Ends as := ⟨n, h⟩
  rw [content, dif_pos hends, ← hends.choose_spec _ (Nat.le_max_left _ n),
    ← h _ (Nat.le_max_right _ _)]

/-- Without the first answer, the bytes are settled all the more. -/
theorem SettledBy.tail (h : SettledBy as n) : SettledBy as.tail n := by
  intro m hm
  have hall := (h (m + 1) (by omega)).trans (h (n + 1) (by omega)).symm
  rw [delivered_succ, delivered_succ] at hall
  exact List.append_cancel_left hall

/-- Behind one more answer, the bytes are settled one answer later. -/
theorem SettledBy.cons (h : SettledBy as n) : SettledBy (as.cons a) (n + 1) := by
  rintro (_ | m) hm
  · omega
  · rw [delivered_succ, delivered_succ, Stream'.tail_cons, h m (by omega)]

/-- The first answer and the content behind it. -/
theorem Ends.content_eq (h : Ends as) : content as = as.head.getD [] ++ content as.tail := by
  obtain ⟨n, hn⟩ := h
  rw [hn.content_eq, hn.tail.content_eq, ← delivered_succ, hn (n + 1) (by omega)]

/-- One more answer. -/
theorem Ends.content_cons (h : Ends as) : content (as.cons a) = a.getD [] ++ content as := by
  have hcons : Ends (as.cons a) := h.elim fun n hn => ⟨n + 1, hn.cons⟩
  rw [hcons.content_eq, Stream'.head_cons, Stream'.tail_cons]

/-- Nothing is lost, and the bytes still end. -/
theorem Ends.answer (h : Ends as) : Ends (answer count as).2 ∧
    (answer count as).1.getD [] ++ content (answer count as).2 = content as := by
  obtain ⟨n, hn⟩ := h
  have htail : Ends as.tail := ⟨n, hn.tail⟩
  rw [Ends.content_eq ⟨n, hn⟩, FtMalloc.answer]
  cases as.head with
  | none => exact ⟨htail, rfl⟩
  | some bs =>
    dsimp only
    by_cases hle : bs.length ≤ count
    · rw [if_pos hle, Option.getD_some, List.take_of_length_le hle]
      exact ⟨htail, rfl⟩
    · rw [if_neg hle, htail.content_cons, ← List.append_assoc, Option.getD_some, Option.getD_some,
        Option.getD_some, List.take_append_drop]
      exact ⟨⟨n + 1, hn.tail.cons⟩, rfl⟩

/-- An answer has at most `count` bytes. -/
theorem length_answer_le (h : (answer count as).1 = some bs) : bs.length ≤ count := by
  rw [answer] at h
  cases hhead : as.head with
  | none =>
    rw [hhead] at h
    cases h
  | some cs =>
    rw [hhead] at h
    cases h
    exact List.length_take_le _ _

/-- A plain file stays one, and its answers are empty only at the end. -/
theorem Plain.answer (h : Plain as) (hcount : 0 < count) : Plain (answer count as).2 ∧
    ∃ bs, (answer count as).1 = some bs ∧ 0 ∉ bs ∧ (bs = [] → content as = []) := by
  obtain ⟨bs, hbs, hno, hend⟩ := h 0
  have hhead : as.head = some bs := hbs
  have htail : Plain as.tail := fun k => by
    obtain ⟨cs, hcs, hno, hend⟩ := h (k + 1)
    exact ⟨cs, hcs, hno, fun hnil j hj => hend hnil (j + 1) (by omega)⟩
  rw [FtMalloc.answer, hhead]
  refine ⟨?_, bs.take count, rfl, fun hz => hno (List.mem_of_mem_take hz), fun hnil => ?_⟩
  · dsimp only
    split
    · exact htail
    · intro k
      cases k with
      | zero =>
        refine ⟨bs.drop count, rfl, fun hz => hno (List.mem_of_mem_drop hz), fun hnil => ?_⟩
        rw [List.drop_eq_nil_iff] at hnil
        omega
      | succ k =>
        obtain ⟨cs, hcs, hno, hend⟩ := htail k
        refine ⟨cs, hcs, hno, fun hnil j hj => ?_⟩
        obtain ⟨j, rfl⟩ := Nat.exists_eq_add_of_le' (Nat.le_of_add_left_le hj)
        exact hend hnil j (by omega)
  · have hnone : bs = [] := (List.take_eq_nil_iff.mp hnil).resolve_left hcount.ne'
    exact (settledBy_of_end fun k => hend hnone k (Nat.zero_le k)).content_eq

/-- Bytes that the kernel writes into a block. -/
theorem Heap.Sound.wp_storeBytes (us : List UInt8) (h : s.Sound P)
    (hs : s.client = C.put p (us ++ bs)) (hfit : v.length ≤ bs.length) :
    wp (storeBytes (p + us.length) v) (fun _ s' => s'.Sound P ∧
      s'.client = C.put p (us ++ v ++ bs.drop v.length)) s := by
  induction v generalizing s us bs with
  | nil =>
    rw [storeBytes, wp_pure, hs, List.append_nil]
    exact ⟨h, rfl⟩
  | cons b v ih =>
    rw [List.length_cons] at hfit
    rw [storeBytes, wp_bind]
    refine h.wp_storeByte hs (by simp; omega) fun s' hsound hclient => ?_
    rw [splice_append, List.length_singleton, ← List.append_assoc] at hclient
    have hrest := ih (us ++ [b]) hsound hclient (by rw [List.length_drop]; omega)
    rw [List.length_append, List.length_singleton, List.drop_drop] at hrest
    rw [Nat.add_assoc, List.length_cons, Nat.add_comm v.length, List.append_cons]
    exact hrest

namespace World

/-- What reading from a descriptor leaves as it is. -/
structure Read (i : ℕ) (as : Answers) (w w' : World) : Prop where
  temp : w'.temp = w.temp
  input : w'.input = Function.update w.input i as
  refused : w'.refused = w.refused

/-- `read` into a block. -/
theorem wp_read (h : w.heap.Sound P) (hs : w.heap.client = C.put p bs) (hfit : count ≤ bs.length) :
    wp (read fd p count) (fun n w' => w'.heap.Sound P ∧
      w.Read fd.toNat (answer count (w.input fd.toNat)).2 w' ∧
        match (answer count (w.input fd.toNat)).1 with
        | none => n = -1 ∧ w'.heap.client = C.put p bs
        | some v => n = v.length ∧ w'.heap.client = C.put p (v ++ bs.drop v.length)) w := by
  rw [read, wp_bind]
  refine ⟨_, _, rfl, ?_⟩
  cases hans : (answer count (w.input fd.toNat)).1 with
  | none =>
    rw [wp_pure]
    exact ⟨h, ⟨rfl, rfl, rfl⟩, rfl, hs⟩
  | some v =>
    have hle := length_answer_le hans
    dsimp only
    rw [wp_bind, wp_onHeap]
    refine wp_mono (h.wp_storeBytes [] hs (by omega)) ?_
    rintro _ s' ⟨hsound, hclient⟩
    rw [wp_pure]
    exact ⟨hsound, ⟨rfl, rfl, rfl⟩, rfl, hclient⟩

/-- From the text `u` to the text `u'`, with what has been read in between from the descriptor,
whose bytes end. If the file is plain and no request was refused, nothing is lost. -/
structure Progress (i : ℕ) (u : List UInt8) (w : World) (u' : List UInt8) (w' : World) : Prop where
  temp : w'.temp = w.temp
  others : ∀ j ≠ i, w'.input j = w.input j
  refused : w.refused = true → w'.refused = true
  noNul : 0 ∉ u'
  ends : Ends (w'.input i)
  short : u'.length + (content (w'.input i)).length ≤ u.length + (content (w.input i)).length
  plain : Plain (w.input i) → Plain (w'.input i)
  whole : Plain (w.input i) → w'.refused = false →
    u' ++ content (w'.input i) = u ++ content (w.input i)

variable {u' u'' : List UInt8}

/-- Nothing is read. -/
theorem Progress.refl (hu : 0 ∉ u) (hends : Ends (w.input i)) : Progress i u w u w :=
  ⟨rfl, fun _ _ => rfl, id, hu, hends, Nat.le_refl _, id, fun _ _ => rfl⟩

/-- Reading more. -/
theorem Progress.trans (h : Progress i u w u' w') (h' : Progress i u' w' u'' w'') :
    Progress i u w u'' w'' := by
  refine ⟨h'.temp.trans h.temp, fun j hj => (h'.others j hj).trans (h.others j hj),
    fun hw => h'.refused (h.refused hw), h'.noNul, h'.ends, h'.short.trans h.short,
    fun hp => h'.plain (h.plain hp), fun hp hw => ?_⟩
  have hmid : w'.refused = false := Bool.eq_false_iff.mpr fun hr => by
    rw [h'.refused hr] at hw
    cases hw
  rw [h'.whole (h.plain hp) hw, h.whole hp hmid]

/-- A step that reads nothing. -/
theorem Progress.kept (h : Progress i u w u' w') (h' : w'.Kept w'') : Progress i u w u' w'' := by
  refine h.trans ⟨h'.temp, fun j _ => by rw [h'.input], h'.refused, h.noNul, ?_, ?_, ?_, ?_⟩
  · rw [h'.input]
    exact h.ends
  · rw [h'.input]
  · rw [h'.input]
    exact id
  · rw [h'.input]
    exact fun _ _ => rfl

/-- Giving up the text, when a request was refused or the file is not plain. -/
theorem Progress.lose (h : Progress i u w u' w')
    (hlost : w'.refused = true ∨ ¬Plain (w.input i)) : Progress i u w [] w' := by
  refine ⟨h.temp, h.others, h.refused, List.not_mem_nil, h.ends, ?_, h.plain, fun hp hw => ?_⟩
  · have := h.short
    rw [List.length_nil]
    omega
  · cases hlost with
    | inl hr =>
      rw [hr] at hw
      cases hw
    | inr hnot => exact absurd hp hnot

/-- The part of some bytes that a string function sees. -/
def seen (v : List UInt8) : List UInt8 := (v ++ [0]).takeWhile fun b => b ≠ 0

/-- The terminator is behind what is seen. -/
theorem exists_seen (v : List UInt8) : ∃ rest, v ++ [0] = seen v ++ [0] ++ rest := by
  refine ⟨afterLine 0 (v ++ [0]), ?_⟩
  rw [List.append_assoc, List.singleton_append, ← exists_separator (by simp), seen,
    List.takeWhile_append_dropWhile]

theorem zero_notMem_seen : 0 ∉ seen v := fun h => by simpa using List.mem_takeWhile_imp h

theorem length_seen_le : (seen v).length ≤ v.length := by
  obtain ⟨rest, hrest⟩ := exists_seen v
  have hlen := congrArg List.length hrest
  simp only [List.length_append, List.length_singleton] at hlen
  omega

/-- All is seen of bytes that are not zero. -/
theorem seen_eq_self (h : 0 ∉ v) : seen v = v := by
  have hall : ∀ b ∈ v, decide (b ≠ 0) = true := fun b hb => decide_eq_true fun heq => h (heq ▸ hb)
  rw [seen, List.takeWhile_append_of_pos hall, List.takeWhile_cons_of_neg (by simp),
    List.append_nil]

/-- The answer and what is still to be read. -/
theorem Read.content_eq (h : w.Read i (answer count (w.input i)).2 w') (hends : Ends (w.input i)) :
    Ends (w'.input i) ∧
      (answer count (w.input i)).1.getD [] ++ content (w'.input i) = content (w.input i) := by
  rw [h.input, Function.update_self]
  exact hends.answer

/-- An answer of `read` is added to the text. -/
theorem Read.progress (h : w.Read i (answer count (w.input i)).2 w') (hcount : 0 < count)
    (hu : 0 ∉ u) (hends : Ends (w.input i)) (hans : (answer count (w.input i)).1 = some v) :
    Progress i u w (u ++ seen v) w' := by
  obtain ⟨hends', hcontent⟩ := h.content_eq hends
  rw [hans, Option.getD_some] at hcontent
  refine ⟨h.temp, fun j hj => by rw [h.input, Function.update_of_ne hj], fun hw => ?_, ?_, hends',
    ?_, fun hp => ?_, fun hp _ => ?_⟩
  · rwa [h.refused]
  · rw [List.mem_append]
    exact not_or.mpr ⟨hu, zero_notMem_seen⟩
  · have hseen := length_seen_le (v := v)
    rw [← hcontent, List.length_append, List.length_append]
    omega
  · rw [h.input, Function.update_self]
    exact (hp.answer hcount).1
  · obtain ⟨-, bs, hbs, hno, -⟩ := hp.answer hcount
    obtain rfl : v = bs := Option.some.inj (hans.symm.trans hbs)
    rw [seen_eq_self hno, List.append_assoc, hcontent]

/-- A failure of `read` is not one of a plain file. -/
theorem Read.failed (h : w.Read i (answer count (w.input i)).2 w') (hcount : 0 < count)
    (hends : Ends (w.input i)) (hans : (answer count (w.input i)).1 = none) :
    Progress i u w [] w' := by
  have hnot : ¬Plain (w.input i) := fun hp => by
    obtain ⟨-, bs, hbs, -⟩ := hp.answer hcount
    rw [hans] at hbs
    cases hbs
  obtain ⟨hends', hcontent⟩ := h.content_eq hends
  rw [hans] at hcontent
  refine ⟨h.temp, fun j hj => by rw [h.input, Function.update_of_ne hj], fun hw => ?_,
    List.not_mem_nil, hends', ?_, fun hp => absurd hp hnot, fun hp => absurd hp hnot⟩
  · rwa [h.refused]
  · rw [← hcontent]
    exact Nat.add_le_add (Nat.zero_le _) (Nat.le_refl _)

end World

end FtMalloc
