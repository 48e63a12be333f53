import FtMalloc.Refine.ZoneMemory

/-!
# The list operations of a zone

`remove_block`, `replace_block` and the address-ordered insertion act on the block list and on
the list of empty spaces as deletion, replacement and insertion of one node. Each is first executed
into the link edits of the library and then stated as an update of one component of `ZoneAt`.
-/

namespace FtMalloc

open HeapLib

variable {s : Heap} {m : Memory} {z : TiledZone} {num rem c p n x zone b : ℕ}
  {l l₁ l₂ bs es : List ℕ} {type : EType} {old : BlockRef} {Q : Unit → Heap → Prop}

/-- The cell that holds the head of a list of the zone. -/
def listCell (zone : ℕ) (type : EType) : ℕ := if type = .empty then zone + 56 else zone + 48

theorem listCell_empty (zone : ℕ) : listCell zone .empty = zone + 56 := rfl

theorem listCell_block (zone : ℕ) : listCell zone .block = zone + 48 := rfl

/-- What the links of a referenced header are. -/
def BlockRef.Links (r : BlockRef) (s : Heap) (p n : ℕ) : Prop :=
  match r with
  | .heap b => b ≠ 0 ∧ s.Valid b 32 ∧ word s.mem (b + 16) = p ∧ word s.mem (b + 24) = n
  | .stack h => h.prev = p ∧ h.next = n

/-- The links of a referenced header are away from a set of addresses. -/
def BlockRef.Off (r : BlockRef) (S : Set ℕ) : Prop :=
  match r with
  | .heap b => ∀ x, b + 16 ≤ x → x < b + 32 → x ∉ S
  | .stack _ => True

theorem BlockRef.Links.wp_getPrev (h : old.Links s p n) {Q : ℕ → Heap → Prop} :
    wp old.getPrev Q s ↔ Q p s := by
  cases old with
  | heap b =>
    obtain ⟨-, hv, hp, -⟩ := h
    rw [BlockRef.getPrev, Block.getPrev, wp_loadWord (hv.sub (by omega) (by omega)), hp]
  | stack h' => rw [BlockRef.getPrev, wp_pure, h.1]

theorem BlockRef.Links.wp_getNext (h : old.Links s p n) {Q : ℕ → Heap → Prop} :
    wp old.getNext Q s ↔ Q n s := by
  cases old with
  | heap b =>
    obtain ⟨-, hv, -, hn⟩ := h
    rw [BlockRef.getNext, Block.getNext, wp_loadWord (hv.sub (by omega) (by omega)), hn]
  | stack h' => rw [BlockRef.getNext, wp_pure, h.2]

theorem BlockRef.Links.isNull (h : old.Links s p n) : old.isNull = false := by
  cases old with
  | heap b => exact decide_eq_false h.1
  | stack h' => rfl

/-- Links away from a change are kept by it. -/
theorem BlockRef.Links.agreeOff {S : Set ℕ} (h : old.Links s p n) (hoff : old.Off S)
    (hS : AgreeOff S s.mem m) : old.Links (s.withMem m) p n := by
  cases old with
  | heap b =>
    obtain ⟨hb, hv, hp, hn⟩ := h
    refine ⟨hb, hv, ?_, ?_⟩
    · exact (hS.readLE_eq fun x hx hx' => hoff x (by omega) (by omega)).trans hp
    · exact (hS.readLE_eq fun x hx hx' => hoff x (by omega) (by omega)).trans hn
  | stack h' => exact h

/-- Assigning the link that enters a cut from the left. -/
theorem wp_setEntry {v : ℕ} (hc : c = listCell zone type) (hcell : s.Valid c 8)
    (hp : p ≠ 0 → s.Valid p 32) :
    wp (if p ≠ null then Block.setNext p v else if type = .empty then Zone.setEmptySpaces zone v
      else Zone.setBlocks zone v) Q s ↔ Q () (s.withMem (linkNext blockLinks s.mem c p v)) := by
  by_cases hp0 : p = 0
  · rw [wp_ite_neg (by simpa using hp0), linkNext, if_pos hp0]
    by_cases ht : type = .empty
    · rw [listCell, if_pos ht] at hc
      subst hc
      rw [wp_ite_pos ht, Zone.setEmptySpaces, wp_storeWord hcell]
    · rw [listCell, if_neg ht] at hc
      subst hc
      rw [wp_ite_neg ht, Zone.setBlocks, wp_storeWord hcell]
  · rw [wp_ite_pos (by simpa using hp0), linkNext, if_neg hp0, Block.setNext,
      wp_storeWord ((hp hp0).sub (by omega) (by omega))]
    rfl

/-- Assigning the link that enters a cut from the right. -/
theorem wp_setBack {v : ℕ} (hn : n ≠ 0 → s.Valid n 32) :
    wp (if n ≠ null then Block.setPrev n v else pure ()) Q s ↔
      Q () (s.withMem (linkPrev blockLinks s.mem n v)) := by
  by_cases hn0 : n = 0
  · rw [wp_ite_neg (by simpa using hn0), wp_pure, linkPrev, if_pos hn0, withMem_self]
  · rw [wp_ite_pos (by simpa using hn0), linkPrev, if_neg hn0, Block.setPrev,
      wp_storeWord ((hn hn0).sub (by omega) (by omega))]
    rfl

/-- All nodes of a list and its head cell are mapped. -/
def ListValid (s : Heap) (c : ℕ) (l : List ℕ) : Prop := s.Valid c 8 ∧ ∀ a ∈ l, s.Valid a 32

theorem ListValid.getLastD (h : ListValid s c (l₁ ++ l₂)) :
    l₁.getLastD 0 ≠ 0 → s.Valid (l₁.getLastD 0) 32 := by
  intro hne
  rcases List.eq_nil_or_concat l₁ with rfl | ⟨l', a, rfl⟩
  · exact absurd rfl hne
  · rw [List.concat_eq_append, List.getLastD_concat]
    exact h.2 a (by simp)

theorem ListValid.headD (h : ListValid s c (l₁ ++ l₂)) :
    l₂.headD 0 ≠ 0 → s.Valid (l₂.headD 0) 32 := by
  intro hne
  cases l₂ with
  | nil => exact absurd rfl hne
  | cons a as => exact h.2 a (by simp)

/-- `remove_block` closes the cut that `old` stood in. -/
theorem wp_removeBlock (hz : zone ≠ 0) (hc : c = listCell zone type)
    (hP : Placed blockLinks c (l₁ ++ l₂)) (hv : ListValid s c (l₁ ++ l₂))
    (hold : old.Links s (l₁.getLastD 0) (l₂.headD 0))
    (hoff : old.Off (linkBytes blockLinks c (l₁ ++ l₂))) :
    wp (removeBlock zone old type) Q s ↔
      Q () (s.withMem (linkPrev blockLinks (linkNext blockLinks s.mem c (l₁.getLastD 0)
        (l₂.headD 0)) (l₂.headD 0) (l₁.getLastD 0))) := by
  have hS : AgreeOff (linkBytes blockLinks c (l₁ ++ l₂)) s.mem
      (linkNext blockLinks s.mem c (l₁.getLastD 0) (l₂.headD 0)) := by
    refine (agreeOff_linkNext hP.left).mono ?_
    rintro y (hy | ⟨a, ha, hy⟩)
    · exact .inl hy
    · exact .inr ⟨a, List.mem_append_left _ ha, hy⟩
  have hold' := hold.agreeOff hoff hS
  rw [removeBlock, wp_ite_neg (by simp [hz, hold.isNull])]
  simp only [wp_bind, wp_ite, hold.wp_getPrev, hold.wp_getNext]
  simp only [← wp_ite]
  rw [wp_setEntry hc hv.1 hv.getLastD]
  simp only [wp_bind, wp_ite, hold'.wp_getPrev, hold'.wp_getNext]
  simp only [← wp_ite]
  rw [wp_setBack fun h => valid_withMem.mpr (hv.headD h)]
  rfl

/-- `replace_block` fills the cut that `old` stood in with `x`. -/
theorem wp_replaceBlock (hz : zone ≠ 0) (hc : c = listCell zone type)
    (hP : Placed blockLinks c (l₁ ++ x :: l₂)) (hv : ListValid s c (l₁ ++ x :: l₂))
    (hold : old.Links s (l₁.getLastD 0) (l₂.headD 0))
    (hoff : old.Off (linkBytes blockLinks c (l₁ ++ x :: l₂))) :
    wp (replaceBlock zone old x type) Q s ↔
      Q () (s.withMem (linkPrev blockLinks (linkNext blockLinks
        (setWord (setWord s.mem (x + 16) (l₁.getLastD 0)) (x + 24) (l₂.headD 0)) c
        (l₁.getLastD 0) x) (l₂.headD 0) x)) := by
  have hx := (hP.pos x (by simp)).1
  have hvx : s.Valid x 32 := hv.2 x (by simp)
  have hv' : ListValid s c (l₁ ++ l₂) := ⟨hv.1, fun a ha => hv.2 a (by
    rcases List.mem_append.mp ha with ha | ha <;> simp [ha])⟩
  -- every write hits the list, never the links of `old`
  have hin : ∀ y, x + 16 ≤ y → y < x + 32 → y ∈ linkBytes blockLinks c (l₁ ++ x :: l₂) :=
    fun y hy hy' => .inr ⟨x, by simp, by simpa using hy, by simpa using hy'⟩
  have hS₁ : AgreeOff (linkBytes blockLinks c (l₁ ++ x :: l₂)) s.mem
      (setWord s.mem (x + 16) (l₁.getLastD 0)) :=
    (AgreeOff.refl _ _).write fun y hy hy' => hin y hy (by omega)
  have hS₂ : AgreeOff (linkBytes blockLinks c (l₁ ++ x :: l₂)) s.mem
      (setWord (setWord s.mem (x + 16) (l₁.getLastD 0)) (x + 24) (l₂.headD 0)) :=
    hS₁.write fun y hy hy' => hin y (by omega) (by omega)
  have hS₃ := hS₂.trans ((agreeOff_linkNext (v := x) hP.left).mono (by
    rintro y (hy | ⟨a, ha, hy⟩)
    · exact .inl hy
    · exact .inr ⟨a, List.mem_append_left _ ha, hy⟩))
  have hold₁ := hold.agreeOff hoff hS₁
  have hold₂ := hold.agreeOff hoff hS₂
  have hold₃ := hold.agreeOff hoff hS₃
  rw [replaceBlock, wp_ite_neg (by simp [hz, hold.isNull]; omega)]
  simp only [wp_bind, hold.wp_getPrev]
  rw [Block.setPrev, wp_storeWord (hvx.sub (by omega) (by omega)), wp_bind, hold₁.wp_getNext,
    wp_bind, Block.setNext,
    wp_storeWord (valid_withMem.mpr (hvx.sub (by omega) (by omega)))]
  simp only [withMem_mem, withMem_withMem, wp_ite, wp_bind, hold₂.wp_getPrev]
  simp only [← wp_ite]
  rw [wp_setEntry hc (valid_withMem.mpr hv'.1) fun h => valid_withMem.mpr (hv'.getLastD h)]
  simp only [withMem_mem, withMem_withMem, wp_bind, wp_ite, hold₃.wp_getNext]
  simp only [← wp_ite]
  rw [wp_setBack fun h => valid_withMem.mpr (hv'.headD h)]
  rfl

/-- The search for the insertion point stops at the last node below `x`. -/
theorem wp_insertSearch {a : ℕ} {Q : ℕ → Heap → Prop} (hlist : ListAt blockLinks s.mem c (l₁ ++ l₂))
    (hv : ListValid s c (l₁ ++ l₂)) (hlen : l₁.length < 2 ^ 64) (hhead : l₁.head? = some a)
    (hlow : ∀ a ∈ l₁, 0 < a ∧ a < x) (hhigh : l₂.headD 0 = 0 ∨ ¬ l₂.headD 0 < x)
    (hQ : Q (l₁.getLastD 0) s) :
    wp (forever (fun iter => do
      if (← Block.getNext iter) = null then
        return .inr iter
      if (← Block.getNext iter) < x then
        return .inl (← Block.getNext iter)
      return .inr iter) a) Q s := by
  obtain ⟨e, rfl⟩ : ∃ e, l₁ = a :: e := by
    cases l₁ with
    | nil => cases hhead
    | cons b e =>
      cases hhead
      exact ⟨e, rfl⟩
  have hfuel : e.length < 2 ^ 64 := by
    rw [List.length_cons] at hlen
    omega
  refine wp_forever (fun k iter s' => s' = s ∧ ∃ d e', a :: e = d ++ iter :: e' ∧ e'.length = k)
    ?_ hfuel ⟨rfl, [], e, rfl, rfl⟩
  rintro k iter s' ⟨rfl, d, e', heq, hk⟩
  have hnext : word s'.mem (iter + 24) = (e' ++ l₂).headD 0 := by
    rw [heq, List.append_assoc, List.cons_append] at hlist
    exact hlist.next
  have hvi : s'.Valid (iter + 24) 8 :=
    (hv.2 iter (by rw [heq]; simp)).sub (by omega) (by omega)
  simp only [Block.getNext, wp_bind, wp_ite, wp_loadWord hvi, hnext, wp_pure]
  cases e' with
  | nil =>
    have hlast : (a :: e).getLastD 0 = iter := by rw [heq, List.getLastD_concat]
    have hcond : l₂.headD 0 = 0 ∨ ¬ l₂.headD 0 = 0 ∧ ¬ l₂.headD 0 < x := by omega
    rw [hlast] at hQ
    rcases hcond with h | ⟨h, h'⟩
    · simpa only [List.nil_append, null, h, if_true, Sum.elim_inr] using hQ
    · simpa only [List.nil_append, null, h, h', if_false, Sum.elim_inr] using hQ
  | cons b e'' =>
    have hb := hlow b (by rw [heq]; simp)
    have hb0 : ¬ b = 0 := by omega
    simp only [List.cons_append, List.headD_cons, null, hb0, hb.2, if_false, if_true, Sum.elim_inl]
    exact ⟨e''.length, by simp at hk; omega, trivial, d ++ [iter], e'', by simp [heq], rfl⟩

/-- The links of a node that is not in the list yet disturb neither the list nor its head cell. -/
theorem listAt_writeFresh {m : Memory} (hlist : ListAt blockLinks m c (l₁ ++ l₂))
    (hP : Placed blockLinks c (l₁ ++ x :: l₂)) (next prev : ℕ) :
    ListAt blockLinks (setWord (setWord m (x + 24) next) (x + 16) prev) c (l₁ ++ l₂) := by
  have hS : AgreeOff {y | x + 16 ≤ y ∧ y < x + 32} m
      (setWord (setWord m (x + 24) next) (x + 16) prev) := by
    refine AgreeOff.write (AgreeOff.write (AgreeOff.refl _ _) ?_) ?_ <;>
      exact fun y hy hy' => ⟨by omega, by omega⟩
  exact hlist.agreeOff hS fun y hy => hP.linkBytes_middle hy

/-- Insertion before the whole list. -/
theorem wp_insertSorted_front (hlist : ListAt blockLinks s.mem c l₂)
    (hP : Placed blockLinks c (x :: l₂)) (hv : ListValid s c (x :: l₂)) (hhigh : ∀ a ∈ l₂, x < a)
    (hQ : Q () (s.withMem (setWord (linkPrev blockLinks
      (setWord (setWord s.mem (x + 24) (l₂.headD 0)) (x + 16) 0) (l₂.headD 0) x) c x))) :
    wp (insertSorted c x) Q s := by
  have hvx : s.Valid x 32 := hv.2 x List.mem_cons_self
  have hv' : ListValid s c ([] ++ l₂) := ⟨hv.1, fun a ha => hv.2 a (List.mem_cons_of_mem _ ha)⟩
  have hcond : l₂.headD 0 = null ∨ x < l₂.headD 0 := by
    cases l₂ with
    | nil => exact .inl rfl
    | cons a as => exact .inr (hhigh a List.mem_cons_self)
  have hP' : Placed blockLinks c ([] ++ x :: l₂) := hP
  have hlist₂ : ListAt blockLinks _ c ([] ++ l₂) := listAt_writeFresh hlist hP' (l₂.headD 0) 0
  set m₂ := setWord (setWord s.mem (x + 24) (l₂.headD 0)) (x + 16) 0
  rw [insertSorted, wp_bind, wp_loadWord hv.1, hlist.head, wp_ite_pos hcond, Block.setNext, wp_bind,
    wp_storeWord (hvx.sub (by omega) (by omega)), wp_bind, Block.setPrev,
    wp_storeWord (valid_withMem.mpr (hvx.sub (by omega) (by omega)))]
  change wp _ Q (s.withMem m₂)
  have hcell : word (s.withMem m₂).mem c = l₂.headD 0 := hlist₂.head
  have hvc : (s.withMem m₂).Valid c 8 := hv.1
  simp only [wp_bind, wp_ite, wp_loadWord hvc, hcell]
  simp only [← wp_ite]
  rw [wp_setBack fun h => valid_withMem.mpr (hv'.headD h)]
  exact (wp_storeWord (valid_withMem.mpr hv.1)).mpr hQ

/-- Insertion behind the last node with a lower address. -/
theorem wp_insertSorted_behind {l : List ℕ} {e : ℕ}
    (hlist : ListAt blockLinks s.mem c (l ++ [e] ++ l₂))
    (hP : Placed blockLinks c (l ++ [e] ++ x :: l₂)) (hv : ListValid s c (l ++ [e] ++ x :: l₂))
    (hlen : (l ++ [e]).length < 2 ^ 64) (hlow : ∀ a ∈ l ++ [e], a < x) (hhigh : ∀ a ∈ l₂, x < a)
    (hQ : Q () (s.withMem (setWord (linkPrev blockLinks
      (setWord (setWord s.mem (x + 24) (l₂.headD 0)) (x + 16) e) (l₂.headD 0) x) (e + 24) x))) :
    wp (insertSorted c x) Q s := by
  have hvx : s.Valid x 32 := hv.2 x (by simp)
  have hP' : Placed blockLinks c (l ++ [e] ++ l₂) :=
    hP.sublist (List.Sublist.append_left (List.sublist_cons_self _ _) _)
  have hv' : ListValid s c (l ++ [e] ++ l₂) := ⟨hv.1, fun a ha => hv.2 a (by
    rcases List.mem_append.mp ha with ha | ha
    · exact List.mem_append_left _ ha
    · exact List.mem_append_right _ (List.mem_cons_of_mem _ ha))⟩
  obtain ⟨a, hfirst⟩ : ∃ a, (l ++ [e]).head? = some a := by
    cases l with
    | nil => exact ⟨e, rfl⟩
    | cons b bs => exact ⟨b, rfl⟩
  have ha : a ∈ l ++ [e] := List.mem_of_head? hfirst
  have hhd : (l ++ [e] ++ l₂).headD 0 = a := by
    cases l with
    | nil => exact Option.some.inj hfirst
    | cons b bs => exact Option.some.inj hfirst
  have hapos := (hP'.pos a (List.mem_append_left _ ha)).1
  have hax := hlow a ha
  have hhigh₂ : l₂.headD 0 = 0 ∨ ¬ l₂.headD 0 < x := by
    cases l₂ with
    | nil => exact .inl rfl
    | cons b bs => exact .inr (Nat.not_lt.mpr (Nat.le_of_lt (hhigh b List.mem_cons_self)))
  have hlist₂ := listAt_writeFresh hlist hP (l₂.headD 0) e
  set m₂ := setWord (setWord s.mem (x + 24) (l₂.headD 0)) (x + 16) e with hm₂
  have hve : ∀ m, (s.withMem m).Valid (e + 24) 8 := fun m =>
    (hv'.2 e (by simp)).sub (by omega) (by omega)
  rw [insertSorted, wp_bind, wp_loadWord hv.1, hlist.head, hhd,
    wp_ite_neg (by simp only [null]; omega), wp_bind]
  refine wp_insertSearch hlist hv' hlen hfirst
    (fun b hb => ⟨(hP'.pos b (List.mem_append_left _ hb)).1, hlow b hb⟩) hhigh₂ ?_
  rw [List.getLastD_concat]
  rw [List.append_assoc, List.singleton_append] at hlist hlist₂
  have hnext : word s.mem (e + 24) = l₂.headD 0 := hlist.next
  have hnext₂ : word (s.withMem m₂).mem (e + 24) = l₂.headD 0 := hlist₂.next
  rw [Block.getNext, wp_bind, wp_loadWord (valid_withMem.mp (hve s.mem)), hnext, Block.setNext,
    wp_bind, wp_storeWord (hvx.sub (by omega) (by omega)), wp_bind, Block.setPrev,
    wp_storeWord (valid_withMem.mpr (hvx.sub (by omega) (by omega))), withMem_mem, withMem_withMem,
    ← hm₂]
  simp only [wp_bind, wp_ite, wp_loadWord (hve m₂), hnext₂]
  simp only [← wp_ite]
  rw [wp_setBack fun h => valid_withMem.mpr (hv'.headD h), withMem_withMem, Block.setNext,
    wp_storeWord (hve _)]
  exact hQ

/-- The address-ordered insertion fills the cut between the lower and the higher addresses. -/
theorem wp_insertSorted (hlist : ListAt blockLinks s.mem c (l₁ ++ l₂))
    (hP : Placed blockLinks c (l₁ ++ x :: l₂)) (hv : ListValid s c (l₁ ++ x :: l₂))
    (hlen : l₁.length < 2 ^ 64) (hlow : ∀ a ∈ l₁, a < x) (hhigh : ∀ a ∈ l₂, x < a)
    (hQ : Q () (s.withMem (linkPrev blockLinks (linkNext blockLinks
      (setWord (setWord s.mem (x + 24) (l₂.headD 0)) (x + 16) (l₁.getLastD 0)) c
      (l₁.getLastD 0) x) (l₂.headD 0) x))) :
    wp (insertSorted c x) Q s := by
  have hP' : Placed blockLinks c (l₁ ++ l₂) :=
    hP.sublist (List.Sublist.append_left (List.sublist_cons_self _ _) _)
  rw [linkPrev_linkNext_comm hP'] at hQ
  rcases List.eq_nil_or_concat l₁ with rfl | ⟨l, e, rfl⟩
  · exact wp_insertSorted_front hlist hP hv hhigh hQ
  · rw [List.concat_eq_append] at *
    have he : e ≠ 0 := Nat.ne_of_gt (hP'.pos e (by simp)).1
    rw [List.getLastD_concat, linkNext, if_neg he] at hQ
    exact wp_insertSorted_behind hlist hP hv hlen hlow hhigh hQ

/-! ## As edits of a list -/

/-- `remove_block` closes the cut that `old` stood in. -/
theorem wp_closeCut (hz : zone ≠ 0) (hc : c = listCell zone type)
    (hP : Placed blockLinks c (l₁ ++ l₂)) (hv : ListValid s c (l₁ ++ l₂))
    (hfront : Front blockLinks s.mem c l₁ n) (hback : Segment blockLinks s.mem p l₂ 0)
    (hold : old.Links s (l₁.getLastD 0) (l₂.headD 0))
    (hoff : old.Off (linkBytes blockLinks c (l₁ ++ l₂))) :
    wp (removeBlock zone old type) (fun _ s' => s.Writes (linkBytes blockLinks c (l₁ ++ l₂)) s' ∧
      ListAt blockLinks s'.mem c (l₁ ++ l₂)) s := by
  refine (wp_removeBlock hz hc hP hv hold hoff).mpr ?_
  exact ⟨⟨_, rfl, (AgreeOff.refl _ s.mem).relink hP (List.sublist_append_left l₁ l₂)
    (List.sublist_append_right l₁ l₂)⟩, hfront.close hback hP⟩

/-- `replace_block` fills the cut that `old` stood in. -/
theorem wp_fillCut (hz : zone ≠ 0) (hc : c = listCell zone type)
    (hP : Placed blockLinks c (l₁ ++ x :: l₂)) (hv : ListValid s c (l₁ ++ x :: l₂))
    (hfront : Front blockLinks s.mem c l₁ n) (hback : Segment blockLinks s.mem p l₂ 0)
    (hold : old.Links s (l₁.getLastD 0) (l₂.headD 0))
    (hoff : old.Off (linkBytes blockLinks c (l₁ ++ x :: l₂))) :
    wp (replaceBlock zone old x type) (fun _ s' =>
      s.Writes (linkBytes blockLinks c (l₁ ++ x :: l₂)) s' ∧
      ListAt blockLinks s'.mem c (l₁ ++ x :: l₂)) s := by
  refine (wp_replaceBlock hz hc hP hv hold hoff).mpr ?_
  have hP' : Placed blockLinks c (l₁ ++ l₂) :=
    hP.sublist (List.Sublist.append_left (List.sublist_cons_self _ _) _)
  have hS : AgreeOff {y | x + 16 ≤ y ∧ y < x + 24 + 8} s.mem
      (setWord (setWord s.mem (x + 16) (l₁.getLastD 0)) (x + 24) (l₂.headD 0)) := by
    refine ((AgreeOff.refl _ _).write ?_).write ?_ <;>
      · intro y hy hy'
        change x + 16 ≤ y ∧ y < x + 24 + 8
        omega
  have hprev : word (setWord (setWord s.mem (x + 16) (l₁.getLastD 0)) (x + 24) (l₂.headD 0))
      (x + 16) = l₁.getLastD 0 := by
    rw [word, readLE_writeLE_disjoint (by omega)]
    exact readLE_writeLE_same hP'.left.getLastD_lt
  have hspl := hfront.splice hback hP hS hprev (readLE_writeLE_same hP'.right.headD_lt)
  exact ⟨⟨_, rfl, hspl.2⟩, hspl.1⟩

/-- The address-ordered insertion adds one node. -/
theorem wp_insertCut (hlist : ListAt blockLinks s.mem c (l₁ ++ l₂))
    (hP : Placed blockLinks c (l₁ ++ x :: l₂)) (hv : ListValid s c (l₁ ++ x :: l₂))
    (hlow : ∀ a ∈ l₁, a < x) (hhigh : ∀ a ∈ l₂, x < a) :
    wp (insertSorted c x) (fun _ s' => s.Writes (linkBytes blockLinks c (l₁ ++ x :: l₂)) s' ∧
      ListAt blockLinks s'.mem c (l₁ ++ x :: l₂)) s := by
  have hP' : Placed blockLinks c (l₁ ++ l₂) :=
    hP.sublist (List.Sublist.append_left (List.sublist_cons_self _ _) _)
  obtain ⟨hfront, hback⟩ := listAt_append.mp hlist
  refine wp_insertSorted hlist hP hv hP.left.length_lt hlow hhigh ?_
  have hS : AgreeOff {y | x + 16 ≤ y ∧ y < x + 24 + 8} s.mem
      (setWord (setWord s.mem (x + 24) (l₂.headD 0)) (x + 16) (l₁.getLastD 0)) := by
    refine ((AgreeOff.refl _ _).write ?_).write ?_ <;>
      · intro y hy hy'
        change x + 16 ≤ y ∧ y < x + 24 + 8
        omega
  have hnext : word (setWord (setWord s.mem (x + 24) (l₂.headD 0)) (x + 16) (l₁.getLastD 0))
      (x + 24) = l₂.headD 0 := by
    rw [word, readLE_writeLE_disjoint (by omega)]
    exact readLE_writeLE_same hP'.right.headD_lt
  have hspl := hfront.splice hback hP hS (readLE_writeLE_same hP'.left.getLastD_lt) hnext
  exact ⟨⟨_, rfl, hspl.2⟩, hspl.1⟩

/-! ## As updates of a zone -/

section Zone

variable {bs₁ bs₂ es₁ es₂ : List ℕ}

/-- Lists of headers of a mapped zone are mapped. -/
theorem Geometry.listValid (hg : Geometry z bs es) (hv : s.Valid z.addr z.len)
    (hl : l.Sublist z.headers) (hc : z.addr ≤ c) (hc' : c + 8 ≤ z.addr + 64) :
    ListValid s c l := by
  have := hg.room
  refine ⟨hv.sub hc (by omega), fun a ha => ?_⟩
  have := hg.header (hl.subset ha)
  exact hv.sub (by omega) (by omega)

/-- The links of a header that is on no side of a cut are off its bytes. -/
theorem Geometry.off_heap (hg : Geometry z bs es) (hb : b ∈ z.headers) (hc : c + 8 ≤ z.addr + 64)
    (hl : ∀ a ∈ l, a ∈ z.headers) (hbl : b ∉ l) :
    (BlockRef.heap b).Off (linkBytes blockLinks c l) := by
  rintro y hy hy' (hx | ⟨a, ha, hx, hx'⟩)
  · have := hg.header hb
    omega
  · have := hg.apart hb (hl a ha) fun heq => hbl (heq ▸ ha)
    simp only [blockLinks_prev, blockLinks_next] at hx hx'
    omega

/-- A node in the middle of an ordered list lies between the two sides. -/
theorem Geometry.ordered (hg : Geometry z bs es) (hl : (l₁ ++ x :: l₂).Sublist z.headers) :
    (∀ a ∈ l₁, a < x) ∧ ∀ a ∈ l₂, x < a := by
  obtain ⟨-, hx, hcross⟩ := List.pairwise_append.mp (hg.spaced.sublist hl)
  refine ⟨fun a ha => ?_, fun a ha => ?_⟩
  · have := hcross a ha x List.mem_cons_self
    omega
  · have := (List.pairwise_cons.mp hx).1 a ha
    omega

/-- A node in the middle of an ordered list occurs once. -/
theorem Geometry.notMem (hg : Geometry z bs es) (hl : (l₁ ++ x :: l₂).Sublist z.headers) :
    x ∉ l₁ ++ l₂ := by
  obtain ⟨hlow, hhigh⟩ := hg.ordered hl
  intro hmem
  rcases List.mem_append.mp hmem with hmem | hmem
  · exact absurd (hlow x hmem) (Nat.lt_irrefl x)
  · exact absurd (hhigh x hmem) (Nat.lt_irrefl x)

/-- A list of headers is shorter than any loop bound. -/
theorem Geometry.length_lt (hg : Geometry z bs es) (hl : l.Sublist z.headers) :
    l.length < 2 ^ 64 :=
  (hg.placed hl (c := z.addr) (by omega)).length_lt

/-- The head cells of both lists lie in the zone header. -/
theorem listCell_bounds (hc : c = listCell zone type) : zone + 48 ≤ c ∧ c + 8 ≤ zone + 64 := by
  rw [hc, listCell]
  split <;> omega

/-- The links stored in a node of a list of headers. -/
theorem Geometry.links (hg : Geometry z bs es) (hv : s.Valid z.addr z.len)
    (hlist : ListAt blockLinks s.mem c (l₁ ++ b :: l₂)) (hsub : (l₁ ++ b :: l₂).Sublist z.headers)
    (hc : c + 8 ≤ z.addr + 64) :
    (BlockRef.heap b).Links s (l₁.getLastD 0) (l₂.headD 0) := by
  have hb : b ∈ z.headers := hsub.subset (by simp)
  have := hg.header hb
  exact ⟨Nat.ne_of_gt ((hg.placed hsub hc).pos b (by simp)).1, hv.sub (by omega) (by omega),
    hlist.prev, hlist.next⟩

/-- Dropping the middle node leaves a sublist. -/
theorem sublist_drop_middle {l hs : List ℕ} (h : (l₁ ++ x :: l).Sublist hs) :
    (l₁ ++ l).Sublist hs :=
  (List.Sublist.append_left (List.sublist_cons_self _ _) _).trans h

/-- `remove_block` closes a cut between two runs of headers. -/
theorem Geometry.wp_closeCut (hg : Geometry z bs es) (hv : s.Valid z.addr z.len)
    (hc : c = listCell z.addr type) (hfront : Front blockLinks s.mem c l₁ n)
    (hback : Segment blockLinks s.mem p l₂ 0) (hsub : (l₁ ++ l₂).Sublist z.headers)
    (hold : old.Links s (l₁.getLastD 0) (l₂.headD 0))
    (hoff : old.Off (linkBytes blockLinks c (l₁ ++ l₂))) :
    wp (removeBlock z.addr old type) (fun _ s' => s.Writes (linkBytes blockLinks c (l₁ ++ l₂)) s' ∧
      ListAt blockLinks s'.mem c (l₁ ++ l₂)) s := by
  obtain ⟨hlo, hhi⟩ := listCell_bounds hc
  have hpos := hg.pos
  exact FtMalloc.wp_closeCut (by omega) hc (hg.placed hsub hhi)
    (hg.listValid hv hsub (by omega) hhi) hfront hback hold hoff

/-- `replace_block` fills a cut between two runs of headers. -/
theorem Geometry.wp_fillCut (hg : Geometry z bs es) (hv : s.Valid z.addr z.len)
    (hc : c = listCell z.addr type) (hfront : Front blockLinks s.mem c l₁ n)
    (hback : Segment blockLinks s.mem p l₂ 0) (hsub : (l₁ ++ x :: l₂).Sublist z.headers)
    (hold : old.Links s (l₁.getLastD 0) (l₂.headD 0))
    (hoff : old.Off (linkBytes blockLinks c (l₁ ++ x :: l₂))) :
    wp (replaceBlock z.addr old x type) (fun _ s' =>
      s.Writes (linkBytes blockLinks c (l₁ ++ x :: l₂)) s' ∧
      ListAt blockLinks s'.mem c (l₁ ++ x :: l₂)) s := by
  obtain ⟨hlo, hhi⟩ := listCell_bounds hc
  have hpos := hg.pos
  exact FtMalloc.wp_fillCut (by omega) hc (hg.placed hsub hhi)
    (hg.listValid hv hsub (by omega) hhi) hfront hback hold hoff

/-- Deleting a node from a list of headers with its head at `c`. -/
theorem Geometry.wp_removeNode (hg : Geometry z bs es) (hv : s.Valid z.addr z.len)
    (hc : c = listCell z.addr type) (hlist : ListAt blockLinks s.mem c (l₁ ++ b :: l₂))
    (hsub : (l₁ ++ b :: l₂).Sublist z.headers) :
    wp (removeBlock z.addr (.heap b) type) (fun _ s' =>
      s.Writes (linkBytes blockLinks c (l₁ ++ l₂)) s' ∧
      ListAt blockLinks s'.mem c (l₁ ++ l₂)) s := by
  obtain ⟨hlo, hhi⟩ := listCell_bounds hc
  have hsub' := sublist_drop_middle hsub
  have hb : b ∈ z.headers := hsub.subset (by simp)
  obtain ⟨hfront, -, -, hback⟩ := listAt_append_cons.mp hlist
  exact hg.wp_closeCut hv hc hfront hback hsub' (hg.links hv hlist hsub hhi)
    (hg.off_heap hb hhi (fun a ha => hsub'.subset ha) (hg.notMem hsub))

/-- Replacing the node `b` of a list of headers with its head at `c` by `x`. -/
theorem Geometry.wp_replaceNode (hg : Geometry z bs es) (hv : s.Valid z.addr z.len)
    (hc : c = listCell z.addr type) (hlist : ListAt blockLinks s.mem c (l₁ ++ b :: l₂))
    (hsub : (l₁ ++ b :: l₂).Sublist z.headers) (hsub' : (l₁ ++ x :: l₂).Sublist z.headers)
    (hbx : b ≠ x) :
    wp (replaceBlock z.addr (.heap b) x type) (fun _ s' =>
      s.Writes (linkBytes blockLinks c (l₁ ++ x :: l₂)) s' ∧
      ListAt blockLinks s'.mem c (l₁ ++ x :: l₂)) s := by
  obtain ⟨hlo, hhi⟩ := listCell_bounds hc
  have hb : b ∈ z.headers := hsub.subset (by simp)
  obtain ⟨hfront, -, -, hback⟩ := listAt_append_cons.mp hlist
  have hbl : b ∉ l₁ ++ x :: l₂ := by
    have := hg.notMem hsub
    simp_all
  exact hg.wp_fillCut hv hc hfront hback hsub' (hg.links hv hlist hsub hhi)
    (hg.off_heap hb hhi (fun a ha => hsub'.subset ha) hbl)

/-- Inserting `x` into a list of headers with its head at `c`. -/
theorem Geometry.wp_insertNode (hg : Geometry z bs es) (hv : s.Valid z.addr z.len)
    (hc : c = listCell z.addr type) (hlist : ListAt blockLinks s.mem c (l₁ ++ l₂))
    (hsub : (l₁ ++ x :: l₂).Sublist z.headers) :
    wp (insertSorted c x) (fun _ s' => s.Writes (linkBytes blockLinks c (l₁ ++ x :: l₂)) s' ∧
      ListAt blockLinks s'.mem c (l₁ ++ x :: l₂)) s := by
  obtain ⟨hlo, hhi⟩ := listCell_bounds hc
  obtain ⟨hlow, hhigh⟩ := hg.ordered hsub
  exact wp_insertCut hlist (hg.placed hsub hhi) (hg.listValid hv hsub (by omega) hhi) hlow hhigh

/-- List edits write header bytes. -/
theorem Geometry.writes_headers {s' : Heap} (hc : c = listCell z.addr type)
    (hl : l.Sublist z.headers) (hw : s.Writes (linkBytes blockLinks c l) s') :
    s.Writes (headerBytes z.addr z.headers) s' := by
  obtain ⟨hlo, hhi⟩ := listCell_bounds hc
  exact hw.mono (linkBytes_subset (by omega) hhi hl.subset)

/-- Deleting a block. -/
theorem ZoneAt.wp_removeBlock (h : ZoneAt s.mem z num rem (bs₁ ++ b :: bs₂) es)
    (hv : s.Valid z.addr z.len) :
    wp (removeBlock z.addr (.heap b) .block) (fun _ s' =>
      s.Writes (headerBytes z.addr z.headers) s' ∧ ZoneAt s'.mem z num rem (bs₁ ++ bs₂) es) s := by
  have hsub := sublist_drop_middle h.geo.blocks
  refine wp_mono (h.geo.wp_removeNode hv rfl h.blocks h.geo.blocks) fun _ s' hpost => ?_
  obtain ⟨hw, hlist⟩ := hpost
  refine ⟨Geometry.writes_headers rfl hsub hw, h.relistBlocks hlist hw.agreeOff hsub ?_⟩
  exact fun a ha => h.geo.disjoint a (by
    rcases List.mem_append.mp ha with ha | ha <;> simp [ha])

/-- Inserting a block. -/
theorem ZoneAt.wp_insertBlock (h : ZoneAt s.mem z num rem (bs₁ ++ bs₂) es)
    (hv : s.Valid z.addr z.len) (hsub : (bs₁ ++ x :: bs₂).Sublist z.headers) (hx : x ∉ es) :
    wp (insertSorted (z.addr + 48) x) (fun _ s' =>
      s.Writes (headerBytes z.addr z.headers) s' ∧
      ZoneAt s'.mem z num rem (bs₁ ++ x :: bs₂) es) s := by
  refine wp_mono (h.geo.wp_insertNode hv (listCell_block z.addr).symm h.blocks hsub)
    fun _ s' hpost => ?_
  obtain ⟨hw, hlist⟩ := hpost
  refine ⟨Geometry.writes_headers (listCell_block z.addr).symm hsub hw,
    h.relistBlocks hlist hw.agreeOff hsub fun a ha => ?_⟩
  by_cases hax : a = x
  · exact hax ▸ hx
  · exact h.geo.disjoint a (by simpa [hax] using ha)

/-- Replacing a block. -/
theorem ZoneAt.wp_replaceBlock (h : ZoneAt s.mem z num rem (bs₁ ++ b :: bs₂) es)
    (hv : s.Valid z.addr z.len) (hsub : (bs₁ ++ x :: bs₂).Sublist z.headers) (hx : x ∉ es)
    (hbx : b ≠ x) :
    wp (replaceBlock z.addr (.heap b) x .block) (fun _ s' =>
      s.Writes (headerBytes z.addr z.headers) s' ∧
      ZoneAt s'.mem z num rem (bs₁ ++ x :: bs₂) es) s := by
  refine wp_mono (h.geo.wp_replaceNode hv rfl h.blocks h.geo.blocks hsub hbx)
    fun _ s' hpost => ?_
  obtain ⟨hw, hlist⟩ := hpost
  refine ⟨Geometry.writes_headers rfl hsub hw, h.relistBlocks hlist hw.agreeOff hsub
    fun a ha => ?_⟩
  by_cases hax : a = x
  · exact hax ▸ hx
  · refine h.geo.disjoint a ?_
    rcases List.mem_append.mp ha with ha | ha
    · simp [ha]
    · simp [(List.mem_cons.mp ha).resolve_left hax]

/-- Deleting an empty space. -/
theorem ZoneAt.wp_removeEmpty (h : ZoneAt s.mem z num rem bs (es₁ ++ x :: es₂))
    (hv : s.Valid z.addr z.len) :
    wp (removeBlock z.addr (.heap x) .empty) (fun _ s' =>
      s.Writes (headerBytes z.addr z.headers) s' ∧ ZoneAt s'.mem z num rem bs (es₁ ++ es₂)) s := by
  have hsub := sublist_drop_middle h.geo.empties
  refine wp_mono (h.geo.wp_removeNode hv rfl h.empties h.geo.empties) fun _ s' hpost => ?_
  obtain ⟨hw, hlist⟩ := hpost
  refine ⟨Geometry.writes_headers rfl hsub hw,
    h.toZoneCore.relistEmpties hlist hw.agreeOff hsub fun a ha ha' => h.geo.disjoint a ha ?_⟩
  rcases List.mem_append.mp ha' with ha' | ha' <;> simp [ha']

/-- Inserting an empty space. -/
theorem ZoneAt.wp_insertEmpty (h : ZoneAt s.mem z num rem bs (es₁ ++ es₂))
    (hv : s.Valid z.addr z.len) (hsub : (es₁ ++ x :: es₂).Sublist z.headers) (hx : x ∉ bs) :
    wp (insertSorted (z.addr + 56) x) (fun _ s' =>
      s.Writes (headerBytes z.addr z.headers) s' ∧
      ZoneAt s'.mem z num rem bs (es₁ ++ x :: es₂)) s := by
  refine wp_mono (h.geo.wp_insertNode hv (listCell_empty z.addr).symm h.empties hsub)
    fun _ s' hpost => ?_
  obtain ⟨hw, hlist⟩ := hpost
  refine ⟨Geometry.writes_headers (listCell_empty z.addr).symm hsub hw,
    h.toZoneCore.relistEmpties hlist hw.agreeOff hsub fun a ha ha' => ?_⟩
  by_cases hax : a = x
  · exact hx (hax ▸ ha)
  · exact h.geo.disjoint a ha (by simpa [hax] using ha')

end Zone

end FtMalloc
