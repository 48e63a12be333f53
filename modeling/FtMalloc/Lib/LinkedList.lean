import FtMalloc.Lib.Bytes

/-!
# Doubly linked lists in a byte memory

Nodes are addresses; a node stores its two links at fixed offsets and zero is the null
link. `Segment` describes a run of linked nodes between a given predecessor and successor,
so that a list can be cut at any node, and `ListAt` is a whole list whose head is stored in
a cell. The two primitive edits redirect the link that enters a cut from the left
(`linkNext`) and the one that enters it from the right (`linkPrev`); insertion, removal and
replacement are compositions of them.
-/

namespace HeapLib

/-- Positions of the two links inside a node of a given width. -/
structure LinkLayout where
  prev : ℕ
  next : ℕ
  width : ℕ
  prev_le : prev + 8 ≤ next
  next_le : next + 8 ≤ width

variable {L : LinkLayout} {m m' : Memory} {c p q n v : ℕ} {l l₁ l₂ : List ℕ}

/-- Consecutive nodes linked both ways, entered from `p` and left towards `n`. -/
def Segment (L : LinkLayout) (m : Memory) (p : ℕ) : List ℕ → ℕ → Prop
  | [], _ => True
  | a :: as, n => word m (a + L.prev) = p ∧ word m (a + L.next) = as.headD n ∧ Segment L m a as n

/-- A null-terminated list whose head link is stored at `c`. -/
structure ListAt (L : LinkLayout) (m : Memory) (c : ℕ) (l : List ℕ) : Prop where
  head : word m c = l.headD 0
  seg : Segment L m 0 l 0

/-- The part of a list before a cut that is left towards `v`. -/
structure Front (L : LinkLayout) (m : Memory) (c : ℕ) (l : List ℕ) (v : ℕ) : Prop where
  head : word m c = l.headD v
  seg : Segment L m 0 l v

/-- Node addresses are non-null words and no two headers, nor the head cell, overlap. -/
structure Placed (L : LinkLayout) (c : ℕ) (l : List ℕ) : Prop where
  pos : ∀ a ∈ l, 0 < a ∧ a < 2 ^ 64
  spaced : l.Pairwise fun a b => a + L.width ≤ b ∨ b + L.width ≤ a
  cell : ∀ a ∈ l, c + 8 ≤ a ∨ a + L.width ≤ c

/-- Bytes that edits of the list may write: the head cell and the links of its nodes. -/
def linkBytes (L : LinkLayout) (c : ℕ) (l : List ℕ) : Set ℕ :=
  {x | (c ≤ x ∧ x < c + 8) ∨ ∃ a ∈ l, a + L.prev ≤ x ∧ x < a + L.next + 8}

/-- A placed list stays placed when nodes are dropped. -/
theorem Placed.sublist (h : Placed L c l) (hs : l₁.Sublist l) : Placed L c l₁ where
  pos := fun a ha => h.pos a (hs.subset ha)
  spaced := h.spaced.sublist hs
  cell := fun a ha => h.cell a (hs.subset ha)

/-- The part before a cut is placed. -/
theorem Placed.left (h : Placed L c (l₁ ++ l₂)) : Placed L c l₁ :=
  h.sublist (List.sublist_append_left _ _)

/-- The part after a cut is placed. -/
theorem Placed.right (h : Placed L c (l₁ ++ l₂)) : Placed L c l₂ :=
  h.sublist (List.sublist_append_right _ _)

/-- Distinct nodes are a full header apart. -/
theorem Placed.apart {a b : ℕ} (h : Placed L c l) (ha : a ∈ l) (hb : b ∈ l) (hne : a ≠ b) :
    a + L.width ≤ b ∨ b + L.width ≤ a := by
  have hsymm : Std.Symm fun a b : ℕ => a + L.width ≤ b ∨ b + L.width ≤ a := ⟨fun _ _ h => h.symm⟩
  exact h.spaced.forall ha hb hne

/-- The order of the nodes does not matter for their places. -/
theorem Placed.perm (h : Placed L c l₁) (hp : l₁.Perm l₂) : Placed L c l₂ where
  pos := fun a ha => h.pos a (hp.mem_iff.mpr ha)
  spaced := (hp.pairwise_iff fun hab => hab.symm).mp h.spaced
  cell := fun a ha => h.cell a (hp.mem_iff.mpr ha)

/-- A node in the middle may be put in front. -/
theorem Placed.toFront {b : ℕ} (h : Placed L c (l₁ ++ b :: l₂)) : Placed L c (b :: (l₁ ++ l₂)) :=
  h.perm List.perm_middle

/-- Placed nodes are distinct. -/
theorem Placed.nodup (h : Placed L c l) : l.Nodup := h.spaced.imp fun hab heq => by
  have := L.prev_le
  have := L.next_le
  omega

/-- There are fewer nodes than addresses. -/
theorem Placed.length_lt (h : Placed L c l) : l.length < 2 ^ 64 := by
  have hzero : (0 :: l).Nodup :=
    List.nodup_cons.mpr ⟨fun h0 => Nat.lt_irrefl 0 (h.pos 0 h0).1, h.nodup⟩
  have hsub : (0 :: l) ⊆ List.range (2 ^ 64) := by
    intro a ha
    rw [List.mem_range]
    rcases List.mem_cons.mp ha with rfl | ha
    · exact Nat.two_pow_pos 64
    · exact (h.pos a ha).2
  have hle := (List.subperm_of_subset hzero hsub).length_le
  rw [List.length_cons, List.length_range] at hle
  omega

/-- A segment splits at any cut. -/
theorem segment_append : Segment L m p (l₁ ++ l₂) n ↔
    Segment L m p l₁ (l₂.headD n) ∧ Segment L m (l₁.getLastD p) l₂ n := by
  induction l₁ generalizing p with
  | nil => simp [Segment]
  | cons a as ih =>
    have hhead : (as ++ l₂).headD n = as.headD (l₂.headD n) := by cases as <;> rfl
    simp only [List.cons_append, Segment, ih, hhead, List.getLastD_cons, and_assoc]

/-- A segment only depends on the links of its nodes. -/
theorem Segment.congr (h : Segment L m p l n)
    (hl : ∀ a ∈ l, word m' (a + L.prev) = word m (a + L.prev) ∧
      word m' (a + L.next) = word m (a + L.next)) : Segment L m' p l n := by
  induction l generalizing p with
  | nil => trivial
  | cons a as ih =>
    obtain ⟨hprev, hnext, hrest⟩ := h
    obtain ⟨hp, hn⟩ := hl a List.mem_cons_self
    exact ⟨hp.trans hprev, hn.trans hnext, ih hrest fun b hb => hl b (List.mem_cons_of_mem _ hb)⟩

/-- A change away from the links of a segment preserves it. -/
theorem Segment.agreeOff {S : Set ℕ} (h : Segment L m p l n) (hS : AgreeOff S m m')
    (hl : ∀ a ∈ l, ∀ x, a + L.prev ≤ x → x < a + L.next + 8 → x ∉ S) : Segment L m' p l n := by
  apply h.congr
  intro a ha
  have := L.prev_le
  exact ⟨hS.readLE_eq fun x hx hx' => hl a ha x (by omega) (by omega),
    hS.readLE_eq fun x hx hx' => hl a ha x (by omega) (by omega)⟩

/-- The two halves of a list around a cut. -/
theorem listAt_append : ListAt L m c (l₁ ++ l₂) ↔
    Front L m c l₁ (l₂.headD 0) ∧ Segment L m (l₁.getLastD 0) l₂ 0 := by
  have hhead : (l₁ ++ l₂).headD 0 = l₁.headD (l₂.headD 0) := by cases l₁ <;> rfl
  constructor
  · rintro ⟨hh, hs⟩
    rw [segment_append] at hs
    exact ⟨⟨hh.trans hhead, hs.1⟩, hs.2⟩
  · rintro ⟨⟨hh, hf⟩, hb⟩
    exact ⟨hh.trans hhead.symm, segment_append.mpr ⟨hf, hb⟩⟩

/-- A list around one of its nodes. -/
theorem listAt_append_cons {b : ℕ} : ListAt L m c (l₁ ++ b :: l₂) ↔
    Front L m c l₁ b ∧ word m (b + L.prev) = l₁.getLastD 0 ∧ word m (b + L.next) = l₂.headD 0 ∧
      Segment L m b l₂ 0 := by
  rw [listAt_append]
  rfl

/-- A change away from the head cell and the links preserves the list. -/
theorem ListAt.agreeOff {S : Set ℕ} (h : ListAt L m c l) (hS : AgreeOff S m m')
    (hl : ∀ x ∈ linkBytes L c l, x ∉ S) : ListAt L m' c l where
  head := (hS.readLE_eq fun x hx hx' => hl x (.inl ⟨hx, hx'⟩)).trans h.head
  seg := h.seg.agreeOff hS fun a ha x hx hx' => hl x (.inr ⟨a, ha, hx, hx'⟩)

/-- A change away from the head cell and the links preserves the front part. -/
theorem Front.agreeOff {S : Set ℕ} (h : Front L m c l v) (hS : AgreeOff S m m')
    (hl : ∀ x ∈ linkBytes L c l, x ∉ S) : Front L m' c l v where
  head := (hS.readLE_eq fun x hx hx' => hl x (.inl ⟨hx, hx'⟩)).trans h.head
  seg := h.seg.agreeOff hS fun a ha x hx hx' => hl x (.inr ⟨a, ha, hx, hx'⟩)

/-- The last node of a list, or the default, is a node exactly when it is not null. -/
theorem Placed.getLastD_eq_zero_iff (h : Placed L c l) : l.getLastD 0 = 0 ↔ l = [] := by
  rcases List.eq_nil_or_concat l with rfl | ⟨l', a, rfl⟩
  · simp
  · have := (h.pos a (by simp)).1
    rw [List.concat_eq_append, List.getLastD_concat]
    simp
    omega

/-- The last node, or null, is a word. -/
theorem Placed.getLastD_lt (h : Placed L c l) : l.getLastD 0 < 2 ^ 64 := by
  rcases List.eq_nil_or_concat l with rfl | ⟨l', a, rfl⟩
  · simp
  · rw [List.concat_eq_append, List.getLastD_concat]
    exact (h.pos a (by simp)).2

/-- The first node, or null, is a word. -/
theorem Placed.headD_lt (h : Placed L c l) : l.headD 0 < 2 ^ 64 := by
  cases l with
  | nil => simp
  | cons a as => exact (h.pos a List.mem_cons_self).2

/-- Redirect the link entering a cut from the left: the `next` of the predecessor `p`, or the
head cell when there is none. -/
def linkNext (L : LinkLayout) (m : Memory) (c p v : ℕ) : Memory :=
  if p = 0 then setWord m c v else setWord m (p + L.next) v

/-- Redirect the link entering a cut from the right: the `prev` of the successor `n`, if any. -/
def linkPrev (L : LinkLayout) (m : Memory) (n v : ℕ) : Memory :=
  if n = 0 then m else setWord m (n + L.prev) v

/-- `linkNext` writes only list bytes. -/
theorem agreeOff_linkNext (hP : Placed L c l) :
    AgreeOff (linkBytes L c l) m (linkNext L m c (l.getLastD 0) v) := by
  rcases List.eq_nil_or_concat l with rfl | ⟨l', a, rfl⟩
  · exact (AgreeOff.refl _ _).write fun x hx hx' => .inl ⟨hx, hx'⟩
  · have ha := (hP.pos a (by simp)).1
    have := L.prev_le
    rw [List.concat_eq_append, List.getLastD_concat, linkNext, if_neg (by omega)]
    exact (AgreeOff.refl _ _).write fun x hx hx' => .inr ⟨a, by simp, by omega, by omega⟩

/-- `linkPrev` writes only list bytes. -/
theorem agreeOff_linkPrev (hP : Placed L c l) :
    AgreeOff (linkBytes L c l) m (linkPrev L m (l.headD 0) v) := by
  cases l with
  | nil => exact AgreeOff.refl _ _
  | cons a as =>
    have ha := (hP.pos a List.mem_cons_self).1
    have := L.prev_le
    rw [List.headD_cons, linkPrev, if_neg (by omega)]
    exact (AgreeOff.refl _ _).write fun x hx hx' =>
      .inr ⟨a, List.mem_cons_self, by omega, by omega⟩

/-- Both edits of a cut write only bytes of a list containing its two sides. -/
theorem AgreeOff.relink {m₀ : Memory} {w : ℕ} (h : AgreeOff (linkBytes L c l) m₀ m)
    (hP : Placed L c l) (h₁ : l₁.Sublist l) (h₂ : l₂.Sublist l) :
    AgreeOff (linkBytes L c l) m₀
      (linkPrev L (linkNext L m c (l₁.getLastD 0) v) (l₂.headD 0) w) := by
  have hmono {k : List ℕ} (hk : k.Sublist l) : linkBytes L c k ⊆ linkBytes L c l := by
    rintro x (hx | ⟨a, ha, hx⟩)
    · exact .inl hx
    · exact .inr ⟨a, hk.subset ha, hx⟩
  exact (h.trans ((agreeOff_linkNext (hP.sublist h₁)).mono (hmono h₁))).trans
    ((agreeOff_linkPrev (hP.sublist h₂)).mono (hmono h₂))

/-- Redirecting the last link of a run. -/
theorem Segment.retarget {a w : ℕ} (h : Segment L m p (l ++ [a]) n) (hP : Placed L c (l ++ [a]))
    (hw : w < 2 ^ 64) : Segment L (setWord m (a + L.next) w) p (l ++ [a]) w := by
  have hnext := L.next_le
  have hprev := L.prev_le
  rw [segment_append] at h
  have hsp := (List.pairwise_append.mp hP.spaced).2.2
  refine segment_append.mpr ⟨h.1.congr fun b hb => ?_, ?_, readLE_writeLE_same hw, trivial⟩
  · -- the other nodes are a full header away from the last one
    have := hsp b hb a (by simp)
    exact ⟨readLE_writeLE_disjoint (by omega), readLE_writeLE_disjoint (by omega)⟩
  · rw [word, readLE_writeLE_disjoint (by omega)]
    exact h.2.1

/-- After `linkNext` the front part leaves towards the new target. -/
theorem Front.relink {w : ℕ} (h : Front L m c l v) (hP : Placed L c l) (hw : w < 2 ^ 64) :
    Front L (linkNext L m c (l.getLastD 0) w) c l w := by
  have hnext := L.next_le
  rcases List.eq_nil_or_concat l with rfl | ⟨l', a, rfl⟩
  · exact ⟨readLE_writeLE_same hw, trivial⟩
  · have ha := (hP.pos a (by simp)).1
    rw [List.concat_eq_append] at *
    rw [List.getLastD_concat, linkNext, if_neg (by omega)]
    have hcell := hP.cell a (by simp)
    refine ⟨?_, h.seg.retarget hP hw⟩
    rw [word, readLE_writeLE_disjoint (by omega)]
    refine h.head.trans ?_
    cases l' <;> rfl

/-- After `linkPrev` the back part is entered from the new source. -/
theorem Segment.relink (h : Segment L m p l 0) (hP : Placed L c l) (hq : q < 2 ^ 64) :
    Segment L (linkPrev L m (l.headD 0) q) q l 0 := by
  have hnext := L.next_le
  have hprev := L.prev_le
  cases l with
  | nil => trivial
  | cons a as =>
    have ha := (hP.pos a List.mem_cons_self).1
    rw [List.headD_cons, linkPrev, if_neg (by omega)]
    obtain ⟨-, hn, hrest⟩ := h
    have hsp := (List.pairwise_cons.mp hP.spaced).1
    refine ⟨readLE_writeLE_same hq, ?_, hrest.congr fun b hb => ?_⟩
    · rw [word, readLE_writeLE_disjoint (by omega)]
      exact hn
    · have := hsp b hb
      exact ⟨readLE_writeLE_disjoint (by omega), readLE_writeLE_disjoint (by omega)⟩

/-- The bytes written at the two sides of a cut do not meet. -/
theorem Placed.linkBytes_right (hP : Placed L c (l₁ ++ l₂)) {a x : ℕ} (ha : a ∈ l₂)
    (hx : a + L.prev ≤ x) (hx' : x < a + L.next + 8) : x ∉ linkBytes L c l₁ := by
  have hnext := L.next_le
  rintro (⟨h, h'⟩ | ⟨b, hb, h, h'⟩)
  · have := hP.cell a (List.mem_append_right _ ha)
    omega
  · have := (List.pairwise_append.mp hP.spaced).2.2 b hb a ha
    omega

/-- Rewriting the back part writes no byte of the front part. -/
theorem agreeOff_linkPrev_right (hP : Placed L c (l₁ ++ l₂)) :
    ∀ x ∈ linkBytes L c l₁, linkPrev L m (l₂.headD 0) q x = m x := by
  have hnext := L.next_le
  have hprev := L.prev_le
  intro x hx
  cases l₂ with
  | nil => rfl
  | cons a as =>
    have ha := (hP.pos a (by simp)).1
    rw [List.headD_cons, linkPrev, if_neg (by omega)]
    refine writeLE_apply_of_outside ?_
    by_contra hin
    exact hP.linkBytes_right (a := a) List.mem_cons_self (by omega) (by omega) hx

/-- Rewriting the back part keeps a run in the front part. -/
theorem Segment.keepFront (h : Segment L m p l₁ v) (hP : Placed L c (l₁ ++ l₂)) :
    Segment L (linkPrev L m (l₂.headD 0) q) p l₁ v := by
  have hprev := L.prev_le
  refine h.congr fun a ha => ?_
  have hin : ∀ x, a + L.prev ≤ x → x < a + L.next + 8 →
      linkPrev L m (l₂.headD 0) q x = m x :=
    fun x hx hx' => agreeOff_linkPrev_right hP x (.inr ⟨a, ha, hx, hx'⟩)
  exact ⟨readLE_congr fun i hi => hin _ (by omega) (by omega),
    readLE_congr fun i hi => hin _ (by omega) (by omega)⟩

/-- Rewriting the back part keeps the front part. -/
theorem Front.keep (h : Front L m c l₁ v) (hP : Placed L c (l₁ ++ l₂)) :
    Front L (linkPrev L m (l₂.headD 0) q) c l₁ v where
  head := (readLE_congr fun i hi => agreeOff_linkPrev_right hP _
    (.inl ⟨Nat.le_add_right _ _, by omega⟩)).trans h.head
  seg := h.seg.keepFront hP

/-- Rewriting the front part keeps the back part. -/
theorem Segment.keep (h : Segment L m p l₂ n) (hP : Placed L c (l₁ ++ l₂)) :
    Segment L (linkNext L m c (l₁.getLastD 0) v) p l₂ n :=
  h.agreeOff (agreeOff_linkNext hP.left) fun _ ha _ hx hx' => hP.linkBytes_right ha hx hx'

/-- The two edits of a cut write different words. -/
theorem linkPrev_linkNext_comm (hP : Placed L c (l₁ ++ l₂)) :
    linkPrev L (linkNext L m c (l₁.getLastD 0) v) (l₂.headD 0) q =
      linkNext L (linkPrev L m (l₂.headD 0) q) c (l₁.getLastD 0) v := by
  have hnext := L.next_le
  have hprev := L.prev_le
  cases l₂ with
  | nil => rfl
  | cons b bs =>
    have hb : b ≠ 0 := Nat.ne_of_gt (hP.pos b (by simp)).1
    have hcell := hP.cell b (by simp)
    simp only [linkPrev, linkNext, List.headD_cons, hb, if_false]
    rcases List.eq_nil_or_concat l₁ with rfl | ⟨l', a, rfl⟩
    · simp only [List.getLastD_nil, if_true]
      exact writeLE_comm (by omega)
    · rw [List.concat_eq_append] at hP ⊢
      have ha : a ≠ 0 := Nat.ne_of_gt (hP.pos a (by simp)).1
      have hab := (List.pairwise_append.mp hP.spaced).2.2 a (by simp) b (by simp)
      simp only [List.getLastD_concat, ha, if_false]
      exact writeLE_comm (by omega)

/-- The successor stored in a node. -/
theorem ListAt.next {a : ℕ} (h : ListAt L m c (l₁ ++ a :: l₂)) :
    word m (a + L.next) = l₂.headD 0 := (listAt_append_cons.mp h).2.2.1

/-- The predecessor stored in a node. -/
theorem ListAt.prev {a : ℕ} (h : ListAt L m c (l₁ ++ a :: l₂)) :
    word m (a + L.prev) = l₁.getLastD 0 := (listAt_append_cons.mp h).2.1

/-- Closing a cut: whatever stood between the two parts is dropped from the list. -/
theorem Front.close (hf : Front L m c l₁ v) (hb : Segment L m p l₂ 0)
    (hP : Placed L c (l₁ ++ l₂)) :
    ListAt L (linkPrev L (linkNext L m c (l₁.getLastD 0) (l₂.headD 0)) (l₂.headD 0)
      (l₁.getLastD 0)) c (l₁ ++ l₂) :=
  listAt_append.mpr ⟨(hf.relink hP.left hP.right.headD_lt).keep hP,
    (hb.keep hP).relink hP.right hP.left.getLastD_lt⟩

/-- Removing a node. -/
theorem ListAt.remove {b : ℕ} (h : ListAt L m c (l₁ ++ b :: l₂)) (hP : Placed L c (l₁ ++ b :: l₂)) :
    ListAt L (linkPrev L (linkNext L m c (l₁.getLastD 0) (l₂.headD 0)) (l₂.headD 0)
      (l₁.getLastD 0)) c (l₁ ++ l₂) := by
  obtain ⟨hf, -, -, hb⟩ := listAt_append_cons.mp h
  exact hf.close hb (hP.sublist (List.Sublist.append_left (List.sublist_cons_self _ _) _))

/-- Filling a cut with the node `b`, whose own links are already set. -/
theorem Front.fill {b : ℕ} (hf : Front L m c l₁ v) (hb : Segment L m p l₂ 0)
    (hprev : word m (b + L.prev) = l₁.getLastD 0) (hnext : word m (b + L.next) = l₂.headD 0)
    (hP : Placed L c (l₁ ++ b :: l₂)) :
    ListAt L (linkPrev L (linkNext L m c (l₁.getLastD 0) b) (l₂.headD 0) b) c (l₁ ++ b :: l₂) := by
  have hP' : Placed L c (l₁ ++ l₂) :=
    hP.sublist (List.Sublist.append_left (List.sublist_cons_self _ _) _)
  have hPb : Placed L c ([b] ++ l₂) := hP.right
  have hb64 := (hP.pos b (by simp)).2
  have := L.prev_le
  -- the links of `b` survive both edits
  have hoff : ∀ x, b + L.prev ≤ x → x < b + L.next + 8 →
      linkPrev L (linkNext L m c (l₁.getLastD 0) b) (l₂.headD 0) b x = m x := by
    intro x hx hx'
    have hfront := agreeOff_linkNext (m := m) (v := b) hP.left x
      (hP.linkBytes_right List.mem_cons_self hx hx')
    cases l₂ with
    | nil => exact hfront
    | cons a as =>
      have ha := (hP.pos a (by simp)).1
      have hsp := (List.pairwise_cons.mp hPb.spaced).1 a (by simp)
      have := L.next_le
      rw [List.headD_cons, linkPrev, if_neg (by omega), setWord,
        writeLE_apply_of_outside (by omega)]
      exact hfront
  refine listAt_append_cons.mpr ⟨(hf.relink hP.left hb64).keep hP', ?_, ?_,
    (hb.keep hP').relink hP'.right hb64⟩
  · exact (readLE_congr fun i hi => hoff _ (by omega) (by omega)).trans hprev
  · exact (readLE_congr fun i hi => hoff _ (by omega) (by omega)).trans hnext

/-- The links of a node in the middle are off the bytes of the other nodes. -/
theorem Placed.linkBytes_middle {b x : ℕ} (hP : Placed L c (l₁ ++ b :: l₂))
    (hx : x ∈ linkBytes L c (l₁ ++ l₂)) : ¬(b + L.prev ≤ x ∧ x < b + L.next + 8) := by
  have hnext := L.next_le
  obtain ⟨-, hpb, hcross⟩ := List.pairwise_append.mp hP.spaced
  rcases hx with hx | ⟨a, ha, hx, hx'⟩
  · have := hP.cell b (by simp)
    omega
  · rcases List.mem_append.mp ha with ha | ha
    · have := hcross a ha b List.mem_cons_self
      omega
    · have := (List.pairwise_cons.mp hpb).1 a ha
      omega

/-- Filling a cut with a node `b`, in a memory `m'` where its links have just been set. -/
theorem Front.splice {b : ℕ} (hf : Front L m c l₁ v) (hb : Segment L m p l₂ 0)
    (hP : Placed L c (l₁ ++ b :: l₂))
    (hS : AgreeOff {y | b + L.prev ≤ y ∧ y < b + L.next + 8} m m')
    (hprev : word m' (b + L.prev) = l₁.getLastD 0) (hnext : word m' (b + L.next) = l₂.headD 0) :
    ListAt L (linkPrev L (linkNext L m' c (l₁.getLastD 0) b) (l₂.headD 0) b) c (l₁ ++ b :: l₂) ∧
      AgreeOff (linkBytes L c (l₁ ++ b :: l₂)) m
        (linkPrev L (linkNext L m' c (l₁.getLastD 0) b) (l₂.headD 0) b) := by
  have hoff {k : List ℕ} (hk : ∀ a ∈ k, a ∈ l₁ ++ l₂) :
      ∀ a ∈ k, ∀ y, a + L.prev ≤ y → y < a + L.next + 8 →
        y ∉ {y | b + L.prev ≤ y ∧ y < b + L.next + 8} :=
    fun a ha y hy hy' => hP.linkBytes_middle (.inr ⟨a, hk a ha, hy, hy'⟩)
  have hfront : Front L m' c l₁ v :=
    ⟨(hS.readLE_eq fun y hy hy' => hP.linkBytes_middle (.inl ⟨hy, hy'⟩)).trans hf.head,
      hf.seg.agreeOff hS (hoff fun a ha => List.mem_append_left _ ha)⟩
  refine ⟨hfront.fill (hb.agreeOff hS (hoff fun a ha => List.mem_append_right _ ha)) hprev hnext
    hP, ?_⟩
  refine (hS.mono ?_).relink hP (List.sublist_append_left _ _)
    ((List.sublist_cons_self _ _).trans (List.sublist_append_right _ _))
  exact fun y hy => .inr ⟨b, by simp, hy.1, hy.2⟩

/-- Inserting a node into a cut between its own links in an address-ordered list. -/
theorem orderedInsert_eq_append {x : ℕ} (hl : l.Pairwise (· < ·)) (hx : x ∉ l) :
    ∃ l₁ l₂, l = l₁ ++ l₂ ∧ l.orderedInsert (· ≤ ·) x = l₁ ++ x :: l₂ ∧
      (∀ a ∈ l₁, a < x) ∧ ∀ a ∈ l₂, x < a := by
  induction l with
  | nil => exact ⟨[], [], rfl, rfl, fun a ha => absurd ha List.not_mem_nil,
      fun a ha => absurd ha List.not_mem_nil⟩
  | cons b bs ih =>
    obtain ⟨hb, hbs⟩ := List.pairwise_cons.mp hl
    obtain ⟨hxb, hxbs⟩ : x ≠ b ∧ x ∉ bs := by simpa using hx
    by_cases hle : x ≤ b
    · refine ⟨[], b :: bs, rfl, List.orderedInsert_cons_of_le _ bs hle,
        fun a ha => absurd ha List.not_mem_nil, fun a ha => ?_⟩
      rcases List.mem_cons.mp ha with rfl | ha
      · omega
      · have := hb a ha
        omega
    · obtain ⟨l₁, l₂, hl, heq, hlow, hhigh⟩ := ih hbs hxbs
      refine ⟨b :: l₁, l₂, by rw [hl]; rfl, ?_, ?_, hhigh⟩
      · rw [List.orderedInsert_of_not_le _ bs hle, heq]
        rfl
      · exact List.forall_mem_cons.mpr ⟨by omega, hlow⟩

/-! ## Walking along a list -/

/-- The nodes reached from `a` by following `next` until the null link. -/
def walk (L : LinkLayout) (m : Memory) : ℕ → ℕ → List ℕ
  | 0, _ => []
  | fuel + 1, a => if a = 0 then [] else a :: walk L m fuel (word m (a + L.next))

/-- Walking along a list visits its nodes. -/
theorem Segment.walk_eq {fuel : ℕ} (h : Segment L m p l 0) (hpos : ∀ a ∈ l, a ≠ 0)
    (hfuel : l.length < fuel) : walk L m fuel (l.headD 0) = l := by
  induction l generalizing p fuel with
  | nil =>
    cases fuel with
    | zero => rfl
    | succ fuel => exact if_pos rfl
  | cons a as ih =>
    cases fuel with
    | zero => omega
    | succ fuel =>
      obtain ⟨-, hnext, hrest⟩ := h
      have htail := ih hrest (fun b hb => hpos b (List.mem_cons_of_mem _ hb))
        (Nat.lt_of_succ_lt_succ hfuel)
      rw [List.headD_cons, walk, if_neg (hpos a List.mem_cons_self), hnext, htail]

/-! ## Lists whose head is not stored in the memory -/

/-- Pushing a node, whose own links are already set, in front. -/
theorem Segment.push {b : ℕ} (h : Segment L m p l 0) (hP : Placed L c (b :: l))
    (hprev : word m (b + L.prev) = 0) (hnext : word m (b + L.next) = l.headD 0) :
    Segment L (linkPrev L m (l.headD 0) b) 0 (b :: l) 0 := by
  have hb : Segment L m 0 [b] (l.headD 0) := ⟨hprev, hnext, trivial⟩
  have hP' : Placed L c ([b] ++ l) := hP
  exact segment_append.mpr ⟨hb.keepFront hP', h.relink hP'.right (hP.pos b List.mem_cons_self).2⟩

/-- Unlinking a node; the head is redirected elsewhere when the node is the first one. -/
theorem Segment.unlink {b : ℕ} (h : Segment L m 0 (l₁ ++ b :: l₂) 0)
    (hP : Placed L c (l₁ ++ b :: l₂)) :
    Segment L (linkPrev L (if l₁.getLastD 0 = 0 then m else
      setWord m (l₁.getLastD 0 + L.next) (l₂.headD 0)) (l₂.headD 0) (l₁.getLastD 0)) 0
      (l₁ ++ l₂) 0 := by
  have hP' : Placed L c (l₁ ++ l₂) :=
    hP.sublist (List.Sublist.append_left (List.sublist_cons_self _ _) _)
  obtain ⟨hfront, -, -, hback⟩ := segment_append.mp h
  rcases List.eq_nil_or_concat l₁ with rfl | ⟨l', a, rfl⟩
  · exact hback.relink hP'.right (Nat.two_pow_pos 64)
  · rw [List.concat_eq_append] at *
    have ha := hP.pos a (by simp)
    rw [List.getLastD_concat, if_neg (by omega)]
    refine segment_append.mpr ⟨(hfront.retarget hP'.left hP'.right.headD_lt).keepFront hP', ?_⟩
    rw [List.getLastD_concat]
    refine Segment.relink (p := b) ?_ hP'.right ha.2
    have hL := L.next_le
    have hL' := L.prev_le
    refine hback.congr fun d hd => ?_
    have := (List.pairwise_append.mp hP'.spaced).2.2 a (by simp) d hd
    exact ⟨readLE_writeLE_disjoint (by omega), readLE_writeLE_disjoint (by omega)⟩

end HeapLib
