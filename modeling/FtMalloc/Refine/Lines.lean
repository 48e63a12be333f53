import FtMalloc.Refine.Files

/-!
# What reading a line does

The text that `temp` keeps for a descriptor and the bytes that are still to be read are the rest of
the file. A call of `get_next_line` takes its first line, in whatever pieces `read` delivers it.
-/

namespace FtMalloc

open HeapLib

variable {P : Platform} {K : Kernel P} {L : Limits} {w w' w'' : World} {s : Heap} {C : Store UInt8}
  {u v bs rest : List UInt8} {p q r i n : ℕ} {fd : ℤ} {α : Type}

/-! ## Steps of the heap -/

/-- What a call leaves that makes a block which starts with `bs`. -/
structure World.Made (P : Platform) (C : Store UInt8) (bs : List UInt8) (w : World) (r : ℕ)
    (w' : World) : Prop where
  sound : w'.heap.Sound P
  makes : C.Makes bs r w'.heap.client
  kept : w.Kept w'

/-- Reading a byte of a text in the heap. -/
theorem Heap.Sound.wp_loadChar {Q : ℕ → Heap → Prop} (h : s.Sound P)
    (ht : (Text.heap p).Spells s.client u) (hi : i ≤ u.length) :
    wp (load 1 (p + i)) Q s ↔ Q (u.getD i 0).toNat s := ht.wp_get h hi

/-- `free` of a block. -/
theorem Heap.Sound.wp_freeBlock (h : s.Sound P) (hs : s.client = C.put p bs) (hp : C p = none) :
    wp (free P p) (fun _ s' => s'.Sound P ∧ s'.client = C) s := by
  refine wp_mono (h.wp_free p) ?_
  rintro _ s' ⟨hsound, hclient⟩
  rw [hs, Store.drop_put_of_none hp] at hclient
  exact ⟨hsound, hclient⟩

/-- `free` of what a request has got. -/
theorem Heap.Sound.wp_freeMade (h : s.Sound P) (hs : C.Makes bs p s.client) :
    wp (free P p) (fun _ s' => s'.Sound P ∧ s'.client = C) s := by
  generalize hD : s.client = D at hs
  cases hs with
  | refused =>
    rw [← hD]
    exact h.wp_freeNull
  | made _ hfresh rest => exact h.wp_freeBlock hD hfresh

namespace World

/-- `ft_calloc`. -/
theorem wp_request (h : w.heap.Sound P) (hs : w.heap.client = C) (n : ℕ) :
    wp (request K n 1) (fun r w' => w.Made P C (List.replicate (n % 2 ^ 64) 0) r w' ∧
      (r = null → w'.refused = true)) w := by
  rw [request, wp_onTask]
  refine wp_mono (h.wp_ftCalloc (w := w.toTask) hs n 1) ?_
  rintro r t ⟨hsound, hmakes, hrefused⟩
  rw [Nat.mul_one] at hmakes
  refine ⟨⟨hsound, hmakes, rfl, rfl, fun hw => ?_⟩, fun hr => ?_⟩
  · rw [hrefused, hw, Bool.true_or]
  · rw [hrefused, decide_eq_true hr, Bool.or_true]

/-- Bytes of a string that are no newline. -/
theorem takeWhile_line (hu : 0 ∉ u) :
    (u.takeWhile fun b => b.toNat ≠ 0 && b.toNat ≠ 10) = u.takeWhile fun b => b ≠ 10 := by
  refine takeWhile_congr fun b hb => ?_
  have hzero : b.toNat ≠ 0 := fun hz =>
    hu (UInt8.toNat_inj.mp (hz.trans UInt8.toNat_zero.symm) ▸ hb)
  have hten : b.toNat = 10 ↔ b = 10 := UInt8.toNat_inj (b := 10)
  simp only [hzero, ne_eq, not_false_eq_true, decide_true, Bool.true_and, hten]

/-- The byte behind the others of the first line. -/
theorem getD_newline : u.getD (u.takeWhile fun b => b ≠ 10).length 0 = if 10 ∈ u then 10 else 0 := by
  by_cases hmem : 10 ∈ u
  · have hdrop := drop_takeWhile u 0 fun b => b ≠ 10
    rw [List.drop_zero, Nat.zero_add, exists_separator hmem] at hdrop
    rw [if_pos hmem, List.getD_eq_getElem?_getD, ← List.head?_drop, hdrop]
    rfl
  · have hall : u.takeWhile (fun b => b ≠ 10) = u :=
      List.takeWhile_eq_self_iff.mpr fun b hb => decide_eq_true fun heq => hmem (heq ▸ hb)
    rw [if_neg hmem, hall, List.getD_eq_default _ _ (Nat.le_refl _)]

/-- The bytes behind the newline are copied. -/
theorem wp_copyBehind (h : s.Sound P) (hs : s.client = C.put r bs) (hr : C r = none)
    (ht : (Text.heap p).Spells C u) (hi : i < u.length) (hfit : (u.drop (i + 1)).length ≤ bs.length)
    (hn : u.length + 1 < 2 ^ 31) : wp (copyBehind p r i) (fun _ s' => s'.Sound P ∧
      s'.client = C.put r (u.drop (i + 1) ++ bs.drop (u.drop (i + 1)).length)) s := by
  have hlen : (u.drop (i + 1)).length = u.length - (i + 1) := List.length_drop
  rw [copyBehind, wp_bind, wp_intSucc (by omega), ← splice_zero]
  refine h.wp_fill (u.drop (i + 1)) (i := 0) (fun k => (i + 1 + k, k)) hs (by omega) (by omega)
    ?_ ?_
  · intro k hk s' hsound hclient R hR
    have hbyte : u.getD (i + 1 + k) 0 = (u.drop (i + 1))[k] := by
      rw [List.getD_eq_getElem _ _ (by omega), List.getElem_drop]
    have hne : (u.getD (i + 1 + k) 0).toNat ≠ 0 := by
      rw [ne_eq, toNat_getD_eq_zero ht.noNul (by omega)]
      omega
    rw [wp_bind, hsound.wp_loadChar (ht.of_put hr hclient) (by omega), wp_ite_pos hne, wp_bind,
      hbyte]
    rw [Nat.zero_add] at hR
    refine wp_mono hR fun _ s'' hrest => ?_
    rwa [wp_bind, wp_intSucc (by omega), wp_bind, wp_intSucc (by omega), wp_pure]
  · intro s' hsound hclient
    have hend : ¬(u.getD (i + 1 + (u.drop (i + 1)).length) 0).toNat ≠ 0 := by
      rw [not_not, toNat_getD_eq_zero ht.noNul (by omega)]
      omega
    rw [wp_bind, hsound.wp_loadChar (ht.of_put hr hclient) (by omega), wp_ite_neg hend, wp_pure]
    exact ⟨hsound, hclient⟩

/-- `order_nl` gives up the text for a block with what is behind its first line. Without a newline
there is none. -/
theorem wp_orderNl (h : w.heap.Sound P) (hs : w.heap.client = C.put p (u ++ [0] ++ rest))
    (hp : C p = none) (hu : 0 ∉ u) (hn : u.length + 1 < 2 ^ 31) :
    wp (orderNl K p) (fun r w' => w.Made P C (afterLine 10 u ++ [0]) r w' ∧
      (r = null → 10 ∈ u → w'.refused = true)) w := by
  have hat : w.heap.client p = some (u ++ [0] ++ rest) := by rw [hs, Store.put_same]
  have ht : (Text.heap p).Spells w.heap.client u := Text.spells_block hu (by omega) hat
  have hle : (u.takeWhile fun b => b ≠ 10).length ≤ u.length :=
    (u.takeWhile_sublist _).length_le
  have hdrop := drop_takeWhile u 0 fun b => b ≠ 10
  rw [List.drop_zero, Nat.zero_add] at hdrop
  have hfree {w₁ : World} (hsound : w₁.heap.Sound P)
      (hclient : w₁.heap.client = C.put p (u ++ [0] ++ rest)) (hkept : w.Kept w₁) :
      wp (do onHeap (free P p); return null : W ℕ) (fun r w' =>
        (w.Made P C (afterLine 10 u ++ [0]) r w' ∧ r = null) ∧ w'.refused = w₁.refused) w₁ := by
    rw [wp_bind, wp_onHeap]
    refine wp_mono (hsound.wp_freeBlock hclient hp) ?_
    rintro _ s' ⟨hsound', hclient'⟩
    rw [wp_pure]
    refine ⟨⟨⟨hsound', ?_, hkept.trans (w₁.kept_heap s')⟩, rfl⟩, rfl⟩
    rw [hclient']
    exact .refused
  rw [orderNl, wp_bind, wp_onHeap, h.wp_skipWhile ht (by decide) (by omega) (Nat.zero_le _),
    List.drop_zero, takeWhile_line hu, Nat.zero_add, wp_bind, wp_onHeap, h.wp_loadChar ht hle]
  by_cases hmem : 10 ∈ u
  · have hsep := hdrop.trans (exists_separator hmem)
    generalize (u.takeWhile fun b => b ≠ 10).length = i at hsep hle
    have hlt : i < u.length := by
      have := congrArg List.length hsep
      rw [List.length_drop, List.length_cons] at this
      omega
    rw [List.drop_eq_getElem_cons hlt] at hsep
    obtain ⟨hten, hafter⟩ := List.cons.inj hsep
    have hlen : (afterLine 10 u).length + (i + 1) = u.length := by
      rw [← hafter, List.length_drop]
      omega
    have hnz : ¬(u.getD i 0).toNat = 0 := by
      rw [List.getD_eq_getElem _ _ hlt, hten]
      decide
    rw [wp_ite_neg hnz, wp_bind, wp_onHeap, h.wp_ftStrlen ht, wp_bind]
    refine wp_mono (wp_request h hs _) ?_
    rintro r w₁ ⟨⟨hsound, hmakes, hkept⟩, hrefused⟩
    rw [Nat.mod_eq_of_lt (by omega)] at hmakes
    generalize hD : w₁.heap.client = D at hmakes
    cases hmakes with
    | refused =>
      have hnull : 0 = null := rfl
      rw [wp_ite_pos hnull]
      refine wp_mono (hfree hsound hD hkept) ?_
      rintro r' w' ⟨⟨hmade, -⟩, href⟩
      exact ⟨hmade, fun _ _ => href.trans (hrefused rfl)⟩
    | made hr hfresh rest' =>
      have hne : r ≠ null := hr
      have hrp : p ≠ r := fun heq => by
        rw [← heq, Store.put_same] at hfresh
        cases hfresh
      have ht' : (Text.heap p).Spells (C.put p (u ++ [0] ++ rest)) u :=
        Text.spells_block hu (by omega) Store.put_same
      rw [wp_ite_neg hne, wp_bind, wp_onHeap]
      refine wp_mono (wp_copyBehind hsound hD hfresh ht' hlt (by simp; omega) hn) ?_
      rintro _ s₂ ⟨hsound₂, hclient₂⟩
      rw [hafter, ← Store.put_comm hrp.symm] at hclient₂
      rw [wp_bind, wp_onHeap]
      refine wp_mono (hsound₂.wp_freeBlock hclient₂ (by rwa [Store.put_of_ne hrp])) ?_
      rintro _ s₃ ⟨hsound₃, hclient₃⟩
      rw [wp_pure]
      refine ⟨⟨hsound₃, ?_, hkept.trans (w₁.kept_heap s₃)⟩, fun heq => absurd heq hne⟩
      have hroom : (List.replicate (u.length - i + 1) 0 ++ rest').drop (afterLine 10 u).length =
          [0] ++ (0 :: rest') := by
        have hsize : u.length - i + 1 = (afterLine 10 u).length + 2 := by omega
        rw [hsize, List.replicate_add, List.append_assoc, List.drop_left' List.length_replicate]
        rfl
      rw [Store.put_of_ne hrp.symm] at hfresh
      rw [hclient₃, hroom, ← List.append_assoc]
      exact .made hr hfresh _
  · have hall : u.takeWhile (fun b => b ≠ 10) = u :=
      List.takeWhile_eq_self_iff.mpr fun b hb => decide_eq_true fun heq => hmem (heq ▸ hb)
    rw [hall, wp_ite_pos ((toNat_getD_eq_zero hu (Nat.le_refl _)).mpr rfl)]
    refine wp_mono (hfree h hs (w.kept_heap _)) ?_
    rintro r w' ⟨⟨hmade, -⟩, -⟩
    exact ⟨hmade, fun _ habs => absurd habs hmem⟩

/-- The `len` of `substr_nl` is that of the first line. -/
theorem wp_lineLen {Q : ℕ → Heap → Prop} (h : s.Sound P) (ht : (Text.heap p).Spells s.client u) :
    wp (lineLen p) Q s ↔ Q (firstLine 10 u).length s := by
  have hbound := ht.bound
  have hle : (u.takeWhile fun b => b ≠ 10).length ≤ u.length :=
    (u.takeWhile_sublist _).length_le
  refine wp_of_run (run_of_wp ?_)
  rw [lineLen, wp_bind]
  refine wp_mono (wp_forever (Q := fun j s' => j = (u.takeWhile fun b => b ≠ 10).length ∧ s' = s)
    (fun n j s' => s' = s ∧ j + n = (u.takeWhile fun b => b ≠ 10).length) ?_
    (n := (u.takeWhile fun b => b ≠ 10).length) (by omega) ⟨rfl, Nat.zero_add _⟩) ?_
  · rintro n j _ ⟨rfl, hj⟩
    rw [wp_bind, h.wp_loadChar ht (by omega)]
    by_cases hlt : j < (u.takeWhile fun b => b ≠ 10).length
    · have hbyte : u.getD j 0 = (u.takeWhile fun b => b ≠ 10)[j] := by
        rw [List.getD_eq_getElem _ _ (by omega)]
        exact (List.IsPrefix.getElem (List.takeWhile_prefix _) hlt).symm
      have hne : u.getD j 0 ≠ 10 := by
        rw [hbyte]
        simpa using List.mem_takeWhile_imp (List.getElem_mem hlt)
      have hmore : (u.getD j 0).toNat ≠ 0 ∧ (u.getD j 0).toNat ≠ 10 := by
        refine ⟨?_, fun heq => hne (UInt8.toNat_inj.mp heq)⟩
        rw [ne_eq, toNat_getD_eq_zero ht.noNul (by omega)]
        omega
      rw [wp_ite_pos hmore, wp_pure, Nat.mod_eq_of_lt (by omega)]
      exact ⟨n - 1, by omega, rfl, by omega⟩
    · obtain rfl : n = 0 := by omega
      rw [Nat.add_zero] at hj
      have hend : ¬((u.getD j 0).toNat ≠ 0 ∧ (u.getD j 0).toNat ≠ 10) := by
        rw [hj, getD_newline]
        split <;> decide
      rw [wp_ite_neg hend, wp_pure]
      exact ⟨hj, rfl⟩
  · rintro _ _ ⟨rfl, rfl⟩
    rw [wp_bind, h.wp_loadChar ht hle, getD_newline]
    by_cases hmem : 10 ∈ u
    · have hlt := (prefix_firstLine 10 u).length_le
      rw [firstLine_of_mem hmem, List.length_append, List.length_singleton] at hlt ⊢
      rw [if_pos hmem, wp_ite_pos (by decide), wp_pure, Nat.mod_eq_of_lt (by omega)]
      exact ⟨rfl, rfl⟩
    · have hall : u.takeWhile (fun b => b ≠ 10) = u :=
        List.takeWhile_eq_self_iff.mpr fun b hb => decide_eq_true fun heq => hmem (heq ▸ hb)
      rw [if_neg hmem, wp_ite_neg (by decide), wp_pure, (firstLine_of_notMem hmem).1, hall]
      exact ⟨rfl, rfl⟩

/-- `substr_nl` makes the first line, unless the text is empty. -/
theorem wp_substrNl (h : w.heap.Sound P) (hs : w.heap.client = C)
    (ht : (Text.heap p).Spells C u) : wp (substrNl K p) (fun r w' =>
      w.Made P C (firstLine 10 u ++ [0]) r w' ∧ (r = null → u = [] ∨ w'.refused = true) ∧
        (u = [] → r = null)) w := by
  have hbound := ht.bound
  have hfirst := (prefix_firstLine 10 u).length_le
  have hzero := toNat_getD_eq_zero ht.noNul (Nat.zero_le _)
  rw [substrNl, wp_bind, wp_onHeap]
  refine (h.wp_loadChar (i := 0) (hs ▸ ht) (Nat.zero_le _)).mpr ?_
  by_cases hu : u = []
  · subst hu
    rw [wp_ite_pos (hzero.mpr rfl), wp_pure]
    refine ⟨⟨h, ?_, w.kept_heap _⟩, fun _ => .inl rfl, fun _ => rfl⟩
    rw [hs]
    exact .refused
  · have hpos := List.length_pos_iff.mpr hu
    rw [wp_ite_neg (by rw [hzero]; omega), wp_bind, wp_onHeap, wp_lineLen h (hs ▸ ht), wp_bind,
      Nat.mod_eq_of_lt (by omega)]
    refine wp_mono (wp_request h hs _) ?_
    rintro r w₁ ⟨⟨hsound, hmakes, hkept⟩, hrefused⟩
    rw [Nat.mod_eq_of_lt (by omega)] at hmakes
    generalize hD : w₁.heap.client = D at hmakes
    cases hmakes with
    | refused =>
      have hnull : 0 = null := rfl
      rw [wp_ite_pos hnull, wp_pure]
      refine ⟨⟨hsound, ?_, hkept⟩, fun _ => .inr (hrefused rfl), fun heq => absurd heq hu⟩
      rw [hD]
      exact .refused
    | made hr hfresh rest =>
      have hne : r ≠ null := hr
      have htake : u.take ((firstLine 10 u).length + 1 - 1) = firstLine 10 u := by
        rw [Nat.add_sub_cancel]
        exact (List.prefix_iff_eq_take.mp (prefix_firstLine 10 u)).symm
      rw [wp_ite_neg hne, wp_bind, wp_onHeap]
      refine wp_mono (hsound.wp_ftStrlcpy (i := 0) hD hfresh ht (Nat.succ_pos _)
        (by rw [htake]; simp)) ?_
      rintro _ s₂ ⟨-, hsound₂, hclient₂⟩
      rw [htake, splice_zero] at hclient₂
      rw [wp_pure]
      refine ⟨⟨hsound₂, ?_, hkept.trans (w₁.kept_heap s₂)⟩, fun heq => absurd heq hne,
        fun heq => absurd heq hu⟩
      rw [hclient₂]
      exact .made hr hfresh _

/-- The `s1` of `strjoin_nl` is a text also when there was none. -/
theorem wp_joinHead (h : w.heap.Sound P) (hs : C.Makes (u ++ [0]) p w.heap.client)
    (hnull : p = null → u = []) : wp (joinHead K p) (fun r w' =>
      w.Made P C (u ++ [0]) r w' ∧ (r = null → w'.refused = true)) w := by
  rw [joinHead]
  generalize hD : w.heap.client = D at hs
  cases hs with
  | refused =>
    have hzero : 0 = null := rfl
    obtain rfl := hnull rfl
    rw [wp_ite_pos hzero]
    exact wp_request h hD 1
  | made hp hfresh rest =>
    have hne : p ≠ null := hp
    rw [wp_ite_neg hne, wp_pure]
    refine ⟨⟨h, ?_, w.kept_heap _⟩, fun heq => absurd heq hne⟩
    rw [hD]
    exact .made hp hfresh rest

/-- `strjoin_nl` gives up the first text for a block with both. -/
theorem wp_strjoinNl (h : w.heap.Sound P) (hs : C.Makes (u ++ [0]) p w.heap.client)
    (hnull : p = null → u = []) (hu : 0 ∉ u) (ht : (Text.heap q).Spells C v)
    (hlen : u.length + v.length + 1 < 2 ^ 64) : wp (strjoinNl K p q) (fun r w' =>
      w.Made P C (u ++ v ++ [0]) r w' ∧ (r = null → w'.refused = true)) w := by
  have hq : q ≠ null := of_decide_eq_false ((ht.mono hs.sub).isNull h)
  rw [strjoinNl, wp_bind]
  refine wp_mono (wp_joinHead h hs hnull) ?_
  rintro p w₁ ⟨⟨hsound, hmakes, hkept⟩, hrefused⟩
  generalize hD : w₁.heap.client = D at hmakes
  cases hmakes with
  | refused =>
    have hzero : 0 = null := rfl
    rw [wp_ite_pos hzero, wp_pure]
    exact ⟨⟨hsound, hD ▸ .refused, hkept⟩, hrefused⟩
  | made hp hfresh rest₁ =>
    have hne : p ≠ null := hp
    have hhead : (Text.heap p).Spells (C.put p (u ++ [0] ++ rest₁)) u :=
      Text.spells_block hu (by omega) Store.put_same
    have htail : (Text.heap q).Spells (C.put p (u ++ [0] ++ rest₁)) v :=
      ht.mono (Store.sub_put hfresh)
    rw [wp_ite_neg hne, wp_ite_neg hq, wp_bind, wp_onHeap, hsound.wp_ftStrlen (hD ▸ hhead), wp_bind,
      wp_onHeap, hsound.wp_ftStrlen (hD ▸ htail), wp_bind, Nat.mod_eq_of_lt hlen,
      Nat.mod_eq_of_lt (by omega), Nat.mod_eq_of_lt (by omega)]
    refine wp_mono (wp_request hsound hD _) ?_
    rintro r w₂ ⟨⟨hsound₂, hmakes₂, hkept₂⟩, hrefused₂⟩
    rw [Nat.mod_eq_of_lt hlen] at hmakes₂
    generalize hE : w₂.heap.client = E at hmakes₂
    cases hmakes₂ with
    | refused =>
      have hzero : 0 = null := rfl
      rw [wp_ite_pos hzero, wp_bind, wp_onHeap]
      refine wp_mono (hsound₂.wp_freeBlock hE hfresh) ?_
      rintro _ s₃ ⟨hsound₃, hclient₃⟩
      rw [wp_pure]
      exact ⟨⟨hsound₃, hclient₃ ▸ .refused, (hkept.trans hkept₂).trans (w₂.kept_heap s₃)⟩,
        fun _ => hrefused₂ rfl⟩
    | made hr hfresh₂ rest₂ =>
      have hne₂ : r ≠ null := hr
      have hrp : r ≠ p := fun heq => by
        rw [heq, Store.put_same] at hfresh₂
        cases hfresh₂
      rw [wp_ite_neg hne₂, wp_bind, wp_onHeap]
      refine wp_mono (hsound₂.wp_copyTexts hE hfresh₂ hhead htail (by simp) (Q := fun s₃ =>
        s₃.Sound P ∧ ∃ rest, s₃.client =
          (C.put p (u ++ [0] ++ rest₁)).put r (u ++ v ++ [0] ++ rest))
        fun rest s₃ hsound₃ hclient₃ => ⟨hsound₃, rest, hclient₃⟩) ?_
      intro _ s₃ hcopied
      rw [wp_bind, wp_onHeap]
      refine wp_mono hcopied ?_
      rintro _ s₄ ⟨hsound₄, rest₃, hclient₄⟩
      rw [← Store.put_comm hrp] at hclient₄
      rw [Store.put_of_ne hrp] at hfresh₂
      rw [wp_bind, wp_onHeap]
      refine wp_mono (hsound₄.wp_freeBlock hclient₄ (by rwa [Store.put_of_ne hrp.symm])) ?_
      rintro _ s₅ ⟨hsound₅, hclient₅⟩
      rw [wp_pure]
      refine ⟨⟨hsound₅, ?_, (hkept.trans hkept₂).trans (w₂.kept_heap s₅)⟩,
        fun heq => absurd heq hne₂⟩
      rw [hclient₅]
      exact .made hr hfresh₂ rest₃

end World

/-- `ft_strchr` finds a newline if there is one. -/
theorem Heap.Sound.wp_ftStrchr (h : s.Sound P) (ht : p ≠ null → (Text.heap p).Spells s.client u)
    (hnull : p = null → u = []) (hn : u.length + 1 < 2 ^ 31) :
    wp (ftStrchr p 10) (fun r s' => s' = s ∧ (r = null ↔ 10 ∉ u)) s := by
  by_cases hp : p = null
  · rw [ftStrchr, wp_ite_pos hp, wp_pure, hnull hp]
    exact ⟨rfl, iff_of_true rfl List.not_mem_nil⟩
  · have htext := ht hp
    rw [ftStrchr, wp_ite_neg hp]
    refine wp_forever (fun n j s' => s' = s ∧ j + n = u.length ∧ 10 ∉ u.take j) ?_
      (n := u.length) (by omega) ⟨rfl, Nat.zero_add _, by simp⟩
    rintro n j _ ⟨rfl, hj, hbefore⟩
    rw [wp_bind, h.wp_loadChar htext (by omega)]
    by_cases hlt : j < u.length
    · have hne : (u.getD j 0).toNat ≠ 0 := by
        rw [ne_eq, toNat_getD_eq_zero htext.noNul (by omega)]
        omega
      have hbyte : u.getD j 0 = u[j] := List.getD_eq_getElem _ _ hlt
      have hchar : isChar u[j].toNat 10 = true ↔ u[j] = 10 := by
        rw [isChar, Bool.and_eq_true, decide_eq_true_iff, decide_eq_true_iff]
        constructor
        · exact fun hc => UInt8.toNat_inj.mp hc.2
        · intro heq
          rw [heq]
          decide
      rw [wp_ite_pos hne, hbyte]
      by_cases hten : u[j] = 10
      · rw [wp_ite_pos (hchar.mpr hten), wp_pure]
        refine ⟨rfl, iff_of_false (fun heq => hp ?_) (not_not.mpr (hten ▸ List.getElem_mem hlt))⟩
        simp only [null] at heq ⊢
        omega
      · rw [wp_ite_neg (hchar.not.mpr hten), wp_bind, wp_intSucc (by omega), wp_pure]
        refine ⟨n - 1, by omega, rfl, by omega, ?_⟩
        rw [← List.take_append_getElem hlt, List.mem_append, List.mem_singleton]
        rintro (hmem | heq)
        · exact hbefore hmem
        · exact hten heq.symm
    · rw [wp_ite_neg (by rw [not_not, toNat_getD_eq_zero htext.noNul (by omega)]; omega),
        List.getD_eq_default _ _ (by omega), wp_ite_neg (by decide), wp_pure]
      rw [List.take_of_length_le (by omega)] at hbefore
      exact ⟨rfl, iff_of_true rfl hbefore⟩

namespace World

variable {u' u'' : List UInt8} {count : ℕ}

/-! ## `read_nl` -/

/-- The loop of `read_nl` with the text `u'` and the buffer `q`. -/
structure Reading (P : Platform) (C : Store UInt8) (count i q : ℕ) (u : List UInt8) (w : World)
    (p : ℕ) (u' : List UInt8) (w' : World) : Prop where
  progress : Progress i u w u' w'
  sound : w'.heap.Sound P
  null : p = null → u' = []
  blocks : ∃ D bs, C.Makes (u' ++ [0]) p D ∧ D q = none ∧ w'.heap.client = D.put q bs ∧
    count + 1 ≤ bs.length

/-- What `read_nl` leaves: a text that has a newline, or the end of the file. -/
structure Gathered (P : Platform) (C : Store UInt8) (i : ℕ) (u : List UInt8) (w : World) (r : ℕ)
    (w' : World) : Prop where
  sound : w'.heap.Sound P
  text : ∃ u', Progress i u w u' w' ∧ (r = null → u' = []) ∧ C.Makes (u' ++ [0]) r w'.heap.client ∧
    (Plain (w.input i) → w'.refused = false → 10 ∈ u' ∨ content (w'.input i) = [])

/-- The loop ends with its text. -/
theorem Reading.leave {F : ℕ × ℤ → World → Prop} (h : Reading P C count i q u w p u' w')
    (hend : Plain (w.input i) → w'.refused = false → 10 ∈ u' ∨ content (w'.input i) = []) :
    wp (do onHeap (free P q); return (.inr p) : W ((ℕ × ℤ) ⊕ ℕ)) (fun r w'' =>
      r.elim (fun v => F v w'') fun a => Gathered P C i u w a w'') w' := by
  obtain ⟨D, bs, hmakes, hD, hclient, -⟩ := h.blocks
  rw [wp_bind, wp_onHeap]
  refine wp_mono (h.sound.wp_freeBlock hclient hD) ?_
  rintro _ s ⟨hsound, hclient'⟩
  rw [wp_pure]
  exact ⟨hsound, u', h.progress.kept (w'.kept_heap s), h.null, hclient' ▸ hmakes, hend⟩

/-- One round of the loop. -/
theorem wp_readMore {data : ℤ} (h : Reading P C L.bufferSize.toNat fd.toNat q u w p u' w')
    (hC : C q = none) (hdata : data ≠ 0) (hsize : 0 < L.bufferSize)
    (hn : u.length + (content (w.input fd.toNat)).length + 1 < 2 ^ 31) :
    wp (readMore K L q fd (p, data)) (fun r w'' => r.elim
      (fun v => v.2 ≠ 0 ∧ (content (w''.input fd.toNat)).length <
        (content (w'.input fd.toNat)).length ∧
          ∃ u'', Reading P C L.bufferSize.toNat fd.toNat q u w v.1 u'' w'')
      fun a => Gathered P C fd.toNat u w a w'') w' := by
  obtain ⟨D, bs, hmakes, hD, hclient, hlen⟩ := h.blocks
  have hshort := h.progress.short
  have hcount : 0 < L.bufferSize.toNat := by omega
  have ht : p ≠ null → (Text.heap p).Spells w'.heap.client u' := fun hp => by
    obtain ⟨rest, hrest⟩ := hmakes.at_ptr hp
    have hpq : p ≠ q := fun heq => by
      rw [heq, hD] at hrest
      cases hrest
    exact Text.spells_block h.progress.noNul (by omega)
      (by rw [hclient, Store.put_of_ne hpq, hrest])
  rw [readMore, wp_bind, wp_onHeap]
  refine wp_mono (h.sound.wp_ftStrchr ht h.null (by omega)) ?_
  rintro r _ ⟨rfl, hr⟩
  by_cases hmem : 10 ∈ u'
  · rw [wp_ite_neg (by rw [hr]; exact fun hand => hand.1 hmem)]
    exact h.leave fun _ _ => .inl hmem
  · rw [wp_ite_pos ⟨hr.mpr hmem, hdata⟩, wp_bind]
    refine wp_mono (wp_read h.sound hclient (by omega)) ?_
    rintro n w₁ ⟨hsound, hread, hans⟩
    cases hcase : (answer L.bufferSize.toNat (w'.input fd.toNat)).1 with
    | none =>
      rw [hcase] at hans
      obtain ⟨rfl, hclient₁⟩ := hans
      rw [wp_ite_pos rfl, wp_bind, wp_onHeap]
      refine wp_mono (hsound.wp_freeBlock hclient₁ hD) ?_
      rintro _ s₂ ⟨hsound₂, hclient₂⟩
      rw [wp_bind, wp_onHeap]
      refine wp_mono (hsound₂.wp_freeMade (hclient₂ ▸ hmakes)) ?_
      rintro _ s₃ ⟨hsound₃, hclient₃⟩
      rw [wp_pure]
      have hgone := h.progress.trans (hread.failed hcount h.progress.ends hcase)
      have hlost : Progress fd.toNat u w [] { w₁ with heap := s₃ } := hgone.kept (w₁.kept_heap s₃)
      have hnot : ¬Plain (w.input fd.toNat) := fun hp => by
        obtain ⟨-, bs, hbs, -⟩ := (h.progress.plain hp).answer hcount
        rw [hcase] at hbs
        cases hbs
      exact ⟨hsound₃, [], hlost, fun _ => rfl, hclient₃ ▸ .refused, fun hp => absurd hp hnot⟩
    | some v =>
      rw [hcase] at hans
      obtain ⟨rfl, hclient₁⟩ := hans
      have hprogress := h.progress.trans
        (hread.progress hcount h.progress.noNul h.progress.ends hcase)
      obtain ⟨-, hcontent⟩ := hread.content_eq h.progress.ends
      rw [hcase, Option.getD_some] at hcontent
      rw [wp_ite_neg (by omega)]
      by_cases hv : v = []
      · subst hv
        rw [wp_ite_pos (by rw [List.length_nil, Nat.cast_zero])]
        rw [seen_eq_self List.not_mem_nil, List.append_nil] at hprogress
        refine Reading.leave ⟨hprogress, hsound, h.null, D, _, hmakes, hD, hclient₁, hlen⟩
          fun hp _ => .inr ?_
        obtain ⟨-, bs, hbs, -, hend⟩ := (h.progress.plain hp).answer hcount
        obtain rfl : [] = bs := Option.some.inj (hcase.symm.trans hbs)
        rw [List.nil_append, hend rfl] at hcontent
        exact hcontent
      · have hpos := List.length_pos_iff.mpr hv
        have hle := length_answer_le hcase
        rw [wp_ite_neg (by omega), Int.toNat_natCast, wp_bind, wp_onHeap]
        refine hsound.wp_storeByte (b := 0) hclient₁ (by simp; omega) fun s₂ hsound₂ hclient₂ => ?_
        obtain ⟨rest, hseen⟩ := exists_seen v
        rw [splice_append, ← List.append_assoc, hseen, List.append_assoc] at hclient₂
        generalize hbuf : seen v ++ [0] ++ (rest ++ _) = buf at hclient₂
        have hroom : L.bufferSize.toNat + 1 ≤ buf.length := by
          have := congrArg List.length hseen
          rw [← hbuf]
          simp only [List.length_append, List.length_singleton, List.length_drop] at this ⊢
          omega
        have hbase : (C.put q buf).Makes (u' ++ [0]) p s₂.client :=
          (Store.makes_put_iff hC).mpr ⟨D, hmakes, hD, hclient₂⟩
        have hseenle := length_seen_le (v := v)
        have hlenc : v.length + (content (w₁.input fd.toNat)).length =
            (content (w'.input fd.toNat)).length := by rw [← hcontent, List.length_append]
        have hpiece : (Text.heap q).Spells (C.put q buf) (seen v) :=
          Text.spells_block zero_notMem_seen (by omega) (by rw [← hbuf, Store.put_same])
        rw [wp_bind]
        refine wp_mono (wp_strjoinNl hsound₂ hbase h.null h.progress.noNul hpiece (by omega)) ?_
        rintro str w₃ ⟨⟨hsound₃, hmakes₃, hkept₃⟩, hrefused₃⟩
        have hprogress₃ := hprogress.kept ((w₁.kept_heap s₂).trans hkept₃)
        by_cases hstr : str = null
        · generalize hE : w₃.heap.client = E at hmakes₃
          cases hmakes₃ with
          | refused =>
            rw [wp_ite_pos hstr, wp_bind, wp_onHeap]
            refine wp_mono (hsound₃.wp_freeBlock hE hC) ?_
            rintro _ s₄ ⟨hsound₄, hclient₄⟩
            rw [wp_pure]
            have hlost := (hprogress₃.lose (.inl (hrefused₃ rfl))).kept (w₃.kept_heap s₄)
            refine ⟨hsound₄, [], hlost, fun _ => rfl, hclient₄ ▸ .refused, fun _ hw => ?_⟩
            rw [hrefused₃ rfl] at hw
            cases hw
          | made hp => exact absurd hstr hp
        · rw [wp_ite_neg hstr, wp_pure]
          obtain ⟨E, hE, hEq, hclient₃⟩ := (Store.makes_put_iff hC).mp hmakes₃
          refine ⟨by dsimp only; omega, ?_, _, hprogress₃, hsound₃, fun heq => absurd heq hstr, E,
            buf, hE, hEq, hclient₃, hroom⟩
          rw [hkept₃.input]
          dsimp only
          omega

/-- `read_nl`. -/
theorem wp_readNl (h : w.heap.Sound P) (hs : C.Makes (u ++ [0]) p w.heap.client)
    (hnull : p = null → u = []) (hu : 0 ∉ u) (hsize : 0 < L.bufferSize)
    (hsize' : L.bufferSize + 1 < 2 ^ 31) (hends : Ends (w.input fd.toNat))
    (hn : u.length + (content (w.input fd.toNat)).length + 1 < 2 ^ 31) :
    wp (readNl K L p fd) (fun r w' => Gathered P C fd.toNat u w r w') w := by
  rw [readNl, wp_bind, wp_onHeap, wp_intSucc (by omega), wp_bind]
  refine wp_mono (wp_request h rfl _) ?_
  rintro q w₁ ⟨⟨hsound, hmakes, hkept⟩, hrefused⟩
  rw [Nat.mod_eq_of_lt (by omega)] at hmakes
  have hprogress := (Progress.refl hu hends).kept hkept
  generalize hD : w₁.heap.client = D at hmakes
  cases hmakes with
  | refused =>
    have hzero : 0 = null := rfl
    rw [wp_ite_pos hzero, wp_bind, wp_onHeap]
    refine wp_mono (hsound.wp_freeMade (hD ▸ hs)) ?_
    rintro _ s₂ ⟨hsound₂, hclient₂⟩
    rw [wp_pure]
    refine ⟨hsound₂, [], (hprogress.lose (.inl (hrefused rfl))).kept (w₁.kept_heap s₂),
      fun _ => rfl, hclient₂ ▸ .refused, fun _ hw => ?_⟩
    rw [hrefused rfl] at hw
    cases hw
  | made hq hfresh rest =>
    have hne : q ≠ null := hq
    have hC : C q = none := by
      cases hc : C q with
      | none => rfl
      | some bs =>
        rw [hs.sub q bs hc] at hfresh
        cases hfresh
    rw [wp_ite_neg hne]
    have hreading : Reading P C L.bufferSize.toNat fd.toNat q u w p u w₁ := by
      refine ⟨hprogress, hsound, hnull, w.heap.client, _, hs, hfresh, hD, ?_⟩
      rw [List.length_append, List.length_replicate]
      omega
    refine wp_iterate (fun n v w' => v.2 ≠ 0 ∧ (content (w'.input fd.toNat)).length = n ∧
      ∃ u', Reading P C L.bufferSize.toNat fd.toNat q u w v.1 u' w') ?_
      (n := (content (w₁.input fd.toNat)).length) ?_ ⟨two_ne_zero, rfl, u, hreading⟩
    · rintro n ⟨p, data⟩ w' ⟨hdata, rfl, u', hread⟩
      refine wp_mono (wp_readMore hread hC hdata hsize hn) fun r w'' hr => ?_
      cases r with
      | inl v => exact ⟨_, hr.2.1, hr.1, rfl, hr.2.2⟩
      | inr a => exact hr
    · rw [hkept.input, loopBound]
      omega

/-! ## `get_next_line` -/

/-- What a call of `get_next_line` for the descriptor `i` leaves, whose `temp` kept the text `u`:
a line in a new block and another text, or null. -/
structure NextLine (P : Platform) (C : Store UInt8) (i : ℕ) (u : List UInt8) (w : World) (r : ℕ)
    (line u' : List UInt8) (w' : World) : Prop where
  sound : w'.heap.Sound P
  temps : ∀ j ≠ i, w'.temp j = w.temp j
  others : ∀ j ≠ i, w'.input j = w.input j
  refused : w.refused = true → w'.refused = true
  blocks : ∃ D, C.Makes (line ++ [0]) r D ∧ D.Makes (u' ++ [0]) (w'.temp i) w'.heap.client
  failed : r = null ↔ line = []
  closed : r = null → w'.temp i = null
  empty : w'.temp i = null → u' = []
  noNul : 0 ∉ u'
  ends : Ends (w'.input i)
  short : u'.length + (content (w'.input i)).length ≤ u.length + (content (w.input i)).length
  plain : Plain (w.input i) → Plain (w'.input i)
  whole : Plain (w.input i) → w'.refused = false →
    line = firstLine 10 (u ++ content (w.input i)) ∧
      u' ++ content (w'.input i) = afterLine 10 (u ++ content (w.input i))

/-- The array `temp` at a descriptor. -/
theorem wp_setTemp {Q : Unit → World → Prop} (hfd : 0 ≤ fd ∧ fd < L.openMax) :
    wp (setTemp L fd p) Q w ↔ Q () (w.withTemp fd.toNat p) := wp_of_run (if_pos hfd)

@[simp] theorem heap_withTemp : (w.withTemp i p).heap = w.heap := rfl

@[simp] theorem input_withTemp : (w.withTemp i p).input = w.input := rfl

@[simp] theorem refused_withTemp : (w.withTemp i p).refused = w.refused := rfl

@[simp] theorem temp_withTemp : (w.withTemp i p).temp i = p := Function.update_self ..

theorem temp_withTemp_of_ne {j : ℕ} (hj : j ≠ i) : (w.withTemp i p).temp j = w.temp j :=
  Function.update_of_ne hj ..

/-- `get_next_line`. -/
theorem wp_getNextLine (h : w.heap.Sound P) (hfd : 0 ≤ fd ∧ fd < L.openMax)
    (hs : C.Makes (u ++ [0]) (w.temp fd.toNat) w.heap.client)
    (hnull : w.temp fd.toNat = null → u = []) (hu : 0 ∉ u) (hsize : 0 < L.bufferSize)
    (hsize' : L.bufferSize + 1 < 2 ^ 31) (hends : Ends (w.input fd.toNat))
    (hn : u.length + (content (w.input fd.toNat)).length + 1 < 2 ^ 31) :
    wp (getNextLine K L fd) (fun r w' => ∃ line u', NextLine P C fd.toNat u w r line u' w') w := by
  have hget : getTemp L fd w = some (w.temp fd.toNat, w) := if_pos hfd
  rw [getNextLine, wp_ite_neg (by omega), wp_bind, wp_of_run hget, wp_bind]
  refine wp_mono (wp_readNl h hs hnull hu hsize hsize' hends hn) ?_
  rintro p w₁ ⟨hsound, u₁, hprogress, hnull₁, hmakes, hend⟩
  have hshort := hprogress.short
  rw [wp_bind, wp_setTemp hfd]
  generalize hB : w₁.heap.client = B at hmakes
  cases hmakes with
  | refused =>
    have hzero : 0 = FtMalloc.null := rfl
    obtain rfl := hnull₁ rfl
    rw [wp_ite_pos hzero, wp_pure]
    refine ⟨[], [], hsound, fun j hj => ?_, hprogress.others, hprogress.refused,
      ⟨C, .refused, ?_⟩, iff_of_true rfl rfl, fun _ => temp_withTemp, fun _ => rfl,
      List.not_mem_nil, hprogress.ends, hshort, hprogress.plain, fun hp hw => ?_⟩
    · rw [temp_withTemp_of_ne hj, hprogress.temp]
    · rw [temp_withTemp, heap_withTemp, hB]
      exact .refused
    · have hwhole := hprogress.whole hp hw
      rw [(hend hp hw).resolve_left List.not_mem_nil] at hwhole
      rw [← hwhole, input_withTemp, (hend hp hw).resolve_left List.not_mem_nil]
      exact ⟨rfl, rfl⟩
  | made hp hfresh rest =>
    have hne : p ≠ FtMalloc.null := hp
    have ht : (Text.heap p).Spells (C.put p (u₁ ++ [0] ++ rest)) u₁ :=
      Text.spells_block hprogress.noNul (by omega) Store.put_same
    rw [wp_ite_neg hne, wp_bind]
    refine wp_mono (wp_substrNl hsound hB ht) ?_
    rintro r w₂ ⟨⟨hsound₂, hmakes₂, hkept₂⟩, hnull₂, hnil₂⟩
    have htemp₂ (j : ℕ) (hj : j ≠ fd.toNat) : w₂.temp j = w.temp j := by
      rw [hkept₂.temp, temp_withTemp_of_ne hj, hprogress.temp]
    have hinput₂ : w₂.input = w₁.input := hkept₂.input
    have hcalm {w' : World} (hkept : w₂.Kept w') (hw : w'.refused = false) :
        w₂.refused = false ∧ w₁.refused = false := by
      have hw₂ : w₂.refused = false := Bool.eq_false_iff.mpr fun htrue => by
        rw [hkept.refused htrue] at hw
        cases hw
      refine ⟨hw₂, Bool.eq_false_iff.mpr fun htrue => ?_⟩
      rw [hkept₂.refused htrue] at hw₂
      cases hw₂
    by_cases hr : r = FtMalloc.null
    · rw [wp_ite_pos hr, wp_bind, wp_onHeap]
      generalize hE : w₂.heap.client = E at hmakes₂
      cases hmakes₂ with
      | made hr' => exact absurd hr hr'
      | refused =>
        refine wp_mono (hsound₂.wp_freeBlock hE hfresh) ?_
        rintro _ s₃ ⟨hsound₃, hclient₃⟩
        rw [wp_bind, wp_setTemp hfd, wp_pure]
        refine ⟨[], [], hsound₃, fun j hj => ?_, fun j hj => ?_, fun hw => ?_, ⟨C, .refused, ?_⟩,
          iff_of_true rfl rfl, fun _ => temp_withTemp, fun _ => rfl, List.not_mem_nil, ?_, ?_,
          fun hp => ?_, fun hp hw => ?_⟩
        · rw [temp_withTemp_of_ne hj, htemp₂ j hj]
        · rw [input_withTemp, hinput₂, hprogress.others j hj]
        · exact hkept₂.refused (hprogress.refused hw)
        · rw [temp_withTemp, heap_withTemp, hclient₃]
          exact .refused
        · rw [input_withTemp, hinput₂]
          exact hprogress.ends
        · rw [input_withTemp, hinput₂, List.length_nil]
          omega
        · rw [input_withTemp, hinput₂]
          exact hprogress.plain hp
        · obtain ⟨hw₂, hw₁⟩ := hcalm (w₂.kept_heap s₃) hw
          have hwhole := hprogress.whole hp hw₁
          obtain rfl | htrue := hnull₂ rfl
          · rw [(hend hp hw₁).resolve_left List.not_mem_nil] at hwhole
            rw [← hwhole, input_withTemp, hinput₂, (hend hp hw₁).resolve_left List.not_mem_nil]
            exact ⟨rfl, rfl⟩
          · rw [htrue] at hw₂
            cases hw₂
    · rw [wp_ite_neg hr, wp_bind]
      obtain ⟨E, hE, hEp, hclient₂⟩ := (Store.makes_put_iff hfresh).mp hmakes₂
      refine wp_mono (wp_orderNl hsound₂ hclient₂ hEp hprogress.noNul (by omega)) ?_
      rintro q w₃ ⟨⟨hsound₃, hmakes₃, hkept₃⟩, hnull₃⟩
      rw [wp_bind, wp_setTemp hfd, wp_pure]
      have hafter := (afterLine_suffix 10 u₁).length_le
      have hinput₃ : (w₃.withTemp fd.toNat q).input = w₁.input :=
        hkept₃.input.trans hinput₂
      refine ⟨firstLine 10 u₁, if q = FtMalloc.null then [] else afterLine 10 u₁, hsound₃,
        fun j hj => ?_, fun j hj => ?_, fun hw => ?_, ⟨E, hE, ?_⟩,
        iff_of_false hr fun hnil => hr (hnil₂ (firstLine_eq_nil_iff.mp hnil)),
        fun heq => absurd heq hr, fun heq => ?_, ?_, ?_, ?_, fun hp => ?_, fun hp hw => ?_⟩
      · rw [temp_withTemp_of_ne hj, hkept₃.temp, htemp₂ j hj]
      · rw [hinput₃, hprogress.others j hj]
      · exact hkept₃.refused (hkept₂.refused (hprogress.refused hw))
      · rw [temp_withTemp, heap_withTemp]
        by_cases hq : q = FtMalloc.null
        · rw [if_pos hq]
          generalize hF : w₃.heap.client = F at hmakes₃
          cases hmakes₃ with
          | refused => exact .refused
          | made hq' => exact absurd hq hq'
        · rwa [if_neg hq]
      · rw [temp_withTemp] at heq
        rw [if_pos heq]
      · split
        · exact List.not_mem_nil
        · exact fun hmem => hprogress.noNul ((afterLine_suffix 10 u₁).subset hmem)
      · rw [hinput₃]
        exact hprogress.ends
      · rw [hinput₃]
        split
        · rw [List.length_nil]
          omega
        · omega
      · rw [hinput₃]
        exact hprogress.plain hp
      · obtain ⟨-, hw₁⟩ := hcalm hkept₃ hw
        have hwhole := hprogress.whole hp hw₁
        rw [← hwhole, hinput₃]
        by_cases hmem : 10 ∈ u₁
        · have hq : q ≠ FtMalloc.null := fun heq => by
            rw [refused_withTemp, hnull₃ heq hmem] at hw
            cases hw
          rw [if_neg hq, (firstLine_append hmem).1, (firstLine_append hmem).2]
          exact ⟨rfl, rfl⟩
        · rw [(hend hp hw₁).resolve_left hmem, List.append_nil, List.append_nil,
            (firstLine_of_notMem hmem).2, ite_self]
          exact ⟨rfl, rfl⟩

end World

end FtMalloc
