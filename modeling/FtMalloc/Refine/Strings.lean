import FtMalloc.Client
import FtMalloc.Source.Strings

/-!
# What the string functions do to the blocks of the client

The state of a program is described by the blocks it owns: `C.put p bs` has the block `p` in
addition to those of `C`, about which nothing has to be known. A text spells a string if its bytes
up to the terminator are that string; it goes on to spell it while other blocks change. A function
that asks for one block returns null exactly if `malloc` refuses it.
-/

namespace FtMalloc

open HeapLib TiledZone

variable {P : Platform} {K : Kernel P} {s s' : Heap} {w : Task} {C : Store UInt8} {t : Text}
  {str bs vs : List UInt8} {p i n len size : ℕ} {α β : Type}

/-! ## Texts -/

/-- The text is the string `str` with its terminator, in a block of `C` or in a constant. -/
structure Text.Spells (t : Text) (C : Store UInt8) (str : List UInt8) : Prop where
  noNul : 0 ∉ str
  bound : str.length + 1 < 2 ^ 64
  here : match t with
    | .heap a => ∃ p bs i rest, a = p + i ∧ C p = some bs ∧ bs.drop i = str ++ 0 :: rest
    | .const bs i => i ≤ bs.length ∧ ∃ rest, (bs ++ [0]).drop i = str ++ 0 :: rest

/-- A block that starts with a string and its terminator. -/
theorem Text.spells_block {rest : List UInt8} (h : 0 ∉ str) (hlen : str.length + 1 < 2 ^ 64)
    (hp : C p = some (str ++ [0] ++ rest)) : (Text.heap p).Spells C str :=
  ⟨h, hlen, p, _, 0, rest, rfl, hp, List.append_assoc ..⟩

/-- A byte of a string is not zero before the terminator. -/
theorem toNat_getD_eq_zero (h : 0 ∉ str) (hi : i ≤ str.length) :
    (str.getD i 0).toNat = 0 ↔ i = str.length := by
  constructor
  · intro hzero
    by_contra hne
    have hlt : i < str.length := by omega
    rw [List.getD_eq_getElem _ _ hlt] at hzero
    have hmem := List.getElem_mem hlt
    rw [UInt8.toNat_inj.mp (hzero.trans UInt8.toNat_zero.symm)] at hmem
    exact h hmem
  · rintro rfl
    rw [List.getD_eq_default _ _ (Nat.le_refl _), UInt8.toNat_zero]

/-- A payload is not null. -/
theorem Heap.Sound.ne_null (h : s.Sound P) (hp : s.client p = some bs) : p ≠ null := by
  obtain ⟨A, hA⟩ := h
  obtain ⟨t, ht, rfl, -⟩ := hA.client_eq_some.mp hp
  simp

/-- A payload lies in the address space. -/
theorem Heap.Sound.bound (h : s.Sound P) (hp : s.client p = some bs) :
    p + bs.length < 2 ^ 64 := by
  obtain ⟨A, hA⟩ := h
  obtain ⟨t, ⟨z, hz, ht⟩, rfl, rfl⟩ := hA.client_eq_some.mp hp
  have hin := (A.spread.laid z hz).inside (mem_live.mp ht).1
  have hend := (A.spread.laid z hz).bound
  rw [length_contents]
  simp only [Tile.stop, headerSize] at hin ⊢
  omega

namespace Text.Spells

/-- A text is still there when there are more blocks. -/
theorem mono {D : Store UInt8} (h : t.Spells C str) (hsub : C.Sub D) : t.Spells D str := by
  refine ⟨h.noNul, h.bound, ?_⟩
  cases t with
  | heap a =>
    obtain ⟨q, cs, i, rest, ha, hq, hcs⟩ := h.here
    exact ⟨q, cs, i, rest, ha, hsub q cs hq, hcs⟩
  | const cs i => exact h.here

/-- A text in other blocks than `p` is read where `p` is in addition. -/
theorem of_put (h : t.Spells C str) (hp : C p = none) (hs : s.client = C.put p bs) :
    t.Spells s.client str := by
  rw [hs]
  exact h.mono (Store.sub_put hp)

/-- The rest of a text. -/
theorem add {pre : List UInt8} (h : t.Spells C (pre ++ str)) :
    (t.add pre.length).Spells C str := by
  have hbound := h.bound
  rw [List.length_append] at hbound
  refine ⟨fun hmem => h.noNul (List.mem_append_right _ hmem), by omega, ?_⟩
  cases t with
  | heap a =>
    obtain ⟨p, bs, i, rest, rfl, hp, hbs⟩ := h.here
    refine ⟨p, bs, i + pre.length, rest, Nat.add_assoc .., hp, ?_⟩
    rw [← List.drop_drop, hbs, List.append_assoc, List.drop_left]
  | const bs i =>
    obtain ⟨hi, rest, hbs⟩ := h.here
    have hlen := congrArg List.length hbs
    simp only [List.length_drop, List.length_append, List.length_cons, List.length_nil] at hlen
    refine ⟨by omega, rest, ?_⟩
    rw [← List.drop_drop, hbs, List.append_assoc, List.drop_left]

/-- A text is not null. -/
theorem isNull (h : t.Spells s.client str) (hs : s.Sound P) : t.isNull = false := by
  cases t with
  | heap a =>
    obtain ⟨p, bs, i, rest, rfl, hp, -⟩ := h.here
    have := hs.ne_null hp
    refine decide_eq_false fun heq => this ?_
    simp only [null] at heq ⊢
    omega
  | const bs i => rfl

/-- Reading a byte of a text. -/
theorem wp_get {Q : ℕ → Heap → Prop} (h : t.Spells s.client str) (hs : s.Sound P)
    (hi : i ≤ str.length) : wp (t.get i) Q s ↔ Q (str.getD i 0).toNat s := by
  have hat (rest : List UInt8) : (str ++ 0 :: rest)[i]? = some (str.getD i 0) := by
    by_cases hlt : i < str.length
    · rw [List.getElem?_append_left hlt, List.getD_eq_getElem _ _ hlt, List.getElem?_eq_getElem hlt]
    · obtain rfl : i = str.length := by omega
      rw [List.getElem?_append_right (Nat.le_refl _), Nat.sub_self,
        List.getD_eq_default _ _ (Nat.le_refl _)]
      rfl
  cases t with
  | heap a =>
    obtain ⟨p, bs, j, rest, rfl, hp, hbs⟩ := h.here
    have hbyte : bs[j + i]? = some (str.getD i 0) := by
      rw [← List.getElem?_drop, hbs, hat]
    obtain ⟨hlt, hget⟩ := List.getElem?_eq_some_iff.mp hbyte
    rw [Text.get, Nat.add_assoc, hs.wp_load hp (by omega), List.drop_eq_getElem_cons hlt, hget]
    exact Iff.rfl
  | const bs j =>
    obtain ⟨hj, rest, hbs⟩ := h.here
    have hbyte : (bs ++ [0])[j + i]? = some (str.getD i 0) := by
      rw [← List.getElem?_drop, hbs, hat]
    obtain ⟨hlt, hget⟩ := List.getElem?_eq_some_iff.mp hbyte
    rw [List.length_append, List.length_singleton] at hlt
    have hle : j + i ≤ bs.length := by omega
    have hval : bs.getD (j + i) 0 = str.getD i 0 := by
      by_cases hin : j + i < bs.length
      · rw [List.getD_eq_getElem _ _ hin, ← hget, List.getElem_append_left hin]
      · rw [List.getD_eq_default _ _ (by omega), ← hget, List.getElem_append_right (by omega)]
        simp
    rw [Text.get, if_pos hle, wp_pure, hval]

end Text.Spells

/-! ## Blocks -/

/-- A piece of a program that asks for no memory. -/
theorem wp_lift {p : M α} {Q : α → Task → Prop} :
    wp (liftM p : T α) Q w ↔ wp p (fun a s' => Q a { w with heap := s' }) w.heap := wp_onPart

/-- What a function leaves that asks for a block which starts with `bs`. -/
structure Task.Made (P : Platform) (C : Store UInt8) (bs : List UInt8) (w : Task) (r : ℕ)
    (w' : Task) : Prop where
  sound : w'.heap.Sound P
  makes : C.Makes bs r w'.heap.client
  refused : w'.refused = (w.refused || decide (r = null))

/-- A request is refused, or it gets a new block of at least as many bytes. -/
theorem Heap.Sound.wp_alloc (h : w.heap.Sound P) (hs : w.heap.client = C) (n : ℕ) :
    wp (K.malloc n) (fun r w' => w'.heap.Sound P ∧ w'.refused = (w.refused || decide (r = null)) ∧
      (r = null ∧ w'.heap.client = C ∨ r ≠ null ∧ C r = none ∧ ∃ bs, n ≤ bs.length ∧
        w'.heap.client = C.put r bs)) w := by
  subst hs
  rw [Kernel.malloc, wp_bind, wp_lift]
  obtain ⟨r, s', hrun, hsound, halloc⟩ := h.wp_malloc (K.ok w.heap) n
  refine ⟨r, s', hrun, ?_⟩
  generalize hC : s'.client = C' at halloc
  cases halloc with
  | refused =>
    have hnull : 0 = null := rfl
    rw [wp_ite_pos hnull]
    exact ⟨_, _, rfl, hsound, (Bool.or_true _).symm, .inl ⟨rfl, hC⟩⟩
  | granted hp hfresh hlen _ =>
    have hne : r ≠ null := hp
    rw [wp_ite_neg hne, wp_pure, decide_eq_false hne, Bool.or_false]
    exact ⟨hsound, rfl, .inr ⟨hp, hfresh, _, hlen, hC⟩⟩

/-- Storing a byte into a block. -/
theorem Heap.Sound.wp_storeByte {Q : Unit → Heap → Prop} {b : UInt8} (h : s.Sound P)
    (hs : s.client = C.put p bs) (hi : i < bs.length) (hQ : ∀ s', s'.Sound P →
      s'.client = C.put p (splice bs i [b]) → Q () s') : wp (store 1 (p + i) b.toNat) Q s := by
  have hat : s.client p = some bs := by rw [hs, Store.put_same]
  refine h.wp_store hat hi fun s' hs' heq => hQ s' hs' ?_
  rw [heq, hs, Store.put_put, leBytes_one]

/-- A loop that overwrites a part of a block byte after byte. Its variables before byte `k` are
`key k`. -/
theorem Heap.Sound.wp_fill {body : β → M (β ⊕ α)} {Q : α → Heap → Prop} (vs : List UInt8)
    (key : ℕ → β)
    (h : s.Sound P) (hs : s.client = C.put p bs) (hfit : i + vs.length ≤ bs.length)
    (hlen : vs.length < 2 ^ 64)
    (hstep : ∀ k (hk : k < vs.length) s', s'.Sound P →
      s'.client = C.put p (splice bs i (vs.take k)) → ∀ R : β ⊕ α → Heap → Prop,
        wp (store 1 (p + (i + k)) vs[k].toNat) (fun _ s'' => R (.inl (key (k + 1))) s'') s' →
          wp (body (key k)) R s')
    (hlast : ∀ s', s'.Sound P → s'.client = C.put p (splice bs i vs) →
      wp (body (key vs.length)) (fun r s'' => r.elim (fun _ => False) (fun a => Q a s'')) s') :
    wp (forever body (key 0)) Q s := by
  refine wp_forever (fun n b s' => ∃ k, k + n = vs.length ∧ b = key k ∧ s'.Sound P ∧
    s'.client = C.put p (splice bs i (vs.take k))) ?_ hlen ⟨0, Nat.zero_add _, rfl, h, ?_⟩
  · rintro n b s' ⟨k, hk, rfl, hsound, hclient⟩
    by_cases hlt : k < vs.length
    · refine hstep k hlt s' hsound hclient _ ?_
      have htake : (vs.take k).length = k := List.length_take_of_le (by omega)
      refine hsound.wp_storeByte hclient (by rw [length_splice (by omega)]; omega)
        fun s'' hsound' hclient' => ⟨n - 1, by omega, k + 1, by omega, rfl, hsound', ?_⟩
      have hsplice := splice_splice bs (vs.take k) [vs[k]] i
        (by rw [htake, List.length_singleton]; omega)
      rw [htake] at hsplice
      rw [hclient', hsplice, List.take_append_getElem hlt]
    · obtain rfl : k = vs.length := by omega
      rw [List.take_length] at hclient
      refine wp_mono (hlast s' hsound hclient) fun r s'' hr => ?_
      cases r with
      | inl b => exact hr.elim
      | inr a => exact hr
  · rw [List.take_zero, splice_nil, hs]

/-! ## The functions -/

namespace Heap.Sound

/-- `ft_strlen`. -/
theorem wp_ftStrlen {Q : ℕ → Heap → Prop} (h : s.Sound P) (ht : t.Spells s.client str) :
    wp (ftStrlen t) Q s ↔ Q str.length s := by
  refine wp_of_run (run_of_wp ?_)
  have hbound := ht.bound
  rw [ftStrlen, wp_ite_neg (by rw [ht.isNull h]; exact Bool.false_ne_true)]
  refine wp_forever (fun n i s' => s' = s ∧ i + n = str.length) ?_ (n := str.length) (by omega)
    ⟨rfl, Nat.zero_add _⟩
  rintro n i _ ⟨rfl, hi⟩
  rw [wp_bind, ht.wp_get h (by omega)]
  by_cases hend : i = str.length
  · rw [wp_ite_pos ((toNat_getD_eq_zero ht.noNul (by omega)).mpr hend), wp_pure]
    exact ⟨hend, rfl⟩
  · rw [wp_ite_neg (by rwa [toNat_getD_eq_zero ht.noNul (by omega)]), wp_pure,
      Nat.mod_eq_of_lt (by omega)]
    exact ⟨n - 1, by omega, rfl, by omega⟩

/-- `ft_memset`. -/
theorem wp_ftMemset (h : s.Sound P) (hs : s.client = C.put p bs) (c : UInt8)
    (hfit : i + n ≤ bs.length) (hn : n < 2 ^ 64) : wp (ftMemset (p + i) c.toNat n) (fun r s' =>
      r = p + i ∧ s'.Sound P ∧ s'.client = C.put p (splice bs i (List.replicate n c))) s := by
  rw [ftMemset, wp_bind]
  refine h.wp_fill (List.replicate n c) (fun k => k) hs
    (by rwa [List.length_replicate]) (by rwa [List.length_replicate]) ?_ ?_
  · intro k hk s' _ _ R hR
    rw [List.length_replicate] at hk
    rw [List.getElem_replicate, ← Nat.add_assoc] at hR
    rw [wp_ite_pos hk, wp_bind]
    refine wp_mono hR fun _ s'' hr => ?_
    rwa [wp_pure, Nat.mod_eq_of_lt (by omega)]
  · intro s' hsound hclient
    rw [List.length_replicate, wp_ite_neg (Nat.lt_irrefl n), wp_pure]
    exact (wp_pure _ _ _).mpr ⟨rfl, hsound, hclient⟩

/-- `ft_bzero`. -/
theorem wp_ftBzero (h : s.Sound P) (hs : s.client = C.put p bs) (hfit : n ≤ bs.length)
    (hn : n < 2 ^ 64) : wp (ftBzero p n) (fun _ s' => s'.Sound P ∧
      s'.client = C.put p (splice bs 0 (List.replicate n 0))) s := by
  rw [ftBzero, wp_bind]
  refine wp_mono (h.wp_ftMemset (i := 0) hs 0 (by rwa [Nat.zero_add]) hn) fun _ s' hr => ?_
  exact (wp_pure _ _ _).mpr hr.2

/-- `ft_strlcpy`. -/
theorem wp_ftStrlcpy (h : s.Sound P) (hs : s.client = C.put p bs) (hp : C p = none)
    (ht : t.Spells C str) (hsize : 0 < size)
    (hfit : i + (str.take (size - 1)).length + 1 ≤ bs.length) :
    wp (ftStrlcpy (p + i) t size) (fun r s' => r = str.length ∧ s'.Sound P ∧
      s'.client = C.put p (splice bs i (str.take (size - 1) ++ [0]))) s := by
  have hbound := ht.bound
  have hlen : (str.take (size - 1)).length = min (size - 1) str.length := List.length_take
  have hcopy : wp (forever (fun j : ℕ => do
      if j < size - 1 then
        let c ← t.get j
        if c = 0 then
          return .inr j
        else
          store 1 (p + i + j) c
          return .inl ((j + 1) % 2 ^ 64)
      else
        return .inr j) 0) (fun j s' => j = (str.take (size - 1)).length ∧ s'.Sound P ∧
        s'.client = C.put p (splice bs i (str.take (size - 1)))) s := by
    refine h.wp_fill (str.take (size - 1)) (i := i) (fun k => k) hs (by omega) (by omega) ?_ ?_
    · intro k hk s' hsound hclient R hR
      have hget : (str.getD k 0).toNat = (str.take (size - 1))[k].toNat := by
        rw [List.getElem_take, List.getD_eq_getElem _ _ (by omega)]
      rw [wp_ite_pos (by omega), wp_bind, (ht.of_put hp hclient).wp_get hsound (by omega),
        wp_ite_neg (by rw [toNat_getD_eq_zero ht.noNul (by omega)]; omega), wp_bind, hget,
        Nat.add_assoc]
      refine wp_mono hR fun _ s'' hr => ?_
      rwa [wp_pure, Nat.mod_eq_of_lt (by omega)]
    · intro s' hsound hclient
      by_cases hlt : (str.take (size - 1)).length < size - 1
      · rw [wp_ite_pos hlt, wp_bind, (ht.of_put hp hclient).wp_get hsound (by omega),
          wp_ite_pos ((toNat_getD_eq_zero ht.noNul (by omega)).mpr (by omega)), wp_pure]
        exact ⟨rfl, hsound, hclient⟩
      · rw [wp_ite_neg hlt, wp_pure]
        exact ⟨rfl, hsound, hclient⟩
  rw [ftStrlcpy, wp_ite_pos hsize, wp_bind]
  refine wp_mono hcopy ?_
  rintro _ s' ⟨rfl, hsound, hclient⟩
  have hlast := splice_splice bs (str.take (size - 1)) [0] i
    (by rw [List.length_singleton]; omega)
  rw [wp_bind, Nat.add_assoc]
  refine hsound.wp_storeByte (b := 0) (i := i + (str.take (size - 1)).length) hclient
    (by rw [length_splice (by omega)]; omega) fun s'' hsound' hclient' => ?_
  rw [hlast] at hclient'
  rw [hsound'.wp_ftStrlen (ht.of_put hp hclient')]
  exact ⟨rfl, hsound', hclient'⟩

/-- `ft_strlcat`. -/
theorem wp_ftStrlcat {dstr rest : List UInt8} (h : s.Sound P)
    (hs : s.client = C.put p (dstr ++ 0 :: rest)) (hp : C p = none) (hdstr : 0 ∉ dstr)
    (ht : t.Spells C str) (hsize : dstr.length + str.length < size)
    (hfit : str.length ≤ rest.length) :
    wp (ftStrlcat p t size) (fun r s' => r = (dstr.length + str.length) % 2 ^ 64 ∧ s'.Sound P ∧
      s'.client = C.put p (dstr ++ str ++ 0 :: rest.drop str.length)) s := by
  have hbound := ht.bound
  have hat : s.client p = some (dstr ++ 0 :: rest) := by rw [hs, Store.put_same]
  have hblock := h.bound hat
  rw [List.length_append, List.length_cons] at hblock
  have hdest : (Text.heap p).Spells s.client dstr :=
    ⟨hdstr, by omega, p, _, 0, rest, rfl, hat, rfl⟩
  have hnull : ¬ (p = null ∨ t.isNull = true) := by
    rw [(ht.of_put hp hs).isNull h]
    rintro (heq | heq)
    · exact h.ne_null hat heq
    · cases heq
  rw [ftStrlcat, wp_bind, h.wp_ftStrlen hdest, wp_ite_neg hnull, wp_ite_neg (by omega), wp_bind]
  have hcopy : wp (forever (fun v : ℕ × ℕ => do
      let c ← t.get v.1
      if c ≠ 0 ∧ v.1 < size - dstr.length - 1 then
        store 1 (p + v.2) c
        return .inl ((v.1 + 1) % 2 ^ 64, (v.2 + 1) % 2 ^ 64)
      else
        return .inr v.2) (0, dstr.length)) (fun n s' => n = dstr.length + str.length ∧
        s'.Sound P ∧ s'.client = C.put p (splice (dstr ++ 0 :: rest) dstr.length str)) s := by
    refine h.wp_fill str (i := dstr.length) (fun k => (k, dstr.length + k)) hs
      (by simp; omega) (by omega) ?_ ?_
    · intro k hk s' hsound hclient R hR
      have hmore : (str.getD k 0).toNat ≠ 0 ∧ k < size - dstr.length - 1 := by
        rw [ne_eq, toNat_getD_eq_zero ht.noNul (by omega)]
        omega
      rw [wp_bind, (ht.of_put hp hclient).wp_get hsound (by omega), wp_ite_pos hmore, wp_bind,
        List.getD_eq_getElem _ _ hk]
      refine wp_mono hR fun _ s'' hr => ?_
      rwa [wp_pure, Nat.mod_eq_of_lt (by omega), Nat.mod_eq_of_lt (by omega), Nat.add_assoc]
    · intro s' hsound hclient
      have hend : ¬ ((str.getD str.length 0).toNat ≠ 0 ∧ str.length < size - dstr.length - 1) := by
        rw [ne_eq, toNat_getD_eq_zero ht.noNul (by omega)]
        omega
      rw [wp_bind, (ht.of_put hp hclient).wp_get hsound (by omega), wp_ite_neg hend, wp_pure]
      exact ⟨rfl, hsound, hclient⟩
  refine wp_mono hcopy ?_
  rintro _ s' ⟨rfl, hsound, hclient⟩
  have hlast := splice_splice (dstr ++ 0 :: rest) str [0] dstr.length
    (by simp; omega)
  rw [wp_bind]
  refine hsound.wp_storeByte (b := 0) (i := dstr.length + str.length) hclient
    (by rw [length_splice (by simp; omega)]; simp; omega) fun s'' hsound' hclient' => ?_
  rw [hlast, splice_append, List.length_append, List.length_singleton, List.drop_succ_cons,
    List.append_assoc, ← List.append_assoc] at hclient'
  rw [wp_bind, hsound'.wp_ftStrlen (ht.of_put hp hclient'), wp_pure]
  exact ⟨rfl, hsound', hclient'⟩

/-- `ft_calloc`. -/
theorem wp_ftCalloc (h : w.heap.Sound P) (hs : w.heap.client = C) (len size : ℕ) :
    wp (ftCalloc K len size)
      (fun r w' => w.Made P C (List.replicate (len * size % 2 ^ 64) 0) r w') w := by
  rw [ftCalloc, wp_bind]
  refine wp_mono (h.wp_alloc hs _) ?_
  rintro r w' ⟨hsound, hrefused, ⟨rfl, hclient⟩ | ⟨hr, hfresh, bs, hlen, hclient⟩⟩
  · rw [wp_ite_pos rfl, wp_pure]
    exact ⟨hsound, hclient ▸ .refused, hrefused⟩
  · rw [wp_ite_neg hr, wp_bind, wp_lift]
    refine wp_mono (hsound.wp_ftBzero hclient hlen (Nat.mod_lt _ (by decide))) ?_
    rintro _ s'' ⟨hsound', hclient'⟩
    rw [splice_zero] at hclient'
    rw [wp_pure]
    exact ⟨hsound', hclient' ▸ .made hr hfresh _, hrefused⟩

/-- `ft_strdup`. -/
theorem wp_ftStrdup (h : w.heap.Sound P) (hs : w.heap.client = C) (ht : t.Spells C str) :
    wp (ftStrdup K t) (fun r w' => w.Made P C (str ++ [0]) r w') w := by
  have hbound := ht.bound
  rw [ftStrdup, wp_bind, wp_lift, h.wp_ftStrlen (hs ▸ ht), wp_bind, Nat.mod_eq_of_lt hbound]
  refine wp_mono (h.wp_alloc hs _) ?_
  rintro r w' ⟨hsound, hrefused, ⟨rfl, hclient⟩ | ⟨hr, hfresh, bs, hlen, hclient⟩⟩
  · rw [wp_ite_pos rfl, wp_pure]
    exact ⟨hsound, hclient ▸ .refused, hrefused⟩
  · have htake : str.take (str.length + 1 - 1) = str := List.take_length
    rw [wp_ite_neg hr, wp_bind, wp_lift]
    refine wp_mono (hsound.wp_ftStrlcpy (i := 0) hclient hfresh ht (Nat.succ_pos _)
      (by rw [htake]; omega)) ?_
    rintro _ s'' ⟨-, hsound', hclient'⟩
    rw [htake, splice_zero] at hclient'
    rw [wp_pure]
    exact ⟨hsound', hclient' ▸ .made hr hfresh _, hrefused⟩

/-- Two copies, one behind the other. -/
theorem wp_copyTexts {t' : Text} {str' : List UInt8} {Q : Heap → Prop} (h : s.Sound P)
    (hs : s.client = C.put p bs) (hp : C p = none) (ht : t.Spells C str) (ht' : t'.Spells C str')
    (hfit : str.length + str'.length + 1 ≤ bs.length) (hQ : ∀ rest s', s'.Sound P →
      s'.client = C.put p (str ++ str' ++ [0] ++ rest) → Q s') :
    wp (ftStrlcpy p t (str.length + 1)) (fun _ s' =>
      wp (ftStrlcpy (p + str.length) t' (str'.length + 1)) (fun _ s'' => Q s'') s') s := by
  have htake : str.take (str.length + 1 - 1) = str := List.take_length
  have htake' : str'.take (str'.length + 1 - 1) = str' := List.take_length
  refine wp_mono (h.wp_ftStrlcpy (i := 0) hs hp ht (Nat.succ_pos _) (by rw [htake]; omega)) ?_
  rintro _ s' ⟨-, hsound, hclient⟩
  rw [htake] at hclient
  have hlen : (str ++ [0]).length = str.length + 1 := by
    rw [List.length_append, List.length_singleton]
  refine wp_mono (hsound.wp_ftStrlcpy (i := str.length) hclient hp ht' (Nat.succ_pos _)
    (by rw [htake', length_splice (by omega)]; omega)) ?_
  rintro _ s'' ⟨-, hsound', hclient'⟩
  rw [htake', splice_zero, List.append_assoc str [0], splice_append, ← List.append_assoc,
    ← List.append_assoc] at hclient'
  exact hQ _ s'' hsound' hclient'

/-- The block of `ft_substr` is one byte longer than the part of the string. -/
theorem wp_ftSubstrBlock {start : ℕ} (h : w.heap.Sound P) (hs : w.heap.client = C)
    (ht : t.Spells C str) : wp (ftSubstrBlock K t start len) (fun r w' =>
      w.Made P C (List.replicate (((str.drop start).take len).length + 1) 0) r w') w := by
  have hbound := ht.bound
  rw [ftSubstrBlock, wp_bind, wp_lift, h.wp_ftStrlen (hs ▸ ht), List.length_take, List.length_drop]
  by_cases hstart : start ≥ str.length
  · rw [wp_ite_pos hstart, Nat.sub_eq_zero_of_le hstart, Nat.min_zero]
    exact h.wp_ftCalloc hs 1 1
  · rw [wp_ite_neg hstart]
    by_cases hlen : len > str.length - start
    · have hcalloc := h.wp_ftCalloc (K := K) hs (str.length - start + 1) 1
      rw [Nat.mul_one, Nat.mod_eq_of_lt (by omega)] at hcalloc
      rw [wp_ite_pos hlen, Nat.min_eq_right (by omega)]
      exact hcalloc
    · have hcalloc := h.wp_ftCalloc (K := K) hs (len + 1) 1
      rw [Nat.mul_one, Nat.mod_eq_of_lt (by omega)] at hcalloc
      rw [wp_ite_neg hlen, Nat.min_eq_left (by omega), Nat.mod_eq_of_lt (by omega)]
      exact hcalloc

/-- `ft_substr`. -/
theorem wp_ftSubstr {start : ℕ} (h : w.heap.Sound P) (hs : w.heap.client = C)
    (ht : t.Spells C str) (hn : str.length < 2 ^ 32) : wp (ftSubstr K t start len)
      (fun r w' => w.Made P C ((str.drop start).take len ++ [0]) r w') w := by
  have hsub : ((str.drop start).take len).length = min len (str.length - start) := by
    rw [List.length_take, List.length_drop]
  rw [ftSubstr, wp_bind]
  refine wp_mono (h.wp_ftSubstrBlock hs ht) ?_
  rintro r w' ⟨hsound, hmakes, hrefused⟩
  generalize hC : w'.heap.client = C' at hmakes
  cases hmakes with
  | refused =>
    have hnull : 0 = null := rfl
    rw [wp_ite_pos hnull, wp_pure]
    exact ⟨hsound, hC ▸ .refused, hrefused⟩
  | made hr hfresh rest =>
    have hne : r ≠ null := hr
    rw [wp_ite_neg hne, wp_bind, wp_lift, hsound.wp_ftStrlen (ht.of_put hfresh hC)]
    by_cases hstart : start ≥ str.length
    · rw [wp_ite_pos hstart, wp_pure, List.drop_eq_nil_of_le hstart, List.take_nil]
      rw [List.drop_eq_nil_of_le hstart, List.take_nil] at hC
      exact ⟨hsound, hC ▸ .made hr hfresh rest, hrefused⟩
    · rw [wp_ite_neg hstart, wp_bind, wp_lift]
      refine hsound.wp_fill ((str.drop start).take len) (i := 0)
        (fun k => (len - k, k, start + k)) hC (by simp; omega) (by omega) ?_ ?_
      · intro k hk s'' hsound' hclient R hR
        have hget : (str.getD (start + k) 0).toNat = ((str.drop start).take len)[k].toNat := by
          rw [List.getElem_take, List.getElem_drop, List.getD_eq_getElem _ _ (by omega)]
        dsimp only
        rw [wp_ite_neg (by omega), wp_bind,
          (ht.of_put hfresh hclient).wp_get hsound' (by omega),
          wp_ite_neg (by rw [toNat_getD_eq_zero ht.noNul (by omega)]; omega), wp_bind, hget]
        rw [Nat.zero_add] at hR
        refine wp_mono hR fun _ s₃ hr => ?_
        rwa [wp_pure, Nat.mod_eq_of_lt (by omega), Nat.mod_eq_of_lt (by omega), Nat.sub_sub,
          Nat.add_assoc]
      · intro s'' hsound' hclient
        have hend : C.Makes ((str.drop start).take len ++ [0]) r s''.client := by
          rw [hclient, splice_zero, List.replicate_succ', List.append_assoc, List.drop_left'
            List.length_replicate, ← List.append_assoc]
          exact .made hr hfresh rest
        dsimp only
        by_cases hlen : len - ((str.drop start).take len).length = 0
        · rw [wp_ite_pos hlen, wp_pure]
          exact (wp_pure _ _ _).mpr ⟨hsound', hend, hrefused⟩
        · rw [wp_ite_neg hlen, wp_bind, (ht.of_put hfresh hclient).wp_get hsound' (by omega),
            wp_ite_pos ((toNat_getD_eq_zero ht.noNul (by omega)).mpr (by omega)), wp_pure]
          exact (wp_pure _ _ _).mpr ⟨hsound', hend, hrefused⟩

end Heap.Sound

end FtMalloc
