import FtMalloc.Lib.Bytes

/-!
# What an allocator is for

Its client owns blocks: lists of cells, by the pointer to the first cell. `Store.Alloc` and
`Store.Resize` say what a request may do to them. The second half relates the list of the bytes of a
block to the byte memory that holds it, to single bytes, and to the words of an array of pointers.
-/

namespace HeapLib

variable {α : Type}

/-! ## Blocks -/

/-- The blocks of the client. -/
abbrev Store (α : Type) := ℕ → Option (List α)

namespace Store

/-- The cells of distinct blocks are distinct. -/
def Apart (C : Store α) : Prop := ∀ p q bs cs, p ≠ q → C p = some bs → C q = some cs →
  p + bs.length ≤ q ∨ q + cs.length ≤ p

/-- The client owns a block in addition. -/
def put (C : Store α) (p : ℕ) (bs : List α) : Store α := Function.update C p (some bs)

/-- The client gives up the block at a pointer, if there is one. -/
def drop (C : Store α) (p : ℕ) : Store α := Function.update C p none

variable {C : Store α} {p q : ℕ} {bs cs : List α}

@[simp] theorem put_same : C.put p bs p = some bs := Function.update_self ..

theorem put_of_ne (h : q ≠ p) : C.put p bs q = C q := Function.update_of_ne h ..

@[simp] theorem put_put : (C.put p bs).put p cs = C.put p cs := Function.update_idem ..

@[simp] theorem drop_same : C.drop p p = none := Function.update_self ..

theorem drop_of_ne (h : q ≠ p) : C.drop p q = C q := Function.update_of_ne h ..

/-- Giving up what is not owned. -/
theorem drop_of_none (h : C p = none) : C.drop p = C := by
  rw [drop, ← h, Function.update_eq_self]

@[simp] theorem drop_put : (C.put p bs).drop p = C.drop p := Function.update_idem ..

@[simp] theorem put_drop : (C.drop p).put p bs = C.put p bs := Function.update_idem ..

/-- Giving up a block that was not owned before. -/
theorem drop_put_of_none (h : C p = none) : (C.put p bs).drop p = C := by
  rw [drop_put, drop_of_none h]

/-- Writing what is there. -/
theorem put_self (h : C p = some bs) : C.put p bs = C := by
  rw [put, ← h, Function.update_eq_self]

/-- Blocks at distinct pointers come and go in any order. -/
theorem put_comm (h : p ≠ q) : (C.put p bs).put q cs = (C.put q cs).put p bs :=
  Function.update_comm h ..

theorem drop_put_comm (h : p ≠ q) : (C.put p bs).drop q = (C.drop q).put p bs :=
  Function.update_comm h ..

/-- A request for `n` cells returns null and does nothing, or it returns a new block of at least
`n` cells, apart from all others. -/
inductive Alloc (C : Store α) (n : ℕ) : ℕ → Store α → Prop
  | refused : Alloc C n 0 C
  | granted {p : ℕ} {bs : List α} (hp : p ≠ 0) (hfresh : C p = none) (hlen : n ≤ bs.length)
      (hapart : (C.put p bs).Apart) : Alloc C n p (C.put p bs)

/-- A request for a block that starts with `bs` returns null and does nothing, or it returns a new
block that does. -/
inductive Makes (C : Store α) (bs : List α) : ℕ → Store α → Prop
  | refused : Makes C bs 0 C
  | made {p : ℕ} (hp : p ≠ 0) (hfresh : C p = none) (rest : List α) :
      Makes C bs p (C.put p (bs ++ rest))

/-- A request to resize the block `p` to `n` cells returns null and does nothing, or it puts a block
of at least `n` cells in its place that starts with the same cells. -/
inductive Resize (C : Store α) (p n : ℕ) : ℕ → Store α → Prop
  | refused : Resize C p n 0 C
  | granted {q : ℕ} {bs cs : List α} (hp : C p = some bs) (hq : q ≠ 0) (hfresh : C.drop p q = none)
      (hlen : n ≤ cs.length) (hkeep : cs.take (min bs.length n) = bs.take (min bs.length n))
      (hapart : ((C.drop p).put q cs).Apart) : Resize C p n q ((C.drop p).put q cs)

/-! ### More blocks -/

/-- `D` has all the blocks of `C`. -/
def Sub (C D : Store α) : Prop := ∀ p bs, C p = some bs → D p = some bs

/-- `D` has in addition to those of `C` new blocks, which start with the given cells. -/
structure Owns (C : Store α) (blocks : List (ℕ × List α)) (D : Store α) : Prop where
  nodup : (blocks.map Prod.fst).Nodup
  fresh : ∀ b ∈ blocks, C b.1 = none
  starts : ∀ b ∈ blocks, ∃ rest, D b.1 = some (b.2 ++ rest)
  frame : ∀ q, (∀ b ∈ blocks, q ≠ b.1) → D q = C q

variable {D E : Store α} {b : ℕ × List α} {blocks l r : List (ℕ × List α)}

theorem Sub.refl (C : Store α) : C.Sub C := fun _ _ hp => hp

theorem Sub.trans (h : C.Sub D) (h' : D.Sub E) : C.Sub E := fun p bs hp => h' p bs (h p bs hp)

/-- A new block comes in addition. -/
theorem sub_put (h : C p = none) : C.Sub (C.put p bs) := by
  intro q cs hq
  rwa [put_of_ne fun heq => by rw [heq, h] at hq; cases hq]

/-- A new block leaves the others. -/
theorem Makes.sub (h : C.Makes bs p D) : C.Sub D := by
  cases h with
  | refused => exact .refl C
  | made _ hfresh _ => exact sub_put hfresh

/-- The new block is there. -/
theorem Makes.at_ptr (h : C.Makes bs p D) (hp : p ≠ 0) : ∃ rest, D p = some (bs ++ rest) := by
  cases h with
  | refused => exact absurd rfl hp
  | made _ _ rest => exact ⟨rest, put_same⟩

/-- A request beside a block. -/
theorem makes_put_iff (hq : C q = none) : (C.put q cs).Makes bs p D ↔
    ∃ E, C.Makes bs p E ∧ E q = none ∧ D = E.put q cs := by
  constructor
  · intro h
    cases h with
    | refused => exact ⟨C, .refused, hq, rfl⟩
    | made hp hfresh rest =>
      have hpq : p ≠ q := fun heq => by
        rw [heq, put_same] at hfresh
        cases hfresh
      rw [put_of_ne hpq] at hfresh
      exact ⟨_, .made hp hfresh rest, by rwa [put_of_ne hpq.symm], put_comm hpq.symm⟩
  · rintro ⟨E, h, hE, rfl⟩
    cases h with
    | refused => exact .refused
    | made hp hfresh rest =>
      have hpq : p ≠ q := fun heq => by
        rw [heq, put_same] at hE
        cases hE
      rw [put_comm hpq]
      exact .made hp (by rwa [put_of_ne hpq]) rest

/-- No new block. -/
theorem owns_nil : C.Owns [] C :=
  ⟨List.nodup_nil, fun _ hb => absurd hb List.not_mem_nil, fun _ hb => absurd hb List.not_mem_nil,
    fun _ _ => rfl⟩

namespace Owns

/-- Without new blocks there are the old ones. -/
theorem eq_of_nil (h : C.Owns [] D) : D = C :=
  funext fun q => h.frame q fun _ hb => absurd hb List.not_mem_nil

/-- The old blocks are still there. -/
theorem sub (h : C.Owns blocks D) : C.Sub D := by
  intro p bs hp
  rwa [h.frame p fun b hb heq => by rw [heq, h.fresh b hb] at hp; cases hp]

/-- What is not owned is not one of the new blocks. -/
theorem ne_of_none (h : C.Owns blocks D) (hp : D p = none) : ∀ b ∈ blocks, p ≠ b.1 := by
  intro b hb heq
  obtain ⟨rest, hrest⟩ := h.starts b hb
  rw [heq, hrest] at hp
  cases hp

/-- One more block. -/
theorem concat (h : C.Owns blocks D) (hp : D p = none) (rest : List α) :
    C.Owns (blocks ++ [(p, bs)]) (D.put p (bs ++ rest)) := by
  have hne := h.ne_of_none hp
  refine ⟨?_, ?_, ?_, fun q hq => ?_⟩
  · rw [List.map_append, List.nodup_append]
    refine ⟨h.nodup, List.nodup_singleton _, ?_⟩
    rintro x hx y hy rfl
    obtain ⟨b, hb, hbx⟩ := List.mem_map.mp hx
    rw [List.map_singleton, List.mem_singleton] at hy
    exact hne b hb (hy.symm.trans hbx.symm)
  · intro b hb
    cases List.mem_append.mp hb with
    | inl hb => exact h.fresh b hb
    | inr hb =>
      rw [List.mem_singleton.mp hb, ← h.frame p hne]
      exact hp
  · intro b hb
    cases List.mem_append.mp hb with
    | inl hb =>
      obtain ⟨rest', hrest⟩ := h.starts b hb
      exact ⟨rest', by rw [put_of_ne (hne b hb).symm, hrest]⟩
    | inr hb =>
      rw [List.mem_singleton.mp hb]
      exact ⟨rest, put_same⟩
  · have hqp : q ≠ p := hq (p, bs) (List.mem_append_right _ (List.mem_singleton_self _))
    rw [put_of_ne hqp, h.frame q fun b hb => hq b (List.mem_append_left _ hb)]

/-- The new blocks in another order. -/
theorem perm (h : C.Owns l D) (hperm : l.Perm r) : C.Owns r D := by
  have hmem : ∀ b, b ∈ r ↔ b ∈ l := fun b => hperm.mem_iff.symm
  refine ⟨(hperm.map _).nodup_iff.mp h.nodup, fun b hb => h.fresh b ((hmem b).mp hb),
    fun b hb => h.starts b ((hmem b).mp hb), fun q hq => h.frame q fun b hb => ?_⟩
  exact hq b ((hmem b).mpr hb)

/-- A request adds a block, if it is not refused. -/
theorem makes (h : C.Owns blocks D) (h' : D.Makes bs p E) :
    C.Owns (blocks ++ if p = 0 then [] else [(p, bs)]) E := by
  cases h' with
  | refused =>
    rw [if_pos rfl, List.append_nil]
    exact h
  | made hp hfresh rest =>
    rw [if_neg hp]
    exact h.concat hfresh rest

/-- Giving up one of the new blocks. -/
theorem erase (h : C.Owns (l ++ b :: r) D) : C.Owns (l ++ r) (D.drop b.1) := by
  have hmem {x : ℕ × List α} (hx : x ∈ l ++ r) : x ∈ l ++ b :: r := by
    rw [List.mem_append] at hx
    rw [List.mem_append, List.mem_cons]
    exact hx.imp_right .inr
  have hnodup := h.nodup
  rw [List.map_append, List.map_cons, List.nodup_middle, List.nodup_cons, ← List.map_append]
    at hnodup
  have hne : ∀ x ∈ l ++ r, x.1 ≠ b.1 := fun x hx heq =>
    hnodup.1 (heq ▸ List.mem_map_of_mem hx)
  refine ⟨hnodup.2, fun x hx => h.fresh x (hmem hx), fun x hx => ?_, fun q hq => ?_⟩
  · rw [drop_of_ne (hne x hx)]
    exact h.starts x (hmem hx)
  · by_cases hqb : q = b.1
    · rw [hqb, drop_same, h.fresh b (by simp)]
    · rw [drop_of_ne hqb]
      refine h.frame q fun x hx => ?_
      rw [List.mem_append, List.mem_cons] at hx
      obtain hx | rfl | hx := hx
      · exact hq x (List.mem_append_left _ hx)
      · exact hqb
      · exact hq x (List.mem_append_right _ hx)

/-- One of the new blocks, as the last one that was added. -/
theorem exists_makes (h : C.Owns (l ++ (if p = 0 then [] else [(p, bs)]) ++ r) D) :
    ∃ E, C.Owns (l ++ r) E ∧ E.Makes bs p D := by
  by_cases hp : p = 0
  · rw [if_pos hp, List.append_nil] at h
    rw [hp]
    exact ⟨D, h, .refused⟩
  · rw [if_neg hp, List.append_assoc, List.singleton_append] at h
    obtain ⟨rest, hrest⟩ := h.starts (p, bs) (by simp)
    have hmade : (D.drop p).Makes bs p ((D.drop p).put p (bs ++ rest)) := .made hp drop_same rest
    rw [put_drop, put_self hrest] at hmade
    exact ⟨D.drop p, h.erase, hmade⟩

end Owns

end Store

/-! ## Parts of a block -/

/-- Overwrite a part of a list. -/
def splice (bs : List α) (i : ℕ) (vs : List α) : List α :=
  bs.take i ++ vs ++ bs.drop (i + vs.length)

variable {bs vs us : List α} {i j : ℕ}

theorem length_splice (h : i + vs.length ≤ bs.length) : (splice bs i vs).length = bs.length := by
  rw [splice, List.length_append, List.length_append, List.length_take, List.length_drop]
  omega

/-- The cells of the overwritten list. -/
theorem getElem?_splice (h : i + vs.length ≤ bs.length) : (splice bs i vs)[j]? =
    if i ≤ j ∧ j < i + vs.length then vs[j - i]? else bs[j]? := by
  have hlen : (bs.take i).length = i := List.length_take_of_le (by omega)
  rw [splice, List.append_assoc]
  by_cases hji : j < i
  · rw [if_neg (by omega), List.getElem?_append_left (by omega), List.getElem?_take_of_lt hji]
  · rw [List.getElem?_append_right (by omega), hlen]
    by_cases hlt : j < i + vs.length
    · rw [if_pos ⟨by omega, hlt⟩, List.getElem?_append_left (by omega)]
    · rw [if_neg (by omega), List.getElem?_append_right (by omega), List.getElem?_drop]
      congr 1
      omega

/-- Overwriting one cell. -/
theorem splice_singleton (b : α) (h : i < bs.length) : splice bs i [b] = bs.set i b := by
  rw [splice, List.set_eq_take_append_cons_drop, if_pos h]
  simp

/-- Overwriting nothing. -/
@[simp] theorem splice_nil : splice bs i [] = bs := by
  rw [splice, List.append_nil, List.length_nil, Nat.add_zero, List.take_append_drop]

/-- Overwriting one part after the other. -/
theorem splice_splice (bs us vs : List α) (i : ℕ) (h : i + us.length + vs.length ≤ bs.length) :
    splice (splice bs i us) (i + us.length) vs = splice bs i (us ++ vs) := by
  have hus : i + us.length ≤ bs.length := by omega
  refine List.ext_getElem? fun j => ?_
  rw [getElem?_splice (by rw [length_splice hus]; exact h), getElem?_splice hus,
    getElem?_splice (by rw [List.length_append]; omega), List.length_append]
  by_cases hi : i ≤ j
  · by_cases hj : j < i + us.length
    · rw [if_neg (by omega), if_pos ⟨hi, hj⟩, if_pos ⟨hi, by omega⟩,
        List.getElem?_append_left (by omega)]
    · by_cases hv : j < i + us.length + vs.length
      · rw [if_pos ⟨by omega, hv⟩, if_pos ⟨hi, by omega⟩, List.getElem?_append_right (by omega),
          Nat.sub_sub]
      · rw [if_neg (by omega), if_neg (by omega), if_neg (by omega)]
  · rw [if_neg (by omega), if_neg (by omega), if_neg (by omega)]

/-- Overwriting the first cells. -/
theorem splice_zero : splice bs 0 vs = vs ++ bs.drop vs.length := by
  rw [splice, List.take_zero, List.nil_append, Nat.zero_add]

/-- Overwriting the cells behind a prefix. -/
theorem splice_append (ws : List α) :
    splice (ws ++ us) ws.length vs = ws ++ (vs ++ us.drop vs.length) := by
  rw [splice, List.take_left, List.append_assoc, ← List.drop_drop, List.drop_left]

/-! ## Bytes and words -/

/-- The `n` bytes from `p`. -/
def contents (m : Memory) (p n : ℕ) : List UInt8 := (List.range n).map fun i => m (p + i)

/-- The low `k` bytes of a number, least significant byte first. -/
def leBytes (k v : ℕ) : List UInt8 := (List.range k).map fun j => UInt8.ofNat (v / 256 ^ j)

/-- The number of some bytes, least significant byte first. -/
def ofLE : List UInt8 → ℕ
  | [] => 0
  | b :: bs => b.toNat + 256 * ofLE bs

variable {m m' : Memory} {p n a k v : ℕ}

/-- A byte is one byte. -/
@[simp] theorem leBytes_one (b : UInt8) : leBytes 1 b.toNat = [b] := by
  change [UInt8.ofNat (b.toNat / 256 ^ 0)] = [b]
  rw [pow_zero, Nat.div_one, UInt8.ofNat_toNat]

@[simp] theorem length_contents : (contents m p n).length = n := by
  rw [contents, List.length_map, List.length_range]

@[simp] theorem length_leBytes : (leBytes k v).length = k := by
  rw [leBytes, List.length_map, List.length_range]

/-- The bytes of a block. -/
theorem getElem?_contents : (contents m p n)[i]? = if i < n then some (m (p + i)) else none := by
  rw [contents, List.getElem?_map]
  split
  · next h => rw [List.getElem?_range h, Option.map_some]
  · next h => rw [List.getElem?_eq_none (by rw [List.length_range]; omega), Option.map_none]

/-- The bytes of a number. -/
theorem getElem?_leBytes :
    (leBytes k v)[i]? = if i < k then some (UInt8.ofNat (v / 256 ^ i)) else none := by
  rw [leBytes, List.getElem?_map]
  split
  · next h => rw [List.getElem?_range h, Option.map_some]
  · next h => rw [List.getElem?_eq_none (by rw [List.length_range]; omega), Option.map_none]

/-- The bytes of a block depend on the memory there. -/
theorem contents_congr (h : ∀ i < n, m' (p + i) = m (p + i)) : contents m' p n = contents m p n :=
  List.map_congr_left fun i hi => h i (List.mem_range.mp hi)

/-- A write into a block overwrites a part of it. -/
theorem contents_writeLE (h : i + k ≤ n) :
    contents (writeLE m (p + i) k v) p n = splice (contents m p n) i (leBytes k v) := by
  refine List.ext_getElem? fun j => ?_
  rw [getElem?_splice (by rw [length_leBytes, length_contents]; exact h), getElem?_contents,
    getElem?_contents, getElem?_leBytes, length_leBytes]
  by_cases hj : i ≤ j ∧ j < i + k
  · rw [if_pos (by omega), if_pos hj, if_pos (by omega), writeLE, if_pos (by omega)]
    congr 4
    omega
  · rw [if_neg hj]
    split
    · rw [writeLE, if_neg (by omega)]
    · rfl

/-- Reading a number from a block. -/
theorem readLE_contents (h : i + k ≤ n) :
    readLE m (p + i) k = ofLE (((contents m p n).drop i).take k) := by
  have hsub : ((contents m p n).drop i).take k = contents m (p + i) k := by
    refine List.ext_getElem? fun j => ?_
    rw [List.getElem?_take, List.getElem?_drop, getElem?_contents, getElem?_contents]
    by_cases hj : j < k
    · rw [if_pos hj, if_pos (by omega), if_pos hj, Nat.add_assoc]
    · rw [if_neg hj, if_neg hj]
  have hread (a k : ℕ) : ofLE (contents m a k) = readLE m a k := by
    induction k generalizing a with
    | zero => rfl
    | succ k ih =>
      rw [contents, List.range_succ_eq_map, List.map_cons, List.map_map, ofLE, readLE, ← ih]
      congr 3
      refine List.map_congr_left fun j _ => ?_
      rw [Function.comp_apply, Nat.add_assoc, Nat.add_comm 1, Nat.succ_eq_add_one]
  rw [hsub, hread]

/-- A number that fits is read back. -/
theorem ofLE_leBytes (h : v < 256 ^ k) : ofLE (leBytes k v) = v := by
  induction k generalizing v with
  | zero =>
    obtain rfl : v = 0 := by simpa using h
    rfl
  | succ k ih =>
    have htail : (List.map (fun j => UInt8.ofNat (v / 256 ^ j)) (List.map Nat.succ (List.range k))) =
        leBytes k (v / 256) := by
      rw [List.map_map, leBytes]
      refine List.map_congr_left fun j _ => ?_
      rw [Function.comp_apply, Nat.succ_eq_add_one, Nat.pow_succ', Nat.div_div_eq_div_mul]
    rw [leBytes, List.range_succ_eq_map, List.map_cons, htail, ofLE, ih, pow_zero, Nat.div_one,
      UInt8.toNat_ofNat']
    · omega
    · rw [Nat.pow_succ'] at h
      exact Nat.div_lt_of_lt_mul h

/-- The bytes of an array of words. -/
def wordBytes (ws : List ℕ) : List UInt8 := ws.flatMap (leBytes 8)

variable {ws : List ℕ} {rest : List UInt8}

@[simp] theorem length_wordBytes : (wordBytes ws).length = 8 * ws.length := by
  induction ws with
  | nil => rfl
  | cons w ws ih =>
    rw [wordBytes, List.flatMap_cons, List.length_append, length_leBytes, ← wordBytes, ih,
      List.length_cons]
    omega

/-- Arrays one behind the other. -/
theorem wordBytes_append (ws vs : List ℕ) :
    wordBytes (ws ++ vs) = wordBytes ws ++ wordBytes vs := List.flatMap_append

/-- Writing a word behind an array. -/
theorem splice_wordBytes : splice (wordBytes ws ++ rest) (8 * ws.length) (leBytes 8 v) =
    wordBytes (ws ++ [v]) ++ rest.drop 8 := by
  have hone : wordBytes [v] = leBytes 8 v := List.append_nil _
  rw [← length_wordBytes, splice_append, length_leBytes, wordBytes_append, hone,
    List.append_assoc]

/-- Reading a word of an array. -/
theorem ofLE_wordBytes (hk : k < ws.length) (h : ws[k] < 2 ^ 64) :
    ofLE (((wordBytes ws ++ rest).drop (8 * k)).take 8) = ws[k] := by
  have hlen : (ws.take k).length = k := List.length_take_of_le (by omega)
  have hsplit : wordBytes ws = wordBytes (ws.take k) ++
      (leBytes 8 ws[k] ++ wordBytes (ws.drop (k + 1))) := by
    conv_lhs => rw [← List.take_append_drop k ws, wordBytes_append,
      List.drop_eq_getElem_cons hk]
    rfl
  have hdrop : (wordBytes (ws.take k)).length = 8 * k := by rw [length_wordBytes, hlen]
  rw [hsplit, List.append_assoc, List.drop_left' hdrop, List.append_assoc,
    List.take_left' length_leBytes, ofLE_leBytes h]

end HeapLib
