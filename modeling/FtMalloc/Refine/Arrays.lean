import FtMalloc.Lib.Words
import FtMalloc.Refine.Strings
import FtMalloc.Source.Arrays

/-!
# What the functions on arrays of strings do to the blocks of the client

`C.Array a strs D` says that `D` has in addition to the blocks of `C` an array at `a` of the strings
`strs`, each in a block of its own. `array_free` takes it back to `C`, and so do the functions that
make an array when a request for one of its strings fails.
-/

namespace FtMalloc

open HeapLib

variable {P : Platform} {K : Kernel P} {s s' : Heap} {w : Task} {C D : Store UInt8} {t : Text}
  {str bs rest : List UInt8} {ws : List ℕ} {strs : List (List UInt8)} {a c : UInt8}
  {p i k n : ℕ}

/-! ## Scans -/

theorem wp_intSucc {Q : ℕ → Heap → Prop} (h : i + 1 < 2 ^ 31) :
    wp (intSucc i) Q s ↔ Q (i + 1) s := by
  rw [intSucc, if_pos h, wp_pure]

/-- Two conditions that agree on a list take the same part of it. -/
theorem takeWhile_congr {p q : UInt8 → Bool} (h : ∀ b ∈ bs, p b = q b) :
    bs.takeWhile p = bs.takeWhile q := by
  induction bs with
  | nil => rfl
  | cons b bs ih =>
    rw [List.takeWhile_cons, List.takeWhile_cons, h b List.mem_cons_self,
      ih fun x hx => h x (List.mem_cons_of_mem _ hx)]

/-- What is left behind the part that is taken. -/
theorem drop_takeWhile (str : List UInt8) (i : ℕ) (p : UInt8 → Bool) :
    str.drop (i + ((str.drop i).takeWhile p).length) = (str.drop i).dropWhile p := by
  have hleft : ((str.drop i).takeWhile p ++ (str.drop i).dropWhile p).drop
      ((str.drop i).takeWhile p).length = (str.drop i).dropWhile p := List.drop_left
  rwa [List.takeWhile_append_dropWhile, List.drop_drop] at hleft

namespace Heap.Sound

/-- A loop along bytes for which `more` holds. -/
theorem wp_skipWhile {Q : ℕ → Heap → Prop} {more : ℕ → Bool} (h : s.Sound P)
    (ht : t.Spells s.client str) (hmore : more 0 = false) (hn : str.length < 2 ^ 31)
    (hi : i ≤ str.length) : wp (skipWhile t more i) Q s ↔
      Q (i + ((str.drop i).takeWhile fun b => more b.toNat).length) s := by
  refine wp_of_run (run_of_wp ?_)
  refine wp_forever (fun n j s' => s' = s ∧ j + n = str.length ∧
    j + ((str.drop j).takeWhile fun b => more b.toNat).length =
      i + ((str.drop i).takeWhile fun b => more b.toNat).length) ?_ (n := str.length - i)
    (by omega) ⟨rfl, by omega, rfl⟩
  rintro n j _ ⟨rfl, hj, hlen⟩
  rw [wp_bind, ht.wp_get h (by omega)]
  by_cases hlt : j < str.length
  · rw [List.drop_eq_getElem_cons hlt] at hlen
    rw [List.getD_eq_getElem _ _ hlt]
    by_cases hb : more str[j].toNat = true
    · rw [List.takeWhile_cons_of_pos (p := fun b : UInt8 => more b.toNat) hb, List.length_cons] at hlen
      rw [wp_ite_pos hb, wp_bind, wp_intSucc (by omega), wp_pure]
      exact ⟨n - 1, by omega, rfl, by omega, by omega⟩
    · rw [List.takeWhile_cons_of_neg (p := fun b : UInt8 => more b.toNat) hb] at hlen
      rw [wp_ite_neg hb, wp_pure]
      exact ⟨hlen, rfl⟩
  · rw [List.drop_eq_nil_of_le (by omega)] at hlen
    rw [List.getD_eq_default _ _ (by omega), UInt8.toNat_zero,
      wp_ite_neg (by rw [hmore]; exact Bool.false_ne_true), wp_pure]
    exact ⟨hlen, rfl⟩

/-- The loop over separators. -/
theorem wp_skipSeparators {Q : ℕ → Heap → Prop} (h : s.Sound P) (ht : t.Spells s.client str)
    (hn : str.length < 2 ^ 31) (hi : i ≤ str.length) : wp (skipSeparators t c.toNat i) Q s ↔
      Q (i + ((str.drop i).takeWhile fun b => b = c).length) s := by
  have hcongr : ((str.drop i).takeWhile fun b => decide (b.toNat = c.toNat) && decide (b.toNat ≠ 0)) =
      (str.drop i).takeWhile fun b => b = c := by
    refine takeWhile_congr fun b hb => ?_
    have hb0 : b ≠ 0 := fun heq => ht.noNul (heq ▸ List.mem_of_mem_drop hb)
    have hz : b.toNat ≠ 0 := fun heq => hb0 (UInt8.toNat_inj.mp heq)
    rw [decide_eq_true hz, Bool.and_true]
    exact decide_eq_decide.mpr UInt8.toNat_inj
  rw [skipSeparators, h.wp_skipWhile ht (by simp) hn hi, hcongr]

/-- The loop over a word. -/
theorem wp_skipWord {Q : ℕ → Heap → Prop} (h : s.Sound P) (ht : t.Spells s.client str)
    (hn : str.length < 2 ^ 31) (hi : i ≤ str.length) : wp (skipWord t c.toNat i) Q s ↔
      Q (i + ((str.drop i).takeWhile fun b => b ≠ c).length) s := by
  have hcongr : ((str.drop i).takeWhile fun b => decide (b.toNat ≠ c.toNat) && decide (b.toNat ≠ 0)) =
      (str.drop i).takeWhile fun b => b ≠ c := by
    refine takeWhile_congr fun b hb => ?_
    have hb0 : b ≠ 0 := fun heq => ht.noNul (heq ▸ List.mem_of_mem_drop hb)
    have hz : b.toNat ≠ 0 := fun heq => hb0 (UInt8.toNat_inj.mp heq)
    rw [decide_eq_true hz, Bool.and_true]
    exact decide_eq_decide.mpr UInt8.toNat_inj.not
  rw [skipWord, h.wp_skipWhile ht (by simp) hn hi, hcongr]

/-- The second loop of `count_split`: from `i` on it counts the words that start behind `i`. -/
theorem wp_countWords {m : ℕ} (h : s.Sound P) (ht : t.Spells s.client str)
    (hn : str.length < 2 ^ 31) (hi : i ≤ str.length)
    (hm : m + (words c ((str.drop i).dropWhile fun b => b ≠ c)).length = (words c str).length) :
    wp (forever (countWord t c.toNat) (i, m))
      (fun r s' => r = (words c str).length ∧ s' = s) s := by
  have htotal : (words c str).length ≤ str.length := length_words_le
  refine wp_forever (fun n v s' => s' = s ∧ v.1 + n = str.length ∧
    v.2 + (words c ((str.drop v.1).dropWhile fun b => b ≠ c)).length = (words c str).length) ?_
    (n := str.length - i) (by omega) ⟨rfl, Nat.add_sub_of_le hi, hm⟩
  rintro n ⟨j, m⟩ _ ⟨rfl, hj, hm⟩
  dsimp only at hj hm
  rw [countWord, wp_bind, ht.wp_get h (by omega)]
  by_cases hlt : j < str.length
  · rw [wp_ite_neg (by rw [toNat_getD_eq_zero ht.noNul (by omega)]; omega),
      List.getD_eq_getElem _ _ hlt]
    rw [List.drop_eq_getElem_cons hlt] at hm
    by_cases hc : str[j] = c
    · rw [List.dropWhile_cons_of_neg (by simpa using hc), hc, words_cons_self] at hm
      rw [wp_ite_pos (UInt8.toNat_inj.mpr hc), wp_bind, ht.wp_get h (by omega)]
      by_cases hnext : (str.getD (j + 1) 0).toNat ≠ c.toNat ∧ (str.getD (j + 1) 0).toNat ≠ 0
      · have hlt' : j + 1 < str.length := by
          have := hnext.2
          rw [ne_eq, toNat_getD_eq_zero ht.noNul (by omega)] at this
          omega
        have hne : str[j + 1] ≠ c := by
          have := hnext.1
          rwa [List.getD_eq_getElem _ _ hlt', ne_eq, UInt8.toNat_inj] at this
        rw [List.drop_eq_getElem_cons hlt', words_cons_of_ne hne, List.length_cons,
          ← List.drop_eq_getElem_cons hlt'] at hm
        rw [wp_ite_pos hnext, wp_bind, wp_intSucc (by omega), wp_bind, wp_intSucc (by omega),
          wp_pure]
        exact ⟨n - 1, by omega, rfl, by dsimp only; omega, by dsimp only; omega⟩
      · have hdrop : (str.drop (j + 1)).dropWhile (fun b => b ≠ c) = str.drop (j + 1) := by
          by_cases hlt' : j + 1 < str.length
          · rw [List.getD_eq_getElem _ _ hlt'] at hnext
            have hself : str[j + 1] = c := by
              by_contra hne
              refine hnext ⟨fun heq => hne (UInt8.toNat_inj.mp heq), fun heq => ?_⟩
              have hzero : str[j + 1] = 0 := UInt8.toNat_inj.mp heq
              exact ht.noNul (hzero ▸ List.getElem_mem hlt')
            rw [List.drop_eq_getElem_cons hlt', List.dropWhile_cons_of_neg (by simpa using hself)]
          · rw [List.drop_eq_nil_of_le (by omega)]
            rfl
        rw [wp_ite_neg hnext, wp_bind, wp_intSucc (by omega), wp_pure]
        refine ⟨n - 1, by omega, rfl, by dsimp only; omega, ?_⟩
        dsimp only
        rwa [hdrop]
    · rw [List.dropWhile_cons_of_pos (by simpa using hc)] at hm
      rw [wp_ite_neg (by rwa [UInt8.toNat_inj]), wp_bind, wp_intSucc (by omega), wp_pure]
      exact ⟨n - 1, by omega, rfl, by dsimp only; omega, hm⟩
  · rw [List.drop_eq_nil_of_le (by omega), List.dropWhile_nil, words_nil, List.length_nil] at hm
    rw [wp_ite_pos ((toNat_getD_eq_zero ht.noNul (by omega)).mpr (by omega)), wp_pure]
    exact ⟨hm, rfl⟩

/-- `count_split` counts the words. -/
theorem wp_countSplit {Q : ℕ → Heap → Prop} (h : s.Sound P) (ht : t.Spells s.client str)
    (hn : str.length < 2 ^ 31) :
    wp (countSplit t c.toNat) Q s ↔ Q (words c str).length s := by
  refine wp_of_run (run_of_wp ?_)
  have hskip := drop_takeWhile str 0 fun b => b = c
  have hle : 0 + ((str.drop 0).takeWhile fun b => b = c).length ≤ str.length := by
    rw [Nat.zero_add]
    exact (List.takeWhile_sublist _).length_le
  rw [countSplit, wp_bind, h.wp_skipSeparators ht hn (Nat.zero_le _)]
  generalize 0 + ((str.drop 0).takeWhile fun b => b = c).length = i at hskip hle ⊢
  have hwords : words c (str.drop i) = words c str := by rw [hskip, List.drop_zero, words_dropWhile]
  rw [wp_bind, ht.wp_get h hle]
  refine h.wp_countWords ht hn hle ?_
  rw [← hwords]
  by_cases hlt : i < str.length
  · have hne : str[i] ≠ c := by
      have hhead := List.head?_dropWhile_not (fun b => decide (b = c)) (str.drop 0)
      rw [← hskip, List.drop_eq_getElem_cons hlt, List.head?_cons] at hhead
      exact of_decide_eq_false hhead
    rw [if_neg (by rw [toNat_getD_eq_zero ht.noNul hle]; omega), List.drop_eq_getElem_cons hlt,
      words_cons_of_ne hne, List.length_cons, Nat.add_comm]
  · rw [if_pos ((toNat_getD_eq_zero ht.noNul hle).mpr (by omega)),
      List.drop_eq_nil_of_le (by omega), List.dropWhile_nil, Nat.zero_add]

/-- `word_len`. -/
theorem wp_wordLen {Q : ℕ → Heap → Prop} (h : s.Sound P) (ht : t.Spells s.client str)
    (hn : str.length < 2 ^ 31) (hi : i ≤ str.length) : wp (wordLen (t.add i) c.toNat) Q s ↔
      Q ((str.drop i).takeWhile fun b => b ≠ c).length s := by
  have hsplit : t.Spells s.client (str.take i ++ str.drop i) := by rwa [List.take_append_drop]
  have hadd := hsplit.add
  rw [List.length_take_of_le hi] at hadd
  rw [wordLen, h.wp_skipWord hadd (by rw [List.length_drop]; omega) (Nat.zero_le _), List.drop_zero,
    Nat.zero_add]

end Heap.Sound

/-! ## Arrays of pointers -/

/-- `D` has in addition to the blocks of `C` an array at `a` of the strings `strs`, each in a block
of its own. -/
def OwnsArray (C : Store UInt8) (a : ℕ) (strs : List (List UInt8)) (D : Store UInt8) : Prop :=
  ∃ blocks E rest, C.Owns blocks E ∧ blocks.map Prod.snd = strs.map (· ++ [0]) ∧ E a = none ∧
    D = E.put a (wordBytes (blocks.map Prod.fst ++ [0]) ++ rest)

/-- What a function leaves that makes an array: null, and a request has been refused, or the array,
and none has. -/
structure Task.MadeArray (P : Platform) (C : Store UInt8) (strs : List (List UInt8)) (w : Task)
    (a : ℕ) (w' : Task) : Prop where
  sound : w'.heap.Sound P
  refused : w'.refused = (w.refused || decide (a = null))
  blocks : a = null ∧ w'.heap.client = C ∨ OwnsArray C a strs w'.heap.client

/-- The texts are the strings `strs`, no more than an `int` can count with the null pointer that
ends the array. -/
structure Texts.Spells (ts : Texts) (C : Store UInt8) (strs : List (List UInt8)) : Prop where
  bound : strs.length + 1 < 2 ^ 31
  here : ∃ texts : List Text, List.Forall₂ (fun t str => t.Spells C str) texts strs ∧
    match ts with
    | .heap a => ∃ p bs i ps rest, a = p + i ∧ C p = some bs ∧
        bs.drop i = wordBytes (ps ++ [0]) ++ rest ∧ texts = ps.map .heap
    | .const l => l = texts

namespace Texts.Spells

variable {ts : Texts}

/-- The strings of an array are strings. -/
theorem mem (h : ts.Spells C strs) : ∀ str ∈ strs, 0 ∉ str ∧ str.length + 1 < 2 ^ 64 := by
  obtain ⟨texts, hspells, -⟩ := h.here
  intro str hstr
  obtain ⟨k, hk, rfl⟩ := List.getElem_of_mem hstr
  have hspell := hspells.get (by rw [hspells.length_eq]; exact hk) hk
  exact ⟨hspell.noNul, hspell.bound⟩

/-- An array is not null. -/
theorem isNull (h : ts.Spells s.client strs) (hs : s.Sound P) : ts.isNull = false := by
  obtain ⟨texts, -, hts⟩ := h.here
  cases ts with
  | heap a =>
    obtain ⟨p, bs, i, ps, rest, rfl, hp, -⟩ := hts
    have := hs.ne_null hp
    refine decide_eq_false fun heq => this ?_
    simp only [null] at heq ⊢
    omega
  | const l => rfl

/-- Reading a pointer of an array in the heap. -/
theorem wp_getPtr {Q : Text → Heap → Prop} {bs : List UInt8} (hs : s.Sound P)
    (hp : s.client p = some bs) (hbs : bs.drop i = wordBytes ws ++ rest) (hk : k < ws.length)
    (hw : ws[k] < 2 ^ 64) : wp ((Texts.heap (p + i)).get k) Q s ↔ Q (.heap ws[k]) s := by
  have hlen := congrArg List.length hbs
  rw [List.length_drop, List.length_append, length_wordBytes] at hlen
  rw [Texts.get, wp_bind, Nat.add_assoc, hs.wp_load hp (by omega), ← List.drop_drop, hbs,
    ofLE_wordBytes hk hw, wp_pure]

/-- Reading a text of an array. -/
theorem wp_get {Q : Text → Heap → Prop} (h : ts.Spells C strs) (hsub : C.Sub s.client)
    (hs : s.Sound P) (hk : k < strs.length) (hQ : ∀ t, t.Spells C strs[k] → Q t s) :
    wp (ts.get k) Q s := by
  obtain ⟨texts, hspells, hts⟩ := h.here
  have hlen : texts.length = strs.length := hspells.length_eq
  have hspell : texts[k].Spells C strs[k] := hspells.get (by omega) hk
  cases ts with
  | heap a =>
    obtain ⟨p, bs, i, ps, rest, rfl, hp, hbs, rfl⟩ := hts
    rw [List.length_map] at hlen
    have hlt : k < (ps ++ [0]).length := by simp; omega
    have hget : (ps ++ [0])[k] = ps[k] := List.getElem_append_left (by omega)
    rw [List.getElem_map] at hspell
    have hbound : ps[k] < 2 ^ 64 := by
      obtain ⟨q, cs, j, rest', heq, hq, hcs⟩ := hspell.here
      have hend := hs.bound (hsub q cs hq)
      have hj := congrArg List.length hcs
      simp only [List.length_drop, List.length_append, List.length_cons] at hj
      omega
    rw [wp_getPtr hs (hsub p bs hp) hbs hlt (by rwa [hget]), hget]
    exact hQ _ hspell
  | const l =>
    subst hts
    rw [Texts.get, if_pos (by omega), wp_pure, List.getD_eq_getElem _ _ (by omega)]
    exact hQ _ hspell

/-- Reading the null pointer at the end of an array. -/
theorem wp_getEnd {Q : Text → Heap → Prop} (h : ts.Spells C strs) (hsub : C.Sub s.client)
    (hs : s.Sound P) (hQ : Q (.heap null) s) : wp (ts.get strs.length) Q s := by
  obtain ⟨texts, hspells, hts⟩ := h.here
  have hlen : texts.length = strs.length := hspells.length_eq
  cases ts with
  | heap a =>
    obtain ⟨p, bs, i, ps, rest, rfl, hp, hbs, rfl⟩ := hts
    rw [List.length_map] at hlen
    have hlt : strs.length < (ps ++ [0]).length := by simp; omega
    have hget : (ps ++ [0])[strs.length] = 0 := by simp [← hlen]
    rwa [wp_getPtr hs (hsub p bs hp) hbs hlt (by rw [hget]; decide), hget]
  | const l =>
    subst hts
    rwa [Texts.get, if_pos (by omega), wp_pure, List.getD_eq_default _ _ (by omega)]

end Texts.Spells

/-- Owned strings are texts. -/
theorem spells_of_owns {blocks : List (ℕ × List UInt8)}
    (hread : ∀ b ∈ blocks, ∃ rest, D b.1 = some (b.2 ++ rest))
    (hsnd : blocks.map Prod.snd = strs.map (· ++ [0]))
    (hstrs : ∀ str ∈ strs, 0 ∉ str ∧ str.length + 1 < 2 ^ 64) :
    List.Forall₂ (fun t str => Text.Spells t D str) ((blocks.map Prod.fst).map .heap) strs := by
  induction blocks generalizing strs with
  | nil =>
    obtain rfl : strs = [] := List.map_eq_nil_iff.mp hsnd.symm
    exact .nil
  | cons b blocks ih =>
    cases strs with
    | nil => cases hsnd
    | cons str strs =>
      obtain ⟨hb, hsnd⟩ := List.cons.inj hsnd
      obtain ⟨rest, hrest⟩ := hread b List.mem_cons_self
      obtain ⟨hno, hlen⟩ := hstrs str List.mem_cons_self
      rw [hb] at hrest
      exact .cons (Text.spells_block hno hlen hrest)
        (ih (fun b hb => hread b (List.mem_cons_of_mem _ hb)) hsnd
          fun str hstr => hstrs str (List.mem_cons_of_mem _ hstr))

/-- Such an array is one that the functions can read. -/
theorem OwnsArray.spells {a : ℕ} (h : OwnsArray C a strs D) (hbound : strs.length + 1 < 2 ^ 31)
    (hstrs : ∀ str ∈ strs, 0 ∉ str ∧ str.length + 1 < 2 ^ 64) : (Texts.heap a).Spells D strs := by
  obtain ⟨blocks, E, rest, hown, hsnd, hE, rfl⟩ := h
  refine ⟨hbound, (blocks.map Prod.fst).map .heap, spells_of_owns (fun b hb => ?_) hsnd hstrs, a, _,
    0, blocks.map Prod.fst, rest, rfl, Store.put_same, rfl, rfl⟩
  obtain ⟨rest', hrest⟩ := hown.starts b hb
  refine ⟨rest', ?_⟩
  rwa [Store.put_of_ne fun heq => by rw [heq, hE] at hrest; cases hrest]

/-- The loop of `ft_split` before `i` more words from `n` on: the array at `a` starts with the `nb`
words before them. -/
structure Splitting (C : Store UInt8) (str : List UInt8) (c : UInt8) (a : ℕ) (v : ℕ × ℕ × ℕ)
    (D : Store UInt8) : Prop where
  n_le : v.2.1 ≤ str.length
  left : (words c (str.drop v.2.1)).length = v.1
  array : ∃ blocks E rest, C.Owns blocks E ∧ E a = none ∧
    D = E.put a (wordBytes (blocks.map Prod.fst) ++ rest) ∧ 8 * (v.1 + 1) ≤ rest.length ∧
    v.2.2 = blocks.length ∧ blocks.map Prod.snd ++ (words c (str.drop v.2.1)).map (· ++ [0]) =
      (words c str).map (· ++ [0])

namespace Heap.Sound

variable {E : Store UInt8} {blocks : List (ℕ × List UInt8)} {a v : ℕ} {ts : Texts}

/-- Reading a pointer of an array. -/
theorem wp_loadPtr {Q : ℕ → Heap → Prop} (h : s.Sound P)
    (ha : s.client a = some (wordBytes ws ++ rest)) (hk : k < ws.length) (hw : ws[k] < 2 ^ 64) :
    wp (load 8 (a + 8 * k)) Q s ↔ Q ws[k] s := by
  rw [h.wp_load ha (by rw [List.length_append, length_wordBytes]; omega), ofLE_wordBytes hk hw]

/-- Writing a pointer behind the others. -/
theorem wp_storePtr {Q : Unit → Heap → Prop} (h : s.Sound P)
    (hs : s.client = C.put a (wordBytes ws ++ rest)) (hfit : 8 ≤ rest.length)
    (hQ : ∀ s', s'.Sound P → s'.client = C.put a (wordBytes (ws ++ [v]) ++ rest.drop 8) →
      Q () s') : wp (store 8 (a + 8 * ws.length) v) Q s := by
  refine h.wp_store (by rw [hs, Store.put_same])
    (by rw [List.length_append, length_wordBytes]; omega) fun s' hs' heq => hQ s' hs' ?_
  rw [heq, hs, Store.put_put, splice_wordBytes]

/-- Freeing a block that is not `a`. -/
theorem wp_freeOther (h : s.Sound P) (hs : s.client = C.put a bs) (hp : p ≠ a) :
    wp (free P p) (fun _ s' => s'.Sound P ∧ s'.client = (C.drop p).put a bs) s := by
  refine wp_mono (h.wp_free p) ?_
  rintro _ s' ⟨hsound, hclient⟩
  exact ⟨hsound, by rw [hclient, hs, Store.drop_put_comm hp.symm]⟩

/-- Freeing the null pointer. -/
theorem wp_freeNull (h : s.Sound P) :
    wp (free P null) (fun _ s' => s'.Sound P ∧ s'.client = s.client) s := by
  refine wp_mono (h.wp_free null) ?_
  rintro _ s' ⟨hsound, hclient⟩
  rw [Store.drop_of_none (Option.eq_none_iff_forall_ne_some.mpr fun bs hbs => h.ne_null hbs rfl)]
    at hclient
  exact ⟨hsound, hclient⟩

/-- The blocks of an array are not the array. -/
theorem block_ne (h : s.Sound P) (hown : C.Owns blocks E) (hE : E a = none)
    (hs : s.client = E.put a bs) {b : ℕ × List UInt8} (hb : b ∈ blocks) :
    b.1 ≠ a ∧ b.1 ≠ null ∧ b.1 < 2 ^ 64 := by
  obtain ⟨rest, hrest⟩ := hown.starts b hb
  have hne : b.1 ≠ a := fun heq => by rw [heq, hE] at hrest; cases hrest
  have hclient : s.client b.1 = some (b.2 ++ rest) := by rw [hs, Store.put_of_ne hne, hrest]
  have hbound := h.bound hclient
  exact ⟨hne, h.ne_null hclient, by omega⟩

/-- Reading a pointer of an array that a null pointer ends. -/
theorem wp_loadBlock {Q : ℕ → Heap → Prop} (h : s.Sound P)
    (ha : s.client a = some (wordBytes (blocks.map Prod.fst ++ [0]) ++ rest))
    (hk : k < blocks.length) (hw : blocks[k].1 < 2 ^ 64) :
    wp (load 8 (a + 8 * k)) Q s ↔ Q blocks[k].1 s := by
  have hlt : k < (blocks.map Prod.fst ++ [0]).length := by simp; omega
  have hget : (blocks.map Prod.fst ++ [0])[k] = blocks[k].1 := by
    rw [List.getElem_append_left (by rwa [List.length_map]), List.getElem_map]
  rw [h.wp_loadPtr ha hlt (by rwa [hget]), hget]

/-- Reading the null pointer at its end. -/
theorem wp_loadEnd {Q : ℕ → Heap → Prop} (h : s.Sound P)
    (ha : s.client a = some (wordBytes (blocks.map Prod.fst ++ [0]) ++ rest)) :
    wp (load 8 (a + 8 * blocks.length)) Q s ↔ Q null s := by
  have hlt : blocks.length < (blocks.map Prod.fst ++ [0]).length := by simp
  have hget : (blocks.map Prod.fst ++ [0])[blocks.length] = 0 := by simp
  rw [h.wp_loadPtr ha hlt (by rw [hget]; decide), hget, null]

/-- `free_split` gives up the array and the blocks before `nb`. -/
theorem wp_freeSplit (h : s.Sound P) (hown : C.Owns blocks E) (hE : E a = none)
    (hs : s.client = E.put a (wordBytes (blocks.map Prod.fst ++ [0]) ++ rest))
    (hn : blocks.length + 1 < 2 ^ 64) : wp (freeSplit P a blocks.length)
      (fun r s' => r = null ∧ s'.Sound P ∧ s'.client = C) s := by
  have hptr {b : ℕ × List UInt8} (hb : b ∈ blocks) := h.block_ne hown hE hs hb
  rw [freeSplit, wp_bind]
  refine wp_forever (fun n (nb : ℤ) s' => s'.Sound P ∧ nb + 1 = n ∧ n ≤ blocks.length + 1 ∧
    ∃ E, C.Owns (blocks.take n) E ∧ E a = none ∧
      s'.client = E.put a (wordBytes (blocks.map Prod.fst ++ [0]) ++ rest)) ?_ hn
    ⟨h, rfl, Nat.le_refl _, E, by rwa [List.take_of_length_le (Nat.le_succ _)], hE, hs⟩
  rintro n nb s' ⟨hsound, hnb, hle, E, hown, hE, hs⟩
  have ha : s'.client a = some (wordBytes (blocks.map Prod.fst ++ [0]) ++ rest) := by
    rw [hs, Store.put_same]
  cases n with
  | zero =>
    rw [List.take_zero] at hown
    rw [hown.eq_of_nil] at hs hE
    rw [wp_ite_neg (by omega), wp_pure]
    dsimp only [Sum.elim_inr]
    rw [wp_bind]
    refine wp_mono (hsound.wp_free a) ?_
    rintro _ s'' ⟨hsound', hclient⟩
    rw [wp_pure, hclient, hs]
    exact ⟨rfl, hsound', Store.drop_put_of_none hE⟩
  | succ k =>
    obtain rfl : nb = k := by omega
    rw [wp_ite_pos (by omega), wp_bind, Int.toNat_natCast]
    by_cases hk : k < blocks.length
    · have hb := hptr (List.getElem_mem hk)
      rw [hsound.wp_loadBlock ha hk hb.2.2, wp_bind]
      refine wp_mono (hsound.wp_freeOther hs hb.1) ?_
      rintro _ s'' ⟨hsound', hclient⟩
      rw [wp_pure]
      refine ⟨k, Nat.lt_succ_self k, hsound', by omega, by omega, E.drop blocks[k].1, ?_, ?_, hclient⟩
      · rw [← List.take_append_getElem hk] at hown
        have herase := hown.erase
        rwa [List.append_nil] at herase
      · rw [Store.drop_of_ne hb.1.symm, hE]
    · obtain rfl : k = blocks.length := by omega
      rw [hsound.wp_loadEnd ha, wp_bind]
      refine wp_mono hsound.wp_freeNull ?_
      rintro _ s'' ⟨hsound', hclient⟩
      rw [wp_pure]
      refine ⟨_, Nat.lt_succ_self _, hsound', by omega, by omega, E, ?_, hE, hclient.trans hs⟩
      rw [List.take_of_length_le (Nat.le_succ _)] at hown
      rwa [List.take_length]

/-- `array_free` gives up the array and its strings. -/
theorem wp_arrayFree {strs : List (List UInt8)} (h : s.Sound P)
    (harray : OwnsArray C a strs s.client) (hn : strs.length < 2 ^ 31) :
    wp (arrayFree P a) (fun _ s' => s'.Sound P ∧ s'.client = C) s := by
  obtain ⟨blocks, E, rest, hown, hstrs, hE, hs⟩ := harray
  have hlen : blocks.length = strs.length := by
    have := congrArg List.length hstrs
    rwa [List.length_map, List.length_map] at this
  have hptr {b : ℕ × List UInt8} (hb : b ∈ blocks) := h.block_ne hown hE hs hb
  have hne : a ≠ null := h.ne_null (by rw [hs, Store.put_same])
  rw [arrayFree, wp_ite_neg hne, wp_bind]
  refine wp_forever (fun n i s' => s'.Sound P ∧ i + n = blocks.length ∧
    ∃ E, C.Owns (blocks.drop i) E ∧ E a = none ∧
      s'.client = E.put a (wordBytes (blocks.map Prod.fst ++ [0]) ++ rest)) ?_
    (n := blocks.length) (by omega) ⟨h, Nat.zero_add _, E, hown, hE, hs⟩
  rintro n i s' ⟨hsound, hi, E, hown, hE, hs⟩
  have ha : s'.client a = some (wordBytes (blocks.map Prod.fst ++ [0]) ++ rest) := by
    rw [hs, Store.put_same]
  rw [wp_bind]
  by_cases hlt : i < blocks.length
  · have hb := hptr (List.getElem_mem hlt)
    rw [hsound.wp_loadBlock ha hlt hb.2.2, wp_ite_neg hb.2.1, wp_bind]
    refine wp_mono (hsound.wp_freeOther hs hb.1) ?_
    rintro _ s'' ⟨hsound', hclient⟩
    rw [wp_bind, wp_intSucc (by omega), wp_pure]
    refine ⟨n - 1, by omega, hsound', by omega, E.drop blocks[i].1, ?_, ?_, hclient⟩
    · rw [List.drop_eq_getElem_cons hlt] at hown
      exact hown.erase (l := [])
    · rw [Store.drop_of_ne hb.1.symm, hE]
  · obtain rfl : i = blocks.length := by omega
    rw [List.drop_length] at hown
    rw [hown.eq_of_nil] at hs hE
    rw [hsound.wp_loadEnd ha, wp_ite_pos rfl, wp_pure]
    refine wp_mono (hsound.wp_free a) ?_
    rintro _ s'' ⟨hsound', hclient⟩
    rw [hclient, hs]
    exact ⟨hsound', Store.drop_put_of_none hE⟩

/-- A new string of the array: its pointer is stored behind the others and read again. -/
theorem wp_storeBlock {β : Type} {f : ℕ → T β} {Q : β → Task → Prop} (h : w.heap.Sound P)
    (hown : C.Owns blocks E) (hE : E a = none)
    (hmakes : (E.put a (wordBytes (blocks.map Prod.fst) ++ rest)).Makes str p w.heap.client)
    (hfit : 8 ≤ rest.length) (hfail : ∀ s', s'.Sound P → p = null → s'.client =
      E.put a (wordBytes (blocks.map Prod.fst ++ [0]) ++ rest.drop 8) →
      wp (f null) Q { w with heap := s' })
    (hdone : ∀ E' s', s'.Sound P → p ≠ null → C.Owns (blocks ++ [(p, str)]) E' → E' a = none →
      s'.client = E'.put a (wordBytes ((blocks ++ [(p, str)]).map Prod.fst) ++ rest.drop 8) →
      wp (f p) Q { w with heap := s' }) :
    wp ((liftM (store 8 (a + 8 * blocks.length) p) : T Unit) >>= fun _ =>
      (liftM (load 8 (a + 8 * blocks.length)) : T ℕ) >>= f) Q w := by
  have hlast (v : ℕ) : blocks.length < (blocks.map Prod.fst ++ [v]).length := by simp
  have hget (v : ℕ) : (blocks.map Prod.fst ++ [v])[blocks.length] = v := by simp
  have hread {v : ℕ} {s' : Heap} {D : Store UInt8} (hsound : s'.Sound P) (hv : v < 2 ^ 64)
      (hs' : s'.client = D.put a (wordBytes (blocks.map Prod.fst ++ [v]) ++ rest.drop 8))
      (hf : wp (f v) Q { w with heap := s' }) :
      wp ((liftM (load 8 (a + 8 * blocks.length)) : T ℕ) >>= f) Q { w with heap := s' } := by
    rw [wp_bind, wp_lift, hsound.wp_loadPtr (by rw [hs', Store.put_same]) (hlast v) (by rwa [hget]),
      hget]
    exact hf
  have hstore (v : ℕ) (D : Store UInt8)
      (hs : w.heap.client = D.put a (wordBytes (blocks.map Prod.fst) ++ rest))
      (hQ : ∀ s', s'.Sound P →
        s'.client = D.put a (wordBytes (blocks.map Prod.fst ++ [v]) ++ rest.drop 8) →
          wp ((liftM (load 8 (a + 8 * blocks.length)) : T ℕ) >>= f) Q { w with heap := s' }) :
      wp (store 8 (a + 8 * blocks.length) v) (fun _ s' =>
        wp ((liftM (load 8 (a + 8 * blocks.length)) : T ℕ) >>= f) Q { w with heap := s' })
        w.heap := by
    have hset := h.wp_storePtr hs hfit (Q := fun _ s' =>
      wp ((liftM (load 8 (a + 8 * blocks.length)) : T ℕ) >>= f) Q { w with heap := s' }) hQ
    rwa [List.length_map] at hset
  generalize hD : w.heap.client = D at hmakes hstore
  rw [wp_bind, wp_lift]
  cases hmakes with
  | refused =>
    exact hstore 0 E rfl fun s' hsound hclient =>
      hread hsound (by decide) hclient (hfail s' hsound rfl hclient)
  | made hp hfresh rest' =>
    have hpa : p ≠ a := fun heq => by
      rw [heq, Store.put_same] at hfresh
      cases hfresh
    have hEp : E p = none := by rwa [Store.put_of_ne hpa] at hfresh
    have hbound : p < 2 ^ 64 := by
      have := h.bound (p := p) (by rw [hD, Store.put_same])
      omega
    refine hstore p (E.put p (str ++ rest')) (Store.put_comm hpa.symm)
      fun s' hsound hclient => hread hsound hbound hclient ?_
    refine hdone (E.put p (str ++ rest')) s' hsound hp (hown.concat hEp rest') ?_ ?_
    · rw [Store.put_of_ne hpa.symm, hE]
    · rw [hclient, List.map_append, List.map_singleton]

/-- One word of `ft_split`. -/
theorem wp_splitWord {v : ℕ × ℕ × ℕ} (h : w.heap.Sound P) (ht : t.Spells C str)
    (hn : str.length + 1 < 2 ^ 31) (hv : Splitting C str c a v w.heap.client) :
    wp (splitWord K t c.toNat a v) (fun r w' => w'.heap.Sound P ∧
      r.elim (fun v' => v'.1 + 1 = v.1 ∧ Splitting C str c a v' w'.heap.client ∧
        w'.refused = w.refused) (fun o => o.elim (w'.heap.client = C ∧ w'.refused = true)
          (fun nb => v.1 = 0 ∧ nb = v.2.2 ∧ w' = w))) w := by
  obtain ⟨i, n, nb⟩ := v
  obtain ⟨hle, hleft, blocks, E, rest, hown, hE, hs, hrest, hnb, hdone⟩ := hv
  dsimp only at hle hleft hrest hnb hdone ⊢
  subst hnb
  have htotal : (words c str).length ≤ str.length := length_words_le
  have hcount : blocks.length + i = (words c str).length := by
    have hlen := congrArg List.length hdone
    simp only [List.length_append, List.length_map] at hlen
    omega
  have hsub {D : Store UInt8} {bs : List UInt8} (hD : D = E.put a bs) : t.Spells D str := by
    rw [hD]
    exact ht.mono (hown.sub.trans (Store.sub_put hE))
  rw [splitWord]
  by_cases hi : i = 0
  · rw [wp_ite_pos hi, wp_pure]
    exact ⟨h, hi, rfl, rfl⟩
  · have hskip := drop_takeWhile str n fun b => b = c
    have hle' : n + ((str.drop n).takeWhile fun b => b = c).length ≤ str.length := by
      have := ((str.drop n).takeWhile_sublist fun b => decide (b = c)).length_le
      rw [List.length_drop] at this
      omega
    rw [wp_ite_neg hi, wp_bind, wp_lift, h.wp_skipSeparators (hsub hs) (by omega) hle]
    generalize n + ((str.drop n).takeWhile fun b => b = c).length = m at hskip hle' ⊢
    have hwords : words c (str.drop m) = words c (str.drop n) := by rw [hskip, words_dropWhile]
    have hlt : m < str.length := by
      by_contra hge
      rw [← hwords, List.drop_eq_nil_of_le (by omega), words_nil] at hleft
      exact hi hleft.symm
    have hne : str[m] ≠ c := by
      have hhead := List.head?_dropWhile_not (fun b => decide (b = c)) (str.drop n)
      rw [← hskip, List.drop_eq_getElem_cons hlt, List.head?_cons] at hhead
      exact of_decide_eq_false hhead
    have hword : words c (str[m] :: str.drop (m + 1)) = _ := words_cons_of_ne hne
    rw [← List.drop_eq_getElem_cons hlt, ← drop_takeWhile] at hword
    have htake : (str.drop m).take ((str.drop m).takeWhile fun b => b ≠ c).length =
        (str.drop m).takeWhile fun b => b ≠ c :=
      (List.prefix_iff_eq_take.mp (List.takeWhile_prefix _)).symm
    have hend : m + ((str.drop m).takeWhile fun b => b ≠ c).length ≤ str.length := by
      have := ((str.drop m).takeWhile_sublist fun b => decide (b ≠ c)).length_le
      rw [List.length_drop] at this
      omega
    rw [← hwords, hword] at hdone hleft
    rw [List.length_cons] at hleft
    rw [wp_bind, wp_lift, h.wp_wordLen (hsub hs) (by omega) (by omega), wp_bind]
    refine wp_mono (h.wp_ftSubstr rfl (hsub hs) (by omega)) ?_
    rw [htake]
    rintro p w' ⟨hsound, hmakes, hrefused⟩
    rw [hs] at hmakes
    have hsucc : blocks.length + 1 < 2 ^ 31 := by omega
    refine hsound.wp_storeBlock hown hE hmakes (by omega) ?_ ?_
    · intro s'' hsound' hp hclient
      rw [wp_bind, wp_lift, wp_intSucc hsucc, wp_ite_pos rfl, wp_bind, wp_lift]
      have hpred : ((blocks.length + 1 : ℕ) : ℤ) - 1 = blocks.length := by omega
      rw [hpred]
      refine wp_mono (hsound'.wp_freeSplit hown hE hclient (by omega)) ?_
      rintro _ s₃ ⟨-, hsound₃, hclient₃⟩
      rw [wp_pure]
      rw [decide_eq_true hp, Bool.or_true] at hrefused
      exact ⟨hsound₃, hclient₃, hrefused⟩
    · intro E' s'' hsound' hp hown' hE' hclient
      have hsub' : t.Spells s''.client str := by
        rw [hclient]
        exact ht.mono (hown'.sub.trans (Store.sub_put hE'))
      rw [decide_eq_false hp, Bool.or_false] at hrefused
      rw [wp_bind, wp_lift, wp_intSucc hsucc, wp_ite_neg hp, wp_bind, wp_lift,
        hsound'.wp_skipWord hsub' (by omega) (by omega), wp_pure]
      refine ⟨hsound', by dsimp only; omega, ⟨hend, by dsimp only; omega, _, E', _, hown', hE',
        hclient, ?_, by simp, ?_⟩, hrefused⟩
      · rw [List.length_drop]
        dsimp only
        omega
      · rw [List.map_append, List.append_assoc]
        exact hdone

/-- `ft_split`. -/
theorem wp_ftSplit (h : w.heap.Sound P) (hs : w.heap.client = C) (ht : t.Spells C str)
    (hn : str.length + 1 < 2 ^ 31) :
    wp (ftSplit K t c) (fun r w' => w.MadeArray P C (words c str) r w') w := by
  have htotal : (words c str).length ≤ str.length := length_words_le
  rw [ftSplit, wp_bind, wp_lift, h.wp_countSplit (hs ▸ ht) (by omega), wp_bind, wp_lift,
    wp_intSucc (by omega), wp_bind, Nat.mod_eq_of_lt (by omega)]
  refine wp_mono (h.wp_alloc hs _) ?_
  rintro a w₁ ⟨hsound, hrefused, ⟨rfl, hclient⟩ | ⟨ha, hfresh, bs, hlen, hclient⟩⟩
  · rw [wp_ite_pos rfl, wp_pure]
    exact ⟨hsound, hrefused, .inl ⟨rfl, hclient⟩⟩
  · have hstart : Splitting C str c a ((words c str).length, 0, 0) w₁.heap.client := by
      rw [hclient]
      exact ⟨Nat.zero_le _, rfl, [], C, bs, Store.owns_nil, hfresh, rfl, hlen, rfl, rfl⟩
    rw [decide_eq_false ha, Bool.or_false] at hrefused
    rw [wp_ite_neg ha, wp_bind]
    have hloop : wp (iterate (splitWord K t c.toNat a) loopBound ((words c str).length, 0, 0))
        (fun o w₂ => w₂.heap.Sound P ∧ o.elim (w₂.heap.client = C ∧ w₂.refused = true)
          (fun nb => w₂.refused = w.refused ∧ ∃ n, Splitting C str c a (0, n, nb) w₂.heap.client))
        w₁ := by
      refine wp_iterate (fun n v w₂ => w₂.heap.Sound P ∧ v.1 = n ∧ w₂.refused = w.refused ∧
        Splitting C str c a v w₂.heap.client) ?_ (n := (words c str).length)
        (by rw [loopBound]; omega) ⟨hsound, rfl, hrefused, hstart⟩
      rintro n v w₂ ⟨hsound', rfl, hrefused', hv⟩
      refine wp_mono (hsound'.wp_splitWord ht hn hv) ?_
      rintro (v' | o) w₃ ⟨hsound₃, hr⟩
      · exact ⟨v'.1, Nat.lt_of_lt_of_eq (Nat.lt_succ_self _) hr.1, hsound₃, rfl,
          hr.2.2.trans hrefused', hr.2.1⟩
      · cases o with
        | none => exact ⟨hsound₃, hr⟩
        | some nb =>
          obtain ⟨hzero, rfl, rfl⟩ := hr
          refine ⟨hsound₃, hrefused', v.2.1, ?_⟩
          rw [← hzero]
          exact hv
    refine wp_mono hloop ?_
    rintro (_ | nb) w₂ ⟨hsound', hr⟩
    · rw [wp_pure]
      refine ⟨hsound', ?_, .inl ⟨rfl, hr.1⟩⟩
      rw [decide_eq_true rfl, Bool.or_true]
      exact hr.2
    · obtain ⟨hrefused', n, -, hleft, blocks, E, rest, hown, hE, hclient', hrest, hnb, hdone⟩ := hr
      dsimp only at hleft hrest hnb hdone
      rw [List.eq_nil_of_length_eq_zero hleft, List.map_nil, List.append_nil] at hdone
      have hnull := hsound'.wp_storePtr (v := null) (Q := fun _ s₃ =>
        wp (pure a) (fun r w' => w.MadeArray P C (words c str) r w') { w₂ with heap := s₃ })
        hclient' (by omega) fun s₃ hsound₃ hclient₃ => by
          rw [wp_pure]
          refine ⟨hsound₃, ?_, .inr ⟨blocks, E, _, hown, hdone, hE, hclient₃⟩⟩
          rw [decide_eq_false ha, Bool.or_false]
          exact hrefused'
      rw [List.length_map, ← hnb] at hnull
      rwa [wp_bind, wp_lift]

/-- `array_len`. -/
theorem wp_arrayLen {Q : ℕ → Heap → Prop} (h : s.Sound P) (hts : ts.Spells s.client strs) :
    wp (arrayLen ts) Q s ↔ Q strs.length s := by
  have hbound := hts.bound
  refine wp_of_run (run_of_wp ?_)
  rw [arrayLen, wp_ite_neg (by rw [hts.isNull h]; exact Bool.false_ne_true)]
  refine wp_forever (fun n i s' => s' = s ∧ i + n = strs.length) ?_ (n := strs.length) (by omega)
    ⟨rfl, Nat.zero_add _⟩
  rintro n i _ ⟨rfl, hi⟩
  rw [wp_bind]
  by_cases hlt : i < strs.length
  · refine hts.wp_get (Store.Sub.refl _) h hlt fun t ht => ?_
    rw [wp_ite_neg (by rw [ht.isNull h]; exact Bool.false_ne_true), wp_bind,
      wp_intSucc (by omega), wp_pure]
    exact ⟨n - 1, by omega, rfl, by omega⟩
  · obtain rfl : i = strs.length := by omega
    have hnull : (Text.heap null).isNull = true := rfl
    refine hts.wp_getEnd (Store.Sub.refl _) h ?_
    rw [wp_ite_pos hnull, wp_pure]
    exact ⟨rfl, rfl⟩

/-- `array_dup`. -/
theorem wp_arrayDup (h : w.heap.Sound P) (hs : w.heap.client = C) (hts : ts.Spells C strs) :
    wp (arrayDup K ts) (fun r w' => w.MadeArray P C strs r w') w := by
  have hbound := hts.bound
  rw [arrayDup, wp_bind, wp_lift, h.wp_arrayLen (hs ▸ hts), wp_bind, wp_lift, wp_intSucc hbound,
    wp_bind]
  refine wp_mono (h.wp_ftCalloc hs _ _) ?_
  rintro a w₁ ⟨hsound, hmakes, hrefused⟩
  generalize hD : w₁.heap.client = D at hmakes
  cases hmakes with
  | refused =>
    have hnull : 0 = null := rfl
    rw [wp_ite_pos hnull, wp_pure]
    exact ⟨hsound, hrefused, .inl ⟨rfl, hD⟩⟩
  | made ha hfresh rest =>
    have hne : a ≠ null := ha
    rw [decide_eq_false hne, Bool.or_false] at hrefused
    rw [Nat.mod_eq_of_lt (by omega)] at hD
    rw [wp_ite_neg hne]
    refine wp_iterate (fun n i w₂ => w₂.heap.Sound P ∧ w₂.refused = w.refused ∧
      i + n = strs.length ∧ ∃ blocks E,
      C.Owns blocks E ∧ E a = none ∧ blocks.map Prod.snd = (strs.take i).map (· ++ [0]) ∧
        w₂.heap.client = E.put a (wordBytes (blocks.map Prod.fst) ++
          (List.replicate (8 * (n + 1)) 0 ++ rest))) ?_ (n := strs.length)
      (by rw [loopBound]; omega)
      ⟨hsound, hrefused, Nat.zero_add _, [], C, Store.owns_nil, hfresh, rfl, ?_⟩
    · rintro n i w₂ ⟨hsound', hrefused', hi, blocks, E, hown, hE, hdone, hclient⟩
      have hlen : blocks.length = i := by
        have := congrArg List.length hdone
        simp only [List.length_map, List.length_take] at this
        omega
      have htail : (List.replicate (8 * (n + 1)) 0 ++ rest).drop 8 =
          List.replicate (8 * n) 0 ++ rest := by
        rw [List.drop_append_of_le_length (by rw [List.length_replicate]; omega),
          List.drop_replicate]
        congr 2
      by_cases hlt : i < strs.length
      · have hsub : C.Sub w₂.heap.client := by
          rw [hclient]
          exact hown.sub.trans (Store.sub_put hE)
        rw [wp_ite_pos hlt, wp_bind, wp_lift]
        refine hts.wp_get hsub hsound' hlt fun t ht => ?_
        rw [wp_bind]
        refine wp_mono (hsound'.wp_ftStrdup rfl (ht.mono hsub)) ?_
        rintro p w₃ ⟨hsound₃, hmakes, hrefused₃⟩
        rw [hclient] at hmakes
        rw [← hlen]
        refine hsound₃.wp_storeBlock hown hE hmakes (by simp; omega) ?_ ?_
        · intro s₄ hsound₄ hp hclient₄
          rw [wp_ite_pos rfl, wp_bind, wp_lift]
          refine wp_mono (hsound₄.wp_arrayFree
            ⟨blocks, E, _, hown, hdone, hE, hclient₄⟩ (by simp; omega)) ?_
          rintro _ s₅ ⟨hsound₅, hclient₅⟩
          rw [wp_pure]
          refine ⟨hsound₅, ?_, .inl ⟨rfl, hclient₅⟩⟩
          rw [decide_eq_true rfl, Bool.or_true]
          rwa [decide_eq_true hp, Bool.or_true] at hrefused₃
        · intro E' s₄ hsound₄ hp hown' hE' hclient₄
          rw [htail] at hclient₄
          rw [decide_eq_false hp, Bool.or_false] at hrefused₃
          have hn : n - 1 + 1 = n := by omega
          rw [wp_ite_neg hp, wp_bind, wp_lift, wp_intSucc (by omega), wp_pure]
          refine ⟨n - 1, by omega, hsound₄, hrefused₃.trans hrefused', by omega, _, E', hown', hE',
            ?_, by rwa [hn]⟩
          rw [hlen, ← List.take_append_getElem hlt, List.map_append, List.map_append, hdone]
          rfl
      · obtain rfl : n = 0 := by omega
        rw [wp_ite_neg hlt, wp_pure]
        refine ⟨hsound', ?_, .inr ⟨blocks, E, rest, hown, ?_, hE, ?_⟩⟩
        · rwa [decide_eq_false hne, Bool.or_false]
        · rwa [List.take_of_length_le (by omega)] at hdone
        · rw [hclient, wordBytes_append, List.append_assoc]
          rfl
    · rw [hD, Nat.mul_comm]
      rfl

/-- `array_char_len`. -/
theorem wp_arrayCharLen {Q : ℕ → Heap → Prop} (h : s.Sound P) (hts : ts.Spells s.client strs)
    (hlen : (strs.map List.length).sum < 2 ^ 64) :
    wp (arrayCharLen ts) Q s ↔ Q (strs.map List.length).sum s := by
  have hbound := hts.bound
  refine wp_of_run (run_of_wp ?_)
  refine wp_forever (fun n v s' => s' = s ∧ v.1 + n = strs.length ∧
    v.2 + ((strs.drop v.1).map List.length).sum = (strs.map List.length).sum) ?_
    (n := strs.length) (by omega) ⟨rfl, Nat.zero_add _, Nat.zero_add _⟩
  rintro n v _ ⟨rfl, hi, hsum⟩
  rw [wp_bind]
  by_cases hlt : v.1 < strs.length
  · rw [List.drop_eq_getElem_cons hlt, List.map_cons, List.sum_cons] at hsum
    refine hts.wp_get (Store.Sub.refl _) h hlt fun t ht => ?_
    rw [wp_ite_neg (by rw [ht.isNull h]; exact Bool.false_ne_true), wp_bind, h.wp_ftStrlen ht,
      wp_bind, wp_intSucc (by omega), wp_pure, Nat.mod_eq_of_lt (by omega)]
    exact ⟨n - 1, by omega, rfl, by dsimp only; omega, by dsimp only; omega⟩
  · have hend : v.1 = strs.length := by omega
    have hnull : (Text.heap null).isNull = true := rfl
    rw [hend, List.drop_length] at hsum
    rw [hend]
    refine hts.wp_getEnd (Store.Sub.refl _) h ?_
    rw [wp_ite_pos hnull, wp_pure]
    exact ⟨hsum, rfl⟩

/-- One string of `array_to_str`, and the separator if another string follows. -/
theorem wp_appendText {acc room sep : List UInt8} {spliter : UInt8} {size : ℕ} (h : s.Sound P)
    (hsep : sep = if spliter = 0 then [] else [spliter])
    (hs : s.client = C.put p (acc ++ 0 :: room)) (hp : C p = none) (hacc : 0 ∉ acc)
    (hts : ts.Spells C strs) (hi : i < strs.length)
    (hroom : strs[i].length + sep.length ≤ room.length)
    (hsize : acc.length + strs[i].length + sep.length < size) :
    wp (appendText ts spliter p size i) (fun r s' => r = .inl (i + 1) ∧ s'.Sound P ∧
      ∃ last room', last = (if i + 1 = strs.length then strs[i] else strs[i] ++ sep) ∧ 0 ∉ last ∧
        s'.client = C.put p (acc ++ last ++ 0 :: room') ∧
        last.length + room'.length = room.length) s := by
  have hbound := hts.bound
  have hsub {bs : List UInt8} {s' : Heap} (hs' : s'.client = C.put p bs) : C.Sub s'.client := by
    rw [hs']
    exact Store.sub_put hp
  rw [appendText, wp_bind]
  refine hts.wp_get (hsub hs) h hi fun t ht => ?_
  rw [wp_ite_neg (by rw [(ht.mono (hsub hs)).isNull h]; exact Bool.false_ne_true), wp_bind]
  refine wp_mono (h.wp_ftStrlcat hs hp hacc ht (by omega) (by omega)) ?_
  rintro _ s' ⟨-, hsound, hclient⟩
  have hno : 0 ∉ acc ++ strs[i] := fun hz => (List.mem_append.mp hz).elim hacc ht.noNul
  rw [wp_bind, wp_intSucc (by omega)]
  by_cases hzero : spliter = 0
  · have hnil : sep = [] := by rw [hsep, if_pos hzero]
    rw [wp_ite_pos hzero, wp_pure]
    refine ⟨rfl, hsound, strs[i], _, ?_, ht.noNul, hclient, ?_⟩
    · rw [hnil, List.append_nil, ite_self]
    · rw [List.length_drop]
      omega
  · have hone : sep = [spliter] := by rw [hsep, if_neg hzero]
    rw [hone, List.length_singleton] at hroom hsize
    rw [wp_ite_neg hzero, wp_bind]
    by_cases hend : i + 1 = strs.length
    · have hnull : (Text.heap null).isNull = true := rfl
      rw [hend]
      refine hts.wp_getEnd (hsub hclient) hsound ?_
      rw [wp_ite_pos hnull, wp_pure]
      refine ⟨rfl, hsound, strs[i], _, (if_pos rfl).symm, ht.noNul, hclient, ?_⟩
      rw [List.length_drop]
      omega
    · have hspliter : (Text.const [spliter] 0).Spells C [spliter] :=
        ⟨by simpa using Ne.symm hzero, by rw [List.length_singleton]; decide, Nat.zero_le _, [], rfl⟩
      refine hts.wp_get (hsub hclient) hsound (by omega) fun t' ht' => ?_
      rw [wp_ite_neg (by rw [(ht'.mono (hsub hclient)).isNull hsound]; exact Bool.false_ne_true),
        wp_bind]
      refine wp_mono (hsound.wp_ftStrlcat hclient hp hno hspliter
        (by rw [List.length_append, List.length_singleton]; omega)
        (by rw [List.length_drop, List.length_singleton]; omega)) ?_
      rintro _ s'' ⟨-, hsound', hclient'⟩
      rw [wp_pure]
      refine ⟨rfl, hsound', strs[i] ++ sep, (room.drop strs[i].length).drop [spliter].length,
        (if_neg hend).symm, ?_, ?_, ?_⟩
      · rw [hone]
        exact fun hz => (List.mem_append.mp hz).elim ht.noNul hspliter.noNul
      · rw [hclient', hone, ← List.append_assoc acc]
      · rw [hone, List.length_append, List.length_drop, List.length_drop, List.length_singleton]
        omega

/-- The length that `array_to_str` computes has room for a separator behind every string. -/
theorem wp_joinedLen {Q : ℕ → Heap → Prop} {spliter : UInt8} (h : s.Sound P)
    (hts : ts.Spells s.client strs)
    (hlen : (strs.map List.length).sum + strs.length < 2 ^ 64) :
    wp (joinedLen ts spliter) Q s ↔ Q ((strs.map List.length).sum +
      strs.length * (if spliter = 0 then [] else [spliter]).length) s := by
  rw [joinedLen]
  by_cases hzero : spliter = 0
  · rw [wp_ite_pos hzero, if_pos hzero, List.length_nil, Nat.mul_zero, Nat.add_zero,
      h.wp_arrayCharLen hts (by omega)]
  · rw [wp_ite_neg hzero, if_neg hzero, List.length_singleton, Nat.mul_one, wp_bind,
      h.wp_arrayCharLen hts (by omega), wp_bind, h.wp_arrayLen hts, wp_pure,
      Nat.mod_eq_of_lt hlen]

/-- `array_to_str`. -/
theorem wp_arrayToStr {spliter : UInt8} (h : w.heap.Sound P) (hs : w.heap.client = C)
    (hts : ts.Spells C strs) (hlen : (strs.map List.length).sum + strs.length + 1 < 2 ^ 64) :
    wp (arrayToStr K ts spliter) (fun r w' => w.Made P C
      ((if spliter = 0 then [] else [spliter]).intercalate strs ++ [0]) r w') w := by
  have hbound := hts.bound
  rw [arrayToStr, wp_bind, wp_lift, h.wp_joinedLen (hs ▸ hts) (by omega), wp_bind]
  generalize hsep : (if spliter = 0 then [] else [spliter]) = sep
  have hone : sep.length ≤ 1 := by
    rw [← hsep]
    split
    · exact Nat.zero_le _
    · exact Nat.le_refl _
  have hmul : strs.length * sep.length ≤ strs.length * 1 := Nat.mul_le_mul_left _ hone
  generalize htotal : (strs.map List.length).sum + strs.length * sep.length = total
  rw [Nat.mod_eq_of_lt (by omega)]
  refine wp_mono (h.wp_ftCalloc hs _ _) ?_
  rintro p w₁ ⟨hsound, hmakes, hrefused⟩
  generalize hD : w₁.heap.client = D at hmakes
  cases hmakes with
  | refused =>
    have hnull : 0 = null := rfl
    rw [wp_ite_pos hnull, wp_pure]
    exact ⟨hsound, hD ▸ .refused, hrefused⟩
  | made hp hfresh rest =>
    have hne : p ≠ null := hp
    rw [Nat.mul_one, Nat.mod_eq_of_lt (by omega)] at hD
    rw [wp_ite_neg hne, wp_bind, wp_lift]
    refine wp_forever (fun n i s'' => s''.Sound P ∧ i + n = strs.length ∧ ∃ acc room, 0 ∉ acc ∧
      s''.client = C.put p (acc ++ 0 :: room) ∧
      acc = (if i = strs.length then sep.intercalate strs
        else ((strs.take i).map (· ++ sep)).flatten) ∧
      ((strs.drop i).map List.length).sum + n * sep.length ≤ room.length ∧
      acc.length + ((strs.drop i).map List.length).sum + n * sep.length ≤ total) ?_
      (n := strs.length) (by omega)
      ⟨hsound, Nat.zero_add _, [], List.replicate total 0 ++ rest, List.not_mem_nil, hD, ?_, ?_, ?_⟩
    · rintro n i s'' ⟨hsound', hi, acc, room, hacc, hclient, hjoin, hroom, hsize⟩
      have hsub : C.Sub s''.client := by
        rw [hclient]
        exact Store.sub_put hfresh
      by_cases hlt : i < strs.length
      · obtain ⟨m, rfl⟩ : ∃ m, n = m + 1 := ⟨n - 1, by omega⟩
        rw [List.drop_eq_getElem_cons hlt, List.map_cons, List.sum_cons, Nat.succ_mul]
          at hroom hsize
        refine wp_mono (hsound'.wp_appendText hsep.symm hclient hfresh hacc hts hlt (by omega)
          (by omega)) ?_
        rintro _ s₃ ⟨rfl, hsound₃, last, room', hlast, hno, hclient₃, hlen'⟩
        have hle : last.length ≤ strs[i].length + sep.length := by
          rw [hlast]
          split
          · exact Nat.le_add_right _ _
          · rw [List.length_append]
        refine ⟨m, Nat.lt_succ_self m, hsound₃, by omega, acc ++ last, room', ?_, hclient₃, ?_,
          by omega, by rw [List.length_append]; omega⟩
        · exact fun hz => (List.mem_append.mp hz).elim hacc hno
        · rw [if_neg (by omega)] at hjoin
          by_cases hend : i + 1 = strs.length
          · rw [if_pos hend, hlast, if_pos hend, hjoin, ← intercalate_concat,
              List.take_append_getElem hlt, List.take_of_length_le (by omega)]
          · rw [if_neg hend, hlast, if_neg hend, hjoin, ← List.take_append_getElem hlt,
              List.map_append, List.flatten_append]
            simp
      · obtain rfl : i = strs.length := by omega
        have hnull : (Text.heap null).isNull = true := rfl
        rw [if_pos rfl] at hjoin
        rw [appendText, wp_bind]
        refine hts.wp_getEnd hsub hsound' ?_
        rw [wp_ite_pos hnull, wp_pure]
        refine (wp_pure _ _ _).mpr ⟨hsound', ?_, hrefused⟩
        have hcons : acc ++ 0 :: room = acc ++ [0] ++ room := by simp
        rw [hcons, hjoin] at hclient
        exact hclient ▸ .made hp hfresh room
    · by_cases hnil : strs = []
      · simp [hnil]
      · rw [if_neg (by rw [eq_comm, List.length_eq_zero_iff]; exact hnil)]
        rfl
    · rw [List.drop_zero, List.length_append, List.length_replicate]
      omega
    · rw [List.drop_zero, List.length_nil]
      omega

end Heap.Sound

end FtMalloc
