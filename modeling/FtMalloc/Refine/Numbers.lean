import FtMalloc.Lib.Numerals
import FtMalloc.Refine.Arrays
import FtMalloc.Source.Numbers

/-!
# What the functions on numbers compute

`ft_itoa` makes the decimal string of a number in a new block, from its last digit to its first.
`ft_atoi` and its wider forms read such a string, and return exactly if the absolute value is one of
the type: they accumulate it before they apply the sign.
-/

namespace FtMalloc

open HeapLib

variable {P : Platform} {K : Kernel P} {s s' : Heap} {v : Task} {C : Store UInt8} {t : Text}
  {str pre suf rest ds : List UInt8} {z : ℤ} {p i n w : ℕ}

/-- The byte of a decimal digit. -/
def digitByte (d : ℕ) : UInt8 := UInt8.ofNat (d + 48)

/-- The decimal string of a number. -/
def decimal (z : ℤ) : List UInt8 :=
  (if z < 0 then [45] else []) ++ numeral digitByte 10 z.natAbs

theorem toNat_digitByte {d : ℕ} (h : d < 10) : (digitByte d).toNat = d + 48 := by
  rw [digitByte, UInt8.toNat_ofNat', Nat.mod_eq_of_lt (by omega)]

/-! ## `ft_itoa` -/

/-- The digits of a number, the most significant one first, and none of zero. -/
def digitBytes (n : ℕ) : List UInt8 := (Nat.digits 10 n).reverse.map digitByte

theorem digitBytes_zero : digitBytes 0 = [] := by
  rw [digitBytes, Nat.digits_zero]
  rfl

theorem digitBytes_of_pos (h : 0 < n) :
    digitBytes n = digitBytes (n / 10) ++ [digitByte (n % 10)] := by
  rw [digitBytes, Nat.digits_def' (by decide) h, List.reverse_cons, List.map_append,
    List.map_singleton]
  rfl

/-- The decimal string of a number that is not zero. -/
theorem decimal_of_ne (h : z ≠ 0) :
    decimal z = (if z < 0 then [45] else []) ++ digitBytes z.natAbs := by
  rw [decimal, numeral, if_neg (Int.natAbs_ne_zero.mpr h)]
  rfl

theorem length_digitBytes_le {k : ℕ} (h : n < 10 ^ k) : (digitBytes n).length ≤ k := by
  rw [digitBytes, List.length_map, List.length_reverse]
  exact (Nat.digits_length_le_iff (by decide) n).mpr h

/-- A condition of two loops: there is a digit left. -/
theorem digit_left_iff : n % 10 ≠ 0 ∨ n / 10 ≠ 0 ↔ n ≠ 0 := by omega

/-- The loop of `count_itoa`. -/
theorem wp_countDigits {Q : ℕ → Heap → Prop} (hn : n < 2 ^ 64)
    (hi : i + (digitBytes n).length < 2 ^ 31) :
    wp (countDigits n i) Q s ↔ Q (i + (digitBytes n).length) s := by
  refine wp_of_run (run_of_wp ?_)
  refine wp_forever (fun k v s' => s' = s ∧ v.1 = k ∧
    v.2 + (digitBytes v.1).length = i + (digitBytes n).length) ?_ hn ⟨rfl, rfl, rfl⟩
  rintro k v _ ⟨rfl, rfl, hlen⟩
  by_cases hzero : v.1 = 0
  · rw [hzero, digitBytes_zero] at hlen
    rw [wp_ite_neg (by rw [digit_left_iff]; exact not_not.mpr hzero), wp_pure]
    exact ⟨hlen, rfl⟩
  · rw [digitBytes_of_pos (Nat.pos_of_ne_zero hzero), List.length_append, List.length_singleton]
      at hlen
    rw [wp_ite_pos (digit_left_iff.mpr hzero), wp_bind, wp_intSucc (by omega), wp_pure]
    exact ⟨_, Nat.div_lt_self (Nat.pos_of_ne_zero hzero) (by decide), rfl, rfl,
      by dsimp only; omega⟩

/-- `count_itoa` counts the bytes of the decimal string. -/
theorem wp_countItoa {Q : ℕ → Heap → Prop} (hz : z.natAbs < 10 ^ 19) :
    wp (countItoa z) Q s ↔ Q (decimal z).length s := by
  have hdigits := length_digitBytes_le hz
  have hlen : (if z.natAbs = 0 then (if z < 0 then 1 else 0) + 1 else if z < 0 then 1 else 0) +
      (digitBytes z.natAbs).length = (decimal z).length := by
    by_cases hzero : z = 0
    · subst hzero
      rfl
    · rw [decimal_of_ne hzero, if_neg (Int.natAbs_ne_zero.mpr hzero), List.length_append]
      split <;> rfl
  rw [countItoa, wp_countDigits (by omega) (by split <;> split <;> omega), hlen]

/-- The loop of `ft_itoa` fills the room before the digits that are there. -/
theorem Heap.Sound.wp_storeDigits (h : s.Sound P) (hn : n < 2 ^ 64)
    (hs : s.client = C.put p (pre ++ List.replicate (digitBytes n).length 0 ++ suf)) {j : ℤ}
    (hj : j + 1 = (pre.length + (digitBytes n).length : ℕ)) :
    wp (storeDigits p n j) (fun _ s' => s'.Sound P ∧
      s'.client = C.put p (pre ++ digitBytes n ++ suf)) s := by
  refine wp_forever (fun k (v : ℕ × ℤ) s' => s'.Sound P ∧ v.1 = k ∧
    v.2 + 1 = (pre.length + (digitBytes v.1).length : ℕ) ∧ ∃ suf',
      digitBytes v.1 ++ suf' = digitBytes n ++ suf ∧
        s'.client = C.put p (pre ++ List.replicate (digitBytes v.1).length 0 ++ suf')) ?_ hn
    ⟨h, rfl, hj, suf, rfl, hs⟩
  rintro k v s' ⟨hsound, rfl, hv, suf', hsuf, hclient⟩
  by_cases hzero : v.1 = 0
  · rw [hzero, digitBytes_zero, List.nil_append] at hsuf
    rw [hzero, digitBytes_zero, List.length_nil, List.replicate_zero, List.append_nil, hsuf,
      ← List.append_assoc] at hclient
    rw [wp_ite_neg (by rw [digit_left_iff]; exact not_not.mpr hzero), wp_pure]
    exact ⟨hsound, hclient⟩
  · have hpos := Nat.pos_of_ne_zero hzero
    rw [digitBytes_of_pos hpos, List.append_assoc] at hsuf
    rw [digitBytes_of_pos hpos, List.length_append, List.length_singleton, List.replicate_succ',
      ← List.append_assoc, List.append_assoc _ [0]] at hclient
    rw [digitBytes_of_pos hpos, List.length_append, List.length_singleton] at hv
    have haddr : ((p : ℤ) + v.2).toNat =
        p + (pre ++ List.replicate (digitBytes (v.1 / 10)).length 0).length := by
      rw [List.length_append, List.length_replicate]
      omega
    rw [wp_ite_pos (digit_left_iff.mpr hzero), wp_bind, haddr,
      ← toNat_digitByte (Nat.mod_lt v.1 (by decide))]
    refine hsound.wp_storeByte hclient (by simp) fun s'' hsound' hclient' => ?_
    rw [splice_append] at hclient'
    rw [wp_pure]
    refine ⟨_, Nat.div_lt_self hpos (by decide), hsound', rfl, by dsimp only; omega,
      digitByte (v.1 % 10) :: suf', hsuf, ?_⟩
    rw [hclient']
    rfl

/-- The digits behind the sign. -/
theorem Heap.Sound.wp_storeNumber (h : s.Sound P) (hn : n < 2 ^ 64)
    (hs : s.client = C.put p (pre ++ List.replicate (numeral digitByte 10 n).length 0 ++ suf))
    {j : ℤ} (hj : j + 1 = (pre.length + (numeral digitByte 10 n).length : ℕ)) :
    wp (storeNumber p n j) (fun _ s' => s'.Sound P ∧
      s'.client = C.put p (pre ++ numeral digitByte 10 n ++ suf)) s := by
  rw [storeNumber]
  by_cases hzero : n = 0
  · subst hzero
    rw [numeral_of_lt (by decide)] at hs hj ⊢
    have haddr : ((p : ℤ) + j).toNat = p + pre.length := by
      rw [List.length_singleton] at hj
      omega
    rw [wp_ite_pos rfl, wp_bind, haddr, ← toNat_digitByte (Nat.mod_lt 0 (by decide))]
    rw [List.append_assoc] at hs
    refine h.wp_storeByte hs (by simp) fun s' hsound hclient => ?_
    have hroom : s'.client = C.put p (pre ++ List.replicate (digitBytes 0).length 0 ++
        ([digitByte 0] ++ suf)) := by
      rw [hclient, splice_append, digitBytes_zero, List.length_nil, List.replicate_zero,
        List.append_nil]
      rfl
    refine wp_mono (hsound.wp_storeDigits hn hroom ?_) ?_
    · rw [List.length_singleton] at hj
      rw [digitBytes_zero, List.length_nil]
      omega
    · rintro _ s'' ⟨hsound', hclient'⟩
      rw [digitBytes_zero, List.append_nil, ← List.append_assoc] at hclient'
      exact ⟨hsound', hclient'⟩
  · have hdigits : numeral digitByte 10 n = digitBytes n := if_neg hzero
    rw [hdigits] at hs hj ⊢
    rw [wp_ite_neg hzero]
    exact h.wp_storeDigits hn hs hj

/-- `ft_itoa`. -/
theorem Heap.Sound.wp_ftItoa (h : v.heap.Sound P) (hs : v.heap.client = C)
    (hz : z.natAbs < 10 ^ 19) :
    wp (ftItoa K z) (fun r v' => v.Made P C (decimal z ++ [0]) r v') v := by
  have hdigits : (numeral digitByte 10 z.natAbs).length ≤ 19 :=
    length_numeral_le (by decide) (by decide) hz
  have hlen : (decimal z).length = (if z < 0 then 1 else 0) +
      (numeral digitByte 10 z.natAbs).length := by
    rw [decimal, List.length_append]
    split <;> rfl
  have hle : (decimal z).length + 1 < 2 ^ 31 := by
    split at hlen <;> omega
  rw [ftItoa, wp_bind, wp_lift, wp_countItoa hz, wp_bind, wp_lift, wp_intSucc hle, wp_bind]
  refine wp_mono (h.wp_ftCalloc hs _ _) ?_
  rintro p v' ⟨hsound, hmakes, hrefused⟩
  generalize hD : v'.heap.client = D at hmakes
  cases hmakes with
  | refused =>
    have hnull : 0 = null := rfl
    rw [wp_ite_pos hnull, wp_pure]
    exact ⟨hsound, hD ▸ .refused, hrefused⟩
  | made hp hfresh rest =>
    have hne : p ≠ null := hp
    rw [Nat.mul_one, Nat.mod_eq_of_lt (by omega), hlen] at hD
    rw [wp_ite_neg hne, hlen]
    by_cases hneg : z < 0
    · rw [if_pos hneg] at hD
      rw [Nat.add_comm 1, Nat.add_right_comm, List.replicate_succ] at hD
      have hstore : wp (store 1 (p + 0) 45) (fun _ s'' => s''.Sound P ∧ s''.client =
          C.put p ([45] ++ List.replicate ((numeral digitByte 10 z.natAbs).length + 1) 0 ++ rest))
          v'.heap := by
        refine hsound.wp_storeByte (b := 45) hD (by simp) fun s'' hsound' hclient => ?_
        exact ⟨hsound', by rw [hclient, splice_zero]; rfl⟩
      rw [wp_ite_pos hneg, wp_bind, wp_lift, if_pos hneg]
      refine wp_mono hstore ?_
      rintro _ s'' ⟨hsound', hclient⟩
      rw [List.replicate_succ', ← List.append_assoc, List.append_assoc _ [0]] at hclient
      rw [wp_bind, wp_lift]
      refine wp_mono (hsound'.wp_storeNumber (by omega) hclient (by simp; omega)) ?_
      rintro _ s₃ ⟨hsound₃, hclient₃⟩
      rw [← List.append_assoc] at hclient₃
      rw [wp_pure, decimal, if_pos hneg]
      exact ⟨hsound₃, hclient₃ ▸ .made hp hfresh rest, hrefused⟩
    · rw [if_neg hneg, Nat.zero_add, List.replicate_succ', List.append_assoc] at hD
      rw [wp_ite_neg hneg, wp_bind, wp_lift, if_neg hneg, Nat.zero_add]
      rw [← List.nil_append (List.replicate _ _)] at hD
      refine wp_mono (hsound.wp_storeNumber (by omega) hD (by simp)) ?_
      rintro _ s'' ⟨hsound', hclient⟩
      rw [← List.append_assoc] at hclient
      rw [wp_pure, decimal, if_neg hneg]
      exact ⟨hsound', hclient ▸ .made hp hfresh rest, hrefused⟩

/-! ## `ft_atoi` -/

/-- A value of the type is kept, any other has no outcome. -/
theorem wp_inWidth {Q : ℤ → Heap → Prop} :
    wp (inWidth w z) Q s ↔ (-2 ^ (w - 1) ≤ z ∧ z < 2 ^ (w - 1)) ∧ Q z s := by
  rw [inWidth]
  by_cases h : -2 ^ (w - 1) ≤ z ∧ z < 2 ^ (w - 1)
  · rw [if_pos h, wp_pure, and_iff_right h]
  · rw [if_neg h]
    constructor
    · rintro ⟨_, _, habort, _⟩
      cases habort
    · exact fun hz => absurd hz.1 h

/-- A byte that `isspace` accepts. -/
def isSpace (b : UInt8) : Bool := (8 < b.toNat && b.toNat < 14) || b.toNat = 32

/-- A byte that is a decimal digit. -/
def isDigit (b : UInt8) : Bool := 47 < b.toNat && b.toNat < 58

/-- The value of a decimal digit. -/
def digitValue (b : UInt8) : ℕ := b.toNat - 48

/-- The sign that a string has behind its white space. -/
def signBytes (str : List UInt8) : List UInt8 :=
  ((str.dropWhile isSpace).take 1).filter fun b => b = 45 ∨ b = 43

/-- The digits that a string has behind its white space and its sign. -/
def leadingDigits (str : List UInt8) : List UInt8 :=
  ((str.dropWhile isSpace).drop (signBytes str).length).takeWhile isDigit

/-- The absolute value of the number a string starts with. -/
def magnitude (str : List UInt8) : ℕ := readDigits digitValue 10 (leadingDigits str)

/-- The number a string starts with. -/
def parsed (str : List UInt8) : ℤ := (if signBytes str = [45] then -1 else 1) * magnitude str

/-- One byte of the loop over the digits. -/
theorem wp_readDecimal {Q : (ℕ × ℤ) ⊕ ℤ → Heap → Prop} {b : UInt8} {m : ℕ} (h : s.Sound P)
    (ht : t.Spells s.client str) (hi : i ≤ str.length) (hn : str.length + 1 < 2 ^ 31)
    (hb : str.getD i 0 = b) : wp (readDecimal w t (i, m)) Q s ↔
      if isDigit b then m * 10 + digitValue b < 2 ^ (w - 1) ∧
        Q (.inl (i + 1, (m * 10 + digitValue b : ℕ))) s
      else Q (.inr m) s := by
  rw [readDecimal, wp_bind, ht.wp_get h hi, hb, isDigit]
  by_cases hdigit : 47 < b.toNat ∧ b.toNat < 58
  · have hvalue : (m : ℤ) * 10 + ((b.toNat : ℤ) - 48) = (m * 10 + digitValue b : ℕ) := by
      rw [digitValue]
      omega
    have hbound : (-2 ^ (w - 1) ≤ ((m * 10 + digitValue b : ℕ) : ℤ) ∧
        ((m * 10 + digitValue b : ℕ) : ℤ) < 2 ^ (w - 1)) ↔ m * 10 + digitValue b < 2 ^ (w - 1) := by
      have hpow : (0 : ℤ) < 2 ^ (w - 1) := by positivity
      rw [and_iff_right (by omega)]
      exact_mod_cast Iff.rfl
    rw [wp_ite_pos hdigit, wp_bind, hvalue, wp_inWidth, hbound, wp_bind, wp_intSucc (by omega),
      wp_pure, if_pos (by simpa using hdigit)]
  · rw [wp_ite_neg hdigit, wp_pure, if_neg (by simpa using hdigit)]

/-- The loop over the digits reads all of them, unless one of its results is too large. -/
theorem wp_readDecimals {Q : ℤ → Heap → Prop} (h : s.Sound P) (ht : t.Spells s.client str)
    (hi : i ≤ str.length) (hn : str.length + 1 < 2 ^ 31)
    (hds : (str.drop i).takeWhile isDigit = ds) : wp (forever (readDecimal w t) (i, 0)) Q s ↔
      readDigits digitValue 10 ds < 2 ^ (w - 1) ∧ Q (readDigits digitValue 10 ds) s := by
  have hlen : i + ds.length ≤ str.length := by
    have := ((str.drop i).takeWhile_sublist isDigit).length_le
    rw [hds, List.length_drop] at this
    omega
  have hloop (fuel k : ℕ) (hk : k ≤ ds.length) (hfuel : ds.length - k < fuel)
      (hfit : readDigits digitValue 10 (ds.take k) < 2 ^ (w - 1)) :
      wp (iterate (readDecimal w t) fuel (i + k, (readDigits digitValue 10 (ds.take k) : ℕ))) Q s ↔
        readDigits digitValue 10 ds < 2 ^ (w - 1) ∧ Q (readDigits digitValue 10 ds) s := by
    induction fuel generalizing k with
    | zero => omega
    | succ fuel ih =>
      rw [iterate, wp_bind, wp_readDecimal h ht (by omega) hn rfl]
      by_cases hlt : k < ds.length
      · have hget : str.getD (i + k) 0 = ds[k] := by
          rw [List.getD_eq_getElem _ _ (by omega), ← List.getElem_drop (h := by simp; omega)]
          exact (List.IsPrefix.getElem (hds ▸ List.takeWhile_prefix isDigit) hlt).symm
        have hdigit : isDigit ds[k] = true := by
          have hmem : ds[k] ∈ (str.drop i).takeWhile isDigit := by
            rw [hds]
            exact List.getElem_mem hlt
          exact List.mem_takeWhile_imp hmem
        have hstep : readDigits digitValue 10 (ds.take k) * 10 + digitValue ds[k] =
            readDigits digitValue 10 (ds.take (k + 1)) := by
          rw [← List.take_append_getElem hlt, readDigits_concat]
        have hmono : readDigits digitValue 10 (ds.take (k + 1)) ≤ readDigits digitValue 10 ds := by
          conv_rhs => rw [← List.take_append_drop (k + 1) ds]
          exact readDigits_le_append (by decide) _ _
        rw [hget, if_pos hdigit, hstep]
        constructor
        · rintro ⟨hnext, hrest⟩
          exact (ih (k + 1) (by omega) (by omega) hnext).mp hrest
        · rintro ⟨hall, hQ⟩
          have hnext := hmono.trans_lt hall
          exact ⟨hnext, (ih (k + 1) (by omega) (by omega) hnext).mpr ⟨hall, hQ⟩⟩
      · obtain rfl : k = ds.length := by omega
        have hend : isDigit (str.getD (i + ds.length) 0) = false := by
          have hdrop := drop_takeWhile str i isDigit
          rw [hds] at hdrop
          by_cases hlast : i + ds.length < str.length
          · have hhead := List.head?_dropWhile_not isDigit (str.drop i)
            rw [← hdrop, List.drop_eq_getElem_cons hlast, List.head?_cons] at hhead
            rw [List.getD_eq_getElem _ _ hlast]
            exact hhead
          · rw [List.getD_eq_default _ _ (by omega)]
            rfl
        rw [List.take_length] at hfit
        rw [hend, if_neg Bool.false_ne_true, List.take_length, and_iff_right hfit]
        exact wp_pure _ _ _
  exact hloop loopBound 0 (Nat.zero_le _) (by rw [loopBound]; omega) (Nat.two_pow_pos _)

/-- Comparing a byte with a constant. -/
theorem toNat_eq_iff {b c : UInt8} (hc : c.toNat = n) : b.toNat = n ↔ b = c := by
  rw [← hc, UInt8.toNat_inj]

/-- The sign of a string is one byte, if there is one. -/
theorem signBytes_eq {m : ℕ} (hm : str.drop m = str.dropWhile isSpace) (hle : m ≤ str.length) :
    signBytes str =
      if str.getD m 0 = 45 ∨ str.getD m 0 = 43 then [str.getD m 0] else [] := by
  rw [signBytes, ← hm]
  by_cases hlt : m < str.length
  · rw [List.drop_eq_getElem_cons hlt, List.getD_eq_getElem _ _ hlt]
    simp only [List.take_succ_cons, List.take_zero, List.filter_cons, List.filter_nil,
      decide_eq_true_eq]
  · rw [List.drop_eq_nil_of_le (by omega), List.getD_eq_default _ _ (by omega)]
    rfl

/-- `ft_atoi`, `ft_atol` and `ft_atoll` have a result if the absolute value is one of the type, and
it is the number. -/
theorem wp_atoWidth {Q : ℤ → Heap → Prop} (h : s.Sound P) (ht : t.Spells s.client str)
    (hn : str.length + 1 < 2 ^ 31) :
    wp (atoWidth w t) Q s ↔ magnitude str < 2 ^ (w - 1) ∧ Q (parsed str) s := by
  have hdrop := drop_takeWhile str 0 isSpace
  rw [List.drop_zero, Nat.zero_add] at hdrop
  have hle : (str.takeWhile isSpace).length ≤ str.length :=
    (str.takeWhile_sublist isSpace).length_le
  have hsign := signBytes_eq hdrop hle
  have hspaces : (str.takeWhile fun b => (8 < b.toNat && b.toNat < 14) || b.toNat = 32) =
      str.takeWhile isSpace := rfl
  rw [atoWidth, wp_bind, h.wp_skipWhile ht (by decide) (by omega) (Nat.zero_le _), List.drop_zero,
    hspaces, Nat.zero_add, wp_bind, ht.wp_get h hle]
  generalize (str.takeWhile isSpace).length = m at hdrop hle hsign ⊢
  have hlen : m + (signBytes str).length ≤ str.length := by
    rw [hsign]
    split
    · next hc =>
      rw [List.length_singleton]
      by_contra hge
      rw [List.getD_eq_default _ _ (by omega)] at hc
      exact absurd hc (by decide)
    · exact hle
  have hskip {R : ℕ → Heap → Prop} : wp (skipSign (str.getD m 0).toNat m) R s ↔
      R (m + (signBytes str).length) s := by
    have hcond : (str.getD m 0).toNat = 45 ∨ (str.getD m 0).toNat = 43 ↔
        str.getD m 0 = 45 ∨ str.getD m 0 = 43 := or_congr (toNat_eq_iff rfl) (toNat_eq_iff rfl)
    rw [skipSign, hsign]
    by_cases hc : str.getD m 0 = 45 ∨ str.getD m 0 = 43
    · rw [wp_ite_pos (hcond.mpr hc), if_pos hc, wp_intSucc (by omega), List.length_singleton]
    · rw [wp_ite_neg (hcond.not.mpr hc), if_neg hc, wp_pure, List.length_nil, Nat.add_zero]
  have hdigits : (str.drop (m + (signBytes str).length)).takeWhile isDigit = leadingDigits str := by
    rw [leadingDigits, ← hdrop, List.drop_drop]
  have hsym : (if (str.getD m 0).toNat = 45 then -1 else 1 : ℤ) =
      if signBytes str = [45] then -1 else 1 := by
    refine if_congr ?_ rfl rfl
    rw [hsign]
    split
    · rw [List.cons.injEq, and_iff_left rfl]
      exact toNat_eq_iff rfl
    · next hc =>
      refine iff_of_false (fun heq => hc (.inl ((toNat_eq_iff rfl).mp heq))) (by simp)
  rw [wp_bind, hskip, wp_bind, wp_readDecimals h ht hlen hn hdigits, wp_inWidth, hsym, mul_comm,
    ← magnitude, ← parsed]
  refine and_congr_right fun hmag => and_iff_right ?_
  have hmag' : (magnitude str : ℤ) < 2 ^ (w - 1) := by exact_mod_cast hmag
  rw [parsed]
  split <;> omega

/-! ## Reading what was written -/

/-- The bytes of a decimal string behind its sign are digits. -/
theorem isDigit_of_mem {b : UInt8} (h : b ∈ numeral digitByte 10 n) : isDigit b = true := by
  obtain ⟨d, hd, rfl⟩ := mem_numeral (by decide) h
  rw [isDigit, toNat_digitByte hd]
  simp only [Bool.and_eq_true, decide_eq_true_eq]
  omega

/-- A digit is no white space, no sign and no terminator. -/
theorem ne_of_isDigit {b : UInt8} (h : isDigit b = true) :
    isSpace b = false ∧ ¬(b = 45 ∨ b = 43) ∧ b ≠ 0 := by
  simp only [isDigit, Bool.and_eq_true, decide_eq_true_eq] at h
  refine ⟨?_, ?_, ?_⟩
  · rw [isSpace, Bool.or_eq_false_iff, Bool.and_eq_false_iff, decide_eq_false_iff_not,
      decide_eq_false_iff_not, decide_eq_false_iff_not]
    omega
  · rintro (rfl | rfl) <;> exact absurd h (by decide)
  · rintro rfl
    exact absurd h (by decide)

/-- A decimal string holds no terminator. -/
theorem zero_notMem_decimal : 0 ∉ decimal z := by
  rw [decimal, List.mem_append]
  rintro (h | h)
  · split at h <;> simp at h
  · exact (ne_of_isDigit (isDigit_of_mem h)).2.2 rfl

/-- A decimal string is short. -/
theorem length_decimal_le (hz : z.natAbs < 10 ^ 19) : (decimal z).length ≤ 20 := by
  have hdigits : (numeral digitByte 10 z.natAbs).length ≤ 19 :=
    length_numeral_le (by decide) (by decide) hz
  rw [decimal, List.length_append]
  split
  · rw [List.length_singleton]
    omega
  · rw [List.length_nil]
    omega

/-- The sign and the digits of a decimal string. -/
theorem decimal_parts : signBytes (decimal z) = (if z < 0 then [45] else []) ∧
    leadingDigits (decimal z) = numeral digitByte 10 z.natAbs := by
  have hall : ∀ b ∈ numeral digitByte 10 z.natAbs, isDigit b = true := fun b => isDigit_of_mem
  have hpos : 0 < (numeral digitByte 10 z.natAbs).length := length_numeral_pos
  rw [leadingDigits, signBytes, decimal]
  cases hds : numeral digitByte 10 z.natAbs with
  | nil =>
    rw [hds] at hpos
    exact absurd hpos (Nat.lt_irrefl 0)
  | cons d ds =>
    rw [hds] at hall
    obtain ⟨hspace, hsign, -⟩ := ne_of_isDigit (hall d List.mem_cons_self)
    have htake : (d :: ds).takeWhile isDigit = d :: ds := List.takeWhile_eq_self_iff.mpr hall
    by_cases hneg : z < 0
    · rw [if_pos hneg, List.singleton_append, List.dropWhile_cons_of_neg (by decide)]
      exact ⟨rfl, htake⟩
    · rw [if_neg hneg, List.nil_append, List.dropWhile_cons_of_neg (by rw [hspace]; simp)]
      have hnone : ((d :: ds).take 1).filter (fun b => b = 45 ∨ b = 43) = [] := by
        simp [hsign]
      rw [hnone]
      exact ⟨rfl, htake⟩

/-- A decimal string is that of its absolute value. -/
theorem magnitude_decimal : magnitude (decimal z) = z.natAbs := by
  rw [magnitude, decimal_parts.2]
  refine readDigits_numeral (by decide) fun d hd => ?_
  rw [digitValue, toNat_digitByte hd, Nat.add_sub_cancel]

/-- A decimal string is read back. -/
theorem parsed_decimal : parsed (decimal z) = z := by
  rw [parsed, magnitude_decimal, decimal_parts.1]
  by_cases hneg : z < 0
  · rw [if_pos hneg, if_pos rfl]
    omega
  · rw [if_neg hneg, if_neg (List.cons_ne_nil _ _).symm]
    omega

end FtMalloc
