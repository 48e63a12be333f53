import Mathlib

/-!
# Little-endian words in a byte memory

A memory is a total map from addresses to bytes. `readLE` and `writeLE` access `n`
consecutive bytes as one unsigned number, least significant byte first. A write is
described twice: by what it stores and by the bytes it leaves alone. `AgreeOff` is the
second half for an arbitrary footprint, so that a sequence of writes can be framed once.
-/

namespace HeapLib

/-- A byte-addressed memory. -/
abbrev Memory := ℕ → UInt8

/-- The unsigned number stored in the `n` bytes from `a`. -/
def readLE (m : Memory) (a : ℕ) : ℕ → ℕ
  | 0 => 0
  | n + 1 => (m a).toNat + 256 * readLE m (a + 1) n

/-- Store the low `n` bytes of `v` from address `a`. -/
def writeLE (m : Memory) (a n v : ℕ) : Memory := fun x =>
  if a ≤ x ∧ x < a + n then UInt8.ofNat (v / 256 ^ (x - a)) else m x

/-- The eight-byte word at `a`. -/
abbrev word (m : Memory) (a : ℕ) : ℕ := readLE m a 8

/-- Store an eight-byte word at `a`. -/
abbrev setWord (m : Memory) (a v : ℕ) : Memory := writeLE m a 8 v

/-- A write changes no byte outside its range. -/
theorem writeLE_apply_of_outside {m : Memory} {a n v x : ℕ} (hx : x < a ∨ a + n ≤ x) :
    writeLE m a n v x = m x := by
  rw [writeLE, if_neg (by omega)]

/-- A read depends only on the bytes it covers. -/
theorem readLE_congr {m m' : Memory} {a n : ℕ} (h : ∀ i < n, m' (a + i) = m (a + i)) :
    readLE m' a n = readLE m a n := by
  induction n generalizing a with
  | zero => rfl
  | succ n ih =>
    have hhead : m' a = m a := by simpa using h 0 (by omega)
    have htail : readLE m' (a + 1) n = readLE m (a + 1) n := by
      apply ih
      intro i hi
      have := h (i + 1) (by omega)
      rwa [show a + (i + 1) = a + 1 + i by omega] at this
    rw [readLE, readLE, hhead, htail]

/-- Reading a suffix of a written range gives the corresponding digits. -/
theorem readLE_writeLE_suffix (m : Memory) (a k n v : ℕ) :
    readLE (writeLE m a (k + n) v) (a + k) n = v / 256 ^ k % 256 ^ n := by
  induction n generalizing k with
  | zero => simp [readLE, Nat.mod_one]
  | succ n ih =>
    have hbyte : (writeLE m a (k + (n + 1)) v (a + k)).toNat = v / 256 ^ k % 256 := by
      rw [writeLE, if_pos (by omega), Nat.add_sub_cancel_left]
      exact UInt8.toNat_ofNat'
    have htail := ih (k + 1)
    rw [show k + 1 + n = k + (n + 1) by omega, show a + (k + 1) = a + k + 1 by omega] at htail
    rw [readLE, hbyte, htail, Nat.pow_succ, ← Nat.div_div_eq_div_mul, Nat.pow_succ' (n := n),
      Nat.mod_mul]

/-- A word that fits is read back unchanged. -/
theorem readLE_writeLE_same {m : Memory} {a n v : ℕ} (hv : v < 256 ^ n) :
    readLE (writeLE m a n v) a n = v := by
  have h := readLE_writeLE_suffix m a 0 n v
  simp only [Nat.zero_add, Nat.add_zero, Nat.pow_zero, Nat.div_one, Nat.mod_eq_of_lt hv] at h
  exact h

/-- A read disjoint from a write is unaffected by it. -/
theorem readLE_writeLE_disjoint {m : Memory} {a k v b n : ℕ} (h : b + n ≤ a ∨ a + k ≤ b) :
    readLE (writeLE m a k v) b n = readLE m b n :=
  readLE_congr fun i hi => writeLE_apply_of_outside (by omega)

/-- Disjoint writes commute. -/
theorem writeLE_comm {m : Memory} {a k v b n w : ℕ} (h : b + n ≤ a ∨ a + k ≤ b) :
    writeLE (writeLE m a k v) b n w = writeLE (writeLE m b n w) a k v := by
  funext x
  simp only [writeLE]
  split_ifs <;> first | rfl | omega

/-- A second write to the same range replaces the first. -/
theorem writeLE_writeLE_same {m : Memory} {a n v w : ℕ} :
    writeLE (writeLE m a n v) a n w = writeLE m a n w := by
  funext x
  simp only [writeLE]
  split_ifs <;> rfl

/-- The two memories differ at most on `S`. -/
def AgreeOff (S : Set ℕ) (m m' : Memory) : Prop := ∀ x, x ∉ S → m' x = m x

namespace AgreeOff

variable {S T : Set ℕ} {m m' m'' : Memory}

/-- Nothing has to change. -/
theorem refl (S : Set ℕ) (m : Memory) : AgreeOff S m m := fun _ _ => rfl

/-- A larger footprint is a weaker statement. -/
theorem mono (h : AgreeOff S m m') (hST : S ⊆ T) : AgreeOff T m m' :=
  fun x hx => h x fun hS => hx (hST hS)

/-- Successive changes inside one footprint stay inside it. -/
theorem trans (h : AgreeOff S m m') (h' : AgreeOff S m' m'') : AgreeOff S m m'' :=
  fun x hx => (h' x hx).trans (h x hx)

/-- A word write inside the footprint. -/
theorem write {a n v : ℕ} (h : AgreeOff S m m') (ha : ∀ x, a ≤ x → x < a + n → x ∈ S) :
    AgreeOff S m (writeLE m' a n v) := by
  intro x hx
  rw [writeLE_apply_of_outside, h x hx]
  by_contra hin
  exact hx (ha x (by omega) (by omega))

/-- Words off the footprint read the same. -/
theorem readLE_eq {a n : ℕ} (h : AgreeOff S m m') (ha : ∀ x, a ≤ x → x < a + n → x ∉ S) :
    readLE m' a n = readLE m a n :=
  readLE_congr fun i hi => h (a + i) (ha _ (by omega) (by omega))

end AgreeOff

end HeapLib
