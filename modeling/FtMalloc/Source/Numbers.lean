import FtMalloc.Source.Arrays

/-!
# Numbers as strings

`ft_itoa.c`, `ft_atoi.c`, `ft_atol.c` and `ft_atoll.c`. A signed result that overflows has no
outcome.
-/

namespace FtMalloc

open HeapLib

/-- A value of a signed type of `w` bits. -/
def inWidth (w : ℕ) (z : ℤ) : M ℤ := if -2 ^ (w - 1) ≤ z ∧ z < 2 ^ (w - 1) then pure z else abort

/-- The loop of `count_itoa`, which carries `nbr` and `i`. -/
def countDigits (nbr i : ℕ) : M ℕ :=
  forever (fun v : ℕ × ℕ => do
    if v.1 % 10 ≠ 0 ∨ v.1 / 10 ≠ 0 then
      return .inl (v.1 / 10, ← intSucc v.2)
    else
      return .inr v.2) (nbr, i)

/-- `count_itoa`. -/
def countItoa (nbr : ℤ) : M ℕ :=
  let i := if nbr < 0 then 1 else 0
  let i := if nbr.natAbs = 0 then i + 1 else i
  countDigits nbr.natAbs i

/-- The loop of `ft_itoa`, which carries `nbr` and `i`. -/
def storeDigits (res : ℕ) (nbr : ℕ) (i : ℤ) : M Unit :=
  forever (fun v : ℕ × ℤ => do
    if v.1 % 10 ≠ 0 ∨ v.1 / 10 ≠ 0 then
      store 1 (res + v.2).toNat (v.1 % 10 + 48)
      return .inl (v.1 / 10, v.2 - 1)
    else
      return .inr ()) (nbr, i)

/-- What `ft_itoa` writes behind the sign, up to `i`. -/
def storeNumber (res : ℕ) (nbr : ℕ) (i : ℤ) : M Unit :=
  if nbr = 0 then do
    store 1 (res + i).toNat (nbr % 10 + 48)
    storeDigits res nbr (i - 1)
  else
    storeDigits res nbr i

/-- `ft_itoa`. -/
def ftItoa {P : Platform} (K : Kernel P) (n : ℤ) : T ℕ := do
  let i ← countItoa n
  let res ← ftCalloc K (← intSucc i) 1
  if res = null then
    return null
  else if n < 0 then
    store 1 res 45
    storeNumber res n.natAbs ((i : ℤ) - 1)
    return res
  else
    storeNumber res n.natAbs ((i : ℤ) - 1)
    return res

/-- The loop of `ft_atoi`, `ft_atol` and `ft_atoll` over the digits, which carries `i` and `nbr`. -/
def readDecimal (w : ℕ) (str : Text) (v : ℕ × ℤ) : M ((ℕ × ℤ) ⊕ ℤ) := do
  let x ← str.get v.1
  if 47 < x ∧ x < 58 then
    let nbr ← inWidth w (v.2 * 10 + (x - 48))
    return .inl (← intSucc v.1, nbr)
  else
    return .inr v.2

/-- The step over the sign `c` at `i`, if it is one. -/
def skipSign (c i : ℕ) : M ℕ := if c = 45 ∨ c = 43 then intSucc i else pure i

/-- What `ft_atoi`, `ft_atol` and `ft_atoll` do, with a result of `w` bits. -/
def atoWidth (w : ℕ) (str : Text) : M ℤ := do
  let i ← skipWhile str (fun x => (8 < x && x < 14) || x = 32) 0
  let c ← str.get i
  let sym : ℤ := if c = 45 then -1 else 1
  let i ← skipSign c i
  let nbr ← forever (readDecimal w str) (i, 0)
  inWidth w (nbr * sym)

/-- `ft_atoi`. -/
def ftAtoi (str : Text) : M ℤ := atoWidth 32 str

/-- `ft_atol`. -/
def ftAtol (str : Text) : M ℤ := atoWidth 64 str

/-- `ft_atoll`. -/
def ftAtoll (str : Text) : M ℤ := atoWidth 64 str

end FtMalloc
