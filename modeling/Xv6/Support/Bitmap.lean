import Mathlib.Data.Nat.Bitwise

/-!
# Bitmaps in byte buffers

A bitmap kept in a byte buffer stores bit `i` as bit `i % 8` of byte
`i / 8`, and C code tests, sets and clears it through the mask
`m = 1 << (i % 8)`:

* `(b[i/8] & m) != 0` tests it (`bit`),
* `b[i/8] |= m` sets it (`setBit`),
* `b[i/8] &= ~m` clears it (`clearBit`).

The definitions are these expressions; the lemmas say what each store does
to every bit, so that a user of the bitmap reasons about bits only.
-/

namespace Xv6
namespace Bitmap

variable {n : Nat}

/-- Byte `k` of a buffer, zero past its end. -/
def byte (b : Fin n → UInt8) (k : Nat) : UInt8 :=
  if h : k < n then b ⟨k, h⟩ else 0

/-- The buffer with byte `k` replaced by `v`. -/
def setByte (b : Fin n → UInt8) (k : Nat) (v : UInt8) : Fin n → UInt8 :=
  fun j => if j.val = k then v else b j

/-- The mask of bit `i` within its byte, `1 << (i % 8)`. -/
def mask (i : Nat) : UInt8 := 1 <<< UInt8.ofNat (i % 8)

/-- Whether bit `i` is set, tested as `(b[i/8] & m) != 0`. -/
def bit (b : Fin n → UInt8) (i : Nat) : Bool :=
  byte b (i / 8) &&& mask i != 0

/-- `b[i/8] |= m` -/
def setBit (b : Fin n → UInt8) (i : Nat) : Fin n → UInt8 :=
  setByte b (i / 8) (byte b (i / 8) ||| mask i)

/-- `b[i/8] &= ~m` -/
def clearBit (b : Fin n → UInt8) (i : Nat) : Fin n → UInt8 :=
  setByte b (i / 8) (byte b (i / 8) &&& ~~~mask i)

/-! ## Masks -/

theorem toNat_mask (i : Nat) : (mask i).toNat = 2 ^ (i % 8) := by
  have h8 : i % 8 < 8 := Nat.mod_lt _ (by omega)
  have hpow : 2 ^ (i % 8) < 256 :=
    calc 2 ^ (i % 8) < 2 ^ 8 := Nat.pow_lt_pow_right (by omega) h8
      _ = 256 := rfl
  simp [mask, UInt8.toNat_shiftLeft, Nat.shiftLeft_eq, Nat.mod_eq_of_lt hpow,
    UInt8.toNat_ofNat, Nat.mod_eq_of_lt (show i % 8 < 256 by omega), Nat.mod_eq_of_lt h8]

theorem and_two_pow_ne_zero (x k : Nat) : x &&& 2 ^ k ≠ 0 ↔ x.testBit k = true := by
  constructor
  · intro h
    by_contra hb
    apply h
    apply Nat.eq_of_testBit_eq
    intro j
    rw [Nat.testBit_and, Nat.testBit_two_pow, Nat.zero_testBit]
    by_cases hj : k = j
    · subst hj
      simpa using hb
    · simp [hj]
  · intro hb h
    have := congrArg (fun y => y.testBit k) h
    simp [Nat.testBit_and, hb] at this

/-- The C test `(x & m) != 0` reads bit `i % 8` of the byte. -/
theorem and_mask_ne_zero (x : UInt8) (i : Nat) :
    (x &&& mask i != 0) = x.toNat.testBit (i % 8) := by
  have h : x &&& mask i ≠ 0 ↔ x.toNat.testBit (i % 8) = true := by
    rw [← and_two_pow_ne_zero, ← toNat_mask, ← UInt8.toNat_and, ne_eq, ne_eq,
      ← UInt8.toNat_zero, UInt8.toNat_inj]
  rw [Bool.eq_iff_iff, bne_iff_ne]
  exact h

theorem testBit_or_mask (x : UInt8) (i k : Nat) :
    (x ||| mask i).toNat.testBit k = (x.toNat.testBit k || decide (i % 8 = k)) := by
  rw [UInt8.toNat_or, Nat.testBit_or, toNat_mask, Nat.testBit_two_pow]

theorem testBit_and_not_mask (x : UInt8) (i k : Nat) (hk : k < 8) :
    (x &&& ~~~mask i).toNat.testBit k = (x.toNat.testBit k && !decide (i % 8 = k)) := by
  have hm : (mask i).toNat.testBit k = decide (i % 8 = k) := by
    rw [toNat_mask, Nat.testBit_two_pow]
  rw [← hm, ← UInt8.toNat_toBitVec, ← UInt8.toNat_toBitVec, ← UInt8.toNat_toBitVec,
    BitVec.testBit_toNat, BitVec.testBit_toNat, BitVec.testBit_toNat, UInt8.toBitVec_and,
    UInt8.toBitVec_not, BitVec.getLsbD_and, BitVec.getLsbD_not]
  simp [hk]

/-! ## Bytes and bits -/

theorem byte_setByte (b : Fin n → UInt8) (k j : Nat) (v : UInt8) :
    byte (setByte b k v) j = if j = k ∧ k < n then v else byte b j := by
  unfold byte setByte
  by_cases hj : j < n
  · by_cases hjk : j = k
    · subst hjk
      simp [hj]
    · simp [hj, hjk]
  · have : ¬(j = k ∧ k < n) := fun h => hj (h.1 ▸ h.2)
    simp [hj, this]

theorem bit_eq_testBit (b : Fin n → UInt8) (i : Nat) :
    bit b i = (byte b (i / 8)).toNat.testBit (i % 8) :=
  and_mask_ne_zero _ _

/-- A bit lies in its own byte: two indices agree when their bytes and
their places in the byte do. -/
theorem eq_of_div_mod {i j : Nat} (hd : j / 8 = i / 8) (hm : j % 8 = i % 8) : j = i := by
  rw [← Nat.div_add_mod j 8, ← Nat.div_add_mod i 8, hd, hm]

/-- A store to another byte leaves the bit as it was. -/
theorem bit_setByte_of_ne (b : Fin n → UInt8) {k j : Nat} (v : UInt8) (h : j / 8 ≠ k) :
    bit (setByte b k v) j = bit b j := by
  rw [bit, bit, byte_setByte, if_neg (fun h' => h h'.1)]

theorem bit_setBit (b : Fin n → UInt8) {i : Nat} (j : Nat) (hi : i / 8 < n) :
    bit (setBit b i) j = (bit b j || decide (j = i)) := by
  by_cases hd : j / 8 = i / 8
  · rw [bit_eq_testBit, bit_eq_testBit, setBit, byte_setByte, if_pos ⟨hd, hi⟩, hd,
      testBit_or_mask]
    by_cases hm : j % 8 = i % 8
    · simp [eq_of_div_mod hd hm]
    · have hji : j ≠ i := fun h => hm (h ▸ rfl)
      simp [Ne.symm hm, hji]
  · have hji : j ≠ i := fun h => hd (h ▸ rfl)
    rw [setBit, bit_setByte_of_ne _ _ hd]
    simp [hji]

theorem bit_clearBit (b : Fin n → UInt8) (i j : Nat) :
    bit (clearBit b i) j = (bit b j && !decide (j = i)) := by
  by_cases hd : j / 8 = i / 8
  · by_cases hi : i / 8 < n
    · rw [bit_eq_testBit, bit_eq_testBit, clearBit, byte_setByte, if_pos ⟨hd, hi⟩, hd,
        testBit_and_not_mask _ _ _ (Nat.mod_lt _ (by omega))]
      by_cases hm : j % 8 = i % 8
      · simp [eq_of_div_mod hd hm]
      · have hji : j ≠ i := fun h => hm (h ▸ rfl)
        simp [Ne.symm hm, hji]
    · -- past the end nothing is stored, and no bit there is set
      have hz : byte b (j / 8) = 0 := by rw [byte, dif_neg (hd ▸ hi)]
      have hb : bit b j = false := by
        rw [bit_eq_testBit, hz, UInt8.toNat_zero, Nat.zero_testBit]
      rw [clearBit, bit, byte_setByte, if_neg (fun h => hi h.2), ← bit, hb, Bool.false_and]
  · have hji : j ≠ i := fun h => hd (h ▸ rfl)
    rw [clearBit, bit_setByte_of_ne _ _ hd]
    simp [hji]

end Bitmap
end Xv6
