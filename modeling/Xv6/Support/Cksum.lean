import Xv6.Support.Bytes

/-!
# The ones'-complement sum of 16-bit words

The Internet checksum adds a header's 16-bit words in a wide accumulator and
folds the carries out of the top half back into the low 16 bits.  `fold`
is that fold for a 32-bit accumulator; it keeps the sum modulo `0xffff` and
is zero only for a zero sum (`fold_spec`).  So storing the complement of a
header's folded sum in a word of the header that was zero makes the folded
sum `0xffff` (`fold_add_compl`), and the checksum of the header is then
zero.  `wordSum` is the sum of the little-endian words of a buffer.
-/

namespace Xv6
namespace Cksum

open Bytes

/-- `sum = (sum & 0xffff) + (sum >> 16); sum += (sum >> 16);`, low 16 bits. -/
def fold (N : Nat) : Nat :=
  let s1 := N % 65536 + N / 65536
  (s1 + s1 / 65536) % 65536

theorem fold_carry {s : Nat} (hs : s ≤ 131070) :
    (s + s / 65536) % 65536 = if s < 65536 then s else s - 65535 := by
  by_cases hlt : s < 65536
  · rw [if_pos hlt, Nat.div_eq_of_lt hlt, Nat.add_zero, Nat.mod_eq_of_lt hlt]
  · have hq : s / 65536 = 1 := by omega
    have hmod : (s + 1) % 65536 = s + 1 - 65536 := by
      rw [Nat.mod_eq_sub_mod (by omega), Nat.mod_eq_of_lt (by omega)]
    rw [if_neg hlt, hq, hmod]
    omega

/-- The fold of a 32-bit sum is a 16-bit value congruent to it modulo
`0xffff`, and zero only when the sum is. -/
theorem fold_spec (N : Nat) (h : N < 2 ^ 32) :
    fold N ≤ 65535 ∧ fold N % 65535 = N % 65535 ∧ (fold N = 0 ↔ N = 0) := by
  have hN := Nat.div_add_mod N 65536
  have hlo := Nat.mod_lt N (show 0 < 65536 by decide)
  have hhi : N / 65536 < 65536 := by omega
  unfold fold
  dsimp only
  rw [fold_carry (by omega)]
  -- the sum is `65536 * hi + lo`, and `65536 ≡ 1` modulo `0xffff`
  generalize N % 65536 = lo at *
  generalize N / 65536 = hi at *
  subst hN
  split <;> omega

/-- Adding the complement of the folded sum folds to `0xffff`. -/
theorem fold_add_compl (N : Nat) (h : N < 2 ^ 24) : fold (N + (65535 - fold N)) = 65535 := by
  obtain ⟨h₁, h₂, h₃⟩ := fold_spec N (by omega)
  obtain ⟨h₁', h₂', h₃'⟩ := fold_spec (N + (65535 - fold N)) (by omega)
  omega

variable {n : Nat}

/-- The sum of the `k` little-endian 16-bit words of `b` from offset `o`. -/
def wordSum (b : Fin n → UInt8) (o : Nat) : Nat → Nat
  | 0 => 0
  | k + 1 => getLE b o 2 + wordSum b (o + 2) k

theorem wordSum_zero (b : Fin n → UInt8) (o : Nat) : wordSum b o 0 = 0 := rfl

theorem wordSum_succ (b : Fin n → UInt8) (o k : Nat) :
    wordSum b o (k + 1) = getLE b o 2 + wordSum b (o + 2) k := rfl

theorem wordSum_lt (b : Fin n → UInt8) (o k : Nat) : wordSum b o k ≤ 65535 * k := by
  induction k generalizing o with
  | zero => simp [wordSum_zero]
  | succ k ih =>
      have hw : getLE b o 2 < 256 ^ 2 := getLE_lt b o 2
      have := ih (o + 2)
      rw [wordSum_succ]
      omega

/-- A store before the words leaves their sum as it was. -/
theorem wordSum_setLE_of_le (b : Fin n → UInt8) {o o' : Nat} (v : Nat) (h : o + 2 ≤ o')
    (k : Nat) : wordSum (setLE b o 2 v) o' k = wordSum b o' k := by
  induction k generalizing o' with
  | zero => rfl
  | succ k ih =>
      rw [wordSum_succ, wordSum_succ, getLE_setLE_of_disjoint b v (by omega), ih (by omega)]

/-- Storing `v` into the `j`-th word, which was zero, adds `v` to the sum. -/
theorem wordSum_setLE (b : Fin n → UInt8) {o j k : Nat} (v : Nat) (hj : j < k)
    (h0 : getLE b (o + 2 * j) 2 = 0) (hfit : o + 2 * j + 2 ≤ n) :
    wordSum (setLE b (o + 2 * j) 2 v) o k = wordSum b o k + v % 65536 := by
  induction k generalizing o j with
  | zero => omega
  | succ k ih =>
      rw [wordSum_succ, wordSum_succ]
      rcases j with _ | j
      · -- the stored word is the first; the others lie after it
        simp only [Nat.mul_zero, Nat.add_zero] at h0 hfit ⊢
        rw [getLE_setLE b v hfit, h0, wordSum_setLE_of_le b v le_rfl]
        omega
      · have hd : getLE (setLE b (o + 2 * (j + 1)) 2 v) o 2 = getLE b o 2 :=
          getLE_setLE_of_disjoint b v (by omega)
        have he : o + 2 * (j + 1) = o + 2 + 2 * j := by omega
        rw [hd, he, ih (by omega) (by rw [← he]; exact h0) (by omega)]
        omega

/-- The word sum sees only the bytes it covers. -/
theorem wordSum_shift {m : Nat} {b : Fin n → UInt8} {b' : Fin m → UInt8} {o o' k : Nat}
    (h : ∀ i < 2 * k, byteAt b' (o' + i) = byteAt b (o + i)) :
    wordSum b' o' k = wordSum b o k := by
  induction k generalizing o o' with
  | zero => rfl
  | succ k ih =>
      rw [wordSum_succ, wordSum_succ, getLE_shift fun i hi => h i (by omega)]
      congr 1
      exact @ih (o + 2) (o' + 2) fun i hi => by
        simpa [Nat.add_assoc, Nat.add_comm 2 i] using h (i + 2) (by omega)

end Cksum
end Xv6
