import Mathlib.Data.List.TakeWhile

/-!
# C strings

`strncmp` and `strncpy` of `kernel/string.c`, over the bytes of a string
as a list: the bytes past the end of the list read as `0`, so a list is a
string whether or not it holds its terminator.

What a string says is its bytes before the first `0` (`cstr`):
`strncmp p q n` is zero exactly when the first `n` of them agree
(`strncmp_eq_zero_iff`), and `strncpy t n` keeps the first `n` of them
(`cstr_strncpy`).
-/

namespace Xv6

/-- `strncmp(p, q, n)` -/
def strncmp : List UInt8 → List UInt8 → Nat → Int
  | _, _, 0 => 0
  | p, q, n + 1 =>
      if p.headD 0 ≠ 0 ∧ p.headD 0 = q.headD 0 then strncmp p.tail q.tail n
      else (p.headD 0).toNat - (q.headD 0).toNat

/-- `strncpy(s, t, n)`: the `n` bytes it stores at `s`, those of `t` up to
its terminator and then zeros. -/
def strncpy (t : List UInt8) : Nat → List UInt8
  | 0 => []
  | n + 1 => if t.headD 0 = 0 then List.replicate (n + 1) 0 else t.headD 0 :: strncpy t.tail n

/-- The string a list of bytes holds: its bytes before the first `0`. -/
def cstr (s : List UInt8) : List UInt8 := s.takeWhile (· ≠ 0)

theorem cstr_eq (s : List UInt8) :
    cstr s = if s.headD 0 = 0 then [] else s.headD 0 :: cstr s.tail := by
  cases s with
  | nil => rfl
  | cons x t =>
      by_cases hx : x = 0
      · simp [cstr, hx]
      · simp [cstr, hx]

@[simp] theorem length_strncpy (t : List UInt8) (n : Nat) : (strncpy t n).length = n := by
  induction n generalizing t with
  | zero => rfl
  | succ n ih =>
      unfold strncpy
      split
      · simp
      · simp [ih]

/-- `strncmp` is zero exactly when the strings agree in their first `n`
bytes. -/
theorem strncmp_eq_zero_iff (p q : List UInt8) (n : Nat) :
    strncmp p q n = 0 ↔ (cstr p).take n = (cstr q).take n := by
  induction n generalizing p q with
  | zero => simp [strncmp]
  | succ n ih =>
      rw [strncmp, cstr_eq p, cstr_eq q]
      generalize p.headD 0 = a
      generalize q.headD 0 = b
      by_cases hm : a ≠ 0 ∧ a = b
      · -- the loop goes on past a byte both strings hold
        obtain ⟨ha, rfl⟩ := hm
        rw [if_pos ⟨ha, rfl⟩, ih, if_neg ha, if_neg ha]
        simp
      · -- the loop stops at the terminator of `p` or at a difference
        have hsub : (a.toNat : Int) - b.toNat = 0 ↔ a = b := by
          constructor
          · intro h
            exact UInt8.toNat_inj.mp (by omega)
          · rintro rfl
            simp
        rw [if_neg hm, hsub]
        by_cases ha : a = 0
        · subst ha
          by_cases hb : b = 0
          · simp [hb]
          · simp [hb, Ne.symm hb]
        · have hab : a ≠ b := fun h => hm ⟨ha, h⟩
          simp only [ha, hab, if_false, false_iff]
          split <;> simp [hab]

/-- `strncpy` keeps the first `n` bytes of the string. -/
theorem cstr_strncpy (t : List UInt8) (n : Nat) : cstr (strncpy t n) = (cstr t).take n := by
  induction n generalizing t with
  | zero => simp [strncpy, cstr]
  | succ n ih =>
      rw [strncpy, cstr_eq t]
      generalize t.headD 0 = a
      by_cases ha : a = 0
      · simp [ha, cstr, List.replicate_succ]
      · rw [if_neg ha, if_neg ha, cstr_eq]
        simp [ha, ih]

end Xv6
