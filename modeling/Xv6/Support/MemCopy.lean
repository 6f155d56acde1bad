import Mathlib.Logic.Function.Basic
import Mathlib.Order.Basic

/-!
# Byte-at-a-time copy loops

The two loops a C `memmove` is made of, over a memory `Nat → α`:

* `copyForward mem d s n`: `while(n-- > 0) *d++ = *s++;`
* `copyBackward mem d s n`: `while(n-- > 0) *--d = *--s;`, with `d` and `s`
  one past the ends of the two ranges.

Each writes the `n` bytes of its destination and no others
(`copyForward_outside`, `copyBackward_outside`).  The forward loop copies
the source as it was when the destination does not start above the source
or lies wholly above it (`copyForward_inside`); the backward loop when the
destination does not start below the source or lies wholly below it
(`copyBackward_inside`).  A `memmove` chooses between them so that one of
the two applies for every overlap.
-/

namespace Xv6
namespace MemCopy

variable {α : Type*}

/-- `while(n-- > 0) *d++ = *s++;` -/
def copyForward (mem : Nat → α) (d s : Nat) : Nat → Nat → α
  | 0 => mem
  | n + 1 => copyForward (Function.update mem d (mem s)) (d + 1) (s + 1) n

/-- `while(n-- > 0) *--d = *--s;`, from the ends `d` and `s`. -/
def copyBackward (mem : Nat → α) (d s : Nat) : Nat → Nat → α
  | 0 => mem
  | n + 1 => copyBackward (Function.update mem (d - 1) (mem (s - 1))) (d - 1) (s - 1) n

theorem copyForward_outside (mem : Nat → α) (d s n : Nat) {a : Nat} (ha : a < d ∨ d + n ≤ a) :
    copyForward mem d s n a = mem a := by
  induction n generalizing mem d s with
  | zero => rfl
  | succ n ih =>
      rw [copyForward, ih _ _ _ (by omega)]
      exact Function.update_of_ne (by omega) _ _

/-- A forward copy reads each source byte before it writes over it, unless
the destination starts above the source inside it. -/
theorem copyForward_inside (mem : Nat → α) (d s n : Nat) (h : d ≤ s ∨ s + n ≤ d) :
    ∀ i < n, copyForward mem d s n (d + i) = mem (s + i) := by
  induction n generalizing mem d s with
  | zero => intro i hi; omega
  | succ n ih =>
      intro i hi
      rw [copyForward]
      rcases i with _ | i
      · -- the first byte: written now, left alone by the rest of the loop
        rw [copyForward_outside _ _ _ _ (by omega)]
        simp
      · -- a later byte: its source byte is not the one written first
        rw [show d + (i + 1) = d + 1 + i by omega, ih _ _ _ (by omega) i (by omega)]
        rw [Function.update_of_ne (by omega), show s + 1 + i = s + (i + 1) by omega]

theorem copyBackward_outside (mem : Nat → α) (d s n : Nat) {a : Nat} (ha : a < d ∨ d + n ≤ a) :
    copyBackward mem (d + n) (s + n) n a = mem a := by
  induction n generalizing mem with
  | zero => rfl
  | succ n ih =>
      rw [copyBackward, show d + (n + 1) - 1 = d + n by omega,
        show s + (n + 1) - 1 = s + n by omega, ih _ (by omega)]
      exact Function.update_of_ne (by omega) _ _

/-- A backward copy reads each source byte before it writes over it, unless
the destination starts below the source inside it. -/
theorem copyBackward_inside (mem : Nat → α) (d s n : Nat) (h : s ≤ d ∨ d + n ≤ s) :
    ∀ i < n, copyBackward mem (d + n) (s + n) n (d + i) = mem (s + i) := by
  induction n generalizing mem with
  | zero => intro i hi; omega
  | succ n ih =>
      intro i hi
      rw [copyBackward, show d + (n + 1) - 1 = d + n by omega,
        show s + (n + 1) - 1 = s + n by omega]
      by_cases hin : i < n
      · -- an earlier byte: its source byte is not the one written first
        rw [ih _ (by omega) i hin, Function.update_of_ne (by omega)]
      · -- the last byte: written first, left alone by the rest of the loop
        obtain rfl : i = n := by omega
        rw [copyBackward_outside _ _ _ _ (by omega)]
        simp

end MemCopy
end Xv6
