import Xv6.Kernel.Copy
import Xv6.Support.MemCopy

/-!
# `memmove`

The kernel's `memmove` (`kernel/string.c`, `n` a `uint`) and the user
library's (`user/ulib.c`, `n` an `int`).  Both pick one of the two copy
loops of `Xv6.Support.MemCopy`, by different tests: the kernel copies
backward when the destination starts inside the source above it,
`s < d && s + n > d`; the user library copies forward when the source lies
above the destination, `src > dst`, and backward otherwise.

Either choice makes the loop behave as the move through a buffer that the
copies of `Xv6.Kernel.Copy` are stated with (`Vm.memmove`): the `n`
destination bytes get the source bytes as they were, and nothing else
changes (`kernel_memmove_eq`, `ulib_memmove_eq`).  Addresses are
unbounded: a range that wraps past the top of the address space is not
modelled.
-/

namespace Xv6

open MemCopy

namespace Kernel

/-- `memmove(dst, src, n)` of `kernel/string.c`. -/
def memmove (mem : Nat → UInt8) (dst src n : Nat) : Nat → UInt8 :=
  if src < dst ∧ src + n > dst then copyBackward mem (dst + n) (src + n) n
  else copyForward mem dst src n

/-- The kernel's `memmove` is the move through a buffer. -/
theorem kernel_memmove_eq (mem : Nat → UInt8) (dst src n : Nat) :
    memmove mem dst src n = Vm.memmove mem dst src n := by
  funext a
  by_cases hin : dst ≤ a ∧ a < dst + n
  · rw [Vm.memmove_inside mem hin.1 hin.2]
    obtain ⟨i, rfl⟩ : ∃ i, a = dst + i := ⟨a - dst, by omega⟩
    rw [Nat.add_sub_cancel_left]
    unfold memmove
    split
    · exact copyBackward_inside mem dst src n (by omega) i (by omega)
    · exact copyForward_inside mem dst src n (by omega) i (by omega)
  · rw [Vm.memmove_outside mem (by omega)]
    unfold memmove
    split
    · exact copyBackward_outside mem dst src n (by omega)
    · exact copyForward_outside mem dst src n (by omega)

end Kernel

namespace Ulib

/-- `memmove(vdst, vsrc, n)` of `user/ulib.c`: for `n ≤ 0` the loop does
not run. -/
def memmove (mem : Nat → UInt8) (dst src : Nat) (n : Int) : Nat → UInt8 :=
  if src > dst then copyForward mem dst src n.toNat
  else copyBackward mem ((dst : Int) + n).toNat ((src : Int) + n).toNat n.toNat

/-- The user library's `memmove` is the move through a buffer of its
`n` bytes, none for `n ≤ 0`. -/
theorem ulib_memmove_eq (mem : Nat → UInt8) (dst src : Nat) (n : Int) :
    memmove mem dst src n = Vm.memmove mem dst src n.toNat := by
  rcases Int.lt_or_le n 0 with hn | hn
  · -- no byte moves
    have h0 : n.toNat = 0 := Int.toNat_of_nonpos hn.le
    funext a
    rw [memmove, h0, Vm.memmove_outside mem (by omega)]
    split <;> rfl
  · have hd : ((dst : Int) + n).toNat = dst + n.toNat := by omega
    have hs : ((src : Int) + n).toNat = src + n.toNat := by omega
    funext a
    rw [memmove, hd, hs]
    by_cases hin : dst ≤ a ∧ a < dst + n.toNat
    · rw [Vm.memmove_inside mem hin.1 hin.2]
      obtain ⟨i, rfl⟩ : ∃ i, a = dst + i := ⟨a - dst, by omega⟩
      rw [Nat.add_sub_cancel_left]
      split
      · exact copyForward_inside mem dst src _ (by omega) i (by omega)
      · exact copyBackward_inside mem dst src _ (by omega) i (by omega)
    · rw [Vm.memmove_outside mem (by omega)]
      split
      · exact copyForward_outside mem dst src _ (by omega)
      · exact copyBackward_outside mem dst src _ (by omega)

end Ulib

/-- Both `memmove`s leave in the `n` destination bytes the source bytes as
they were, for every overlap of the two ranges, and change no other byte;
the user one changes nothing for `n ≤ 0`. -/
theorem memmove_copies (mem : Nat → UInt8) (dst src : Nat) :
    (∀ n : Nat, (∀ i < n, Kernel.memmove mem dst src n (dst + i) = mem (src + i)) ∧
        ∀ a, a < dst ∨ dst + n ≤ a → Kernel.memmove mem dst src n a = mem a) ∧
      ∀ n : Int, (∀ i : Nat, (i : Int) < n → Ulib.memmove mem dst src n (dst + i) = mem (src + i)) ∧
        (∀ a : Nat, a < dst ∨ (dst : Int) + n ≤ a → Ulib.memmove mem dst src n a = mem a) ∧
        (n ≤ 0 → Ulib.memmove mem dst src n = mem) := by
  refine ⟨fun n => ⟨fun i hi => ?_, fun a ha => ?_⟩, fun n => ⟨fun i hi => ?_, fun a ha => ?_, fun hn => ?_⟩⟩
  · rw [Kernel.kernel_memmove_eq, Vm.memmove_inside mem (by omega) (by omega), Nat.add_sub_cancel_left]
  · rw [Kernel.kernel_memmove_eq, Vm.memmove_outside mem ha]
  · rw [Ulib.ulib_memmove_eq, Vm.memmove_inside mem (by omega) (by omega), Nat.add_sub_cancel_left]
  · rw [Ulib.ulib_memmove_eq, Vm.memmove_outside mem (by omega)]
  · funext a
    rw [Ulib.ulib_memmove_eq, Vm.memmove_outside mem (by omega)]

end Xv6
