import Mathlib.Data.Nat.ModEq
import Mathlib.Data.List.Range

/-!
# Circular buffers over free-running counters

A byte queue kept in a fixed array of `N` slots (a pipe's `data`, the
console's input buffer) uses `uint` counters that only ever increase,
wrapping at `2 ^ 32`, and stores the entry of counter value `c` in slot
`c % N`.  The queue is the `window` of `count r w = w - r` entries from the
read counter `r`.

With `N` dividing `2 ^ 32` the slot of `r + j` is `(r + j) % N` across the
wrap of the counter (`slot_add`), so the slots of a window of at most `N`
entries are distinct: a write at the slot past the window keeps it
(`window_update`) and extends it (`window_push`), and moving the read
counter drops the first entry (`window_succ_left`).
-/

namespace Xv6
namespace CircBuf

variable {α : Type} {N : Nat} [NeZero N]

/-- The slot `c % N` of the counter value `c`. -/
def slot (N : Nat) [NeZero N] (c : UInt32) : Fin N :=
  ⟨c.toNat % N, Nat.mod_lt _ (Nat.pos_of_ne_zero (NeZero.ne N))⟩

/-- The `k` entries from the counter value `r` on. -/
def window (buf : Fin N → α) (r : UInt32) (k : Nat) : List α :=
  (List.range k).map fun j => buf (slot N (r + UInt32.ofNat j))

/-- The number of entries from `r` to `w`: `w - r` in `uint` arithmetic. -/
def count (r w : UInt32) : Nat := (w - r).toNat

@[simp] theorem window_zero (buf : Fin N → α) (r : UInt32) : window buf r 0 = [] := rfl

@[simp] theorem length_window (buf : Fin N → α) (r : UInt32) (k : Nat) :
    (window buf r k).length = k := by
  simp [window]

theorem add_ofNat_succ (r : UInt32) (j : Nat) :
    r + UInt32.ofNat (j + 1) = r + 1 + UInt32.ofNat j := by
  apply UInt32.toNat_inj.mp
  simp only [UInt32.toNat_add, UInt32.toNat_ofNat', UInt32.toNat_one]
  omega

theorem add_ofNat_add (r : UInt32) (a b : Nat) :
    r + UInt32.ofNat (a + b) = r + UInt32.ofNat a + UInt32.ofNat b := by
  apply UInt32.toNat_inj.mp
  simp only [UInt32.toNat_add, UInt32.toNat_ofNat']
  omega

theorem count_lt (r w : UInt32) : count r w < 2 ^ 32 := (w - r).toNat_lt

@[simp] theorem count_self (r : UInt32) : count r r = 0 := by
  simp [count]

theorem count_eq_zero {r w : UInt32} : count r w = 0 ↔ r = w := by
  rw [count, ← UInt32.toNat_inj, UInt32.toNat_sub]
  have := r.toNat_lt
  have := w.toNat_lt
  constructor <;> intro h <;> omega

/-- The counter `k` entries past `r` is `r + k`. -/
theorem eq_add_iff_count {r w : UInt32} {k : Nat} (hk : k < 2 ^ 32) :
    w = r + UInt32.ofNat k ↔ count r w = k := by
  rw [count, ← UInt32.toNat_inj, UInt32.toNat_sub, UInt32.toNat_add, UInt32.toNat_ofNat']
  have := r.toNat_lt
  have := w.toNat_lt
  constructor <;> intro h <;> omega

theorem count_add_one {r w : UInt32} (h : count r w + 1 < 2 ^ 32) :
    count r (w + 1) = count r w + 1 := by
  rw [count, count, UInt32.toNat_sub, UInt32.toNat_sub, UInt32.toNat_add, UInt32.toNat_one]
  rw [count, UInt32.toNat_sub] at h
  have := r.toNat_lt
  have := w.toNat_lt
  omega

theorem count_add_one_left {r w : UInt32} (h : r ≠ w) :
    count (r + 1) w + 1 = count r w := by
  have hne : r.toNat ≠ w.toNat := fun h' => h (UInt32.toNat_inj.mp h')
  rw [count, count, UInt32.toNat_sub, UInt32.toNat_sub, UInt32.toNat_add, UInt32.toNat_one]
  have := r.toNat_lt
  have := w.toNat_lt
  omega

/-- Moving the read counter over `k` of the entries. -/
theorem count_add_left {r w : UInt32} {k : Nat} (hk : k ≤ count r w) :
    count (r + UInt32.ofNat k) w + k = count r w := by
  rw [count, UInt32.toNat_sub] at hk
  rw [count, count, UInt32.toNat_sub, UInt32.toNat_sub, UInt32.toNat_add, UInt32.toNat_ofNat']
  have := r.toNat_lt
  have := w.toNat_lt
  omega

/-- Moving the end counter back over an entry. -/
theorem count_sub_one {w e : UInt32} (h : e ≠ w) : count w (e - 1) + 1 = count w e := by
  have hne : e.toNat ≠ w.toNat := fun h' => h (UInt32.toNat_inj.mp h')
  rw [count, count, UInt32.toNat_sub, UInt32.toNat_sub, UInt32.toNat_sub, UInt32.toNat_one]
  have := w.toNat_lt
  have := e.toNat_lt
  omega

/-- The counter before one `k + 1` entries past `w` is `k` entries past it. -/
theorem sub_one_eq_add {w e : UInt32} {k : Nat} (h : count w e = k + 1) :
    e - 1 = w + UInt32.ofNat k := by
  have he : e = w + UInt32.ofNat (k + 1) := (eq_add_iff_count (h ▸ count_lt w e)).mpr h
  rw [he, add_ofNat_succ]
  apply UInt32.toNat_inj.mp
  simp only [UInt32.toNat_sub, UInt32.toNat_add, UInt32.toNat_ofNat', UInt32.toNat_one]
  omega

/-- The window of `a + b` entries is the window of `a` followed by the
window of `b` after it. -/
theorem window_add (buf : Fin N → α) (r : UInt32) (a b : Nat) :
    window buf r (a + b) = window buf r a ++ window buf (r + UInt32.ofNat a) b := by
  simp only [window, List.range_add, List.map_append, List.map_map]
  congr 1
  apply List.map_congr_left
  intro j _
  simp only [Function.comp_apply, add_ofNat_add]

theorem window_succ_right (buf : Fin N → α) (r : UInt32) (k : Nat) :
    window buf r (k + 1) = window buf r k ++ [buf (slot N (r + UInt32.ofNat k))] := by
  rw [window_add]
  simp [window]

section Dvd

variable (hN : N ∣ 2 ^ 32)
include hN

/-- Across the wrap of the counter, the entry `j` places after `r` is in
slot `(r + j) % N`. -/
theorem slot_add (r : UInt32) (j : Nat) :
    (slot N (r + UInt32.ofNat j)).val = (r.toNat + j) % N := by
  simp only [slot, UInt32.toNat_add, UInt32.toNat_ofNat']
  rw [Nat.mod_mod_of_dvd _ hN, Nat.add_mod, Nat.mod_mod_of_dvd _ hN, ← Nat.add_mod]

/-- Entries of a window of at most `N` are in distinct slots. -/
theorem slot_add_ne (r : UInt32) {j k : Nat} (hjk : j < k) (hk : k < N) :
    slot N (r + UInt32.ofNat j) ≠ slot N (r + UInt32.ofNat k) := by
  intro h
  have hmod : r.toNat + j ≡ r.toNat + k [MOD N] := by
    rw [Nat.ModEq, ← slot_add hN, ← slot_add hN, h]
  have := (Nat.ModEq.add_left_cancel' _ hmod).eq_of_lt_of_lt (by omega) hk
  omega

/-- A write to the slot `k` entries past `r`, for `k < N`, keeps the window
of the entries before it. -/
theorem window_update_of_le (buf : Fin N → α) (r : UInt32) {m k : Nat} (hm : m ≤ k) (hk : k < N)
    (x : α) : window (Function.update buf (slot N (r + UInt32.ofNat k)) x) r m = window buf r m := by
  apply List.map_congr_left
  intro j hj
  rw [Function.update_of_ne (slot_add_ne hN r (Nat.lt_of_lt_of_le (List.mem_range.mp hj) hm) hk)]

/-- A write to the slot past a window of fewer than `N` entries keeps the
window. -/
theorem window_update (buf : Fin N → α) (r : UInt32) {k : Nat} (hk : k < N) (x : α) :
    window (Function.update buf (slot N (r + UInt32.ofNat k)) x) r k = window buf r k :=
  window_update_of_le hN buf r le_rfl hk x

/-- A write to the slot past a window of fewer than `N` entries appends to
it. -/
theorem window_push (buf : Fin N → α) (r : UInt32) {k : Nat} (hk : k < N) (x : α) :
    window (Function.update buf (slot N (r + UInt32.ofNat k)) x) r (k + 1) =
      window buf r k ++ [x] := by
  rw [window, List.range_succ, List.map_append, ← window, window_update hN buf r hk]
  simp

end Dvd

/-- Moving the read counter past the first entry drops it. -/
theorem window_succ_left (buf : Fin N → α) (r : UInt32) (k : Nat) :
    window buf r (k + 1) = buf (slot N r) :: window buf (r + 1) k := by
  simp only [window, List.range_succ_eq_map, List.map_cons, List.map_map]
  congr 1
  · simp
  · apply List.map_congr_left
    intro j _
    simp only [Function.comp_apply, add_ofNat_succ]

end CircBuf
end Xv6
