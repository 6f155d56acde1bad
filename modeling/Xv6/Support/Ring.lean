import Mathlib.Data.List.Range
import Mathlib.Data.Fin.Basic
import Mathlib.Tactic.Linarith

/-!
# Cyclic intervals of a ring of `n` slots

A descriptor ring shared by a driver and a device is an array of `n` slots
with head and tail registers; each side owns a cyclic interval of slots.
`dist h t` is the number of slots of the interval `[h, t)`, `next` is the
register update `(i + 1) % n`, and `slots h k` lists the `k` slots from `h`
in ring order.  The lemmas say how the intervals move when one end
advances.
-/

namespace Xv6
namespace Ring

variable {n : Nat}

/-- The slot after `i`: `(i + 1) % n`. -/
def next (i : Fin n) : Fin n :=
  ⟨(i.val + 1) % n, Nat.mod_lt _ (Nat.lt_of_le_of_lt (Nat.zero_le _) i.isLt)⟩

/-- The number of slots of the cyclic interval `[h, t)`. -/
def dist (h t : Fin n) : Nat :=
  if h.val ≤ t.val then t.val - h.val else t.val + n - h.val

/-- The slot `k` places after `h`. -/
def fwd (h : Fin n) : Nat → Fin n
  | 0 => h
  | k + 1 => next (fwd h k)

/-- The first `k` slots from `h`, in ring order. -/
def slots (h : Fin n) (k : Nat) : List (Fin n) :=
  (List.range k).map (fwd h)

theorem next_val (i : Fin n) :
    (next i).val = if i.val + 1 = n then 0 else i.val + 1 := by
  have hi := i.isLt
  unfold next
  split
  · rename_i h
    simp [h]
  · exact Nat.mod_eq_of_lt (by omega)

theorem dist_lt (h t : Fin n) : dist h t < n := by
  have := h.isLt
  have := t.isLt
  unfold dist
  split <;> omega

@[simp] theorem dist_self (h : Fin n) : dist h h = 0 := by
  simp [dist]

theorem dist_eq_zero {h t : Fin n} : dist h t = 0 ↔ h = t := by
  have := h.isLt
  have := t.isLt
  rw [Fin.ext_iff]
  unfold dist
  split <;> omega

theorem dist_inj {a b c : Fin n} (h : dist a b = dist a c) : b = c := by
  have := a.isLt
  have := b.isLt
  have := c.isLt
  apply Fin.ext
  unfold dist at h
  split_ifs at h <;> omega

theorem next_inj {a b : Fin n} (h : next a = next b) : a = b := by
  have := a.isLt
  have := b.isLt
  have hv := congrArg Fin.val h
  rw [next_val, next_val] at hv
  apply Fin.ext
  split_ifs at hv <;> omega

/-- The distance from `a` to `b` is the difference of their distances from
any third slot `c`, taken around the ring. -/
theorem dist_rebase (c a b : Fin n) :
    dist a b = if dist c a ≤ dist c b then dist c b - dist c a else dist c b + n - dist c a := by
  have := a.isLt
  have := b.isLt
  have := c.isLt
  unfold dist
  split_ifs <;> omega

/-- Advancing the tail adds the old tail to the interval, unless the tail
lands on the head: then the interval is empty. -/
theorem dist_next_right (h t : Fin n) :
    dist h (next t) = if dist h t + 1 = n then 0 else dist h t + 1 := by
  have := h.isLt
  have := t.isLt
  unfold dist
  rw [next_val]
  split_ifs <;> omega

/-- Advancing the head drops the old head from a nonempty interval. -/
theorem dist_next_left {h t : Fin n} (hne : h ≠ t) : dist (next h) t + 1 = dist h t := by
  have := h.isLt
  have := t.isLt
  have hv : h.val ≠ t.val := fun e => hne (Fin.ext e)
  unfold dist
  rw [next_val]
  split_ifs <;> omega

/-- From the slot after `h`, `h` itself is the farthest slot. -/
theorem dist_next_self (h : Fin n) : dist (next h) h + 1 = n := by
  have := h.isLt
  unfold dist
  rw [next_val]
  split_ifs <;> omega

/-- The interval `[next a, b)` grows by one when `b` advances, as long as
`b` is not `a`. -/
theorem dist_next_next {a b : Fin n} (hne : b ≠ a) :
    dist (next a) (next b) = dist (next a) b + 1 := by
  rw [dist_next_right, if_neg]
  intro h
  have := dist_next_self a
  exact hne (dist_inj (show dist (next a) b = dist (next a) a by omega))

theorem fwd_val (h : Fin n) (k : Nat) : (fwd h k).val = (h.val + k) % n := by
  induction k with
  | zero => exact (Nat.mod_eq_of_lt h.isLt).symm
  | succ k ih =>
      simp only [fwd, next, ih, Nat.mod_add_mod]
      rfl

theorem fwd_dist (h t : Fin n) : fwd h (dist h t) = t := by
  have := h.isLt
  have := t.isLt
  apply Fin.ext
  rw [fwd_val]
  unfold dist
  split
  · rw [Nat.add_sub_cancel' (by assumption)]
    exact Nat.mod_eq_of_lt t.isLt
  · have he : h.val + (t.val + n - h.val) = t.val + n := by omega
    rw [he, Nat.add_mod_right]
    exact Nat.mod_eq_of_lt t.isLt

theorem dist_fwd (h : Fin n) {k : Nat} (hk : k < n) : dist h (fwd h k) = k := by
  have := h.isLt
  unfold dist
  rw [fwd_val]
  by_cases hw : h.val + k < n
  · rw [Nat.mod_eq_of_lt hw]
    split <;> omega
  · have he : (h.val + k) % n = h.val + k - n := by
      rw [Nat.mod_eq_sub_mod (by omega), Nat.mod_eq_of_lt (by omega)]
    rw [he]
    split <;> omega

theorem fwd_succ' (h : Fin n) (k : Nat) : fwd h (k + 1) = fwd (next h) k := by
  apply Fin.ext
  rw [fwd_val, fwd_val]
  show _ = ((h.val + 1) % n + k) % n
  rw [Nat.mod_add_mod]
  congr 1
  omega

@[simp] theorem slots_zero (h : Fin n) : slots h 0 = [] := rfl

theorem slots_succ (h : Fin n) (k : Nat) : slots h (k + 1) = slots h k ++ [fwd h k] := by
  simp [slots, List.range_succ]

theorem slots_succ' (h : Fin n) (k : Nat) : slots h (k + 1) = h :: slots (next h) k := by
  simp only [slots, List.range_succ_eq_map, List.map_cons, List.map_map]
  congr 1
  apply List.map_congr_left
  intro i _
  exact fwd_succ' h i

theorem length_slots (h : Fin n) (k : Nat) : (slots h k).length = k := by
  simp [slots]

/-- The slots of `[h, t)` are those nearer to `h` than `t` is. -/
theorem mem_slots {h j : Fin n} {k : Nat} (hk : k ≤ n) : j ∈ slots h k ↔ dist h j < k := by
  constructor
  · intro hj
    obtain ⟨i, hi, rfl⟩ := List.mem_map.mp hj
    rw [List.mem_range] at hi
    rw [dist_fwd h (by omega)]
    exact hi
  · intro hj
    exact List.mem_map.mpr ⟨dist h j, List.mem_range.mpr hj, fwd_dist h j⟩

/-- Advancing the tail of an interval that does not fill the ring appends
the old tail to its slots. -/
theorem slots_next_right {h t : Fin n} (hne : next t ≠ h) :
    slots h (dist h (next t)) = slots h (dist h t) ++ [t] := by
  have hd : dist h t + 1 ≠ n := by
    intro he
    have h0 : dist h (next t) = 0 := by rw [dist_next_right, if_pos he]
    exact hne (dist_eq_zero.1 h0).symm
  rw [dist_next_right, if_neg hd, slots_succ, fwd_dist]

/-- Advancing the head of a nonempty interval drops its first slot. -/
theorem slots_next_left {h t : Fin n} (hne : h ≠ t) :
    slots h (dist h t) = h :: slots (next h) (dist (next h) t) := by
  rw [← dist_next_left hne, slots_succ']

end Ring
end Xv6
