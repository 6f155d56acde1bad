import Mathlib.Algebra.BigOperators.Ring.Finset
import Mathlib.Algebra.Order.BigOperators.Group.Finset
import Mathlib.Data.Fintype.Card

/-!
# Finitely many processes with local states

A concurrent model with `N` processes keeps each process's local state in a
function `Fin N → α`, and a step of process `p` changes it with
`Function.update`.  Shared counters of the code (how many processes are
inside some region, how much space they have reserved) are then sums over
the processes; this module gives the one fact every step lemma about them
needs: updating one process changes the sum by the difference at that
process.
-/

namespace Xv6

variable {N : Nat} {α : Type}

/-- The sum of `g` over all processes. -/
def procSum (g : Fin N → Nat) : Nat := ∑ q, g q

/-- The number of processes whose local state satisfies `P`. -/
def countWhere (f : Fin N → α) (P : α → Prop) [DecidablePred P] : Nat :=
  procSum fun q => if P (f q) then 1 else 0

/-- Changing one process's term changes the sum by the difference. -/
theorem procSum_update (g : Fin N → Nat) (p : Fin N) (a : Nat) :
    procSum (Function.update g p a) + g p = procSum g + a := by
  unfold procSum
  have h₁ := Finset.add_sum_erase Finset.univ (Function.update g p a) (Finset.mem_univ p)
  have h₂ := Finset.add_sum_erase Finset.univ g (Finset.mem_univ p)
  have h₃ : ∑ q ∈ Finset.univ.erase p, Function.update g p a q =
      ∑ q ∈ Finset.univ.erase p, g q := by
    apply Finset.sum_congr rfl
    intro q hq
    rw [Function.update_of_ne (Finset.ne_of_mem_erase hq)]
  rw [Function.update_self] at h₁
  omega

theorem procSum_congr {g g' : Fin N → Nat} (h : ∀ q, g q = g' q) :
    procSum g = procSum g' := by
  unfold procSum
  exact Finset.sum_congr rfl fun q _ => h q

theorem le_procSum (g : Fin N → Nat) (p : Fin N) : g p ≤ procSum g :=
  Finset.single_le_sum (fun q _ => Nat.zero_le (g q)) (Finset.mem_univ p)

theorem procSum_le_mul {g : Fin N → Nat} {c : Nat} {P : Fin N → Prop} [DecidablePred P]
    (h : ∀ q, g q ≤ if P q then c else 0) :
    procSum g ≤ c * procSum fun q => if P q then 1 else 0 := by
  unfold procSum
  rw [Finset.mul_sum]
  apply Finset.sum_le_sum
  intro q _
  have := h q
  split at this <;> simp_all

theorem procSum_eq_zero {g : Fin N → Nat} : procSum g = 0 ↔ ∀ q, g q = 0 := by
  simp [procSum, Finset.sum_eq_zero_iff]

/-- Moving one process from one local state to another changes each count
by what that move adds and removes. -/
theorem countWhere_update [DecidableEq α] (f : Fin N → α) (P : α → Prop)
    [DecidablePred P] (p : Fin N) (a : α) :
    countWhere (Function.update f p a) P + (if P (f p) then 1 else 0) =
      countWhere f P + (if P a then 1 else 0) := by
  have h := procSum_update (fun q => if P (f q) then 1 else 0) p (if P a then 1 else 0)
  have heq : (Function.update (fun q => if P (f q) then 1 else 0) p
      (if P a then 1 else 0)) = fun q => if P (Function.update f p a q) then 1 else 0 := by
    funext q
    by_cases hq : q = p
    · subst hq
      simp
    · simp [Function.update_of_ne hq]
  rw [heq] at h
  exact h

theorem countWhere_eq_zero {f : Fin N → α} {P : α → Prop} [DecidablePred P] :
    countWhere f P = 0 ↔ ∀ q, ¬ P (f q) := by
  simp [countWhere, procSum_eq_zero]

theorem countWhere_pos {f : Fin N → α} {P : α → Prop} [DecidablePred P] {p : Fin N}
    (hp : P (f p)) : 0 < countWhere f P := by
  have := le_procSum (fun q => if P (f q) then 1 else 0) p
  simp only [hp, if_true] at this
  exact this

end Xv6
