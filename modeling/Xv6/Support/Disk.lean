import Mathlib.Logic.Function.Basic
import Mathlib.Data.List.Basic

/-!
# Disks with atomic block writes, and crashes between them

A disk maps block numbers to block contents, and the one atomic operation is
the write of one whole block.  Code that updates several blocks issues a
list of writes; a crash keeps some prefix of that list.  The contents of a
write may depend on the disk when it is issued, as in a read-modify-write or
a copy from another block.

The main result is the rule behind redo logging: a list of writes that only
reads blocks it never writes computes the same disk when it is restarted
from the beginning after a crash at any point (`runWrites_take_restart`).
-/

namespace Xv6

/-- The contents of every block of a disk. -/
abbrev Disk (β : Type) := Nat → β

namespace Disk

variable {β : Type}

/-- One atomic block write: the block number and its new contents, computed
from the disk as it is when the write is issued. -/
structure Write (β : Type) where
  addr : Nat
  data : Disk β → β

/-- The disk after one write. -/
def Write.apply (w : Write β) (d : Disk β) : Disk β :=
  Function.update d w.addr (w.data d)

/-- The disk after the writes, issued in order. -/
def runWrites : List (Write β) → Disk β → Disk β
  | [], d => d
  | w :: ws, d => runWrites ws (w.apply d)

@[simp] theorem runWrites_nil (d : Disk β) : runWrites [] d = d := rfl

@[simp] theorem runWrites_cons (w : Write β) (ws : List (Write β)) (d : Disk β) :
    runWrites (w :: ws) d = runWrites ws (w.apply d) := rfl

theorem runWrites_append (ws vs : List (Write β)) (d : Disk β) :
    runWrites (ws ++ vs) d = runWrites vs (runWrites ws d) := by
  induction ws generalizing d with
  | nil => rfl
  | cons w ws ih => exact ih (w.apply d)

/-- A block that no write addresses keeps its contents. -/
theorem runWrites_of_not_mem {ws : List (Write β)} {x : Nat}
    (hx : x ∉ ws.map Write.addr) (d : Disk β) : runWrites ws d x = d x := by
  induction ws generalizing d with
  | nil => rfl
  | cons w ws ih =>
      rw [List.map_cons, List.mem_cons, not_or] at hx
      rw [runWrites_cons, ih hx.2, Write.apply, Function.update_of_ne hx.1]

section ReadsOnly

/-! ## Writes that read only what they do not write -/

variable {src : Nat → Prop}

/-- No write of `ws` addresses a block in `src`, and the contents of each
write depend only on the blocks in `src`. -/
def ReadsOnly (src : Nat → Prop) (ws : List (Write β)) : Prop :=
  ∀ w ∈ ws, ¬ src w.addr ∧
    ∀ d₁ d₂ : Disk β, (∀ a, src a → d₁ a = d₂ a) → w.data d₁ = w.data d₂

theorem ReadsOnly.of_cons {w : Write β} {ws : List (Write β)}
    (h : ReadsOnly src (w :: ws)) : ReadsOnly src ws :=
  fun u hu => h u (List.mem_cons_of_mem _ hu)

/-- The writes never change a block of `src`. -/
theorem ReadsOnly.runWrites_src {ws : List (Write β)} (h : ReadsOnly src ws)
    (d : Disk β) {a : Nat} (ha : src a) : runWrites ws d a = d a := by
  apply runWrites_of_not_mem
  intro hmem
  obtain ⟨w, hw, rfl⟩ := List.mem_map.mp hmem
  exact (h w hw).1 ha

/-- Two disks that agree on `src` and on every block the writes leave alone
end up equal. -/
theorem runWrites_congr {ws : List (Write β)} (h : ReadsOnly src ws)
    {d₁ d₂ : Disk β} (hsrc : ∀ a, src a → d₁ a = d₂ a)
    (hout : ∀ x, x ∉ ws.map Write.addr → d₁ x = d₂ x) :
    runWrites ws d₁ = runWrites ws d₂ := by
  induction ws generalizing d₁ d₂ with
  | nil => funext x; exact hout x List.not_mem_nil
  | cons w ws ih =>
      obtain ⟨hw, hdata⟩ := h w List.mem_cons_self
      have heq : w.data d₁ = w.data d₂ := hdata d₁ d₂ hsrc
      apply ih h.of_cons
      · intro a ha
        have hne : a ≠ w.addr := fun hx => hw (hx ▸ ha)
        simp only [Write.apply, Function.update_of_ne hne, hsrc a ha]
      · intro x hx
        by_cases hxw : x = w.addr
        · subst hxw
          simp [Write.apply, heq]
        · simp only [Write.apply, Function.update_of_ne hxw]
          apply hout x
          rw [List.map_cons, List.mem_cons, not_or]
          exact ⟨hxw, hx⟩

/-- **Restart after a crash.** Running the whole list again after a crash at
any point gives the same disk as running it once. -/
theorem runWrites_take_restart {ws : List (Write β)} (h : ReadsOnly src ws)
    (d : Disk β) (k : Nat) :
    runWrites ws (runWrites (ws.take k) d) = runWrites ws d := by
  apply runWrites_congr h
  · intro a ha
    exact (ReadsOnly.runWrites_src (fun w hw => h w (List.mem_of_mem_take hw)) d ha)
  · intro x hx
    apply runWrites_of_not_mem
    intro hmem
    apply hx
    obtain ⟨u, hu, rfl⟩ := List.mem_map.mp hmem
    exact List.mem_map_of_mem (List.mem_of_mem_take hu)

/-- When every write, issued on `d`, would write `v` of its block number,
the writes leave every written block at `v` and every other block as it
was. -/
theorem runWrites_apply_of_target {ws : List (Write β)} (h : ReadsOnly src ws)
    {d : Disk β} {v : Nat → β} (hv : ∀ w ∈ ws, w.data d = v w.addr) (x : Nat) :
    runWrites ws d x = if x ∈ ws.map Write.addr then v x else d x := by
  induction ws generalizing d with
  | nil => simp
  | cons w ws ih =>
      obtain ⟨hw, hdata⟩ := h w List.mem_cons_self
      have hv' : ∀ u ∈ ws, u.data (w.apply d) = v u.addr := by
        intro u hu
        rw [← hv u (List.mem_cons_of_mem _ hu)]
        apply ((h u (List.mem_cons_of_mem _ hu)).2)
        intro a ha
        have hne : a ≠ w.addr := fun hx => hw (hx ▸ ha)
        simp only [Write.apply, Function.update_of_ne hne]
      rw [runWrites_cons, ih h.of_cons hv']
      by_cases hx : x ∈ ws.map Write.addr
      · simp [hx]
      · by_cases hxw : x = w.addr
        · subst hxw
          simp [Write.apply, hv w List.mem_cons_self]
        · simp [hx, hxw, Write.apply]

end ReadsOnly

end Disk
end Xv6
