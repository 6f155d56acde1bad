import Mathlib.Data.List.Nodup
import Mathlib.Logic.Function.Basic

/-!
# Singly linked lists in a heap

A heap maps addresses to cells, address `0` is null, and `next` reads a
cell's link.  `Seg heap p l q` says that following links from `p` visits
the cells at the addresses `l`, in order, and arrives at `q`; a chain is a
segment that ends at null.  A chain is finite by construction, so it has no
cycle, and it visits no cell twice (`Chain.nodup`).

`find` is the executable `while (p) { if (match) ...; p = p->next; }` scan,
bounded by fuel; on a chain it is `List.find?` as soon as the fuel covers the
chain (`find_chain`).  `walk` is the loop round a circular list that stops
at the first cell a test accepts; round a cycle with one such cell it finds
that cell (`walk_cycle`).
-/

namespace Xv6
namespace Heap

variable {α : Type} (next : α → Nat)

/-- Following links from `p` visits `l` and arrives at `q`. -/
inductive Seg (heap : Nat → Option α) : Nat → List Nat → Nat → Prop
  | nil (p : Nat) : Seg heap p [] p
  | cons {p : Nat} {c : α} {l : List Nat} {q : Nat} :
      p ≠ 0 → heap p = some c → Seg heap (next c) l q → Seg heap p (p :: l) q

/-- Following links from `p` visits `l` and arrives at null. -/
def Chain (heap : Nat → Option α) (p : Nat) (l : List Nat) : Prop :=
  Seg next heap p l 0

/-- The scan for the first cell satisfying `P`, for at most `fuel` cells. -/
def find (heap : Nat → Option α) (P : α → Bool) : Nat → Nat → Option Nat
  | 0, _ => none
  | fuel + 1, p =>
      if p = 0 then none
      else
        match heap p with
        | none => none
        | some c => if P c then some p else find heap P fuel (next c)

/-- The walk `for (p = start; !stop(p, *p); p = p->next)`, for at most
`fuel` cells: the first cell where `stop` holds. -/
def walk (heap : Nat → Option α) (stop : Nat → α → Bool) : Nat → Nat → Option Nat
  | 0, _ => none
  | fuel + 1, p =>
      match heap p with
      | none => none
      | some c => if stop p c then some p else walk heap stop fuel (next c)

variable {next} {heap : Nat → Option α}

theorem Seg.mem_ne_zero {p q : Nat} {l : List Nat} (h : Seg next heap p l q) :
    ∀ a ∈ l, a ≠ 0 := by
  induction h with
  | nil => simp
  | cons hp _ _ ih =>
      intro a ha
      rcases List.mem_cons.mp ha with rfl | ha
      · exact hp
      · exact ih a ha

theorem Seg.mem_cell {p q : Nat} {l : List Nat} (h : Seg next heap p l q) :
    ∀ a ∈ l, ∃ c, heap a = some c := by
  induction h with
  | nil => simp
  | cons _ hc _ ih =>
      intro a ha
      rcases List.mem_cons.mp ha with rfl | ha
      · exact ⟨_, hc⟩
      · exact ih a ha

theorem Seg.append {p q r : Nat} {l₁ l₂ : List Nat} (h₁ : Seg next heap p l₁ q)
    (h₂ : Seg next heap q l₂ r) : Seg next heap p (l₁ ++ l₂) r := by
  induction h₁ with
  | nil => exact h₂
  | cons hp hc _ ih => exact .cons hp hc (ih h₂)

theorem Seg.split {p r : Nat} {l₁ l₂ : List Nat} (h : Seg next heap p (l₁ ++ l₂) r) :
    ∃ q, Seg next heap p l₁ q ∧ Seg next heap q l₂ r := by
  induction l₁ generalizing p with
  | nil => exact ⟨p, .nil p, h⟩
  | cons a l₁ ih =>
      cases h with
      | cons hp hc hs =>
          obtain ⟨q, h₁, h₂⟩ := ih hs
          exact ⟨q, .cons hp hc h₁, h₂⟩

/-- A segment survives any change of the heap that keeps the links of the
cells it visits. -/
theorem Seg.frame {heap' : Nat → Option α} {p q : Nat} {l : List Nat}
    (h : Seg next heap p l q) (hsame : ∀ a ∈ l, (heap' a).map next = (heap a).map next) :
    Seg next heap' p l q := by
  induction h with
  | nil => exact .nil _
  | cons hp hc _ ih =>
      have h₀ := hsame _ (List.mem_cons_self ..)
      rw [hc] at h₀
      obtain ⟨c', hc', hn⟩ := Option.map_eq_some_iff.mp h₀
      refine .cons hp hc' ?_
      rw [hn]
      exact ih fun a ha => hsame a (List.mem_cons_of_mem _ ha)

/-- A write to a cell the segment does not visit keeps it. -/
theorem Seg.update_of_not_mem {p q a : Nat} {l : List Nat} (h : Seg next heap p l q) (ha : a ∉ l)
    (c : Option α) : Seg next (Function.update heap a c) p l q :=
  h.frame fun b hb => by rw [Function.update_of_ne (fun hba : b = a => ha (hba ▸ hb))]

theorem Seg.cons_inv {p a q : Nat} {l : List Nat} (h : Seg next heap p (a :: l) q) :
    a = p ∧ p ≠ 0 ∧ ∃ c, heap p = some c ∧ Seg next heap (next c) l q := by
  cases h with
  | cons hp hc hs => exact ⟨rfl, hp, _, hc, hs⟩

/-- Going round a cycle from another of its cells. -/
theorem Seg.rotate {p a : Nat} {l₁ l₂ : List Nat} (h : Seg next heap p (l₁ ++ a :: l₂) p) :
    Seg next heap a (a :: l₂ ++ l₁) a := by
  obtain ⟨q, h₁, h₂⟩ := h.split
  obtain ⟨rfl, -⟩ := h₂.cons_inv
  exact h₂.append h₁

/-- A walk goes past the cells of a segment where `stop` fails. -/
theorem walk_seg (stop : Nat → α → Bool) {p q : Nat} {l : List Nat} (h : Seg next heap p l q)
    (hgo : ∀ a ∈ l, ∀ c, heap a = some c → stop a c = false) (fuel : Nat) :
    walk next heap stop (fuel + l.length) p = walk next heap stop fuel q := by
  induction h with
  | nil => rfl
  | @cons p c l q _ hc _ ih =>
      rw [List.length_cons, ← Nat.add_assoc, walk, hc]
      dsimp only
      rw [hgo p List.mem_cons_self c hc, if_neg Bool.false_ne_true]
      exact ih fun a ha => hgo a (List.mem_cons_of_mem _ ha)

/-- Walking round a cycle stops at the one cell where `stop` holds. -/
theorem walk_cycle (stop : Nat → α → Bool) {p t : Nat} {l : List Nat} (h : Seg next heap p l p)
    (hnd : l.Nodup) (ht : t ∈ l) (hgo : ∀ a ∈ l, a ≠ t → ∀ c, heap a = some c → stop a c = false)
    (hstop : ∀ c, heap t = some c → stop t c = true) {fuel : Nat} (hf : l.length ≤ fuel) :
    walk next heap stop fuel p = some t := by
  obtain ⟨l₁, l₂, rfl⟩ := List.append_of_mem ht
  obtain ⟨q, h₁, h₂⟩ := h.split
  obtain ⟨rfl, -, c, hc, -⟩ := h₂.cons_inv
  have hnot : t ∉ l₁ := fun hq => (List.nodup_middle.mp hnd |> List.nodup_cons.mp).1
    (List.mem_append_left _ hq)
  obtain ⟨k, rfl⟩ : ∃ k, fuel = k + 1 + l₁.length := ⟨fuel - 1 - l₁.length, by simp at hf; omega⟩
  rw [walk_seg stop h₁ (fun a ha => hgo a (List.mem_append_left _ ha) (fun e => hnot (e ▸ ha))),
    walk, hc]
  simp [hstop c hc]

/-- A chain is empty exactly when it starts at null. -/
theorem Chain.eq_nil_iff {p : Nat} {l : List Nat} (h : Chain next heap p l) : l = [] ↔ p = 0 := by
  unfold Chain at h
  cases h with
  | nil => simp
  | cons hp _ _ => simp [hp]

/-- A chain that is not empty starts with the cell at its start, and goes on
from that cell's link. -/
theorem Chain.cons_inv {p a : Nat} {l : List Nat} (h : Chain next heap p (a :: l)) :
    a = p ∧ ∃ c, heap p = some c ∧ Chain next heap (next c) l := by
  unfold Chain at h
  cases h with
  | cons _ hc hs => exact ⟨rfl, _, hc, hs⟩

/-- From a given start, there is one chain. -/
theorem Chain.unique {p : Nat} {l l' : List Nat} (h : Chain next heap p l)
    (h' : Chain next heap p l') : l = l' := by
  unfold Chain at h h'
  induction l generalizing p l' with
  | nil =>
      cases h
      cases h' with
      | nil => rfl
      | cons hp _ _ => exact absurd rfl hp
  | cons a l ih =>
      cases h with
      | cons hp hc hs =>
          cases h' with
          | nil => exact absurd rfl hp
          | cons _ hc' hs' =>
              rw [hc] at hc'
              cases hc'
              rw [ih hs hs']

/-- A chain visits no cell twice: a cell met again would start a shorter
chain from the same address. -/
theorem Chain.nodup {p : Nat} {l : List Nat} (h : Chain next heap p l) : l.Nodup := by
  induction l generalizing p with
  | nil => exact List.nodup_nil
  | cons a t ih =>
      unfold Chain at h
      cases h with
      | cons hp hc hs =>
          refine List.nodup_cons.mpr ⟨?_, ih hs⟩
          intro ha
          obtain ⟨t₁, t₂, rfl⟩ := List.append_of_mem ha
          obtain ⟨q, -, h₂⟩ := hs.split
          have hagain : Chain next heap a (a :: t₂) := by
            cases h₂ with
            | cons hq hc' hs' => exact .cons hq hc' hs'
          have := Chain.unique hagain (.cons hp hc hs)
          have hlen := congrArg List.length this
          simp at hlen
          omega

/-- With fuel for every cell, the scan finds the first cell of the chain
that satisfies `P`. -/
theorem find_chain (P : α → Bool) {p : Nat} {l : List Nat} (h : Chain next heap p l)
    {fuel : Nat} (hf : l.length ≤ fuel) :
    find next heap P fuel p = l.find? fun a => (heap a).any P := by
  induction l generalizing p fuel with
  | nil =>
      unfold Chain at h
      cases h
      cases fuel <;> simp [find]
  | cons a l ih =>
      unfold Chain at h
      cases h with
      | cons hp hc hs =>
          obtain ⟨fuel, rfl⟩ : ∃ k, fuel = k + 1 := ⟨fuel - 1, by simp at hf; omega⟩
          simp only [find, hp, if_false, hc, List.find?_cons, Option.any_some]
          cases hP : P _
          · exact ih hs (by simp at hf; omega)
          · rfl

/-- Writing one cell's link: every other cell is unchanged. -/
theorem Seg.setLast {p q v : Nat} {l : List Nat} {y : Nat} {c : α} (setNext : α → Nat → α)
    (hnext : next (setNext c v) = v) (h : Seg next heap p (l ++ [y]) q) (hy : heap y = some c)
    (hnd : y ∉ l) :
    Seg next (Function.update heap y (some (setNext c v))) p (l ++ [y]) v := by
  obtain ⟨r, h₁, h₂⟩ := h.split
  have hr : r = y := by cases h₂; rfl
  rw [hr] at h₁ h₂
  refine Seg.append (h₁.frame fun a ha => ?_) ?_
  · have hay : a ≠ y := by
      rintro rfl
      exact hnd ha
    rw [Function.update_of_ne hay]
  · cases h₂ with
    | cons hp _ _ =>
        refine .cons hp (Function.update_self ..) ?_
        rw [hnext]
        exact .nil v

end Heap
end Xv6
