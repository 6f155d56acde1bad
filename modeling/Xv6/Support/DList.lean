import Mathlib.Data.List.Nodup
import Mathlib.Logic.Function.Basic

/-!
# Circular doubly linked lists

Nodes of any type carry two links, `next` and `prev`.  `DSeg next prev p l q`
says that following `next` from `p` visits the nodes `l`, in order, and
arrives at `q`, each node's `prev` pointing back at the one before it.  A
ring with a sentinel `h` is a segment from `h` back to `h` through distinct
nodes.

`unlink` and `pushFront` are the two pointer updates of such a list, in the
order C code does them; `walk` is the scan `for (x = h->next; x != h; x =
x->next)` with fuel.  On a ring `walk` is `List.find?` over the list, and
`walk` along `prev` is `List.find?` over the reversed list.
-/

namespace Xv6
namespace DList

variable {α : Type}

/-- Following `next` from `p` visits `l` and arrives at `q`, and `prev`
leads back. -/
def DSeg (next prev : α → α) : α → List α → α → Prop
  | p, [], q => next p = q ∧ prev q = p
  | p, x :: l, q => next p = x ∧ prev x = p ∧ DSeg next prev x l q

/-- A ring through the sentinel `h` and the distinct nodes `l`. -/
def DRing (next prev : α → α) (h : α) (l : List α) : Prop :=
  DSeg next prev h l h ∧ (h :: l).Nodup

/-- `b->next->prev = b->prev; b->prev->next = b->next;` -/
def unlink [DecidableEq α] (b : α) (next prev : α → α) : (α → α) × (α → α) :=
  let prev := Function.update prev (next b) (prev b)
  let next := Function.update next (prev b) (next b)
  (next, prev)

/-- `b->next = h->next; b->prev = h; h->next->prev = b; h->next = b;` -/
def pushFront [DecidableEq α] (h b : α) (next prev : α → α) : (α → α) × (α → α) :=
  let next := Function.update next b (next h)
  let prev := Function.update prev b h
  let prev := Function.update prev (next h) b
  let next := Function.update next h b
  (next, prev)

/-- The scan along `step` from `x` for a node satisfying `P`, stopping at
`stop`, for at most `fuel` nodes. -/
def walk [DecidableEq α] (step : α → α) (stop : α) (P : α → Bool) : Nat → α → Option α
  | 0, _ => none
  | fuel + 1, x => if x = stop then none else if P x then some x else walk step stop P fuel (step x)

variable {next prev : α → α}

@[simp] theorem dseg_nil {p q : α} : DSeg next prev p [] q ↔ next p = q ∧ prev q = p := Iff.rfl

@[simp] theorem dseg_cons {p x q : α} {l : List α} :
    DSeg next prev p (x :: l) q ↔ next p = x ∧ prev x = p ∧ DSeg next prev x l q := Iff.rfl

theorem dseg_append {p x q : α} {l₁ l₂ : List α} :
    DSeg next prev p (l₁ ++ x :: l₂) q ↔ DSeg next prev p l₁ x ∧ DSeg next prev x l₂ q := by
  induction l₁ generalizing p with
  | nil => simp [and_assoc]
  | cons y l₁ ih => simp [ih, and_assoc]

/-- A segment reads `next` at its start and its nodes and `prev` at its
nodes and its end; links elsewhere may change. -/
theorem DSeg.frame {next' prev' : α → α} {p q : α} {l : List α} (h : DSeg next prev p l q)
    (hn : ∀ y ∈ p :: l, next' y = next y) (hp : ∀ y ∈ l ++ [q], prev' y = prev y) :
    DSeg next' prev' p l q := by
  induction l generalizing p with
  | nil =>
      obtain ⟨h₁, h₂⟩ := h
      exact ⟨(hn p (by simp)).trans h₁, (hp q (by simp)).trans h₂⟩
  | cons x l ih =>
      obtain ⟨h₁, h₂, h₃⟩ := h
      refine ⟨(hn p (by simp)).trans h₁, (hp x (by simp)).trans h₂, ih h₃ ?_ ?_⟩
      · intro y hy
        exact hn y (List.mem_cons_of_mem _ hy)
      · intro y hy
        exact hp y (by simp_all)

/-- Read backwards, a segment is a segment of the swapped links. -/
theorem dseg_reverse {p q : α} {l : List α} :
    DSeg next prev p l q ↔ DSeg prev next q l.reverse p := by
  induction l generalizing p with
  | nil => simp [and_comm]
  | cons x l ih =>
      rw [List.reverse_cons, dseg_append, dseg_cons, ih, dseg_nil]
      tauto

/-- The node before the end of a segment is its start or one of its nodes. -/
theorem DSeg.prev_mem {p q : α} {l : List α} (h : DSeg next prev p l q) : prev q ∈ p :: l := by
  induction l generalizing p with
  | nil => simp [h.2]
  | cons x l ih => exact List.mem_cons_of_mem _ (ih h.2.2)

/-- The node after the start of a segment is one of its nodes or its end. -/
theorem DSeg.next_mem {p q : α} {l : List α} (h : DSeg next prev p l q) : next p ∈ l ++ [q] := by
  cases l with
  | nil => simp [h.1]
  | cons x l => simp [h.1]

/-- Along a segment each link is undone by the other. -/
theorem DSeg.links {p q : α} {l : List α} (h : DSeg next prev p l q) :
    (∀ x ∈ p :: l, prev (next x) = x) ∧ ∀ y ∈ l ++ [q], next (prev y) = y := by
  induction l generalizing p with
  | nil => simp [h.1, h.2]
  | cons z l ih =>
      obtain ⟨h₁, h₂, h₃⟩ := h
      obtain ⟨ihn, ihp⟩ := ih h₃
      refine ⟨fun x hx => ?_, fun y hy => ?_⟩
      · rcases List.mem_cons.mp hx with rfl | hx
        · rw [h₁, h₂]
        · exact ihn x hx
      · rcases List.mem_cons.mp hy with rfl | hy
        · rw [h₂, h₁]
        · exact ihp y hy

/-- Every node of a ring has its links pointing at each other. -/
theorem DRing.links {h : α} {l : List α} (hr : DRing next prev h l) {x : α} (hx : x ∈ h :: l) :
    prev (next x) = x ∧ next (prev x) = x :=
  ⟨(hr.1.links).1 x hx, (hr.1.links).2 x (by simp_all [or_comm])⟩

section Ops

variable [DecidableEq α]

/-- Scanning a segment is `find?` over its nodes, as soon as the fuel covers
them. -/
theorem DSeg.walk {p q : α} {l : List α} (h : DSeg next prev p l q) (hq : q ∉ l) (P : α → Bool)
    {fuel : Nat} (hf : l.length < fuel) : walk next q P fuel (next p) = l.find? P := by
  induction l generalizing p fuel with
  | nil =>
      obtain ⟨k, rfl⟩ : ∃ k, fuel = k + 1 := ⟨fuel - 1, by simp at hf; omega⟩
      simp [DList.walk, h.1]
  | cons x l ih =>
      obtain ⟨k, rfl⟩ : ∃ k, fuel = k + 1 := ⟨fuel - 1, by simp at hf; omega⟩
      have hxq : x ≠ q := fun e => hq (e ▸ List.mem_cons_self)
      rw [h.1, DList.walk, if_neg hxq, List.find?_cons]
      cases P x
      · exact ih h.2.2 (fun hm => hq (List.mem_cons_of_mem _ hm)) (by simpa using hf)
      · rfl

theorem DRing.walk_next {h : α} {l : List α} (hr : DRing next prev h l) (P : α → Bool) {fuel : Nat}
    (hf : l.length < fuel) : walk next h P fuel (next h) = l.find? P :=
  hr.1.walk (List.nodup_cons.mp hr.2).1 P hf

/-- Scanning backwards from the sentinel is `find?` over the reversed list. -/
theorem DRing.walk_prev {h : α} {l : List α} (hr : DRing next prev h l) (P : α → Bool) {fuel : Nat}
    (hf : l.length < fuel) : walk prev h P fuel (prev h) = l.reverse.find? P :=
  (dseg_reverse.1 hr.1).walk (by simpa using (List.nodup_cons.mp hr.2).1) P (by simpa using hf)

/-- `pushFront` puts a node that is not on the ring right after the
sentinel. -/
theorem DRing.pushFront {h b : α} {l : List α} (hr : DRing next prev h l) (hb : b ∉ h :: l) :
    DRing (pushFront h b next prev).1 (pushFront h b next prev).2 h (b :: l) := by
  obtain ⟨hs, hnd⟩ := hr
  have hbh : b ≠ h := fun e => hb (e ▸ List.mem_cons_self)
  have hbl : b ∉ l := fun hm => hb (List.mem_cons_of_mem _ hm)
  obtain ⟨hhl, hl⟩ := List.nodup_cons.mp hnd
  refine ⟨?_, List.nodup_cons.mpr ⟨by simp [Ne.symm hbh, hhl], List.nodup_cons.mpr ⟨hbl, hl⟩⟩⟩
  simp only [DList.pushFront]
  cases l with
  | nil =>
      obtain ⟨h₁, h₂⟩ := hs
      simp [Function.update_apply, hbh, h₁]
  | cons x l =>
      obtain ⟨h₁, h₂, h₃⟩ := hs
      have hbx : b ≠ x := fun e => hbl (e ▸ List.mem_cons_self)
      obtain ⟨hxl, -⟩ := List.nodup_cons.mp hl
      have hxh : x ≠ h := fun e => hhl (e ▸ List.mem_cons_self)
      refine ⟨by simp, ?_, ?_, ?_, h₃.frame ?_ ?_⟩
      · simp [Ne.symm hbh, hbx, h₁]
      · simp [hbh, h₁]
      · simp [Ne.symm hbh, h₁]
      · -- the old links of the nodes after `b` are kept
        intro y hy
        have hyh : y ≠ h := fun e => hhl (e ▸ hy)
        have hyb : y ≠ b := fun e => hbl (e ▸ hy)
        simp [hyh, hyb]
      · intro y hy
        have hyx : y ≠ x := by
          rintro rfl
          simp only [List.mem_append, List.mem_singleton] at hy
          exact hy.elim hxl hxh
        have hyb : y ≠ b := by
          rintro rfl
          simp only [List.mem_append, List.mem_singleton] at hy
          exact hy.elim (fun hm => hbl (List.mem_cons_of_mem _ hm)) hbh
        simp [Function.update_apply, h₁, hyx, hyb]

theorem unlink_eq {b : α} (hb : next b ≠ b) :
    unlink b next prev = (Function.update next (prev b) (next b),
      Function.update prev (next b) (prev b)) := by
  simp [DList.unlink, Function.update_of_ne (Ne.symm hb)]

/-- Unlinking the node between two segments joins them. -/
theorem DSeg.unlink {p q b : α} {l₁ l₂ : List α} (h₁ : DSeg next prev p l₁ b)
    (h₂ : DSeg next prev b l₂ q) (hnd : (p :: l₁ ++ b :: l₂).Nodup) (hq : q ∉ l₁ ++ b :: l₂) :
    DSeg (unlink b next prev).1 (unlink b next prev).2 p (l₁ ++ l₂) q := by
  -- the node after `b` is not `b`, so `unlink` writes `prev b` into its
  -- successor and `next b` into its predecessor
  have hc := h₂.next_mem
  have hbc : next b ≠ b := by
    intro e
    rw [e] at hc
    simp only [List.nodup_append, List.nodup_cons] at hnd
    simp only [List.mem_append, List.mem_singleton] at hc
    exact hc.elim hnd.2.1.1 fun e => hq (by simp [e])
  rw [unlink_eq hbc]
  induction l₁ generalizing p with
  | nil =>
      obtain ⟨h₁n, h₁p⟩ := h₁
      cases l₂ with
      | nil =>
          obtain ⟨h₂n, h₂p⟩ := h₂
          simp [h₁p, h₂n]
      | cons y l₂ =>
          obtain ⟨h₂n, h₂p, h₂s⟩ := h₂
          simp only [List.nil_append, List.cons_append, List.nodup_cons, List.mem_cons,
            not_or] at hnd
          simp only [List.nil_append, List.mem_cons, not_or] at hq
          refine ⟨by simp [h₁p, h₂n], by simp [h₁p, h₂n], h₂s.frame ?_ ?_⟩
          · intro z hz
            have hzp : z ≠ p := fun e => by
              subst e
              exact (List.mem_cons.mp hz).elim hnd.1.2.1 hnd.1.2.2
            simp [h₁p, hzp]
          · intro z hz
            have hzy : z ≠ y := by
              rintro rfl
              simp only [List.mem_append, List.mem_singleton] at hz
              exact hz.elim hnd.2.2.1 fun e => hq.2.1 e.symm
            simp [h₂n, hzy]
  | cons x l₁ ih =>
      obtain ⟨h₁n, h₁p, h₁s⟩ := h₁
      rw [List.cons_append] at hnd
      obtain ⟨hp, hnd'⟩ := List.nodup_cons.mp hnd
      -- `b`'s predecessor is after `p`, its successor after `b`
      have hpa : p ≠ prev b := fun e =>
        hp (List.mem_append_left (b :: l₂) (e ▸ h₁s.prev_mem))
      have hxc : x ≠ next b := by
        intro e
        rw [← e] at hc
        simp only [List.mem_append, List.mem_singleton] at hc
        simp only [List.cons_append, List.nodup_cons, List.mem_append, List.mem_cons, not_or]
          at hnd'
        exact hc.elim hnd'.1.2.2 fun e => hq (by simp [e])
      refine ⟨by simp [hpa, h₁n], by simp [hxc, h₁p], ih h₁s hnd' fun hm => hq ?_⟩
      exact List.mem_cons_of_mem _ hm
/-- `unlink` takes a node of the ring out of it. -/
theorem DRing.unlink {h b : α} {l : List α} (hr : DRing next prev h l) (hb : b ∈ l) :
    DRing (unlink b next prev).1 (unlink b next prev).2 h (l.erase b) := by
  obtain ⟨l₁, l₂, rfl⟩ := List.append_of_mem hb
  obtain ⟨hs, hnd⟩ := hr
  have hb₁ : b ∉ l₁ := fun hm => by
    simp only [List.nodup_cons, List.nodup_append, List.mem_cons] at hnd
    exact hnd.2.2.2 b hm b (.inl rfl) rfl
  have herase : (l₁ ++ b :: l₂).erase b = l₁ ++ l₂ := by
    rw [List.erase_append_right _ hb₁, List.erase_cons_head]
  rw [herase]
  obtain ⟨h₁, h₂⟩ := dseg_append.1 hs
  refine ⟨h₁.unlink h₂ hnd (List.nodup_cons.mp hnd).1, ?_⟩
  have hsub : List.Sublist (l₁ ++ l₂) (l₁ ++ b :: l₂) :=
    (List.sublist_cons_self b l₂).append_left l₁
  exact hnd.sublist (hsub.cons_cons h)

/-- Moving a node of the ring to the front: `unlink`, then `pushFront`. -/
theorem DRing.moveFront {h b : α} {l : List α} (hr : DRing next prev h l) (hb : b ∈ l) :
    DRing (DList.pushFront h b (DList.unlink b next prev).1 (DList.unlink b next prev).2).1
      (DList.pushFront h b (DList.unlink b next prev).1 (DList.unlink b next prev).2).2 h
      (b :: l.erase b) := by
  have hbh : b ≠ h := fun e => (List.nodup_cons.mp hr.2).1 (e ▸ hb)
  refine (hr.unlink hb).pushFront ?_
  rintro (_ | ⟨_, hm⟩)
  · exact hbh rfl
  · exact (List.nodup_cons.mp hr.2).2.not_mem_erase hm

/-- Pushing distinct new nodes to the front one after another leaves them
on the ring in the opposite order. -/
theorem DRing.pushFronts {h : α} {l : List α} (hr : DRing next prev h l) {bs : List α}
    (hbs : bs.Nodup) (hnew : ∀ b ∈ bs, b ∉ h :: l) :
    DRing (bs.foldl (fun r b => DList.pushFront h b r.1 r.2) (next, prev)).1
      (bs.foldl (fun r b => DList.pushFront h b r.1 r.2) (next, prev)).2 h (bs.reverse ++ l) := by
  induction bs generalizing next prev l with
  | nil => exact hr
  | cons b bs ih =>
      obtain ⟨hb, hbs⟩ := List.nodup_cons.mp hbs
      have hr' := hr.pushFront (hnew b List.mem_cons_self)
      rw [List.foldl_cons, List.reverse_cons, List.append_assoc, List.singleton_append]
      refine ih hr' hbs fun c hc hm => ?_
      rcases List.mem_cons.mp hm with rfl | hm
      · exact hnew c (List.mem_cons_of_mem _ hc) List.mem_cons_self
      · rcases List.mem_cons.mp hm with rfl | hm
        · exact hb hc
        · exact hnew c (List.mem_cons_of_mem _ hc) (List.mem_cons_of_mem _ hm)

end Ops

end DList
end Xv6
