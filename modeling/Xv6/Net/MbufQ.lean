import Xv6.Support.Chain
import Xv6.Support.System
import Mathlib.Data.Fintype.Basic

/-!
# Queues of mbufs

`struct mbufq` of `kernel/net.c` threads a queue through the `next` fields
of the mbufs it holds, from `head` to `tail`.  `tail` means something only
while the queue is not empty: `mbufq_init` sets only `head`, and
`mbufq_pophead` leaves `tail` at the last mbuf it popped, which the kernel
may since have freed or pushed onto another queue.  `mbufq_pushtail` links
through `tail` only when `head` is not null.

The mbufs are the cells of a heap holding the `next` link of each, the one
field the queue code reads or writes.  `mbufqSystem` runs `mbufq_pushtail`
and `mbufq_pophead` on a family of queues and lets the rest of the kernel
allocate, write or free any mbuf that is in no queue; a pushed mbuf is one
in no queue.  Ghost logs record, per queue, the mbufs pushed and the mbufs
`mbufq_pophead` returned.  In every reachable state the links from `head`
visit exactly the mbufs pushed and not yet popped, in order (`MbufqInv`), so
each queue is FIFO (`mbufq_fifo`).
-/

namespace Xv6
namespace Net

open Heap

/-- `struct mbufq` -/
structure MbufQ where
  head : Nat
  tail : Nat
  deriving DecidableEq, Repr

/-- The mbufs in memory: the `next` link of the mbuf at each address, `none`
where no mbuf is allocated. -/
abbrev Mbufs := Nat → Option Nat

/-- `mbufq_pushtail(q, m)`; `none` where it would write through a pointer
that is null or holds no mbuf. -/
def mbufqPushtail (heap : Mbufs) (q : MbufQ) (m : Nat) : Option (Mbufs × MbufQ) :=
  if m = 0 ∨ heap m = none then none
  else
    let heap := Function.update heap m (some 0)
    if q.head = 0 then some (heap, ⟨m, m⟩)
    else if q.tail = 0 ∨ heap q.tail = none then none
    else some (Function.update heap q.tail (some m), { q with tail := m })

/-- `mbufq_pophead(q)`: the queue after it and the mbuf popped, `0` when
the queue is empty. -/
def mbufqPophead (heap : Mbufs) (q : MbufQ) : Option (MbufQ × Nat) :=
  if q.head = 0 then some (q, 0)
  else (heap q.head).map fun n => ({ q with head := n }, q.head)

/-- `mbufq_empty(q)` -/
def mbufqEmpty (q : MbufQ) : Bool := q.head == 0

/-- `mbufq_init(q)` -/
def mbufqInit (q : MbufQ) : MbufQ := { q with head := 0 }

/-- The queue `q` holds the mbufs `l`: the links from `head` visit them, and
`tail` is the last one when there is one. -/
def Holds (heap : Mbufs) (q : MbufQ) (l : List Nat) : Prop :=
  Chain id heap q.head l ∧ (l ≠ [] → l.getLast? = some q.tail)

section Spec

variable {heap : Mbufs} {q : MbufQ} {l : List Nat}

theorem Holds.frame {heap' : Mbufs} (h : Holds heap q l) (hsame : ∀ a ∈ l, heap' a = heap a) :
    Holds heap' q l :=
  ⟨Seg.frame h.1 fun a ha => by rw [hsame a ha], h.2⟩

theorem Holds.mem_ne_zero (h : Holds heap q l) {a : Nat} (ha : a ∈ l) : a ≠ 0 :=
  Seg.mem_ne_zero h.1 a ha

theorem Holds.tail_mem (h : Holds heap q l) (hl : l ≠ []) : q.tail ∈ l :=
  List.mem_of_getLast? (h.2 hl)

theorem Holds.headD_eq_zero (h : Holds heap q l) : l.headD 0 = 0 ↔ l = [] := by
  cases l with
  | nil => simp
  | cons a l => simp [h.mem_ne_zero (List.mem_cons_self ..)]

theorem Holds.empty_iff (h : Holds heap q l) : mbufqEmpty q = true ↔ l = [] := by
  rw [mbufqEmpty, beq_iff_eq, h.1.eq_nil_iff]

theorem mbufqPushtail_valid {m : Nat} {r : Mbufs × MbufQ} (h : mbufqPushtail heap q m = some r) :
    m ≠ 0 ∧ (heap m).isSome := by
  by_cases h0 : m = 0 ∨ heap m = none
  · simp [mbufqPushtail, h0] at h
  · exact ⟨fun hm => h0 (.inl hm), Option.isSome_iff_ne_none.mpr fun hn => h0 (.inr hn)⟩

/-- `mbufq_pushtail` of an allocated mbuf that the queue does not hold
appends it, and writes its link and, only when the queue is not empty, the
link of the queue's last mbuf. -/
theorem mbufqPushtail_spec {m : Nat} (h : Holds heap q l) (hm : m ≠ 0) (hcell : (heap m).isSome)
    (hml : m ∉ l) :
    ∃ heap' q', mbufqPushtail heap q m = some (heap', q') ∧ Holds heap' q' (l ++ [m]) ∧
      heap' = if l = [] then Function.update heap m (some 0)
        else Function.update (Function.update heap m (some 0)) q.tail (some m) := by
  have h0 : ¬ (m = 0 ∨ heap m = none) := by
    simp [hm, Option.isSome_iff_ne_none.mp hcell]
  by_cases hl : l = []
  · -- an empty queue, drained or new, takes `m` as its head and its tail
    subst hl
    have hhead : q.head = 0 := h.1.eq_nil_iff.mp rfl
    refine ⟨Function.update heap m (some 0), ⟨m, m⟩,
      by simp only [mbufqPushtail, if_neg h0, if_pos hhead], ⟨?_, fun _ => rfl⟩, by rw [if_pos rfl]⟩
    exact .cons hm (Function.update_self ..) (.nil 0)
  · -- the link of the last mbuf, at `tail`, is set to `m`
    obtain ⟨l', hl'⟩ := List.getLast?_eq_some_iff.mp (h.2 hl)
    have hhead : q.head ≠ 0 := fun h₀ => hl (h.1.eq_nil_iff.mpr h₀)
    have hy : q.tail ∈ l := h.tail_mem hl
    have hym : q.tail ≠ m := fun he => hml (he ▸ hy)
    obtain ⟨c, hc⟩ := Seg.mem_cell h.1 q.tail hy
    have htail : ¬ (q.tail = 0 ∨ Function.update heap m (some 0) q.tail = none) := by
      simp [h.mem_ne_zero hy, Function.update_of_ne hym, hc]
    refine ⟨Function.update (Function.update heap m (some 0)) q.tail (some m), { q with tail := m },
      by simp only [mbufqPushtail, if_neg h0, if_neg hhead, if_neg htail],
      ⟨?_, fun _ => List.getLast?_concat⟩, by rw [if_neg hl]⟩
    have hnd : q.tail ∉ l' := by
      have hnodup := Chain.nodup h.1
      rw [hl'] at hnodup
      exact fun hmem => (List.nodup_append.mp hnodup).2.2 _ hmem _ (List.mem_singleton_self _) rfl
    have h₁ : Seg id (Function.update heap m (some 0)) q.head (l' ++ [q.tail]) 0 :=
      hl' ▸ Seg.update_of_not_mem h.1 hml _
    have h₂ : Seg id (Function.update (Function.update heap m (some 0)) q.tail (some m)) q.head
        (l' ++ [q.tail]) m :=
      Seg.setLast (fun _ v => v) rfl h₁ (by rw [Function.update_of_ne hym, hc]) hnd
    rw [hl']
    refine Seg.append h₂ (.cons hm ?_ (.nil 0))
    rw [Function.update_of_ne hym.symm, Function.update_self]

/-- `mbufq_pophead` returns the first mbuf the queue holds, or `0` when it
holds none, and leaves it holding the rest. -/
theorem mbufqPophead_spec (h : Holds heap q l) :
    ∃ q', mbufqPophead heap q = some (q', l.headD 0) ∧ Holds heap q' l.tail := by
  cases l with
  | nil =>
      have hhead : q.head = 0 := h.1.eq_nil_iff.mp rfl
      exact ⟨q, by simp [mbufqPophead, hhead], h.1, fun hne => absurd rfl hne⟩
  | cons a l =>
      have ha := h.mem_ne_zero (List.mem_cons_self ..)
      obtain ⟨rfl, n, hn, hl⟩ := h.1.cons_inv
      refine ⟨{ q with head := n }, by simp [mbufqPophead, ha, hn], hl, fun hne => ?_⟩
      -- the last mbuf of the rest is the last of the whole queue
      cases l with
      | nil => exact absurd rfl hne
      | cons b l =>
          show (b :: l).getLast? = some q.tail
          rw [← h.2 (List.cons_ne_nil _ _), List.getLast?_cons_cons]

/-- Logging the mbuf `mbufq_pophead` returns, if any: the log is still a
prefix of what was pushed, and what it has not returned loses its first. -/
theorem pop_log {pushed popped : List Nat} (hlog : popped <+: pushed) (l : List Nat)
    (hl : pushed.drop popped.length = l) (hne : ∀ a ∈ l, a ≠ 0) :
    (if l.headD 0 = 0 then popped else popped ++ [l.headD 0]) <+: pushed ∧
      pushed.drop (if l.headD 0 = 0 then popped else popped ++ [l.headD 0]).length = l.tail := by
  cases l with
  | nil =>
      have h0 : ([] : List Nat).headD 0 = 0 := rfl
      rw [if_pos h0]
      exact ⟨hlog, hl⟩
  | cons a l =>
      have ha : ¬ (a :: l).headD 0 = 0 := hne a (List.mem_cons_self ..)
      have hpu : pushed = popped ++ a :: l := by
        rw [← hl]
        exact (List.prefix_iff_eq_append.mp hlog).symm
      subst hpu
      rw [if_neg ha]
      exact ⟨⟨l, by simp⟩, by simp⟩

end Spec

section System

variable {ι : Type}

/-- The queues `ι` and the mbufs they link, with each queue's log: the
mbufs pushed onto it and the mbufs `mbufq_pophead` returned from it. -/
structure MbufqSt (ι : Type) where
  heap : Mbufs
  qs : ι → MbufQ
  pushed : ι → List Nat
  popped : ι → List Nat

/-- The mbufs pushed onto queue `i` and not yet popped. -/
def MbufqSt.queued (s : MbufqSt ι) (i : ι) : List Nat := (s.pushed i).drop (s.popped i).length

/-- Each queue holds the mbufs its log says are in it, and no mbuf is in two
queues. -/
structure MbufqInv (s : MbufqSt ι) : Prop where
  log : ∀ i, s.popped i <+: s.pushed i
  holds : ∀ i, Holds s.heap (s.qs i) (s.queued i)
  disjoint : ∀ i j, i ≠ j → ∀ a ∈ s.queued i, a ∉ s.queued j

variable {s s' : MbufqSt ι}

theorem MbufqInv.pushed_eq (h : MbufqInv s) (i : ι) : s.pushed i = s.popped i ++ s.queued i :=
  (List.prefix_iff_eq_append.mp (h.log i)).symm

theorem MbufqInv.queued_eq_nil (h : MbufqInv s) (i : ι) :
    s.queued i = [] ↔ s.popped i = s.pushed i := by
  rw [h.pushed_eq i]
  simp

/-- A step that changes only queue `i` and its log keeps the invariant when
the other queues' mbufs keep their links, queue `i` holds what its new log
says, and none of those mbufs is in another queue. -/
theorem MbufqInv.of_step_on (h : MbufqInv s) (i : ι)
    (hother : ∀ j, j ≠ i → s'.qs j = s.qs j ∧ s'.pushed j = s.pushed j ∧ s'.popped j = s.popped j)
    (hlog : s'.popped i <+: s'.pushed i) (hholds : Holds s'.heap (s'.qs i) (s'.queued i))
    (hsame : ∀ j, j ≠ i → ∀ a ∈ s.queued j, s'.heap a = s.heap a)
    (hnew : ∀ j, j ≠ i → ∀ a ∈ s'.queued i, a ∉ s.queued j) : MbufqInv s' := by
  have hq : ∀ j, j ≠ i → s'.queued j = s.queued j := by
    intro j hj
    simp only [MbufqSt.queued, (hother j hj).2.1, (hother j hj).2.2]
  refine ⟨fun j => ?_, fun j => ?_, fun j k hjk a ha => ?_⟩
  · by_cases hj : j = i
    · exact hj ▸ hlog
    · rw [(hother j hj).2.1, (hother j hj).2.2]
      exact h.log j
  · by_cases hj : j = i
    · exact hj ▸ hholds
    · rw [hq j hj, (hother j hj).1]
      exact (h.holds j).frame (hsame j hj)
  · by_cases hj : j = i
    · subst hj
      rw [hq k (Ne.symm hjk)]
      exact hnew k (Ne.symm hjk) a ha
    · rw [hq j hj] at ha
      by_cases hk : k = i
      · subst hk
        exact fun ha' => hnew j hj a ha' ha
      · rw [hq k hk]
        exact h.disjoint j k hjk a ha

variable [DecidableEq ι] [Fintype ι]

/-- A call on a queue, or a write by the rest of the kernel to an mbuf:
allocating, filling or freeing it. -/
inductive MbufqEv (ι : Type) where
  | pushtail (i : ι) (m : Nat)
  | pophead (i : ι)
  | write (a : Nat) (c : Option Nat)

/-- One step.  The callers push only an mbuf that is in no queue, and write
only such mbufs. -/
def mbufqStep (s : MbufqSt ι) : MbufqEv ι → Option (MbufqSt ι)
  | .pushtail i m =>
      if ∃ j, m ∈ s.queued j then none
      else (mbufqPushtail s.heap (s.qs i) m).map fun r =>
        { s with heap := r.1, qs := Function.update s.qs i r.2,
                 pushed := Function.update s.pushed i (s.pushed i ++ [m]) }
  | .pophead i =>
      (mbufqPophead s.heap (s.qs i)).map fun r =>
        { s with qs := Function.update s.qs i r.1,
                 popped := Function.update s.popped i
                   (if r.2 = 0 then s.popped i else s.popped i ++ [r.2]) }
  | .write a c =>
      if ∃ j, a ∈ s.queued j then none else some { s with heap := Function.update s.heap a c }

/-- Queues each set up by `mbufq_init` over whatever their memory held,
among any mbufs. -/
def mbufqSystem (heap0 : Mbufs) (q0 : ι → MbufQ) : System (MbufqSt ι) (MbufqEv ι) :=
  ⟨⟨heap0, fun i => mbufqInit (q0 i), fun _ => [], fun _ => []⟩, mbufqStep⟩

theorem MbufqInv.pushtail (h : MbufqInv s) {i : ι} {m : Nat}
    (hs : mbufqStep s (.pushtail i m) = some s') : MbufqInv s' := by
  simp only [mbufqStep] at hs
  split_ifs at hs with hguard
  simp only [not_exists] at hguard
  obtain ⟨r, hr, rfl⟩ := Option.map_eq_some_iff.mp hs
  obtain ⟨hm, hcell⟩ := mbufqPushtail_valid hr
  obtain ⟨heap', q', hpush, hholds, hheap⟩ := mbufqPushtail_spec (h.holds i) hm hcell (hguard i)
  rw [hpush, Option.some.injEq] at hr
  subst hr
  have hqi : (s.pushed i ++ [m]).drop (s.popped i).length = s.queued i ++ [m] :=
    List.drop_append_of_le_length (h.log i).length_le
  have hlog : s.popped i <+: s.pushed i ++ [m] := (h.log i).trans (List.prefix_append _ _)
  refine h.of_step_on i (fun j hj => by simp [hj]) (by simpa using hlog)
    (by simpa [MbufqSt.queued, hqi] using hholds) (fun j hj a ha => ?_) (fun j hj a ha => ?_)
  · -- another queue's mbuf is neither `m` nor the last of queue `i`
    have ham : a ≠ m := fun he => hguard j (he ▸ ha)
    dsimp only
    rw [hheap]
    split_ifs with hl
    · exact Function.update_of_ne ham _ _
    · have hat : a ≠ (s.qs i).tail := fun he =>
        h.disjoint i j (Ne.symm hj) _ ((h.holds i).tail_mem hl) (he ▸ ha)
      rw [Function.update_of_ne hat, Function.update_of_ne ham]
  · simp only [MbufqSt.queued, Function.update_self, hqi, List.mem_append,
      List.mem_singleton] at ha
    rcases ha with ha | rfl
    · exact h.disjoint i j (Ne.symm hj) a ha
    · exact hguard j

theorem MbufqInv.pophead (h : MbufqInv s) {i : ι} (hs : mbufqStep s (.pophead i) = some s') :
    MbufqInv s' := by
  obtain ⟨q', hpop, hholds⟩ := mbufqPophead_spec (h.holds i)
  simp only [mbufqStep, hpop, Option.map_some, Option.some.injEq] at hs
  subst hs
  have hne : ∀ a ∈ s.queued i, a ≠ 0 := fun a ha => (h.holds i).mem_ne_zero ha
  generalize hl : s.queued i = l at hholds hne
  -- the log of queue `i` gains the mbuf popped, if any, and the queue holds the rest
  obtain ⟨hlog, hdrop⟩ := pop_log (h.log i) l hl hne
  refine h.of_step_on i (fun j hj => by simp [hj]) (by simpa only [Function.update_self] using hlog)
    (by simpa only [MbufqSt.queued, Function.update_self, hdrop] using hholds)
    (fun _ _ _ _ => rfl) (fun j hj a ha => ?_)
  simp only [MbufqSt.queued, Function.update_self, hdrop] at ha
  exact h.disjoint i j (Ne.symm hj) a (hl ▸ List.mem_of_mem_tail ha)

theorem MbufqInv.write (h : MbufqInv s) {a : Nat} {c : Option Nat}
    (hs : mbufqStep s (.write a c) = some s') : MbufqInv s' := by
  simp only [mbufqStep] at hs
  split_ifs at hs with hguard
  simp only [not_exists] at hguard
  cases hs
  exact ⟨h.log, fun j => (h.holds j).frame fun b hb =>
    Function.update_of_ne (fun he : b = a => hguard j (he ▸ hb)) _ _, h.disjoint⟩

theorem MbufqInv.step (h : MbufqInv s) {e : MbufqEv ι} (hs : mbufqStep s e = some s') :
    MbufqInv s' := by
  cases e with
  | pushtail i m => exact h.pushtail hs
  | pophead i => exact h.pophead hs
  | write a c => exact h.write hs

theorem mbufqInv_reachable (heap0 : Mbufs) (q0 : ι → MbufQ) :
    (mbufqSystem heap0 q0).Invariant MbufqInv :=
  (mbufqSystem heap0 q0).invariant_of_step
    ⟨fun _ => List.nil_prefix, fun _ => ⟨.nil 0, fun hne => absurd rfl hne⟩,
      fun _ _ _ _ ha => absurd ha List.not_mem_nil⟩
    fun _ _ _ h hs => h.step hs

end System

end Net
end Xv6
