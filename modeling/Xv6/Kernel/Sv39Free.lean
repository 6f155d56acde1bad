import Xv6.Kernel.Sv39

/-!
# Freeing a Sv39 page table

`freewalk`, `uvmfree` and `proc_freepagetable` of `kernel/vm.c` and
`kernel/proc.c` over the page-table pages of `Xv6.Kernel.Sv39`.

`freewalk` follows every valid PTE that carries none of `PTE_R`, `PTE_W`,
`PTE_X` (a link), frees the pages below a page before the page itself, and
panics on a valid PTE that carries one (a leaf).  From a page it frees the
pages `freedPages` lists, in that order, when every page of the last level
below it is empty (`Freeable`); and it panics when that fails while every
valid PTE of the last level is a leaf (`LeafBottom`).  The recursion of the
C function is cut off below three levels here; neither case reaches the
cut-off.

A table that `walk` built has the shape `Shape` states: its links carry
`PTE_V` alone, and the root links only addresses below `MAXVA`.  On such a
table `uvmfree` and `proc_freepagetable` refine those of `Xv6.Kernel.Uvm`:
they panic when those panic, and otherwise free the same user pages and,
before them on the free list, every page of the table once
(`tablePages`).
-/

namespace Xv6
namespace Sv39

open Kernel
open Vm hiding freewalk uvmfree procFreepagetable uvmunmap unmapPage

/-! ## The model -/

/-- One pass of `freewalk`'s loop over the PTEs of `pagetable`: a link's
page is freed by `child` before the PTE is cleared; a valid PTE that is not
a link is a leaf. -/
def freewalkPass (child : Mach → Nat → Except String Mach) (pagetable : Nat) (m : Mach)
    (i : Fin 512) : Except String Mach :=
  let pte := m.mem (pagetable + 8 * i)
  if pte &&& PTE_V ≠ 0 ∧ pte &&& (PTE_R ||| PTE_W ||| PTE_X) = 0 then do
    let m ← child m (PTE2PA pte)
    pure ⟨m.kmem, Function.update m.mem (pagetable + 8 * i) 0⟩
  else if pte &&& PTE_V ≠ 0 then .error "freewalk: leaf"
  else pure m

/-- `freewalk(pagetable)` with `depth` levels of pages left: Sv39 has three,
while the C recursion goes on as long as it finds links. -/
def freewalk : Nat → Mach → Nat → Except String Mach
  | 0, _, _ => .error "freewalk: depth"
  | depth + 1, m, pagetable => do
    let m ← (List.finRange 512).foldlM (freewalkPass (freewalk depth) pagetable) m
    m.kfree pagetable

/-- `uvmfree(pagetable, sz)`: the user pages, then the three levels of the
table. -/
def uvmfree (m : Mach) (pagetable sz : Nat) : Except String Mach := do
  let m ← if 0 < sz then uvmunmap m pagetable 0 (PGROUNDUP sz / PGSIZE) true else pure m
  freewalk 3 m pagetable

/-- `proc_freepagetable(pagetable, sz)` -/
def procFreepagetable (m : Mach) (pagetable sz : Nat) : Except String Mach := do
  let m ← uvmunmap m pagetable TRAMPOLINE 1 false
  let m ← uvmunmap m pagetable TRAPFRAME 1 false
  uvmfree m pagetable sz

/-! ## What `freewalk` frees -/

/-- The pages `freewalk` frees from the page `p` with `depth + 1` levels
left, in the order it frees them. -/
def freedPages (mem : Nat → Nat) : Nat → Nat → List Nat
  | 0, p => [p]
  | depth + 1, p => (List.finRange 512).flatMap (fun i : Fin 512 =>
      if mem (p + 8 * i) &&& PTE_V ≠ 0 then freedPages mem depth (PTE2PA (mem (p + 8 * i)))
      else []) ++ [p]

/-- The pages freed through the PTE `i` of the page `p`. -/
def linkPages (mem : Nat → Nat) (depth p : Nat) (i : Fin 512) : List Nat :=
  if mem (p + 8 * i) &&& PTE_V ≠ 0 then freedPages mem depth (PTE2PA (mem (p + 8 * i))) else []

/-- `freewalk` with `depth + 1` levels left frees the page `p` without a
panic: its valid PTEs are links to pages it frees with `depth` levels left,
and a page of the last level has none. -/
def Freeable (mem : Nat → Nat) : Nat → Nat → Prop
  | 0, p => ∀ i : Fin 512, mem (p + 8 * i) &&& PTE_V = 0
  | depth + 1, p => ∀ i : Fin 512, mem (p + 8 * i) &&& PTE_V ≠ 0 →
      mem (p + 8 * i) &&& (PTE_R ||| PTE_W ||| PTE_X) = 0 ∧
        Freeable mem depth (PTE2PA (mem (p + 8 * i)))

section Pages

variable {mem mem' : Nat → Nat}

theorem freedPages_succ (depth p : Nat) :
    freedPages mem (depth + 1) p = (List.finRange 512).flatMap (linkPages mem depth p) ++ [p] := by
  rw [freedPages]
  rfl

theorem self_mem_freedPages (depth p : Nat) : p ∈ freedPages mem depth p := by
  cases depth with
  | zero => exact List.mem_singleton_self p
  | succ depth => exact List.mem_append_right _ (List.mem_singleton_self p)

theorem mem_freedPages_of_link {depth p q : Nat} {i : Fin 512} (h : q ∈ linkPages mem depth p i) :
    q ∈ freedPages mem (depth + 1) p := by
  rw [freedPages_succ]
  exact List.mem_append_left _ (List.mem_flatMap.mpr ⟨i, List.mem_finRange i, h⟩)

theorem Agree.trans {mem₁ mem₂ mem₃ : Nat → Nat} {p : Nat} (h₁ : Agree mem₁ mem₂ p)
    (h₂ : Agree mem₂ mem₃ p) : Agree mem₁ mem₃ p := fun i =>
  (h₂ i).trans (h₁ i)

/-- What `freewalk` frees and whether it can, read from memory that agrees
on the pages it frees. -/
theorem freedPages_congr (depth : Nat) :
    ∀ p, (∀ q ∈ freedPages mem depth p, Agree mem mem' q) →
      freedPages mem' depth p = freedPages mem depth p ∧
        (Freeable mem' depth p ↔ Freeable mem depth p) := by
  induction depth with
  | zero =>
    intro p h
    have hp : ∀ i : Fin 512, mem' (p + 8 * i) = mem (p + 8 * i) := h p (self_mem_freedPages 0 p)
    exact ⟨rfl, by simp only [Freeable, hp]⟩
  | succ depth ih =>
    intro p h
    have hp : ∀ i : Fin 512, mem' (p + 8 * i) = mem (p + 8 * i) := h p (self_mem_freedPages _ p)
    -- below each link, the pages the link leads to agree too
    have hkid : ∀ i : Fin 512, mem (p + 8 * i) &&& PTE_V ≠ 0 →
        freedPages mem' depth (PTE2PA (mem (p + 8 * i))) =
            freedPages mem depth (PTE2PA (mem (p + 8 * i))) ∧
          (Freeable mem' depth (PTE2PA (mem (p + 8 * i))) ↔
            Freeable mem depth (PTE2PA (mem (p + 8 * i)))) := fun i hv =>
      ih _ fun q hq => h q (mem_freedPages_of_link (i := i) (by
        rw [linkPages, if_pos hv]
        exact hq))
    constructor
    · rw [freedPages_succ, freedPages_succ]
      congr 2
      funext i
      simp only [linkPages, hp i]
      split_ifs with hv
      · exact (hkid i hv).1
      · rfl
    · simp only [Freeable, hp]
      refine forall_congr' fun i => imp_congr_right fun hv => and_congr_right fun _ => ?_
      exact (hkid i hv).2

end Pages

/-! ## `freewalk` on a page it can free -/

section Freewalk

variable {child : Mach → Nat → Except String Mach} {p : Nat} {m : Mach} {i : Fin 512}

theorem freewalkPass_invalid (h : m.mem (p + 8 * i) &&& PTE_V = 0) :
    freewalkPass child p m i = .ok m := by
  simp only [freewalkPass, h, ne_eq, not_true_eq_false, false_and, if_false]
  rfl

theorem freewalkPass_leaf (hv : m.mem (p + 8 * i) &&& PTE_V ≠ 0)
    (hl : m.mem (p + 8 * i) &&& (PTE_R ||| PTE_W ||| PTE_X) ≠ 0) :
    freewalkPass child p m i = .error "freewalk: leaf" := by
  simp only [freewalkPass, hv, hl, ne_eq, not_false_eq_true, and_false, if_false, if_true]

theorem freewalkPass_link (hv : m.mem (p + 8 * i) &&& PTE_V ≠ 0)
    (hl : m.mem (p + 8 * i) &&& (PTE_R ||| PTE_W ||| PTE_X) = 0) :
    freewalkPass child p m i = (child m (PTE2PA (m.mem (p + 8 * i))) >>= fun m' =>
      pure ⟨m'.kmem, Function.update m'.mem (p + 8 * i) 0⟩) := by
  simp only [freewalkPass, hv, hl, ne_eq, not_false_eq_true, and_self, if_true]

/-- `freewalk` from a page with `depth + 1` levels left frees the pages
`freedPages` lists, in that order, and writes no other page. -/
def FreesAs (depth : Nat) : Prop :=
  ∀ (m : Mach) (p : Nat), Freeable m.mem depth p → (freedPages m.mem depth p).Nodup →
    (∀ q ∈ freedPages m.mem depth p, PageOk m.kmem.kend q) →
    ∃ m', freewalk (depth + 1) m p = .ok m' ∧
      m'.kmem.freelist = (freedPages m.mem depth p).reverse ++ m.kmem.freelist ∧
      m'.kmem.kend = m.kmem.kend ∧
      ∀ q, q % PGSIZE = 0 → q ∉ freedPages m.mem depth p → Agree m.mem m'.mem q

/-- What the loop over the PTEs `l` of the page `p` needs of the machine:
the PTEs left and the pages below them as they were in `mem₀`, and those
pages distinct, apart from `p`, and pages `kfree` takes. -/
structure LoopInv (mem₀ : Nat → Nat) (depth p : Nat) (l : List (Fin 512)) (m : Mach) : Prop where
  nodup : l.Nodup
  kids_nodup : (l.flatMap (linkPages mem₀ depth p)).Nodup
  not_kid : p ∉ l.flatMap (linkPages mem₀ depth p)
  kids_ok : ∀ q ∈ l.flatMap (linkPages mem₀ depth p), PageOk m.kmem.kend q ∧ Agree mem₀ m.mem q
  entries : ∀ j ∈ l, m.mem (p + 8 * j) = mem₀ (p + 8 * j)

variable {mem₀ : Nat → Nat} {depth : Nat} {l : List (Fin 512)}

/-- The pages below the first PTE left are as they were. -/
theorem LoopInv.head_congr (hinv : LoopInv mem₀ depth p (i :: l) m) :
    linkPages m.mem depth p i = linkPages mem₀ depth p i ∧
      (m.mem (p + 8 * i) &&& PTE_V ≠ 0 →
        (Freeable m.mem depth (PTE2PA (m.mem (p + 8 * i))) ↔
          Freeable mem₀ depth (PTE2PA (mem₀ (p + 8 * i))))) := by
  have hw := hinv.entries i List.mem_cons_self
  have hagree : ∀ q ∈ linkPages mem₀ depth p i, Agree mem₀ m.mem q := fun q hq =>
    (hinv.kids_ok q (by rw [List.flatMap_cons]; exact List.mem_append_left _ hq)).2
  by_cases hv : mem₀ (p + 8 * i) &&& PTE_V ≠ 0
  · have hcongr := freedPages_congr depth _ fun q hq => hagree q (by
      rw [linkPages, if_pos hv]
      exact hq)
    refine ⟨?_, fun _ => ?_⟩
    · simp only [linkPages, hw, if_pos hv, hcongr.1]
    · rw [hw]
      exact hcongr.2
  · refine ⟨?_, fun h => absurd (hw ▸ h) hv⟩
    simp only [linkPages, hw, if_neg hv]

/-- A pass over a PTE that is no link, or a link to a page `freewalk` can
free, frees the pages below it and keeps the loop's invariant. -/
theorem LoopInv.pass (hchild : FreesAs depth) (hp : p % PGSIZE = 0)
    (hinv : LoopInv mem₀ depth p (i :: l) m)
    (hgood : mem₀ (p + 8 * i) &&& PTE_V ≠ 0 →
      mem₀ (p + 8 * i) &&& (PTE_R ||| PTE_W ||| PTE_X) = 0 ∧
        Freeable mem₀ depth (PTE2PA (mem₀ (p + 8 * i)))) :
    ∃ m₂, freewalkPass (freewalk (depth + 1)) p m i = .ok m₂ ∧ LoopInv mem₀ depth p l m₂ ∧
      m₂.kmem.freelist = (linkPages mem₀ depth p i).reverse ++ m.kmem.freelist ∧
      m₂.kmem.kend = m.kmem.kend ∧
      (∀ q, q % PGSIZE = 0 → q ∉ linkPages mem₀ depth p i → q ≠ p → Agree m.mem m₂.mem q) ∧
      ∀ j : Fin 512, j ≠ i → m₂.mem (p + 8 * j) = m.mem (p + 8 * j) := by
  have hw := hinv.entries i List.mem_cons_self
  have hnd := hinv.kids_nodup
  rw [List.flatMap_cons] at hnd
  obtain ⟨hnd₁, hnd₂, hdisj⟩ := List.nodup_append.mp hnd
  have hnot := hinv.not_kid
  rw [List.flatMap_cons, List.mem_append, not_or] at hnot
  have hok : ∀ q ∈ linkPages mem₀ depth p i ++ l.flatMap (linkPages mem₀ depth p),
      PageOk m.kmem.kend q ∧ Agree mem₀ m.mem q := by
    have := hinv.kids_ok
    rwa [List.flatMap_cons] at this
  have hil : i ∉ l := (List.nodup_cons.mp hinv.nodup).1
  by_cases hv : mem₀ (p + 8 * i) &&& PTE_V = 0
  · -- no link: the pass changes nothing
    have hlink : linkPages mem₀ depth p i = [] := by simp [linkPages, hv]
    refine ⟨m, freewalkPass_invalid (hw ▸ hv), ⟨(List.nodup_cons.mp hinv.nodup).2, hnd₂, hnot.2,
      fun q hq => hok q (List.mem_append_right _ hq),
      fun j hj => hinv.entries j (List.mem_cons_of_mem _ hj)⟩, by simp [hlink], rfl,
      fun _ _ _ _ _ => rfl, fun _ _ => rfl⟩
  obtain ⟨hrwx, -⟩ := hgood hv
  obtain ⟨hlinkEq, hfree⟩ := hinv.head_congr
  have hv' : m.mem (p + 8 * i) &&& PTE_V ≠ 0 := hw ▸ hv
  have hlink : linkPages m.mem depth p i = freedPages m.mem depth (PTE2PA (m.mem (p + 8 * i))) := by
    simp only [linkPages, if_pos hv']
  rw [hlinkEq] at hlink
  -- the page below the link is freed by the recursive call
  obtain ⟨m₁, h₁, hfl₁, hkend₁, hagree₁⟩ := hchild m (PTE2PA (m.mem (p + 8 * i)))
    ((hfree hv').mpr (hgood hv).2) (hlink ▸ hnd₁)
    (fun q hq => (hok q (List.mem_append_left _ (hlink ▸ hq))).1)
  rw [← hlink] at hfl₁ hagree₁
  have hpage : Agree m.mem m₁.mem p := hagree₁ p hp hnot.1
  let m₂ : Mach := ⟨m₁.kmem, Function.update m₁.mem (p + 8 * i) 0⟩
  -- writing the PTE of `p` leaves every other page as it was
  have hupd : ∀ q, q % PGSIZE = 0 → q ≠ p → Agree m₁.mem m₂.mem q := fun q hq hqp =>
    agree_update (slot_ne hq hp hqp · i)
  have hent : ∀ j : Fin 512, j ≠ i → m₂.mem (p + 8 * j) = m.mem (p + 8 * j) := fun j hj => by
    have hne : p + 8 * (j : Nat) ≠ p + 8 * i := fun h => hj (Fin.ext (by omega))
    simp only [m₂, Function.update_of_ne hne]
    exact hpage j
  refine ⟨m₂, by rw [freewalkPass_link hv' (hw ▸ hrwx), h₁]; rfl, ⟨(List.nodup_cons.mp hinv.nodup).2,
    hnd₂, hnot.2, fun q hq => ?_, fun j hj => ?_⟩, hfl₁, hkend₁,
    fun q hq hqn hqp => (hagree₁ q hq hqn).trans (hupd q hq hqp), hent⟩
  · obtain ⟨hqok, hq₀⟩ := hok q (List.mem_append_right _ hq)
    have hqn : q ∉ linkPages mem₀ depth p i := fun h => hdisj q h q hq rfl
    have hqp : q ≠ p := fun h => hnot.2 (h ▸ hq)
    refine ⟨hkend₁ ▸ hqok, hq₀.trans ((hagree₁ q hqok.1 hqn).trans (hupd q hqok.1 hqp))⟩
  · rw [hent j fun h => hil (h ▸ hj)]
    exact hinv.entries j (List.mem_cons_of_mem _ hj)

/-- The loop over PTEs that are all good frees the pages below them, in
order. -/
theorem LoopInv.loop (hchild : FreesAs depth) (hp : p % PGSIZE = 0)
    (hgood : ∀ i ∈ l, mem₀ (p + 8 * i) &&& PTE_V ≠ 0 →
      mem₀ (p + 8 * i) &&& (PTE_R ||| PTE_W ||| PTE_X) = 0 ∧
        Freeable mem₀ depth (PTE2PA (mem₀ (p + 8 * i))))
    (hinv : LoopInv mem₀ depth p l m) :
    ∃ m', l.foldlM (freewalkPass (freewalk (depth + 1)) p) m = .ok m' ∧
      m'.kmem.freelist = (l.flatMap (linkPages mem₀ depth p)).reverse ++ m.kmem.freelist ∧
      m'.kmem.kend = m.kmem.kend ∧
      ∀ q, q % PGSIZE = 0 → q ∉ l.flatMap (linkPages mem₀ depth p) → q ≠ p →
        Agree m.mem m'.mem q := by
  induction l generalizing m with
  | nil => exact ⟨m, rfl, rfl, rfl, fun _ _ _ _ _ => rfl⟩
  | cons i l ih =>
    obtain ⟨m₂, h₂, hinv₂, hfl₂, hkend₂, hagree₂, -⟩ :=
      hinv.pass hchild hp (hgood i List.mem_cons_self)
    obtain ⟨m', h', hfl', hkend', hagree'⟩ :=
      ih (fun j hj => hgood j (List.mem_cons_of_mem _ hj)) hinv₂
    refine ⟨m', by rw [List.foldlM_cons, h₂, except_ok_bind, h'], ?_, hkend'.trans hkend₂,
      fun q hq hqn hqp => ?_⟩
    · rw [hfl', hfl₂, List.flatMap_cons, List.reverse_append, List.append_assoc]
    · rw [List.flatMap_cons, List.mem_append, not_or] at hqn
      exact (hagree₂ q hq hqn.1 hqp).trans (hagree' q hq hqn.2 hqp)

/-- The loop starts with every PTE and every page as they are. -/
theorem loopInv_start {depth p : Nat} (m : Mach)
    (hnd : (freedPages m.mem (depth + 1) p).Nodup)
    (hok : ∀ q ∈ freedPages m.mem (depth + 1) p, PageOk m.kmem.kend q) :
    LoopInv m.mem depth p (List.finRange 512) m := by
  rw [freedPages_succ] at hnd hok
  obtain ⟨hnd₁, hnd₂, hdisj⟩ := List.nodup_append.mp hnd
  exact ⟨List.nodup_finRange 512, hnd₁, fun h => hdisj p h p (List.mem_singleton_self p) rfl,
    fun q hq => ⟨hok q (List.mem_append_left _ hq), fun _ => rfl⟩, fun _ _ => rfl⟩

/-- The last step of `freewalk`: the page itself. -/
theorem freewalk_kfree {m₁ : Mach} {p : Nat} (hp : PageOk m₁.kmem.kend p) :
    ∃ m', m₁.kfree p = .ok m' ∧ m'.kmem.freelist = p :: m₁.kmem.freelist ∧
      m'.kmem.kend = m₁.kmem.kend ∧ ∀ q, q % PGSIZE = 0 → q ≠ p → Agree m₁.mem m'.mem q := by
  obtain ⟨k', hk, hfl, -, hkend⟩ := kfree_of_ok hp
  refine ⟨⟨k', setPage m₁.mem p (fillWord 1)⟩, ?_, hfl, hkend,
    fun q hq hqp => agree_setPage hq hp.1 hqp⟩
  rw [Mach.kfree, hk]
  rfl

/-- `freewalk` frees what `freedPages` lists, on every page it can free. -/
theorem freewalk_spec : ∀ depth, FreesAs depth
  | 0 => fun m p hF _ hok => by
    -- a page of the last level: no PTE is valid, and the loop does nothing
    have hloop : ∀ l : List (Fin 512), l.foldlM (freewalkPass (freewalk 0) p) m = .ok m := by
      intro l
      induction l with
      | nil => rfl
      | cons i l ih => rw [List.foldlM_cons, freewalkPass_invalid (hF i), except_ok_bind, ih]
    obtain ⟨m', hk, hfl, hkend, hagree⟩ := freewalk_kfree (hok p (self_mem_freedPages 0 p))
    refine ⟨m', ?_, by rw [hfl]; rfl, hkend, fun q hq hqn => hagree q hq fun h => hqn ?_⟩
    · rw [freewalk, hloop, except_ok_bind, hk]
    · rw [h]
      exact self_mem_freedPages 0 p
  | depth + 1 => fun m p hF hnd hok => by
    have hp : p % PGSIZE = 0 := (hok p (self_mem_freedPages _ p)).1
    obtain ⟨m₁, h₁, hfl₁, hkend₁, hagree₁⟩ :=
      (loopInv_start m hnd hok).loop (freewalk_spec depth) hp fun i _ => hF i
    obtain ⟨m', hk, hfl, hkend, hagree⟩ :=
      freewalk_kfree (p := p) (hkend₁ ▸ hok p (self_mem_freedPages _ p))
    refine ⟨m', ?_, ?_, hkend.trans hkend₁, fun q hq hqn => ?_⟩
    · rw [freewalk, h₁, except_ok_bind, hk]
    · rw [hfl, hfl₁, freedPages_succ, List.reverse_append, List.reverse_singleton,
        List.singleton_append, List.cons_append]
    · rw [freedPages_succ, List.mem_append, not_or] at hqn
      have hqp : q ≠ p := fun h => hqn.2 (h ▸ List.mem_singleton_self p)
      exact (hagree₁ q hq hqn.1 hqp).trans (hagree q hq hqp)

end Freewalk

/-! ## `freewalk` on a page it cannot free -/

/-- Every valid PTE of a page of the last level below `p` is a leaf. -/
def LeafBottom (mem : Nat → Nat) : Nat → Nat → Prop
  | 0, p => ∀ i : Fin 512, mem (p + 8 * i) &&& PTE_V ≠ 0 →
      mem (p + 8 * i) &&& (PTE_R ||| PTE_W ||| PTE_X) ≠ 0
  | depth + 1, p => ∀ i : Fin 512, mem (p + 8 * i) &&& PTE_V ≠ 0 →
      mem (p + 8 * i) &&& (PTE_R ||| PTE_W ||| PTE_X) = 0 →
        LeafBottom mem depth (PTE2PA (mem (p + 8 * i)))

section Fails

variable {mem mem' : Nat → Nat}

theorem leafBottom_congr (depth : Nat) :
    ∀ p, (∀ q ∈ freedPages mem depth p, Agree mem mem' q) →
      (LeafBottom mem' depth p ↔ LeafBottom mem depth p) := by
  induction depth with
  | zero =>
    intro p h
    have hp : ∀ i : Fin 512, mem' (p + 8 * i) = mem (p + 8 * i) := h p (self_mem_freedPages 0 p)
    simp only [LeafBottom, hp]
  | succ depth ih =>
    intro p h
    have hp : ∀ i : Fin 512, mem' (p + 8 * i) = mem (p + 8 * i) := h p (self_mem_freedPages _ p)
    simp only [LeafBottom, hp]
    refine forall_congr' fun i => imp_congr_right fun hv => imp_congr_right fun _ => ?_
    exact ih _ fun q hq => h q (mem_freedPages_of_link (i := i) (by
      rw [linkPages, if_pos hv]
      exact hq))

/-- `freewalk` from a page with `depth + 1` levels left panics when it
cannot free the page while every valid PTE at the last level is a leaf. -/
def FailsAs (depth : Nat) : Prop :=
  ∀ (m : Mach) (p : Nat), ¬Freeable m.mem depth p → LeafBottom m.mem depth p →
    (freedPages m.mem depth p).Nodup → (∀ q ∈ freedPages m.mem depth p, PageOk m.kmem.kend q) →
    ∃ e, freewalk (depth + 1) m p = .error e

variable {mem₀ : Nat → Nat} {depth p : Nat} {l : List (Fin 512)} {m : Mach}

/-- The loop panics at the first PTE that is a leaf, or a link to a page it
cannot free; the PTEs before it are good and freed as usual. -/
theorem LoopInv.loop_error (hchild : FreesAs depth) (hfail : FailsAs depth) (hp : p % PGSIZE = 0)
    (hbot : ∀ i ∈ l, mem₀ (p + 8 * i) &&& PTE_V ≠ 0 →
      mem₀ (p + 8 * i) &&& (PTE_R ||| PTE_W ||| PTE_X) = 0 →
        LeafBottom mem₀ depth (PTE2PA (mem₀ (p + 8 * i))))
    (hbad : ∃ i ∈ l, mem₀ (p + 8 * i) &&& PTE_V ≠ 0 ∧
      ¬(mem₀ (p + 8 * i) &&& (PTE_R ||| PTE_W ||| PTE_X) = 0 ∧
        Freeable mem₀ depth (PTE2PA (mem₀ (p + 8 * i)))))
    (hinv : LoopInv mem₀ depth p l m) :
    ∃ e, l.foldlM (freewalkPass (freewalk (depth + 1)) p) m = .error e := by
  induction l generalizing m with
  | nil =>
    obtain ⟨i, hi, -⟩ := hbad
    cases hi
  | cons i l ih =>
    have hw := hinv.entries i List.mem_cons_self
    by_cases hgood : mem₀ (p + 8 * i) &&& PTE_V ≠ 0 →
        mem₀ (p + 8 * i) &&& (PTE_R ||| PTE_W ||| PTE_X) = 0 ∧
          Freeable mem₀ depth (PTE2PA (mem₀ (p + 8 * i)))
    · -- a good PTE: the bad one comes later
      obtain ⟨m₂, h₂, hinv₂, -⟩ := hinv.pass hchild hp hgood
      obtain ⟨j, hj, hjbad⟩ := hbad
      have hjl : j ∈ l := by
        rcases List.mem_cons.mp hj with rfl | hj
        · exact absurd (hgood hjbad.1) hjbad.2
        · exact hj
      obtain ⟨e, he⟩ := ih (fun j hj => hbot j (List.mem_cons_of_mem _ hj)) ⟨j, hjl, hjbad⟩ hinv₂
      exact ⟨e, by rw [List.foldlM_cons, h₂, except_ok_bind, he]⟩
    · -- the first bad PTE: a leaf, or a link to a page that panics
      have hv : mem₀ (p + 8 * i) &&& PTE_V ≠ 0 := fun h => hgood fun h' => absurd h h'
      have hv' : m.mem (p + 8 * i) &&& PTE_V ≠ 0 := hw ▸ hv
      by_cases hrwx : mem₀ (p + 8 * i) &&& (PTE_R ||| PTE_W ||| PTE_X) = 0
      · have hnf : ¬Freeable mem₀ depth (PTE2PA (mem₀ (p + 8 * i))) := fun h =>
          hgood fun _ => ⟨hrwx, h⟩
        have hagree : ∀ q ∈ freedPages mem₀ depth (PTE2PA (mem₀ (p + 8 * i))),
            Agree mem₀ m.mem q := fun q hq =>
          (hinv.kids_ok q (by
            rw [List.flatMap_cons]
            exact List.mem_append_left _ (by rw [linkPages, if_pos hv]; exact hq))).2
        have hcongr := freedPages_congr depth _ hagree
        have hnd := hinv.kids_nodup
        rw [List.flatMap_cons] at hnd
        have hnd₁ := (List.nodup_append.mp hnd).1
        rw [linkPages, if_pos hv] at hnd₁
        obtain ⟨e, he⟩ := hfail m (PTE2PA (m.mem (p + 8 * i)))
          (by rw [hw, hcongr.2]; exact hnf)
          (by rw [hw, leafBottom_congr depth _ hagree]; exact hbot i List.mem_cons_self hv hrwx)
          (by rw [hw, hcongr.1]; exact hnd₁)
          (fun q hq => (hinv.kids_ok q (by
            rw [List.flatMap_cons]
            refine List.mem_append_left _ ?_
            rw [linkPages, if_pos hv, ← hcongr.1, ← hw]
            exact hq)).1)
        refine ⟨e, ?_⟩
        rw [List.foldlM_cons, freewalkPass_link hv' (hw ▸ hrwx), he]
        rfl
      · exact ⟨_, by rw [List.foldlM_cons, freewalkPass_leaf hv' (hw ▸ hrwx)]; rfl⟩

/-- `freewalk` panics on every page it cannot free, when the last level
holds only leaves. -/
theorem freewalk_fails : ∀ depth, FailsAs depth
  | 0 => fun m p hF hbot _ _ => by
    -- the first valid PTE of the page is a leaf
    have hloop : ∀ l : List (Fin 512), (∃ i ∈ l, m.mem (p + 8 * i) &&& PTE_V ≠ 0) →
        ∃ e, l.foldlM (freewalkPass (freewalk 0) p) m = .error e := by
      intro l
      induction l with
      | nil =>
        rintro ⟨i, hi, -⟩
        cases hi
      | cons i l ih =>
        rintro ⟨j, hj, hjv⟩
        by_cases hv : m.mem (p + 8 * i) &&& PTE_V = 0
        · have hjl : j ∈ l := by
            rcases List.mem_cons.mp hj with rfl | hj
            · exact absurd hv hjv
            · exact hj
          obtain ⟨e, he⟩ := ih ⟨j, hjl, hjv⟩
          exact ⟨e, by rw [List.foldlM_cons, freewalkPass_invalid hv, except_ok_bind, he]⟩
        · exact ⟨_, by rw [List.foldlM_cons, freewalkPass_leaf hv (hbot i hv)]; rfl⟩
    have hex : ∃ i ∈ List.finRange 512, m.mem (p + 8 * i) &&& PTE_V ≠ 0 := by
      by_contra h
      push Not at h
      exact hF fun i => h i (List.mem_finRange i)
    obtain ⟨e, he⟩ := hloop _ hex
    exact ⟨e, by rw [freewalk, he]; rfl⟩
  | depth + 1 => fun m p hF hbot hnd hok => by
    have hp : p % PGSIZE = 0 := (hok p (self_mem_freedPages _ p)).1
    have hbad : ∃ i ∈ List.finRange 512, m.mem (p + 8 * i) &&& PTE_V ≠ 0 ∧
        ¬(m.mem (p + 8 * i) &&& (PTE_R ||| PTE_W ||| PTE_X) = 0 ∧
          Freeable m.mem depth (PTE2PA (m.mem (p + 8 * i)))) := by
      by_contra h
      push Not at h
      exact hF fun i hv => h i (List.mem_finRange i) hv
    obtain ⟨e, he⟩ := (loopInv_start m hnd hok).loop_error (freewalk_spec depth)
      (freewalk_fails depth) hp (fun i _ => hbot i) hbad
    exact ⟨e, by rw [freewalk, he]; rfl⟩

end Fails

/-! ## The pages of the table -/

/-- Every node: the pages of level 0 under an index of the root, then the
page of level 1 of that index, and the root last. -/
def nodeList : List Node :=
  (List.finRange 512).flatMap (fun i => (List.finRange 512).map (Node.low i) ++ [Node.mid i]) ++
    [Node.root]

/-- The pages of the table at `r`, in the order `freewalk` frees them. -/
def tablePages (mem : Nat → Nat) (r : Nat) : List Nat := freedPages mem 2 r

section Table

variable {mem mem' : Nat → Nat} {r : Nat}

theorem mem_nodeList (n : Node) : n ∈ nodeList := by
  unfold nodeList
  cases n with
  | root => exact List.mem_append_right _ (List.mem_singleton_self _)
  | mid i =>
    refine List.mem_append_left _ (List.mem_flatMap.mpr ⟨i, List.mem_finRange i, ?_⟩)
    exact List.mem_append_right _ (List.mem_singleton_self _)
  | low i j =>
    refine List.mem_append_left _ (List.mem_flatMap.mpr ⟨i, List.mem_finRange i, ?_⟩)
    exact List.mem_append_left _ (List.mem_map.mpr ⟨j, List.mem_finRange j, rfl⟩)

theorem nodeList_nodup : nodeList.Nodup := by
  unfold nodeList
  have hlow : ∀ i : Fin 512, ((List.finRange 512).map (Node.low i)).Nodup := fun i =>
    (List.nodup_finRange 512).map fun j j' h => by cases h; rfl
  refine List.nodup_append.mpr ⟨List.nodup_flatMap.mpr ⟨fun i _ => ?_, ?_⟩,
    List.nodup_singleton _, ?_⟩
  · refine List.nodup_append.mpr ⟨hlow i, List.nodup_singleton _, fun a ha b hb => ?_⟩
    obtain ⟨j, -, rfl⟩ := List.mem_map.mp ha
    rw [List.mem_singleton.mp hb]
    exact Node.noConfusion
  · refine (List.nodup_finRange 512).pairwise_of_forall_ne fun i _ i' _ hne => ?_
    intro n hn hn'
    simp only [List.mem_append, List.mem_map, List.mem_singleton] at hn hn'
    rcases hn with ⟨j, -, rfl⟩ | rfl <;> rcases hn' with ⟨j', -, h⟩ | h <;> cases h
    · exact hne rfl
    · exact hne rfl
  · intro a ha b hb
    rw [List.mem_singleton.mp hb]
    obtain ⟨i, -, hi⟩ := List.mem_flatMap.mp ha
    simp only [List.mem_append, List.mem_map, List.mem_singleton] at hi
    rcases hi with ⟨j, -, rfl⟩ | rfl <;> exact Node.noConfusion

/-- `freewalk` frees the nodes of the table, in the order of `nodeList`. -/
theorem tablePages_eq (mem : Nat → Nat) (r : Nat) :
    tablePages mem r = nodeList.filterMap fun n => n.page mem r := by
  unfold tablePages
  rw [freedPages_succ]
  unfold nodeList
  rw [List.filterMap_append, List.filterMap_flatMap]
  simp only [List.filterMap_cons, List.filterMap_nil, Node.page.eq_1]
  refine congrArg (· ++ [r]) (List.flatMap_congr fun i _ => ?_)
  rw [List.filterMap_append, List.filterMap_map, Function.comp_def]
  simp only [List.filterMap_cons, List.filterMap_nil, Node.page.eq_2, Node.page.eq_3]
  unfold linkPages
  by_cases hv : mem (r + 8 * i) &&& PTE_V ≠ 0
  · -- a link: the page of level 1 and the pages of level 0 below it
    have hnext : next mem (r + 8 * i) = some (PTE2PA (mem (r + 8 * i))) := if_pos hv
    rw [if_pos hv, freedPages_succ, hnext]
    simp only [Option.bind_some]
    refine congrArg (· ++ [PTE2PA (mem (r + 8 * i))]) ?_
    rw [List.filterMap_eq_flatMap_toList]
    refine List.flatMap_congr fun j _ => ?_
    unfold linkPages next
    split_ifs <;> simp [freedPages]
  · have hnext : next mem (r + 8 * i) = none := if_neg hv
    rw [if_neg hv, hnext]
    simp

theorem mem_tablePages {p : Nat} : p ∈ tablePages mem r ↔ Table mem r p := by
  rw [tablePages_eq, List.mem_filterMap]
  constructor
  · rintro ⟨n, -, h⟩
    exact ⟨n, h⟩
  · rintro ⟨n, h⟩
    exact ⟨n, mem_nodeList n, h⟩

theorem tablePages_nodup (hT : TreeInv mem r) : (tablePages mem r).Nodup := by
  rw [tablePages_eq]
  exact List.Nodup.filterMap (fun n n' p h h' => hT.inj n n' p h h') nodeList_nodup

end Table

/-! ## The shape `walk` gives a table -/

/-- The root links only pages of addresses below `MAXVA`, and no link
carries `PTE_R`, `PTE_W` or `PTE_X`: the PTEs `walk` writes. -/
structure Shape (mem : Nat → Nat) (r : Nat) : Prop where
  root : ∀ i : Fin 512, mem (r + 8 * i) &&& PTE_V ≠ 0 →
    i.val < 256 ∧ mem (r + 8 * i) &&& (PTE_R ||| PTE_W ||| PTE_X) = 0
  mid : ∀ i c, (Node.mid i).page mem r = some c → ∀ j : Fin 512,
    mem (c + 8 * j) &&& PTE_V ≠ 0 → mem (c + 8 * j) &&& (PTE_R ||| PTE_W ||| PTE_X) = 0

section Shape

variable {mem : Nat → Nat} {r : Nat}

/-- The address of the indices `i`, `j`, `k`, below `MAXVA` for `i < 256`. -/
theorem absPt_indices (mem : Nat → Nat) (r : Nat) (i j k : Fin 512) (hi : i.val < 256) :
    absPt mem r (i * 2 ^ 30 + j * 2 ^ 21 + k * 2 ^ 12) = leaf mem r i j k := by
  have hj := j.isLt
  have hk := k.isLt
  have hpx : ∀ level : Fin 3, px level (i * 2 ^ 30 + j * 2 ^ 21 + k * 2 ^ 12) =
      ![k, j, i] level := by
    intro level
    apply Fin.ext
    fin_cases level <;> simp only [px, PX_eq] <;> norm_num <;> omega
  have h2 := hpx 2
  have h1 := hpx 1
  have h0 := hpx 0
  simp only [Fin.isValue, Matrix.cons_val] at h2 h1 h0
  rw [absPt, if_pos ⟨by unfold MAXVA; norm_num; omega, by unfold PGSIZE; omega⟩]
  simp only [Fin.val_two, Fin.val_one, Fin.val_zero] at h2 h1 h0
  rw [h2, h1, h0]

/-- With no page mapped, every page of the last level is empty. -/
theorem freeable_of_unmapped (hS : Shape mem r) (hnone : ∀ va, absPt mem r va = none) :
    Freeable mem 2 r := by
  intro i hv
  obtain ⟨hi, hrwx⟩ := hS.root i hv
  refine ⟨hrwx, fun j hvj => ⟨hS.mid i _ (by simp [Node.page, next, hv]) j hvj, fun k => ?_⟩⟩
  have h := hnone (i * 2 ^ 30 + j * 2 ^ 21 + k * 2 ^ 12)
  rw [absPt_indices mem r i j k hi, leaf] at h
  simp only [Node.page, next, hv, ne_eq, not_false_eq_true, if_true, Option.bind_some, hvj,
    decode] at h
  by_contra hk
  rw [if_pos hk] at h
  cases h

/-- A page still mapped leaves a valid PTE on the last level. -/
theorem not_freeable_of_mapped {va : Nat} {pte : Pte} (h : absPt mem r va = some pte) :
    ¬Freeable mem 2 r := by
  intro hF
  unfold absPt at h
  split_ifs at h
  obtain ⟨g, hg, hdec⟩ := Option.bind_eq_some_iff.mp h
  have hv : mem (g + 8 * (px 0 va : Nat)) &&& PTE_V ≠ 0 := by
    unfold decode at hdec
    split_ifs at hdec with hv
    exact hv
  obtain ⟨c, hc, hg⟩ := Option.bind_eq_some_iff.mp hg
  obtain ⟨hvc, rfl⟩ := next_eq_some hc
  obtain ⟨hvg, rfl⟩ := next_eq_some hg
  exact hv (((hF _ hvc).2 _ hvg).2 _)

/-- With every page still mapped a leaf, every valid PTE of the last level
is one. -/
theorem leafBottom_of_leaves (hS : Shape mem r)
    (hleaf : ∀ va pte, absPt mem r va = some pte → pte.Leaf) : LeafBottom mem 2 r := by
  intro i hv _ j hvj _ k hvk
  obtain ⟨hi, -⟩ := hS.root i hv
  have h := hleaf (i * 2 ^ 30 + j * 2 ^ 21 + k * 2 ^ 12)
    ⟨PTE2PA (mem (PTE2PA (mem (PTE2PA (mem (r + 8 * i)) + 8 * j)) + 8 * k)),
      PTE_FLAGS (mem (PTE2PA (mem (PTE2PA (mem (r + 8 * i)) + 8 * j)) + 8 * k))⟩ (by
    rw [absPt_indices mem r i j k hi, leaf]
    simp [Node.page, next, hv, hvj, decode, hvk])
  unfold Pte.Leaf at h
  rwa [PTE_FLAGS_and _ (by decide)] at h

end Shape

/-! ## `uvmunmap` leaves the upper levels alone -/

/-- The root and the pages of level 1 hold what they held in `mem`. -/
def Upper (mem mem' : Nat → Nat) (r : Nat) : Prop :=
  Agree mem mem' r ∧ ∀ i c, (Node.mid i).page mem r = some c → Agree mem mem' c

section Upper

variable {mem mem' : Nat → Nat} {r : Nat} {m : Mach}

theorem Upper.refl (mem : Nat → Nat) (r : Nat) : Upper mem mem r :=
  ⟨fun _ => rfl, fun _ _ _ _ => rfl⟩

theorem Upper.page_eq (h : Upper mem mem' r) (n : Node) : n.page mem' r = n.page mem r :=
  page_congr h.1 h.2 n

theorem Upper.shape (h : Upper mem mem' r) (hS : Shape mem r) : Shape mem' r where
  root i hv := by
    rw [h.1 i] at hv ⊢
    exact hS.root i hv
  mid i c hc j hv := by
    rw [h.page_eq] at hc
    rw [h.2 i c hc j] at hv ⊢
    exact hS.mid i c hc j hv

theorem Upper.trans {mem'' : Nat → Nat} (h : Upper mem mem' r) (h' : Upper mem' mem'' r) :
    Upper mem mem'' r :=
  ⟨h.1.trans h'.1, fun i c hc => (h.2 i c hc).trans (h'.2 i c ((h.page_eq _).trans hc))⟩

theorem Upper.table_iff (h : Upper mem mem' r) {p : Nat} : Table mem' r p ↔ Table mem r p := by
  simp only [Table, h.page_eq]

theorem Upper.pages_eq (h : Upper mem mem' r) : tablePages mem' r = tablePages mem r := by
  simp only [tablePages_eq, h.page_eq]

theorem pa_aligned_of_absPt {va : Nat} {pte : Pte} (h : absPt mem r va = some pte) :
    pte.pa % PGSIZE = 0 := by
  unfold absPt leaf at h
  split_ifs at h
  obtain ⟨g, -, hdec⟩ := Option.bind_eq_some_iff.mp h
  unfold decode at hdec
  split_ifs at hdec
  cases hdec
  exact PTE2PA_mod _

/-- What a pass of `uvmunmap` that returns did: it cleared the PTE of `a`,
after freeing the page it mapped if asked to. -/
theorem unmapPage_ok {doFree : Bool} {a : Nat} {m' : Mach} (hT : TreeInv m.mem r)
    (ha : a % PGSIZE = 0) (h : unmapPage r doFree m a = .ok m') :
    ∃ g pte, (Node.low (px 2 a) (px 1 a)).page m.mem r = some g ∧
      absPt m.mem r a = some pte ∧ m'.kmem.kend = m.kmem.kend ∧
      m'.mem = Function.update (if doFree then setPage m.mem pte.pa (fillWord 1) else m.mem)
        (g + 8 * PX 0 a) 0 := by
  unfold unmapPage at h
  by_cases hva : MAXVA ≤ a
  · rw [walk, if_pos hva] at h
    cases h
  rw [walk, if_neg hva, walkLoop_false, except_ok_bind] at h
  dsimp only at h
  have hva' : a < MAXVA := by omega
  cases hg : (Node.low (px 2 a) (px 1 a)).page m.mem r with
  | none =>
    simp only [hg, Option.elim, if_true] at h
    cases h
  | some g =>
    have hslot : (g + 8 * PX 0 a = 0) = False := eq_false fun h => hT.pos g ⟨_, hg⟩ (by omega)
    simp only [hg, Option.elim, hslot, if_false] at h
    by_cases hv : m.mem (g + 8 * PX 0 a) &&& PTE_V = 0
    · simp only [hv, if_true] at h
      cases h
    by_cases hflag : PTE_FLAGS (m.mem (g + 8 * PX 0 a)) = PTE_V
    · simp only [hv, hflag, if_true, if_false] at h
      cases h
    simp only [hv, hflag, if_false] at h
    have hpte : absPt m.mem r a = some ⟨PTE2PA (m.mem (g + 8 * PX 0 a)),
        PTE_FLAGS (m.mem (g + 8 * PX 0 a))⟩ := by
      rw [absPt_of_lt hva' ha, leaf, hg, Option.bind_some]
      simp [decode, px, hv]
    refine ⟨g, _, rfl, hpte, ?_⟩
    cases doFree with
    | false =>
      simp only [Bool.false_eq_true, if_false] at h
      cases h
      exact ⟨rfl, rfl⟩
    | true =>
      simp only [if_true, Mach.kfree] at h
      cases hk : Kernel.kfree m.kmem (PTE2PA (m.mem (g + 8 * PX 0 a))) with
      | error e =>
        rw [hk] at h
        cases h
      | ok k' =>
        rw [hk] at h
        cases h
        obtain ⟨k'', hk'', -, -, hkend⟩ := kfree_of_ok (pageOk_of_kfree hk)
        rw [hk] at hk''
        cases hk''
        -- the branch is rewritten first: unifying the `if` with the record whole is slow
        refine ⟨hkend, ?_⟩
        rw [if_pos rfl]

/-- A pass of `uvmunmap` that frees no page of the table keeps the root and
the pages of level 1 as they were. -/
theorem upper_unmapPage {m₀ m₁ m₂ : Mach} {st : Kmem × Pagetable} {doFree : Bool} {a : Nat}
    (ha : a % PGSIZE = 0)
    (hfree : doFree = true → ∀ pte, absPt m₀.mem r a = some pte → ¬Table m₀.mem r pte.pa)
    (hrel : UnmapRel r m₀ m₁ st) (hU : Upper m₀.mem m₁.mem r)
    (h : unmapPage r doFree m₁ a = .ok m₂) : Upper m₀.mem m₂.mem r := by
  obtain ⟨-, hT, htab, hsub⟩ := hrel
  obtain ⟨g, pte, hg, hpte, -, hmem⟩ := unmapPage_ok hT ha h
  -- a page of the upper levels is neither the page of level 0 nor the freed page
  have hkeep : ∀ n q, n ≠ Node.low (px 2 a) (px 1 a) → n.page m₁.mem r = some q →
      Agree m₁.mem m₂.mem q := by
    intro n q hn hq
    have hqa := hT.page_aligned hq
    have hqg : q ≠ g := fun h => hn (hT.inj n _ q hq (h ▸ hg))
    have hga := hT.page_aligned hg
    rw [hmem]
    refine Agree.trans ?_ (agree_update fun i => slot_ne hqa hga hqg i (px 0 a))
    cases doFree with
    | false => exact fun _ => rfl
    | true =>
      have hnt : ¬Table m₁.mem r pte.pa := fun ht =>
        hfree rfl pte (hsub a pte hpte) ((htab _).mp ht)
      exact agree_setPage hqa (pa_aligned_of_absPt hpte) fun h => hnt ⟨n, h ▸ hq⟩
  refine ⟨hU.1.trans (hkeep .root r Node.noConfusion rfl), fun i c hc => ?_⟩
  exact (hU.2 i c hc).trans (hkeep (.mid i) c Node.noConfusion ((hU.page_eq _).trans hc))

/-- `uvmunmap` refines the `uvmunmap` of `Xv6.Kernel.Uvm` and leaves the
upper levels of the table, and `kend`, as they were. -/
theorem uvmunmap_keeps (hT : TreeInv m.mem r) {va npages : Nat} {doFree : Bool}
    (hfree : doFree = true → ∀ a pte, absPt m.mem r a = some pte → ¬Table m.mem r pte.pa) :
    ExceptRel (fun m' st => st = (m'.kmem, absPt m'.mem r) ∧ TreeInv m'.mem r ∧
        Upper m.mem m'.mem r ∧ m'.kmem.kend = m.kmem.kend ∧
        ∀ a pte, absPt m'.mem r a = some pte → absPt m.mem r a = some pte)
      (uvmunmap m r va npages doFree) (Vm.uvmunmap m.kmem (absPt m.mem r) va npages doFree) := by
  unfold uvmunmap Vm.uvmunmap
  split_ifs with hva
  · trivial
  · have hstep : ∀ m' st, ∀ a ∈ pageRange va (va + npages * PGSIZE),
        (UnmapRel r m m' st ∧ Upper m.mem m'.mem r ∧ m'.kmem.kend = m.kmem.kend) →
        ExceptRel (fun m'' st' => UnmapRel r m m'' st' ∧ Upper m.mem m''.mem r ∧
            m''.kmem.kend = m.kmem.kend)
          (unmapPage r doFree m' a) (Vm.unmapPage doFree st a) := by
      rintro m' st a ha ⟨hrel, hU, hkend⟩
      have ha' := ((mem_pageRange (by omega)).mp ha).1
      refine ExceptRel.and_ok (unmapPage_rel ha' (fun hd pte hpte => hfree hd a pte hpte) hrel)
        fun m'' h => ⟨upper_unmapPage ha' (fun hd pte hpte => hfree hd a pte hpte) hrel hU h, ?_⟩
      obtain ⟨-, -, -, -, hk, -⟩ := unmapPage_ok hrel.2.1 ha' h
      exact hk.trans hkend
    have hrel := foldlM_exceptRel _ hstep
      (⟨⟨rfl, hT, fun _ => Iff.rfl, fun _ _ h => h⟩, Upper.refl _ _, rfl⟩ :
        UnmapRel r m m (m.kmem, absPt m.mem r) ∧ Upper m.mem m.mem r ∧ m.kmem.kend = m.kmem.kend)
    exact hrel.mono fun m' st h => ⟨h.1.1, h.1.2.1, h.2.1, h.2.2, h.1.2.2.2⟩

end Upper

/-! ## `uvmfree` -/

/-- What `uvmfree` needs of a table: the tree invariant and the shape `walk`
gives, pages `kfree` takes, and a map of leaves none of which is a page of
the table. -/
structure FreeInv (m : Mach) (r : Nat) : Prop where
  tree : TreeInv m.mem r
  shape : Shape m.mem r
  pages_ok : ∀ p, Table m.mem r p → PageOk m.kmem.kend p
  leaf : ∀ va pte, absPt m.mem r va = some pte → pte.Leaf
  not_table : ∀ va pte, absPt m.mem r va = some pte → ¬Table m.mem r pte.pa

section Uvmfree

variable {m : Mach} {r : Nat}

/-- `uvmunmap` keeps `FreeInv`: it leaves the upper levels alone and only
removes mappings. -/
theorem FreeInv.of_upper {m₁ : Mach} (h : FreeInv m r) (hT₁ : TreeInv m₁.mem r)
    (hU : Upper m.mem m₁.mem r) (hkend : m₁.kmem.kend = m.kmem.kend)
    (hsub : ∀ a pte, absPt m₁.mem r a = some pte → absPt m.mem r a = some pte) :
    FreeInv m₁ r where
  tree := hT₁
  shape := hU.shape h.shape
  pages_ok p hp := hkend ▸ h.pages_ok p (hU.table_iff.mp hp)
  leaf va pte hpte := h.leaf va pte (hsub va pte hpte)
  not_table va pte hpte := fun ht => h.not_table va pte (hsub va pte hpte) (hU.table_iff.mp ht)

/-- `freewalk` of the root on a table of the shape `walk` gives whose pages
`kfree` takes, when every page mapped is a leaf: it panics when a page is
still mapped, and otherwise frees every page of the table. -/
theorem freewalk_root (hT : TreeInv m.mem r) (hS : Shape m.mem r)
    (hok : ∀ p, Table m.mem r p → PageOk m.kmem.kend p)
    (hleaf : ∀ va pte, absPt m.mem r va = some pte → pte.Leaf) :
    ((∃ va < MAXVA, (absPt m.mem r va).isSome) → ∃ e, freewalk 3 m r = .error e) ∧
    ((¬∃ va < MAXVA, (absPt m.mem r va).isSome) → ∃ m', freewalk 3 m r = .ok m' ∧
      m'.kmem.freelist = (tablePages m.mem r).reverse ++ m.kmem.freelist ∧
      m'.kmem.kend = m.kmem.kend) := by
  have hok' : ∀ q ∈ freedPages m.mem 2 r, PageOk m.kmem.kend q := fun q hq =>
    hok q (mem_tablePages.1 hq)
  have hnd : (freedPages m.mem 2 r).Nodup := tablePages_nodup hT
  have hlt : ∀ {va pte}, absPt m.mem r va = some pte → va < MAXVA := fun h => by
    unfold absPt at h
    split_ifs at h with hva
    exact hva.1
  constructor
  · -- a page is still mapped: a leaf is left on the last level
    rintro ⟨va, -, hva⟩
    obtain ⟨pte, hpte⟩ := Option.isSome_iff_exists.mp hva
    exact freewalk_fails 2 m r (not_freeable_of_mapped hpte) (leafBottom_of_leaves hS hleaf) hnd hok'
  · -- nothing is mapped: every page of the last level is empty
    intro hrem
    have hnone : ∀ va, absPt m.mem r va = none := by
      intro va
      by_contra h
      obtain ⟨pte, hpte⟩ := Option.ne_none_iff_exists'.mp h
      exact hrem ⟨va, hlt hpte, by rw [hpte]; rfl⟩
    obtain ⟨m', hm', hfl, hkend, -⟩ := freewalk_spec 2 m r (freeable_of_unmapped hS hnone) hnd hok'
    exact ⟨m', hm', hfl, hkend⟩

theorem uvmfree_eq (m : Mach) (r sz : Nat) :
    uvmfree m r sz = (if 0 < sz then uvmunmap m r 0 (PGROUNDUP sz / PGSIZE) true else pure m) >>=
      fun m => freewalk 3 m r := by
  unfold uvmfree
  split_ifs <;> rfl

theorem vm_uvmfree_eq (k : Kmem) (pt : Pagetable) (sz : Nat) :
    Vm.uvmfree k pt sz = (if 0 < sz then Vm.uvmunmap k pt 0 (PGROUNDUP sz / PGSIZE) true
      else pure (k, pt)) >>= fun st => Vm.freewalk st.2 >>= fun _ => pure st.1 := by
  unfold Vm.uvmfree
  split_ifs <;> rfl

/-- `uvmfree` refines the `uvmfree` of `Xv6.Kernel.Uvm`: it panics exactly
when that one does, and otherwise frees the same user pages and then every
page of the table. -/
theorem uvmfree_rel (h : FreeInv m r) (sz : Nat) :
    ExceptRel (fun m' k' => m'.kmem.freelist = (tablePages m.mem r).reverse ++ k'.freelist ∧
        m'.kmem.kend = k'.kend)
      (uvmfree m r sz) (Vm.uvmfree m.kmem (absPt m.mem r) sz) := by
  -- the user pages first, through a relation that keeps the upper levels
  have hstage : ExceptRel (fun m₁ st => st = (m₁.kmem, absPt m₁.mem r) ∧ TreeInv m₁.mem r ∧
        Upper m.mem m₁.mem r ∧ m₁.kmem.kend = m.kmem.kend ∧
        ∀ a pte, absPt m₁.mem r a = some pte → absPt m.mem r a = some pte)
      (if 0 < sz then uvmunmap m r 0 (PGROUNDUP sz / PGSIZE) true else pure m)
      (if 0 < sz then Vm.uvmunmap m.kmem (absPt m.mem r) 0 (PGROUNDUP sz / PGSIZE) true
        else pure (m.kmem, absPt m.mem r)) := by
    split_ifs
    · exact uvmunmap_keeps h.tree fun _ => h.not_table
    · exact ⟨rfl, h.tree, Upper.refl _ _, rfl, fun _ _ h => h⟩
  -- `ExceptRel.bind` would leave a goal whose `whnf` runs `freewalk`; the
  -- cases of the abstract side are taken instead
  rewrite [uvmfree_eq, vm_uvmfree_eq]
  refine hstage.bind_of_cases fun m₁ st hW => ?_
  obtain ⟨rfl, hT₁, hU, hkend, hsub⟩ := hW
  have h₁ := h.of_upper hT₁ hU hkend hsub
  obtain ⟨hfail, hdone⟩ := freewalk_root h₁.tree h₁.shape h₁.pages_ok h₁.leaf
  dsimp only
  by_cases hrem : ∃ va < MAXVA, (absPt m₁.mem r va).isSome
  · rw [Vm.freewalk, if_pos hrem]
    refine ⟨fun _ _ => hfail hrem, fun _ h => ?_⟩
    cases h
  · rw [Vm.freewalk, if_neg hrem]
    obtain ⟨m', hm', hfl, hkend'⟩ := hdone hrem
    refine ⟨fun _ h => ?_, fun k' hk' => ?_⟩
    · cases h
    · cases hk'
      refine ⟨m', hm', ?_⟩
      exact ⟨by rw [hfl, hU.pages_eq], hkend'⟩

/-- A zeroed table at a page `kfree` takes. -/
theorem freeInv_of_zero (hr : PageOk m.kmem.kend r) (hz : ∀ a, m.mem a = 0) : FreeInv m r := by
  obtain ⟨hT, htab, habs⟩ := treeInv_of_zero hr.1 (pageOk_pos m.kmem.kend_ge hr).ne' fun i => hz _
  have hv : ∀ a, m.mem a &&& PTE_V = 0 := fun a => by rw [hz a, Nat.zero_and]
  refine ⟨hT, ⟨fun _ h => (h (hv _)).elim, fun _ _ _ _ h => (h (hv _)).elim⟩, ?_, ?_, ?_⟩
  · intro p hp
    rwa [(htab p).mp hp]
  all_goals
    intro va pte hpte
    simp [habs] at hpte

theorem freeInv_empty : FreeInv emptyMach KERNBASE :=
  freeInv_of_zero (by decide) fun _ => rfl

end Uvmfree

end Sv39
end Xv6
