import Xv6.Kernel.Copy

/-!
# The physical page allocator

`kalloc` and `kfree` of `kernel/kalloc.c`.  The free pages form the list
`kmem.freelist`; `kfree` checks that the page it is given is a page of RAM
after the kernel image, and both fill the page with junk (`kalloc` with `5`,
`kfree` with `1`) to catch dangling references.  `fill` records the byte
each page was last filled with, so code that reads a freed page reads what
the kernel would.

A `Kmem` carries the check of `kfree` for every page on its list, so only
pages of RAM are handed out.  What `kfree` does not check is that the page
is not free already: a second `kfree` of a page puts it on the list twice.
-/

namespace Xv6
namespace Kernel

open Vm

/-- `KERNBASE` -/
def KERNBASE : Nat := 0x80000000

/-- `PHYSTOP`: the end of the RAM the kernel uses. -/
def PHYSTOP : Nat := KERNBASE + 128 * 1024 * 1024

/-- `MAXVA`: one above the highest virtual address Sv39 lets the kernel map. -/
def MAXVA : Nat := 2 ^ (9 + 9 + 9 + 12 - 1)

/-- What `kfree` accepts: a page-aligned address of RAM after the kernel
image, which ends at `kend` (the linker's `end`). -/
def PageOk (kend pa : Nat) : Prop := pa % PGSIZE = 0 ∧ kend ≤ pa ∧ pa < PHYSTOP

instance (kend pa : Nat) : Decidable (PageOk kend pa) :=
  inferInstanceAs (Decidable (_ ∧ _ ∧ _))

/-- `kmem`: the free list, head first, with the fill byte of every page. -/
structure Kmem where
  freelist : List Nat
  fill : Nat → UInt8
  kend : Nat
  kend_ge : KERNBASE ≤ kend
  valid : ∀ p ∈ freelist, PageOk kend p

/-- `kalloc()`: the first free page, filled with `5`, or `0` when there is
none. -/
def kalloc (k : Kmem) : Kmem × Nat :=
  match h : k.freelist with
  | [] => (k, 0)
  | r :: rest =>
      ({ k with freelist := rest, fill := Function.update k.fill r 5,
                valid := fun p hp => k.valid p (h ▸ List.mem_cons_of_mem r hp) }, r)

/-- `kfree(pa)`: panic unless `pa` is a page of RAM, else fill it with `1`
and push it on the free list. -/
def kfree (k : Kmem) (pa : Nat) : Except String Kmem :=
  if h : pa % PGSIZE ≠ 0 ∨ pa < k.kend ∨ PHYSTOP ≤ pa then .error "kfree"
  else
    .ok { k with freelist := pa :: k.freelist, fill := Function.update k.fill pa 1,
                 valid := by
                   intro p hp
                   rcases List.mem_cons.mp hp with rfl | hp
                   · exact ⟨by omega, by omega, by omega⟩
                   · exact k.valid p hp }

/-- The 64-bit word read from a page every byte of which is `b`. -/
def fillWord (b : UInt8) : Nat := b.toNat * 0x0101010101010101

section Spec

variable {k : Kmem}

theorem pageOk_pos {kend pa : Nat} (hk : KERNBASE ≤ kend) (h : PageOk kend pa) : 0 < pa := by
  unfold PageOk KERNBASE at *
  omega

theorem kalloc_of_nil (h : k.freelist = []) : kalloc k = (k, 0) := by
  unfold kalloc
  split <;> simp_all

theorem kalloc_of_cons {r : Nat} {rest : List Nat} (h : k.freelist = r :: rest) :
    (kalloc k).2 = r ∧ (kalloc k).1.freelist = rest ∧
      (kalloc k).1.fill = Function.update k.fill r 5 ∧ (kalloc k).1.kend = k.kend := by
  unfold kalloc
  split <;> simp_all

/-- `kalloc` fails exactly when the free list is empty: no free page is `0`. -/
theorem kalloc_eq_zero_iff : (kalloc k).2 = 0 ↔ k.freelist = [] := by
  cases h : k.freelist with
  | nil => simp [kalloc_of_nil h]
  | cons r rest =>
      have hr : 0 < r := pageOk_pos k.kend_ge (k.valid r (by simp [h]))
      simp only [(kalloc_of_cons h).1, reduceCtorEq, iff_false]
      omega

/-- A page `kalloc` handed out came off the head of the free list. -/
theorem kalloc_of_ne_zero {k₁ : Kmem} {mem : Nat} (hk : kalloc k = (k₁, mem)) (hmem : mem ≠ 0) :
    k.freelist = mem :: k₁.freelist ∧ PageOk k.kend mem ∧
      k₁.fill = Function.update k.fill mem 5 ∧ k₁.kend = k.kend := by
  cases hf : k.freelist with
  | nil =>
      rw [kalloc_of_nil hf] at hk
      exact absurd (Prod.mk.inj hk).2.symm hmem
  | cons r rest =>
      obtain ⟨hr, hfl, hfill, hkend⟩ := kalloc_of_cons hf
      simp only [hk] at hr hfl hfill hkend
      subst hr
      exact ⟨by rw [hfl], k.valid mem (by simp [hf]), hfill, hkend⟩

/-- A `kalloc` that returned `0` changed nothing. -/
theorem kalloc_of_zero {k₁ : Kmem} (hk : kalloc k = (k₁, 0)) : k₁ = k ∧ k.freelist = [] := by
  have hnil : k.freelist = [] := kalloc_eq_zero_iff.1 (by rw [hk])
  have h := kalloc_of_nil hnil
  rw [hk] at h
  exact ⟨(Prod.mk.inj h).1, hnil⟩

theorem kfree_of_ok {pa : Nat} (h : PageOk k.kend pa) :
    ∃ k', kfree k pa = .ok k' ∧ k'.freelist = pa :: k.freelist ∧
      k'.fill = Function.update k.fill pa 1 ∧ k'.kend = k.kend := by
  unfold PageOk at h
  unfold kfree
  rw [dif_neg (by omega)]
  exact ⟨_, rfl, rfl, rfl, rfl⟩

/-- A page `kfree` filled reads as a word past `MAXVA`, an address the
kernel's page table cannot map: following it as a pointer faults. -/
theorem fillWord_ge {b : UInt8} (hb : b ≠ 0) : MAXVA ≤ fillWord b := by
  have : 1 ≤ b.toNat := by
    rcases Nat.eq_zero_or_pos b.toNat with h | h
    · exact absurd (UInt8.toNat_inj.mp (by simpa using h)) hb
    · exact h
  unfold fillWord MAXVA
  omega

end Spec

end Kernel
end Xv6
