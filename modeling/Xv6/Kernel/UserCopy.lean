import Xv6.Kernel.Uvm

/-!
# Copies through a page table

`walkaddr` of `kernel/vm.c` over the page tables of `Xv6.Kernel.Uvm`, and
what `copyout`, `copyin` and `copyinstr` do with it.  A user page is usable
by a copy when it lies below `MAXVA` and its PTE has `PTE_V` and `PTE_U`,
and when the page it maps is not physical page `0`: `walkaddr` returns the
physical address, and its callers read `0` as "not mapped".

A copy moves bytes between the kernel and the physical bytes of the user
range.  Two user pages may map one physical page, and the kernel buffer may
lie in a user page: the byte-by-byte reading of a copy holds when the
physical bytes of the user range are distinct and apart from the kernel
buffer, and not otherwise.
-/

namespace Xv6
namespace Vm

open Kernel

/-- `walkaddr(pagetable, va)`: the physical page of the user page at `va`;
`0` past `MAXVA`, when no PTE maps it, or when the PTE lacks `PTE_V` or
`PTE_U`. -/
def walkaddr (pt : Pagetable) (va : Nat) : Nat :=
  if MAXVA ≤ va then 0
  else
    match pt (PGROUNDDOWN va) with
    | none => 0
    | some pte =>
        if pte.flags &&& PTE_V = 0 then 0
        else if pte.flags &&& PTE_U = 0 then 0
        else pte.pa

/-- The page at `va` is mapped for the user: below `MAXVA`, by a PTE with
`PTE_V` and `PTE_U`, to a physical page other than `0`. -/
def UserMapped (pt : Pagetable) (va : Nat) : Prop :=
  va < MAXVA ∧ ∃ pte, pt (PGROUNDDOWN va) = some pte ∧ pte.flags &&& PTE_V ≠ 0 ∧
    pte.flags &&& PTE_U ≠ 0 ∧ pte.pa ≠ 0

theorem walkaddr_ne_zero_iff (pt : Pagetable) (va : Nat) : walkaddr pt va ≠ 0 ↔ UserMapped pt va := by
  unfold walkaddr UserMapped
  by_cases hva : MAXVA ≤ va
  · simp [hva]
  · rw [if_neg hva]
    have hlt : va < MAXVA := Nat.lt_of_not_le hva
    cases hpt : pt (PGROUNDDOWN va) with
    | none => simp
    | some pte =>
        by_cases hv : pte.flags &&& PTE_V = 0
        · simp [hv]
        · by_cases hu : pte.flags &&& PTE_U = 0
          · simp [hu]
          · simp [hv, hu, hlt]

instance (pt : Pagetable) (va : Nat) : Decidable (UserMapped pt va) :=
  decidable_of_iff _ (walkaddr_ne_zero_iff pt va)

/-- The pages of a user range are usable exactly when `walkaddr` finds each. -/
theorem forall_userMapped_iff (pt : Pagetable) (va len : Nat) :
    (∀ i < len, UserMapped pt (PGROUNDDOWN (va + i))) ↔
      ∀ i < len, walkaddr pt (PGROUNDDOWN (va + i)) ≠ 0 := by
  simp only [walkaddr_ne_zero_iff]

/-! ## `copyout` and `copyin` -/

/-- `copyout` and `copyin` through a page table.  Each succeeds exactly when
every page of the user range is mapped for the user.  `copyout` writes only
the physical bytes of the pages it found, and with all of them mapped, the
physical bytes distinct and apart from the kernel source, it writes the
source bytes there in order; `copyin`, with the physical bytes apart from
its kernel destination, reads them in order. -/
theorem copyout_copyin_pagetable (pt : Pagetable) (mem : Nat → UInt8) (va src dst len : Nat) :
    ((copyout (walkaddr pt) mem va src len).2 = true ↔
        ∀ i < len, UserMapped pt (PGROUNDDOWN (va + i))) ∧
      ((copyin (walkaddr pt) mem dst va len).2 = true ↔
        ∀ i < len, UserMapped pt (PGROUNDDOWN (va + i))) ∧
      (∀ p, (∀ i < len, UserMapped pt (PGROUNDDOWN (va + i)) → p ≠ uaddr (walkaddr pt) (va + i)) →
        (copyout (walkaddr pt) mem va src len).1 p = mem p) ∧
      ((∀ i < len, UserMapped pt (PGROUNDDOWN (va + i))) →
        (∀ i < len, ∀ j < len,
          uaddr (walkaddr pt) (va + i) = uaddr (walkaddr pt) (va + j) → i = j) →
        (∀ i < len, ∀ j < len, uaddr (walkaddr pt) (va + i) ≠ src + j) →
        ∀ k < len, (copyout (walkaddr pt) mem va src len).1 (uaddr (walkaddr pt) (va + k)) =
          mem (src + k)) ∧
      ((∀ i < len, UserMapped pt (PGROUNDDOWN (va + i))) →
        (∀ i < len, ∀ j < len, uaddr (walkaddr pt) (va + i) ≠ dst + j) →
        ∀ k < len, (copyin (walkaddr pt) mem dst va len).1 (dst + k) =
          mem (uaddr (walkaddr pt) (va + k))) := by
  rw [forall_userMapped_iff]
  refine ⟨userCopy_ok_iff _ _ mem va 0 len, userCopy_ok_iff _ _ mem va 0 len,
    fun p hp => copyout_frame _ mem va src len p ?_,
    fun hmap hinj hsep => copyout_bytes _ mem va src len hmap hinj hsep,
    fun hmap hsep => (copyin_bytes _ mem dst va len hmap hsep).2⟩
  intro i hi hm
  exact hp i hi ((walkaddr_ne_zero_iff pt _).mp hm)

/-- Two ways the byte-by-byte reading fails.  Two user pages that map one
physical page: a `copyout` of both succeeds, and the first byte holds the
source byte copied last to it, not the first source byte.  A user page
mapped to physical page `0` with `PTE_V` and `PTE_U`: `walkaddr` gives `0`,
so a `copyout` to it fails. -/
theorem copyout_alias_counterexample :
    (copyout (walkaddr fun a => if a = 0 ∨ a = 4096 then some ⟨0x80000000, 0x17⟩ else none)
        (fun a => if a = 0x90001000 then 1 else 0) 0 0x90000000 8192).2 = true ∧
      (copyout (walkaddr fun a => if a = 0 ∨ a = 4096 then some ⟨0x80000000, 0x17⟩ else none)
        (fun a => if a = 0x90001000 then 1 else 0) 0 0x90000000 8192).1 0x80000000 ≠
          (fun a => if a = 0x90001000 then (1 : UInt8) else 0) 0x90000000 ∧
      (copyout (walkaddr fun a => if a = 0 then some ⟨0, 0x17⟩ else none) (fun _ => 0) 0 0 1).2 =
        false := by
  -- the two passes of the first copy both move to physical page `0x80000000`
  have hrun : copyout (walkaddr fun a => if a = 0 ∨ a = 4096 then some ⟨0x80000000, 0x17⟩ else none)
      (fun a => if a = 0x90001000 then 1 else 0) 0 0x90000000 8192 =
        (memmove (memmove (fun a => if a = 0x90001000 then 1 else 0) 0x80000000 0x90000000 4096)
          0x80000000 (0x90000000 + 4096) 4096, true) := by
    rw [copyout, userCopy_step _ _ _ (by decide) (by decide),
      show PGROUNDDOWN 0 = 0 from rfl, show min (PGSIZE - (0 - 0)) 8192 = 4096 from rfl,
      userCopy_step _ _ _ (by decide) (by decide), show PGROUNDDOWN (0 + PGSIZE) = 4096 from rfl,
      show min (PGSIZE - (0 + PGSIZE - 4096)) (8192 - 4096) = 4096 from rfl, userCopy_zero]
    rfl
  rw [hrun, copyout, userCopy_unmapped _ _ _ (by decide) (by decide)]
  exact ⟨rfl, by decide, rfl⟩

/-! ## `copyinstr` -/

theorem strEnd_walkaddr_iff (pt : Pagetable) (mem : Nat → UInt8) (srcva k : Nat) :
    StrEnd (walkaddr pt) mem srcva k ↔
      (∀ i ≤ k, UserMapped pt (PGROUNDDOWN (srcva + i))) ∧
        mem (uaddr (walkaddr pt) (srcva + k)) = 0 ∧
        ∀ i < k, mem (uaddr (walkaddr pt) (srcva + i)) ≠ 0 := by
  simp only [StrEnd, walkaddr_ne_zero_iff]

/-- `copyinstr` through a page table writes only the `max` bytes from `dst`.
With the physical bytes of the user string apart from them, it succeeds
exactly when a NUL comes within `max` bytes, every page up to it mapped for
the user, and then `dst` holds the string up to and including that NUL. -/
theorem copyinstr_pagetable (pt : Pagetable) (mem : Nat → UInt8) (dst srcva max : Nat) :
    (∀ a, a < dst ∨ dst + max ≤ a → (copyinstr (walkaddr pt) mem dst srcva max).1 a = mem a) ∧
      ((∀ i < max, UserMapped pt (PGROUNDDOWN (srcva + i)) →
          ∀ j < max, uaddr (walkaddr pt) (srcva + i) ≠ dst + j) →
        ((copyinstr (walkaddr pt) mem dst srcva max).2 = true ↔
          ∃ k < max, (∀ i ≤ k, UserMapped pt (PGROUNDDOWN (srcva + i))) ∧
            mem (uaddr (walkaddr pt) (srcva + k)) = 0 ∧
            ∀ i < k, mem (uaddr (walkaddr pt) (srcva + i)) ≠ 0) ∧
        ∀ k < max, (∀ i ≤ k, UserMapped pt (PGROUNDDOWN (srcva + i))) →
          mem (uaddr (walkaddr pt) (srcva + k)) = 0 →
          (∀ i < k, mem (uaddr (walkaddr pt) (srcva + i)) ≠ 0) →
          ∀ i ≤ k, (copyinstr (walkaddr pt) mem dst srcva max).1 (dst + i) =
            mem (uaddr (walkaddr pt) (srcva + i))) := by
  refine ⟨fun a ha => copyinstr_frame _ mem dst srcva max ha, fun hsep => ?_⟩
  have hsep' : StrSep (walkaddr pt) srcva ⟨mem, dst, max, false⟩ :=
    fun i hi hm => hsep i hi ((walkaddr_ne_zero_iff pt _).mp hm)
  refine ⟨by simp only [copyinstr_ok_iff _ mem dst srcva max hsep', strEnd_walkaddr_iff], ?_⟩
  intro k hk hm hz hnz
  exact copyinstr_bytes _ mem dst srcva max hsep' hk
    ((strEnd_walkaddr_iff pt mem srcva k).mpr ⟨hm, hz, hnz⟩)

/-- A destination that is a physical byte of the user string: the string
`"a"` at user address `0`, its NUL at physical `0x80000001`, copied there.
The first byte copied overwrites the NUL before it is read, so no NUL is
found within `max = 2` bytes and `copyinstr` fails. -/
theorem copyinstr_alias_counterexample :
    (∀ i ≤ 1, UserMapped (fun a => if a = 0 then some ⟨0x80000000, 0x17⟩ else none)
        (PGROUNDDOWN (0 + i))) ∧
      (fun a => if a = 0x80000000 then (97 : UInt8) else 0)
        (uaddr (walkaddr fun a => if a = 0 then some ⟨0x80000000, 0x17⟩ else none) (0 + 1)) = 0 ∧
      (fun a => if a = 0x80000000 then (97 : UInt8) else 0)
        (uaddr (walkaddr fun a => if a = 0 then some ⟨0x80000000, 0x17⟩ else none) (0 + 0)) ≠ 0 ∧
      (copyinstr (walkaddr fun a => if a = 0 then some ⟨0x80000000, 0x17⟩ else none)
        (fun a => if a = 0x80000000 then 97 else 0) 0x80000001 0 2).2 = false := by
  -- one pass over the page copies two bytes and finds no NUL
  have hloop : copyinstrLoop (walkaddr fun a => if a = 0 then some ⟨0x80000000, 0x17⟩ else none) 0
      ⟨fun a => if a = 0x80000000 then 97 else 0, 0x80000001, 2, false⟩ =
      (copyinstrPage 0x80000000 2 ⟨fun a => if a = 0x80000000 then 97 else 0, 0x80000001, 2, false⟩,
        true) := by
    rw [copyinstrLoop, if_pos (by decide)]
    simp only
    rw [if_neg (by decide), copyinstrLoop_done _ _ (by decide)]
    rfl
  refine ⟨by decide, by decide, by decide, ?_⟩
  simp only [copyinstr, hloop]
  decide

end Vm
end Xv6
