import Mathlib

/-!
# Copying between user and kernel memory

`copyin` and `copyout` of `kernel/vm.c`, over physical memory.  Both walk
the user range page by page: `walkaddr` gives the physical page of a user
page (`0` when it is not mapped for the user, past `MAXVA` included), and
`memmove` moves the part of the range that lies in that page.  They are one
loop, `userCopy`, with the direction of the move as a parameter.

What each copy touches: `copyin` writes only its kernel range, and with the
user range mapped it writes the user bytes there in order (`copyin_bytes`);
`copyout` reads only its kernel range, so two memories that agree on that
range agree after it wherever they agreed before (`copyout_agree`).
-/

namespace Xv6
namespace Vm

/-- `PGSIZE` -/
def PGSIZE : Nat := 4096

/-- `PGROUNDDOWN(a)` -/
def PGROUNDDOWN (a : Nat) : Nat := a / PGSIZE * PGSIZE

/-- The physical address of user address `va`. -/
def uaddr (walkaddr : Nat → Nat) (va : Nat) : Nat := walkaddr (PGROUNDDOWN va) + va % PGSIZE

/-- `memmove(dst, src, n)`: as if through a buffer, so a source that
overlaps the destination is read before it is overwritten. -/
def memmove (mem : Nat → UInt8) (dst src n : Nat) : Nat → UInt8 :=
  fun a => if dst ≤ a ∧ a < dst + n then mem (src + (a - dst)) else mem a

/-- `memset(dst, v, n)` -/
def memset (mem : Nat → UInt8) (dst n : Nat) (v : UInt8) : Nat → UInt8 :=
  fun a => if dst ≤ a ∧ a < dst + n then v else mem a

/-- The loop of `copyin` and `copyout`: `while (len > 0)`, look up the
physical page of `va` and `move` the part of the range in that page; `done`
counts the bytes moved, by which the kernel pointer has advanced. -/
def userCopy (walkaddr : Nat → Nat) (move : (Nat → UInt8) → Nat → Nat → Nat → Nat → UInt8)
    (mem : Nat → UInt8) (va done len : Nat) : (Nat → UInt8) × Bool :=
  if len = 0 then (mem, true)
  else
    let va0 := PGROUNDDOWN va
    let pa0 := walkaddr va0
    if pa0 = 0 then (mem, false)
    else
      let n := min (PGSIZE - (va - va0)) len
      userCopy walkaddr move (move mem (pa0 + (va - va0)) done n) (va0 + PGSIZE) (done + n)
        (len - n)
termination_by len
decreasing_by
  simp only [PGROUNDDOWN, PGSIZE] at *
  omega

/-- The move of `copyout`: kernel bytes from `src` to the user page. -/
def outMove (src : Nat) (mem : Nat → UInt8) (pa done n : Nat) : Nat → UInt8 :=
  memmove mem pa (src + done) n

/-- The move of `copyin`: user bytes from the page to the kernel at `dst`. -/
def inMove (dst : Nat) (mem : Nat → UInt8) (pa done n : Nat) : Nat → UInt8 :=
  memmove mem (dst + done) pa n

/-- `copyout(pagetable, dstva, src, len)`: `len` bytes from kernel address
`src` to user address `dstva`; the flag is `false` for `-1`. -/
def copyout (walkaddr : Nat → Nat) (mem : Nat → UInt8) (dstva src len : Nat) :
    (Nat → UInt8) × Bool :=
  userCopy walkaddr (outMove src) mem dstva 0 len

/-- `copyin(pagetable, dst, srcva, len)`: `len` bytes from user address
`srcva` to kernel address `dst`; the flag is `false` for `-1`. -/
def copyin (walkaddr : Nat → Nat) (mem : Nat → UInt8) (dst srcva len : Nat) :
    (Nat → UInt8) × Bool :=
  userCopy walkaddr (inMove dst) mem srcva 0 len

/-! ## Pages and `memmove` -/

theorem PGSIZE_eq : PGSIZE = 4096 := rfl

theorem PGROUNDDOWN_eq (a : Nat) : PGROUNDDOWN a = a / 4096 * 4096 := rfl

theorem uaddr_eq (walkaddr : Nat → Nat) (va : Nat) :
    uaddr walkaddr va = walkaddr (PGROUNDDOWN va) + va % PGSIZE := rfl

theorem sub_pgrounddown (a : Nat) : a - PGROUNDDOWN a = a % PGSIZE := by
  rw [PGROUNDDOWN_eq, PGSIZE_eq]
  omega

/-- Within one page the physical address advances with the user one. -/
theorem uaddr_add (walkaddr : Nat → Nat) {va i : Nat} (h : va % PGSIZE + i < PGSIZE) :
    uaddr walkaddr (va + i) = uaddr walkaddr va + i := by
  rw [PGSIZE_eq] at h
  have hpg : PGROUNDDOWN (va + i) = PGROUNDDOWN va := by
    rw [PGROUNDDOWN_eq, PGROUNDDOWN_eq]
    omega
  have hmod : (va + i) % PGSIZE = va % PGSIZE + i := by
    rw [PGSIZE_eq]
    omega
  rw [uaddr_eq, uaddr_eq, hpg, hmod, Nat.add_assoc]

section Chunk

variable {va i k len : Nat}

/-- A byte among the first `min (PGSIZE - (va - PGROUNDDOWN va)) len` of the
range, the `n` of one pass, lies in the page of `va`. -/
theorem pgrounddown_of_lt_min (hi : i < min (PGSIZE - (va - PGROUNDDOWN va)) len) :
    PGROUNDDOWN (va + i) = PGROUNDDOWN va := by
  simp only [PGROUNDDOWN_eq, PGSIZE_eq] at hi ⊢
  omega

theorem uaddr_of_lt_min (walkaddr : Nat → Nat) (hi : i < min (PGSIZE - (va - PGROUNDDOWN va)) len) :
    uaddr walkaddr (va + i) = walkaddr (PGROUNDDOWN va) + (va - PGROUNDDOWN va) + i := by
  rw [sub_pgrounddown] at hi ⊢
  rw [uaddr_add walkaddr (by omega), uaddr_eq]

/-- Past the bytes of one pass the range goes on at the next page. -/
theorem next_page_of_min (hk : min (PGSIZE - (va - PGROUNDDOWN va)) len + k < len) :
    PGROUNDDOWN va + PGSIZE + k = va + (min (PGSIZE - (va - PGROUNDDOWN va)) len + k) := by
  simp only [PGROUNDDOWN_eq, PGSIZE_eq] at hk ⊢
  omega

end Chunk

theorem memmove_inside (mem : Nat → UInt8) {dst src n a : Nat} (h₁ : dst ≤ a) (h₂ : a < dst + n) :
    memmove mem dst src n a = mem (src + (a - dst)) :=
  if_pos ⟨h₁, h₂⟩

theorem memmove_outside (mem : Nat → UInt8) {dst src n a : Nat} (h : a < dst ∨ dst + n ≤ a) :
    memmove mem dst src n a = mem a :=
  if_neg (by omega)

theorem outMove_eq (src : Nat) (mem : Nat → UInt8) (pa done n : Nat) :
    outMove src mem pa done n = memmove mem pa (src + done) n := rfl

theorem inMove_eq (dst : Nat) (mem : Nat → UInt8) (pa done n : Nat) :
    inMove dst mem pa done n = memmove mem (dst + done) pa n := rfl

/-- Two memories agreeing on the source agree after the move wherever they
agreed before, and on all of the destination. -/
theorem memmove_agree {mem₁ mem₂ : Nat → UInt8} {dst src n a : Nat}
    (hsrc : ∀ k < n, mem₁ (src + k) = mem₂ (src + k))
    (ha : mem₁ a = mem₂ a ∨ dst ≤ a ∧ a < dst + n) :
    memmove mem₁ dst src n a = memmove mem₂ dst src n a := by
  by_cases hin : dst ≤ a ∧ a < dst + n
  · rw [memmove_inside mem₁ hin.1 hin.2, memmove_inside mem₂ hin.1 hin.2]
    exact hsrc _ (by omega)
  · rw [memmove_outside mem₁ (by omega), memmove_outside mem₂ (by omega)]
    exact ha.resolve_right hin

/-! ## The loop -/

section Loop

variable (walkaddr : Nat → Nat) (move : (Nat → UInt8) → Nat → Nat → Nat → Nat → UInt8)

/-- `userCopy` unfolded once; the lemmas below read its three branches off
this one. -/
theorem userCopy_eq (mem : Nat → UInt8) (va done len : Nat) :
    userCopy walkaddr move mem va done len =
      if len = 0 then (mem, true)
      else if walkaddr (PGROUNDDOWN va) = 0 then (mem, false)
      else
        userCopy walkaddr move
          (move mem (walkaddr (PGROUNDDOWN va) + (va - PGROUNDDOWN va)) done
            (min (PGSIZE - (va - PGROUNDDOWN va)) len))
          (PGROUNDDOWN va + PGSIZE) (done + min (PGSIZE - (va - PGROUNDDOWN va)) len)
          (len - min (PGSIZE - (va - PGROUNDDOWN va)) len) := by
  rw [userCopy]

theorem userCopy_zero (mem : Nat → UInt8) (va done : Nat) :
    userCopy walkaddr move mem va done 0 = (mem, true) := by
  rw [userCopy_eq, if_pos rfl]

theorem userCopy_unmapped (mem : Nat → UInt8) {va done len : Nat} (hlen : len ≠ 0)
    (hpa : walkaddr (PGROUNDDOWN va) = 0) :
    userCopy walkaddr move mem va done len = (mem, false) := by
  rw [userCopy_eq, if_neg hlen, if_pos hpa]

/-- One pass: the part of the range in the page of `va` moves, and the loop
goes on at the next page. -/
theorem userCopy_step (mem : Nat → UInt8) {va done len : Nat} (hlen : len ≠ 0)
    (hpa : walkaddr (PGROUNDDOWN va) ≠ 0) :
    userCopy walkaddr move mem va done len =
      userCopy walkaddr move
        (move mem (walkaddr (PGROUNDDOWN va) + (va - PGROUNDDOWN va)) done
          (min (PGSIZE - (va - PGROUNDDOWN va)) len))
        (PGROUNDDOWN va + PGSIZE) (done + min (PGSIZE - (va - PGROUNDDOWN va)) len)
        (len - min (PGSIZE - (va - PGROUNDDOWN va)) len) := by
  rw [userCopy_eq, if_neg hlen, if_neg hpa]

/-- Induction along the passes of `userCopy`, the locals of a pass named as
in the loop: a property of every call follows from one of the finished
copy, one at an unmapped page, and one of a pass given it of the rest. -/
theorem userCopy_induct {motive : (Nat → UInt8) → Nat → Nat → Nat → Prop}
    (finish : ∀ mem va done, motive mem va done 0)
    (unmapped : ∀ mem va done len, len ≠ 0 → walkaddr (PGROUNDDOWN va) = 0 →
      motive mem va done len)
    (pass : ∀ mem va done len, len ≠ 0 →
      let va0 := PGROUNDDOWN va
      let pa0 := walkaddr va0
      pa0 ≠ 0 →
      let n := min (PGSIZE - (va - va0)) len
      motive (move mem (pa0 + (va - va0)) done n) (va0 + PGSIZE) (done + n) (len - n) →
      motive mem va done len)
    (mem : Nat → UInt8) (va done len : Nat) : motive mem va done len := by
  fun_induction userCopy walkaddr move mem va done len with
  | case1 mem va done => exact finish mem va done
  | case2 mem va done len hlen va0 pa0 hpa => exact unmapped mem va done len hlen hpa
  | case3 mem va done len hlen va0 pa0 hpa n ih => exact pass mem va done len hlen hpa ih

/-- The flag says whether every page of the range was mapped. -/
theorem userCopy_ok_iff (mem : Nat → UInt8) (va done len : Nat) :
    (userCopy walkaddr move mem va done len).2 = true ↔
      ∀ i < len, walkaddr (PGROUNDDOWN (va + i)) ≠ 0 := by
  induction mem, va, done, len using userCopy_induct walkaddr move with
  | finish mem va done =>
      rw [userCopy_zero]
      simp
  | unmapped mem va done len hlen hpa =>
      rw [userCopy_unmapped walkaddr move mem hlen hpa]
      simp only [Bool.false_eq_true, false_iff, not_forall]
      exact ⟨0, by omega, by simpa using hpa⟩
  | pass mem va done len hlen va0 pa0 hpa n ih =>
      rw [userCopy_step walkaddr move mem hlen hpa, ih]
      -- the rest of the range starts on the next page, unless nothing is left
      have hpg : ∀ i < n, PGROUNDDOWN (va + i) = va0 := fun i hi => pgrounddown_of_lt_min hi
      have hnext : ∀ k, n + k < len → va0 + PGSIZE + k = va + (n + k) :=
        fun k hk => next_page_of_min hk
      constructor
      · intro hrest i hi
        by_cases hin : i < n
        · rw [hpg i hin]
          exact hpa
        · have := hrest (i - n) (by omega)
          rwa [hnext (i - n) (by omega), Nat.add_sub_cancel' (by omega)] at this
      · intro hall i hi
        rw [hnext i (by omega)]
        exact hall _ (by omega)

end Loop

/-! ## `copyin` -/

/-- `copyin` writes nothing outside its kernel range. -/
theorem userCopy_in_frame (walkaddr : Nat → Nat) (dst : Nat) (mem : Nat → UInt8)
    (va done len a : Nat) (h : a < dst + done ∨ dst + done + len ≤ a) :
    (userCopy walkaddr (inMove dst) mem va done len).1 a = mem a := by
  induction mem, va, done, len using userCopy_induct walkaddr (inMove dst) with
  | finish mem va done => rw [userCopy_zero]
  | unmapped mem va done len hlen hpa => rw [userCopy_unmapped walkaddr _ mem hlen hpa]
  | pass mem va done len hlen va0 pa0 hpa n ih =>
      rw [userCopy_step walkaddr _ mem hlen hpa, ih (by omega), inMove_eq,
        memmove_outside mem (by omega)]

theorem copyin_frame (walkaddr : Nat → Nat) (mem : Nat → UInt8) (dst srcva len a : Nat)
    (h : a < dst ∨ dst + len ≤ a) : (copyin walkaddr mem dst srcva len).1 a = mem a :=
  userCopy_in_frame walkaddr dst mem srcva 0 len a (by omega)

/-- With every page of the user range mapped, and its physical bytes apart
from the kernel range, `copyin` writes the user bytes in order. -/
theorem userCopy_in_bytes (walkaddr : Nat → Nat) (dst : Nat) (mem : Nat → UInt8) (va done len : Nat)
    (hmap : ∀ i < len, walkaddr (PGROUNDDOWN (va + i)) ≠ 0)
    (hsep : ∀ i < len, ∀ j < len, uaddr walkaddr (va + i) ≠ dst + done + j) :
    ∀ i < len, (userCopy walkaddr (inMove dst) mem va done len).1 (dst + done + i) =
      mem (uaddr walkaddr (va + i)) := by
  induction mem, va, done, len using userCopy_induct walkaddr (inMove dst) with
  | finish => intro i hi; omega
  | unmapped mem va done len hlen hpa =>
      exact absurd hpa (by simpa using hmap 0 (by omega))
  | pass mem va done len hlen va0 pa0 hpa n ih =>
      rw [userCopy_step walkaddr _ mem hlen hpa]
      intro i hi
      have hn : n ≤ len := min_le_right _ _
      have hnext : ∀ k, n + k < len → va0 + PGSIZE + k = va + (n + k) :=
        fun k hk => next_page_of_min hk
      have hrest := ih (fun k hk => by rw [hnext k (by omega)]; exact hmap _ (by omega))
        (fun k hk j hj => by
          rw [hnext k (by omega)]
          have := hsep (n + k) (by omega) (n + j) (by omega)
          omega)
      by_cases hin : i < n
      · -- a byte of the first page: moved now, and left alone by the rest
        rw [userCopy_in_frame walkaddr dst _ _ _ _ _ (by omega), inMove_eq,
          memmove_inside _ (by omega) (by omega), uaddr_of_lt_min walkaddr hin,
          Nat.add_sub_cancel_left]
      · have := hrest (i - n) (by omega)
        rw [show dst + (done + n) + (i - n) = dst + done + i by omega,
          hnext (i - n) (by omega), show n + (i - n) = i by omega] at this
        rw [this, inMove_eq, memmove_outside mem]
        by_contra hc
        have hj := hsep i hi (uaddr walkaddr (va + i) - (dst + done)) (by omega)
        omega

theorem copyin_bytes (walkaddr : Nat → Nat) (mem : Nat → UInt8) (dst srcva len : Nat)
    (hmap : ∀ i < len, walkaddr (PGROUNDDOWN (srcva + i)) ≠ 0)
    (hsep : ∀ i < len, ∀ j < len, uaddr walkaddr (srcva + i) ≠ dst + j) :
    (copyin walkaddr mem dst srcva len).2 = true ∧
      ∀ i < len, (copyin walkaddr mem dst srcva len).1 (dst + i) = mem (uaddr walkaddr (srcva + i)) :=
  ⟨(userCopy_ok_iff walkaddr _ mem srcva 0 len).mpr hmap,
    userCopy_in_bytes walkaddr dst mem srcva 0 len hmap hsep⟩

/-! ## `copyout` -/

/-- `copyout` reads only its kernel range: two memories that agree on it
agree after the copy wherever they agreed before, and the copy fails in
both or in neither. -/
theorem userCopy_out_agree (walkaddr : Nat → Nat) (src : Nat) (S : Set Nat) (va done len : Nat)
    (mem₁ mem₂ : Nat → UInt8) (hsrc : ∀ j < len, mem₁ (src + done + j) = mem₂ (src + done + j))
    (hS : ∀ p ∈ S, mem₁ p = mem₂ p) :
    (userCopy walkaddr (outMove src) mem₁ va done len).2 =
        (userCopy walkaddr (outMove src) mem₂ va done len).2 ∧
      ∀ p ∈ S, (userCopy walkaddr (outMove src) mem₁ va done len).1 p =
        (userCopy walkaddr (outMove src) mem₂ va done len).1 p := by
  induction mem₁, va, done, len using userCopy_induct walkaddr (outMove src)
    generalizing mem₂ with
  | finish mem₁ va done =>
      rw [userCopy_zero, userCopy_zero]
      exact ⟨rfl, hS⟩
  | unmapped mem₁ va done len hlen hpa =>
      rw [userCopy_unmapped walkaddr _ mem₁ hlen hpa, userCopy_unmapped walkaddr _ mem₂ hlen hpa]
      exact ⟨rfl, hS⟩
  | pass mem₁ va done len hlen va0 pa0 hpa n ih =>
      rw [userCopy_step walkaddr _ mem₁ hlen hpa, userCopy_step walkaddr _ mem₂ hlen hpa]
      have hn : n ≤ len := min_le_right _ _
      -- the move copies agreeing bytes, so both memories still agree on the
      -- rest of the source and on `S`
      have hmove : ∀ a, mem₁ a = mem₂ a ∨ pa0 + (va - va0) ≤ a ∧ a < pa0 + (va - va0) + n →
          outMove src mem₁ (pa0 + (va - va0)) done n a =
            outMove src mem₂ (pa0 + (va - va0)) done n a :=
        fun a ha => memmove_agree (fun k hk => hsrc k (by omega)) ha
      exact ih (outMove src mem₂ (pa0 + (va - va0)) done n)
        (fun j hj => hmove _ (.inl (by
          rw [show src + (done + n) + j = src + done + (n + j) by omega]
          exact hsrc _ (by omega))))
        (fun p hp => hmove p (.inl (hS p hp)))

theorem copyout_agree (walkaddr : Nat → Nat) (S : Set Nat) (mem₁ mem₂ : Nat → UInt8)
    (dstva src len : Nat) (hsrc : ∀ j < len, mem₁ (src + j) = mem₂ (src + j))
    (hS : ∀ p ∈ S, mem₁ p = mem₂ p) :
    (copyout walkaddr mem₁ dstva src len).2 = (copyout walkaddr mem₂ dstva src len).2 ∧
      ∀ p ∈ S, (copyout walkaddr mem₁ dstva src len).1 p =
        (copyout walkaddr mem₂ dstva src len).1 p :=
  userCopy_out_agree walkaddr src S dstva 0 len mem₁ mem₂ hsrc hS

/-- `copyout` writes nothing but the user bytes of the pages it found
mapped. -/
theorem userCopy_out_frame (walkaddr : Nat → Nat) (src : Nat) (mem : Nat → UInt8)
    (va done len p : Nat)
    (hp : ∀ i < len, walkaddr (PGROUNDDOWN (va + i)) ≠ 0 → p ≠ uaddr walkaddr (va + i)) :
    (userCopy walkaddr (outMove src) mem va done len).1 p = mem p := by
  induction mem, va, done, len using userCopy_induct walkaddr (outMove src) with
  | finish mem va done => rw [userCopy_zero]
  | unmapped mem va done len hlen hpa => rw [userCopy_unmapped walkaddr _ mem hlen hpa]
  | pass mem va done len hlen va0 pa0 hpa n ih =>
      have hn : n ≤ len := min_le_right _ _
      have hnext : ∀ k, n + k < len → va0 + PGSIZE + k = va + (n + k) :=
        fun k hk => next_page_of_min hk
      rw [userCopy_step walkaddr _ mem hlen hpa,
        ih (fun k hk => by rw [hnext k (by omega)]; exact hp _ (by omega)), outMove_eq,
        memmove_outside mem]
      -- a byte of the first page is `uaddr (va + i)` of a mapped `va + i`
      by_contra hc
      have hi : p - (pa0 + (va - va0)) < n := by omega
      apply hp (p - (pa0 + (va - va0))) (by omega) (by rw [pgrounddown_of_lt_min hi]; exact hpa)
      rw [uaddr_of_lt_min walkaddr hi]
      show p = pa0 + (va - va0) + (p - (pa0 + (va - va0)))
      omega

/-- With every page of the user range mapped, its physical bytes distinct
and apart from the kernel range, `copyout` writes the kernel bytes in
order. -/
theorem userCopy_out_bytes (walkaddr : Nat → Nat) (src : Nat) (mem : Nat → UInt8)
    (va done len : Nat)
    (hmap : ∀ i < len, walkaddr (PGROUNDDOWN (va + i)) ≠ 0)
    (hinj : ∀ i < len, ∀ j < len, uaddr walkaddr (va + i) = uaddr walkaddr (va + j) → i = j)
    (hsep : ∀ i < len, ∀ j < len, uaddr walkaddr (va + i) ≠ src + done + j) :
    ∀ i < len, (userCopy walkaddr (outMove src) mem va done len).1 (uaddr walkaddr (va + i)) =
      mem (src + done + i) := by
  induction mem, va, done, len using userCopy_induct walkaddr (outMove src) with
  | finish => intro i hi; omega
  | unmapped mem va done len hlen hpa =>
      exact absurd hpa (by simpa using hmap 0 (by omega))
  | pass mem va done len hlen va0 pa0 hpa n ih =>
      rw [userCopy_step walkaddr _ mem hlen hpa]
      intro i hi
      have hn : n ≤ len := min_le_right _ _
      have hnext : ∀ k, n + k < len → va0 + PGSIZE + k = va + (n + k) :=
        fun k hk => next_page_of_min hk
      have hua : ∀ j < n, uaddr walkaddr (va + j) = pa0 + (va - va0) + j :=
        fun j hj => uaddr_of_lt_min walkaddr hj
      by_cases hin : i < n
      · -- a byte of the first page: moved now, and no later page writes it
        have hkeep := userCopy_out_frame walkaddr src
          (outMove src mem (pa0 + (va - va0)) done n) (va0 + PGSIZE) (done + n) (len - n)
          (uaddr walkaddr (va + i)) (fun k hk _ h => by
            rw [hnext k (by omega)] at h
            have := hinj i hi (n + k) (by omega) h
            omega)
        rw [hkeep, hua i hin, outMove_eq, memmove_inside _ (by omega) (by omega),
          Nat.add_sub_cancel_left]
      · -- a byte of a later page: moved by the rest, from a source byte the
        -- first move did not overwrite
        have hrest := ih (fun k hk => by rw [hnext k (by omega)]; exact hmap _ (by omega))
          (fun k hk j hj h => by
            rw [hnext k (by omega), hnext j (by omega)] at h
            have := hinj _ (by omega) _ (by omega) h
            omega)
          (fun k hk j hj => by
            rw [hnext k (by omega)]
            have := hsep (n + k) (by omega) (n + j) (by omega)
            omega)
        have := hrest (i - n) (by omega)
        rw [hnext (i - n) (by omega), Nat.add_sub_cancel' (by omega)] at this
        rw [this, outMove_eq, memmove_outside mem,
          show src + (done + n) + (i - n) = src + done + i by omega]
        by_contra hc
        have hj : src + done + i - (pa0 + (va - va0)) < n := by omega
        have := hua _ hj
        exact hsep (src + done + i - (pa0 + (va - va0))) (by omega) i hi (by omega)

theorem copyout_bytes (walkaddr : Nat → Nat) (mem : Nat → UInt8) (dstva src len : Nat)
    (hmap : ∀ i < len, walkaddr (PGROUNDDOWN (dstva + i)) ≠ 0)
    (hinj : ∀ i < len, ∀ j < len,
      uaddr walkaddr (dstva + i) = uaddr walkaddr (dstva + j) → i = j)
    (hsep : ∀ i < len, ∀ j < len, uaddr walkaddr (dstva + i) ≠ src + j) :
    ∀ i < len, (copyout walkaddr mem dstva src len).1 (uaddr walkaddr (dstva + i)) =
      mem (src + i) :=
  userCopy_out_bytes walkaddr src mem dstva 0 len hmap hinj hsep

theorem copyout_frame (walkaddr : Nat → Nat) (mem : Nat → UInt8) (dstva src len p : Nat)
    (hp : ∀ i < len, walkaddr (PGROUNDDOWN (dstva + i)) ≠ 0 → p ≠ uaddr walkaddr (dstva + i)) :
    (copyout walkaddr mem dstva src len).1 p = mem p :=
  userCopy_out_frame walkaddr src mem dstva 0 len p hp

/-- A `copyout` longer than the rest of the first page, whose next page is
not mapped: the rest of the first page is written from `src`, and the copy
fails. -/
theorem copyout_first_page (walkaddr : Nat → Nat) (mem : Nat → UInt8) {dstva src len : Nat}
    (hpa : walkaddr (PGROUNDDOWN dstva) ≠ 0) (hnext : walkaddr (PGROUNDDOWN dstva + PGSIZE) = 0)
    (hlen : PGSIZE - dstva % PGSIZE < len) :
    copyout walkaddr mem dstva src len =
      (memmove mem (uaddr walkaddr dstva) src (PGSIZE - dstva % PGSIZE), false) := by
  have hpg : PGROUNDDOWN (PGROUNDDOWN dstva + PGSIZE) = PGROUNDDOWN dstva + PGSIZE := by
    rw [PGROUNDDOWN_eq, PGROUNDDOWN_eq, PGSIZE_eq]
    omega
  show userCopy walkaddr (outMove src) mem dstva 0 len = _
  rw [userCopy_step walkaddr _ mem (by omega) hpa, sub_pgrounddown,
    Nat.min_eq_left hlen.le, userCopy_unmapped walkaddr _ _ (by omega) (by rw [hpg]; exact hnext),
    outMove_eq, Nat.add_zero, uaddr_eq]

/-! ## `copyinstr` -/

/-- The locals of `copyinstr` that its inner loop changes, with memory. -/
structure StrCopy where
  mem : Nat → UInt8
  dst : Nat
  max : Nat
  gotNull : Bool

/-- The inner loop of `copyinstr`: at most `n` bytes from physical address
`p` to `dst`; a NUL is copied and ends the loop with `got_null` set. -/
def copyinstrPage : Nat → Nat → StrCopy → StrCopy
  | _, 0, s => s
  | p, n + 1, s =>
      if s.mem p = 0 then { s with mem := Function.update s.mem s.dst 0, gotNull := true }
      else
        copyinstrPage (p + 1) n
          { s with mem := Function.update s.mem s.dst (s.mem p), dst := s.dst + 1, max := s.max - 1 }

theorem copyinstrPage_zero (p : Nat) (s : StrCopy) : copyinstrPage p 0 s = s := rfl

theorem copyinstrPage_succ (p n : Nat) (s : StrCopy) :
    copyinstrPage p (n + 1) s =
      if s.mem p = 0 then { s with mem := Function.update s.mem s.dst 0, gotNull := true }
      else
        copyinstrPage (p + 1) n
          { s with mem := Function.update s.mem s.dst (s.mem p), dst := s.dst + 1, max := s.max - 1 } :=
  rfl

/-- The inner loop moves `dst` and `max` by one together, and stops early
only at a NUL. -/
theorem copyinstrPage_progress (p n : Nat) (s : StrCopy) (hn : n ≤ s.max) :
    (copyinstrPage p n s).dst + (copyinstrPage p n s).max = s.dst + s.max ∧
      s.dst ≤ (copyinstrPage p n s).dst ∧
      ((copyinstrPage p n s).gotNull = true ∨
        (copyinstrPage p n s).dst = s.dst + n ∧ (copyinstrPage p n s).gotNull = s.gotNull) := by
  induction n generalizing p s with
  | zero => simp [copyinstrPage_zero]
  | succ n ih =>
      rw [copyinstrPage_succ]
      split
      · simp
      · obtain ⟨h₁, h₂, h₃⟩ := ih (p + 1)
          { s with mem := Function.update s.mem s.dst (s.mem p), dst := s.dst + 1, max := s.max - 1 }
          (by simp only; omega)
        simp only at h₁ h₂ h₃
        refine ⟨by omega, by omega, ?_⟩
        rcases h₃ with h | ⟨h, h'⟩
        · exact .inl h
        · exact .inr ⟨by omega, h'⟩

/-- The loop of `copyinstr`: `while (got_null == 0 && max > 0)`, the part of
the string in the page of `srcva` a pass; the flag is `false` for the
`return -1` at an unmapped page. -/
def copyinstrLoop (walkaddr : Nat → Nat) (srcva : Nat) (s : StrCopy) : StrCopy × Bool :=
  if s.gotNull = false ∧ 0 < s.max then
    let va0 := PGROUNDDOWN srcva
    let pa0 := walkaddr va0
    if pa0 = 0 then (s, false)
    else
      let n := min (PGSIZE - (srcva - va0)) s.max
      copyinstrLoop walkaddr (va0 + PGSIZE) (copyinstrPage (pa0 + (srcva - va0)) n s)
  else (s, true)
termination_by if s.gotNull then 0 else s.max + 1
decreasing_by
  rename_i h _
  have hn : 0 < min (PGSIZE - (srcva - PGROUNDDOWN srcva)) s.max := by
    simp only [PGROUNDDOWN, PGSIZE]
    omega
  obtain ⟨h₁, -, h₃ | ⟨h₃, h₄⟩⟩ := copyinstrPage_progress
    (walkaddr (PGROUNDDOWN srcva) + (srcva - PGROUNDDOWN srcva))
    (min (PGSIZE - (srcva - PGROUNDDOWN srcva)) s.max) s (min_le_right _ _)
  · simp [h₃, h.1]
  · simp only [h₄, h.1, Bool.false_eq_true, if_false]
    omega

/-- `copyinstr(pagetable, dst, srcva, max)`: the flag is `false` for `-1`. -/
def copyinstr (walkaddr : Nat → Nat) (mem : Nat → UInt8) (dst srcva max : Nat) :
    (Nat → UInt8) × Bool :=
  let r := copyinstrLoop walkaddr srcva ⟨mem, dst, max, false⟩
  (r.1.mem, r.2 && r.1.gotNull)

/-! ### The inner loop -/

/-- The inner loop writes only the `n` bytes from `dst`. -/
theorem copyinstrPage_frame (p n : Nat) (s : StrCopy) {a : Nat} (ha : a < s.dst ∨ s.dst + n ≤ a) :
    (copyinstrPage p n s).mem a = s.mem a := by
  induction n generalizing p s with
  | zero => rfl
  | succ n ih =>
      rw [copyinstrPage_succ]
      split
      · exact Function.update_of_ne (by omega) _ _
      · rw [ih (p + 1) _ (by simp only; omega)]
        exact Function.update_of_ne (by omega) _ _

/-- Over bytes with no NUL, apart from the destination, the inner loop
copies all `n`. -/
theorem copyinstrPage_copy (p n : Nat) (s : StrCopy)
    (hsep : ∀ i < n, ∀ j < n, p + i ≠ s.dst + j) (hnz : ∀ i < n, s.mem (p + i) ≠ 0) :
    (copyinstrPage p n s).dst = s.dst + n ∧ (copyinstrPage p n s).max = s.max - n ∧
      (copyinstrPage p n s).gotNull = s.gotNull ∧
      ∀ i < n, (copyinstrPage p n s).mem (s.dst + i) = s.mem (p + i) := by
  induction n generalizing p s with
  | zero => simp [copyinstrPage_zero]
  | succ n ih =>
      have h0 : s.mem p ≠ 0 := by simpa using hnz 0 (by omega)
      rw [copyinstrPage_succ, if_neg h0]
      -- the bytes still to read are not the one just written
      have hread : ∀ i < n, Function.update s.mem s.dst (s.mem p) (p + 1 + i) = s.mem (p + 1 + i) :=
        fun i hi => Function.update_of_ne (by have := hsep (1 + i) (by omega) 0 (by omega); omega) _ _
      obtain ⟨h₁, h₂, h₃, h₄⟩ := ih (p + 1)
        { s with mem := Function.update s.mem s.dst (s.mem p), dst := s.dst + 1, max := s.max - 1 }
        (fun i hi j hj => by
          have := hsep (1 + i) (by omega) (1 + j) (by omega)
          simp only
          omega)
        (fun i hi => by
          simp only
          rw [hread i hi, Nat.add_assoc]
          exact hnz (1 + i) (by omega))
      simp only at h₁ h₂ h₃ h₄
      refine ⟨by omega, by omega, h₃, fun i hi => ?_⟩
      rcases i with _ | i
      · -- the first byte: written now, left alone by the rest of the loop
        rw [copyinstrPage_frame _ _ _ (by simp only; omega)]
        simp
      · rw [show s.dst + (i + 1) = s.dst + 1 + i by omega, h₄ i (by omega), hread i (by omega),
          Nat.add_assoc, Nat.add_comm 1 i]

/-- Over bytes apart from the destination, a NUL at `k` ends the inner loop
with the bytes up to it copied, the NUL included. -/
theorem copyinstrPage_nul (p n k : Nat) (s : StrCopy) (hk : k < n)
    (hsep : ∀ i ≤ k, ∀ j ≤ k, p + i ≠ s.dst + j) (hz : s.mem (p + k) = 0)
    (hnz : ∀ i < k, s.mem (p + i) ≠ 0) :
    (copyinstrPage p n s).gotNull = true ∧
      ∀ i ≤ k, (copyinstrPage p n s).mem (s.dst + i) = s.mem (p + i) := by
  induction k generalizing p n s with
  | zero =>
      obtain ⟨n, rfl⟩ : ∃ m, n = m + 1 := ⟨n - 1, by omega⟩
      rw [copyinstrPage_succ, if_pos (by simpa using hz)]
      refine ⟨rfl, fun i hi => ?_⟩
      obtain rfl : i = 0 := by omega
      simpa using hz.symm
  | succ k ih =>
      obtain ⟨m, rfl⟩ : ∃ m, n = m + 1 := ⟨n - 1, by omega⟩
      have h0 : s.mem p ≠ 0 := by simpa using hnz 0 (by omega)
      rw [copyinstrPage_succ, if_neg h0]
      have hread : ∀ i ≤ k, Function.update s.mem s.dst (s.mem p) (p + 1 + i) = s.mem (p + 1 + i) :=
        fun i hi => Function.update_of_ne (by have := hsep (1 + i) (by omega) 0 (by omega); omega) _ _
      obtain ⟨h₁, h₂⟩ := ih (p + 1) m
        { s with mem := Function.update s.mem s.dst (s.mem p), dst := s.dst + 1, max := s.max - 1 }
        (by omega)
        (fun i hi j hj => by
          have := hsep (1 + i) (by omega) (1 + j) (by omega)
          simp only
          omega)
        (by simp only; rw [hread k le_rfl, Nat.add_assoc, Nat.add_comm 1 k]; exact hz)
        (fun i hi => by
          simp only
          rw [hread i (by omega), Nat.add_assoc]
          exact hnz (1 + i) (by omega))
      simp only at h₂
      refine ⟨h₁, fun i hi => ?_⟩
      rcases i with _ | i
      · rw [copyinstrPage_frame _ _ _ (by simp only; omega)]
        simp
      · rw [show s.dst + (i + 1) = s.dst + 1 + i by omega, h₂ i (by omega), hread i (by omega),
          Nat.add_assoc, Nat.add_comm 1 i]

/-! ### The string a `copyinstr` reads -/

/-- The user string at `srcva` ends at byte `k`: the pages up to it are
mapped, and byte `k` is the string's first NUL. -/
def StrEnd (walkaddr : Nat → Nat) (mem : Nat → UInt8) (srcva k : Nat) : Prop :=
  (∀ i ≤ k, walkaddr (PGROUNDDOWN (srcva + i)) ≠ 0) ∧ mem (uaddr walkaddr (srcva + k)) = 0 ∧
    ∀ i < k, mem (uaddr walkaddr (srcva + i)) ≠ 0

/-- The mapped user bytes of the `max` bytes from `srcva` lie apart from the
`max` bytes from `dst`. -/
def StrSep (walkaddr : Nat → Nat) (srcva : Nat) (s : StrCopy) : Prop :=
  ∀ i < s.max, walkaddr (PGROUNDDOWN (srcva + i)) ≠ 0 →
    ∀ j < s.max, uaddr walkaddr (srcva + i) ≠ s.dst + j

section Str

variable {walkaddr : Nat → Nat}

/-- Past `n` mapped bytes that are not NUL the string ends `n` bytes later,
in any memory that agrees on the mapped bytes up to its end. -/
theorem strEnd_add_iff {mem mem' : Nat → UInt8} {srcva n k : Nat}
    (hmap : ∀ i < n, walkaddr (PGROUNDDOWN (srcva + i)) ≠ 0)
    (hnz : ∀ i < n, mem (uaddr walkaddr (srcva + i)) ≠ 0)
    (hagree : ∀ i ≤ k, walkaddr (PGROUNDDOWN (srcva + (n + i))) ≠ 0 →
      mem' (uaddr walkaddr (srcva + (n + i))) = mem (uaddr walkaddr (srcva + (n + i)))) :
    StrEnd walkaddr mem' (srcva + n) k ↔ StrEnd walkaddr mem srcva (n + k) := by
  simp only [StrEnd, Nat.add_assoc]
  constructor
  · rintro ⟨hm, hz, hnz'⟩
    refine ⟨fun i hi => ?_, by rw [← hagree k le_rfl (hm k le_rfl)]; exact hz, fun i hi => ?_⟩
    · by_cases hin : i < n
      · exact hmap i hin
      · obtain ⟨j, rfl⟩ : ∃ j, i = n + j := ⟨i - n, by omega⟩
        exact hm j (by omega)
    · by_cases hin : i < n
      · exact hnz i hin
      · obtain ⟨j, rfl⟩ : ∃ j, i = n + j := ⟨i - n, by omega⟩
        rw [← hagree j (by omega) (hm j (by omega))]
        exact hnz' j (by omega)
  · rintro ⟨hm, hz, hnz'⟩
    refine ⟨fun i hi => hm (n + i) (by omega), ?_, fun i hi => ?_⟩
    · rw [hagree k le_rfl (hm _ le_rfl)]
      exact hz
    · rw [hagree i (by omega) (hm _ (by omega))]
      exact hnz' (n + i) (by omega)

/-- A NUL in mapped pages ends the string, at the first NUL. -/
theorem exists_strEnd {mem : Nat → UInt8} {srcva m : Nat}
    (hmap : ∀ i ≤ m, walkaddr (PGROUNDDOWN (srcva + i)) ≠ 0)
    (hz : mem (uaddr walkaddr (srcva + m)) = 0) : ∃ k ≤ m, StrEnd walkaddr mem srcva k := by
  classical
  have hex : ∃ i, mem (uaddr walkaddr (srcva + i)) = 0 := ⟨m, hz⟩
  have hle : Nat.find hex ≤ m := Nat.find_min' hex hz
  exact ⟨Nat.find hex, hle, fun i hi => hmap i (by omega), Nat.find_spec hex,
    fun i hi => Nat.find_min hex hi⟩

variable (walkaddr)

/-- `copyinstrLoop` unfolded once; the lemmas below read its three branches
off this one. -/
theorem copyinstrLoop_eq (srcva : Nat) (s : StrCopy) :
    copyinstrLoop walkaddr srcva s =
      if s.gotNull = false ∧ 0 < s.max then
        if walkaddr (PGROUNDDOWN srcva) = 0 then (s, false)
        else
          copyinstrLoop walkaddr (PGROUNDDOWN srcva + PGSIZE)
            (copyinstrPage (walkaddr (PGROUNDDOWN srcva) + (srcva - PGROUNDDOWN srcva))
              (min (PGSIZE - (srcva - PGROUNDDOWN srcva)) s.max) s)
      else (s, true) := by
  rw [copyinstrLoop]

theorem copyinstrLoop_done (srcva : Nat) {s : StrCopy} (h : ¬ (s.gotNull = false ∧ 0 < s.max)) :
    copyinstrLoop walkaddr srcva s = (s, true) := by
  rw [copyinstrLoop_eq, if_neg h]

theorem copyinstrLoop_unmapped {srcva : Nat} {s : StrCopy} (h : s.gotNull = false ∧ 0 < s.max)
    (hpa : walkaddr (PGROUNDDOWN srcva) = 0) : copyinstrLoop walkaddr srcva s = (s, false) := by
  rw [copyinstrLoop_eq, if_pos h, if_pos hpa]

theorem copyinstrLoop_step {srcva : Nat} {s : StrCopy} (h : s.gotNull = false ∧ 0 < s.max)
    (hpa : walkaddr (PGROUNDDOWN srcva) ≠ 0) :
    copyinstrLoop walkaddr srcva s =
      copyinstrLoop walkaddr (PGROUNDDOWN srcva + PGSIZE)
        (copyinstrPage (walkaddr (PGROUNDDOWN srcva) + (srcva - PGROUNDDOWN srcva))
          (min (PGSIZE - (srcva - PGROUNDDOWN srcva)) s.max) s) := by
  rw [copyinstrLoop_eq, if_pos h, if_neg hpa]

/-- Induction along the passes of `copyinstrLoop`, the locals of a pass
named as in the loop, with the call a pass makes next. -/
theorem copyinstrLoop_induct {motive : Nat → StrCopy → Prop}
    (unmapped : ∀ srcva s, s.gotNull = false ∧ 0 < s.max → walkaddr (PGROUNDDOWN srcva) = 0 →
      motive srcva s)
    (pass : ∀ srcva s, s.gotNull = false ∧ 0 < s.max →
      let va0 := PGROUNDDOWN srcva
      let pa0 := walkaddr va0
      pa0 ≠ 0 →
      let n := min (PGSIZE - (srcva - va0)) s.max
      copyinstrLoop walkaddr srcva s =
        copyinstrLoop walkaddr (va0 + PGSIZE) (copyinstrPage (pa0 + (srcva - va0)) n s) →
      motive (va0 + PGSIZE) (copyinstrPage (pa0 + (srcva - va0)) n s) → motive srcva s)
    (finish : ∀ srcva s, ¬ (s.gotNull = false ∧ 0 < s.max) → motive srcva s)
    (srcva : Nat) (s : StrCopy) : motive srcva s := by
  fun_induction copyinstrLoop walkaddr srcva s with
  | case1 srcva s h va0 pa0 hpa => exact unmapped srcva s h hpa
  | case2 srcva s h va0 pa0 hpa n ih =>
      exact pass srcva s h hpa (copyinstrLoop_step walkaddr h hpa) ih
  | case3 srcva s h => exact finish srcva s h

/-- One pass over a mapped page with no NUL among its bytes of the string:
they are copied whole, and the loop goes on at the next page with the rest
of the string, which the pass did not touch.  The locals are those of the
loop's pass. -/
theorem copyinstr_pass {srcva va0 pa0 n : Nat} {s s' : StrCopy} (hva0 : va0 = PGROUNDDOWN srcva)
    (hpa0 : pa0 = walkaddr va0) (hn : n = min (PGSIZE - (srcva - va0)) s.max)
    (hs' : s' = copyinstrPage (pa0 + (srcva - va0)) n s)
    (hpa : pa0 ≠ 0) (hsep : StrSep walkaddr srcva s)
    (hnz : ∀ j < n, s.mem (uaddr walkaddr (srcva + j)) ≠ 0) :
    s'.dst = s.dst + n ∧ s'.max = s.max - n ∧ s'.gotNull = s.gotNull ∧
      (∀ i < n, s'.mem (s.dst + i) = s.mem (uaddr walkaddr (srcva + i))) ∧
      (0 < s'.max → va0 + PGSIZE = srcva + n ∧ StrSep walkaddr (srcva + n) s') ∧
      ∀ i, n + i < s.max → walkaddr (PGROUNDDOWN (srcva + (n + i))) ≠ 0 →
        s'.mem (uaddr walkaddr (srcva + (n + i))) = s.mem (uaddr walkaddr (srcva + (n + i))) := by
  subst hva0 hpa0 hs'
  have hn' : n ≤ s.max := by rw [hn]; exact min_le_right _ _
  have hua : ∀ j < n,
      uaddr walkaddr (srcva + j) = walkaddr (PGROUNDDOWN srcva) + (srcva - PGROUNDDOWN srcva) + j :=
    fun j hj => uaddr_of_lt_min walkaddr (lt_of_lt_of_eq hj hn)
  have hmap : ∀ j < n, walkaddr (PGROUNDDOWN (srcva + j)) ≠ 0 :=
    fun j hj => by rw [pgrounddown_of_lt_min (lt_of_lt_of_eq hj hn)]; exact hpa
  obtain ⟨h₁, h₂, h₃, h₄⟩ := copyinstrPage_copy _ _ s
    (fun i hi j hj => by rw [← hua i hi]; exact hsep i (by omega) (hmap i hi) j (by omega))
    (fun i hi => by rw [← hua i hi]; exact hnz i hi)
  refine ⟨h₁, h₂, h₃, fun i hi => by rw [h₄ i hi, hua i hi], fun hmax => ?_, fun i hi hm => ?_⟩
  · -- something is left, so the pass ended at the end of the page
    have hnext := next_page_of_min (k := 0) (lt_of_eq_of_lt (congrArg (· + 0) hn.symm)
      (show n + 0 < s.max by omega))
    refine ⟨by rw [← hn] at hnext; simpa using hnext, fun i hi hm j hj => ?_⟩
    rw [h₁]
    rw [h₂] at hi hj
    rw [Nat.add_assoc] at hm ⊢
    have := hsep (n + i) (by omega) hm (n + j) (by omega)
    omega
  · -- a later byte of the string is not among the bytes written
    refine copyinstrPage_frame _ _ _ (by_contra fun hc => ?_)
    exact hsep (n + i) hi hm (uaddr walkaddr (srcva + (n + i)) - s.dst) (by omega) (by omega)

/-- `copyinstr` writes nothing outside the `max` bytes from `dst`. -/
theorem copyinstrLoop_frame (srcva : Nat) (s : StrCopy) {a : Nat}
    (ha : a < s.dst ∨ s.dst + s.max ≤ a) :
    (copyinstrLoop walkaddr srcva s).1.mem a = s.mem a := by
  induction srcva, s using copyinstrLoop_induct walkaddr with
  | unmapped srcva s h hpa => rw [copyinstrLoop_unmapped walkaddr h hpa]
  | pass srcva s h va0 pa0 hpa n hstep ih =>
      obtain ⟨h₁, h₂, -⟩ := copyinstrPage_progress (pa0 + (srcva - va0)) n s (min_le_right _ _)
      have hn : n ≤ s.max := min_le_right _ _
      rw [hstep, ih (by omega)]
      exact copyinstrPage_frame _ _ _ (by omega)
  | finish srcva s h => rw [copyinstrLoop_done walkaddr _ h]

/-- A string that ends within `max` bytes, its bytes apart from the
destination, is copied up to and including its NUL. -/
theorem copyinstrLoop_found (srcva : Nat) (s : StrCopy) (hg : s.gotNull = false)
    (hsep : StrSep walkaddr srcva s) {k : Nat} (hk : k < s.max)
    (hend : StrEnd walkaddr s.mem srcva k) :
    (copyinstrLoop walkaddr srcva s).2 = true ∧ (copyinstrLoop walkaddr srcva s).1.gotNull = true ∧
      ∀ i ≤ k, (copyinstrLoop walkaddr srcva s).1.mem (s.dst + i) =
        s.mem (uaddr walkaddr (srcva + i)) := by
  induction srcva, s using copyinstrLoop_induct walkaddr generalizing k with
  | unmapped srcva s h hpa =>
      exact absurd hpa (by simpa using hend.1 0 (by omega))
  | pass srcva s h va0 pa0 hpa n hstep =>
      rename_i ih
      rw [hstep]
      have hn : n ≤ s.max := min_le_right _ _
      by_cases hkn : k < n
      · -- the NUL is in this page: the inner loop copies up to it, and the loop ends
        have hua : ∀ j < n, uaddr walkaddr (srcva + j) = pa0 + (srcva - va0) + j :=
          fun j hj => uaddr_of_lt_min walkaddr hj
        obtain ⟨h₁, h₂⟩ := copyinstrPage_nul (pa0 + (srcva - va0)) n k s hkn
          (fun i hi j hj => by
            rw [← hua i (by omega)]
            exact hsep i (by omega) (hend.1 i hi) j (by omega))
          (by rw [← hua k hkn]; exact hend.2.1)
          (fun i hi => by rw [← hua i (by omega)]; exact hend.2.2 i hi)
        rw [copyinstrLoop_done walkaddr _ (by simp [h₁])]
        exact ⟨rfl, h₁, fun i hi => by rw [h₂ i hi, hua i (by omega)]⟩
      · -- the page holds no NUL: it is copied whole, and the string ends `k - n`
        -- bytes into the next page
        obtain ⟨k, rfl⟩ : ∃ j, k = n + j := ⟨k - n, by omega⟩
        obtain ⟨h₁, h₂, h₃, h₄, h₅, h₆⟩ := @copyinstr_pass walkaddr srcva va0 pa0 n s _
          rfl rfl rfl rfl hpa hsep (fun j hj => hend.2.2 j (by omega))
        obtain ⟨hnext, hsep'⟩ := h₅ (by omega)
        have hend' := (strEnd_add_iff (fun j hj => hend.1 j (by omega))
          (fun j hj => hend.2.2 j (by omega))
          (fun i hi hm => h₆ i (by omega) hm)).mpr hend
        rw [← hnext] at hend' hsep'
        obtain ⟨r₁, r₂, r₃⟩ := ih (by rw [h₃]; exact hg) hsep' (by omega) hend'
        refine ⟨r₁, r₂, fun i hi => ?_⟩
        by_cases hin : i < n
        · rw [copyinstrLoop_frame walkaddr _ _ (by omega), h₄ i hin]
        · obtain ⟨j, rfl⟩ : ∃ j, i = n + j := ⟨i - n, by omega⟩
          have := r₃ j (by omega)
          rw [h₁] at this
          rw [show s.dst + (n + j) = s.dst + n + j by omega, this, hnext, Nat.add_assoc,
            h₆ j (by omega) (hend.1 _ hi)]
  | finish srcva s h =>
      exact absurd ⟨hg, by omega⟩ h

/-- A string that does not end within `max` bytes is not copied. -/
theorem copyinstrLoop_not_found (srcva : Nat) (s : StrCopy) (hg : s.gotNull = false)
    (hsep : StrSep walkaddr srcva s) (hnone : ∀ k < s.max, ¬ StrEnd walkaddr s.mem srcva k) :
    (copyinstrLoop walkaddr srcva s).2 = false ∨
      (copyinstrLoop walkaddr srcva s).1.gotNull = false := by
  induction srcva, s using copyinstrLoop_induct walkaddr with
  | unmapped srcva s h hpa =>
      rw [copyinstrLoop_unmapped walkaddr h hpa]
      exact .inl rfl
  | pass srcva s h va0 pa0 hpa n hstep ih =>
      rw [hstep]
      have hn : n ≤ s.max := min_le_right _ _
      -- no NUL in this page, or the string would end there
      have hnz : ∀ j < n, s.mem (uaddr walkaddr (srcva + j)) ≠ 0 := by
        intro j hj hz
        obtain ⟨k, hk, hend⟩ := exists_strEnd (fun i hi => by
          rw [pgrounddown_of_lt_min (show i < n by omega)]
          exact hpa) hz
        exact hnone k (by omega) hend
      obtain ⟨h₁, h₂, h₃, -, h₅, h₆⟩ := @copyinstr_pass walkaddr srcva va0 pa0 n s _
        rfl rfl rfl rfl hpa hsep hnz
      by_cases hmax : 0 < s.max - n
      · obtain ⟨hnext, hsep'⟩ := h₅ (by omega)
        rw [← hnext] at hsep'
        apply ih (by rw [h₃]; exact hg) hsep'
        intro k hk hend'
        rw [hnext] at hend'
        exact hnone (n + k) (by omega) ((strEnd_add_iff
          (fun j hj => by rw [pgrounddown_of_lt_min (show j < n by omega)]; exact hpa) hnz
          (fun i hi hm => h₆ i (by omega) hm)).mp hend')
      · -- nothing is left: the loop stops without a NUL
        rw [copyinstrLoop_done walkaddr _ (by omega)]
        exact .inr (by rw [h₃]; exact hg)
  | finish srcva s h =>
      rw [copyinstrLoop_done walkaddr _ h]
      exact .inr hg

theorem copyinstr_frame (mem : Nat → UInt8) (dst srcva max : Nat) {a : Nat}
    (ha : a < dst ∨ dst + max ≤ a) : (copyinstr walkaddr mem dst srcva max).1 a = mem a :=
  copyinstrLoop_frame walkaddr srcva ⟨mem, dst, max, false⟩ ha

/-- With the string's bytes apart from the destination, `copyinstr`
succeeds exactly when the string ends within `max` bytes. -/
theorem copyinstr_ok_iff (mem : Nat → UInt8) (dst srcva max : Nat)
    (hsep : StrSep walkaddr srcva ⟨mem, dst, max, false⟩) :
    (copyinstr walkaddr mem dst srcva max).2 = true ↔ ∃ k < max, StrEnd walkaddr mem srcva k := by
  constructor
  · intro h
    by_contra hnone
    push Not at hnone
    rcases copyinstrLoop_not_found walkaddr srcva _ rfl hsep hnone with h' | h' <;>
      simp [copyinstr, h'] at h
  · rintro ⟨k, hk, hend⟩
    obtain ⟨h₁, h₂, -⟩ := copyinstrLoop_found walkaddr srcva _ rfl hsep hk hend
    simp [copyinstr, h₁, h₂]

theorem copyinstr_bytes (mem : Nat → UInt8) (dst srcva max : Nat)
    (hsep : StrSep walkaddr srcva ⟨mem, dst, max, false⟩) {k : Nat} (hk : k < max)
    (hend : StrEnd walkaddr mem srcva k) :
    ∀ i ≤ k, (copyinstr walkaddr mem dst srcva max).1 (dst + i) = mem (uaddr walkaddr (srcva + i)) :=
  (copyinstrLoop_found walkaddr srcva ⟨mem, dst, max, false⟩ rfl hsep hk hend).2.2

end Str

end Vm
end Xv6
