import Xv6.Kernel.Kalloc
import Xv6.Support.System

/-!
# User address spaces

The user half of `kernel/vm.c` (`mappages`, `uvmunmap`, `uvmalloc`,
`uvmdealloc`, `uvmcopy`, `uvmfree`, `freewalk`), `proc_freepagetable` and
`growproc` of `kernel/proc.c`, and `sys_sbrk`.

A page table is its leaf PTEs, by the page-aligned virtual address each
maps: the three levels of page-table pages are not modelled, so `walk`
failing to allocate one (when `kalloc` runs out) is an answer `walkOk`
the caller passes, and `walk` finding no PTE is the page being unmapped.
Physical pages come from `kmem`; a page's contents are the byte it was last
filled with (`Kmem.fill`), which is what `memset` and a page `memmove` set.

`growproc` keeps the size in a `uint`: `p->sz` is cut to 32 bits and
`sz + n` wraps.  A shrink by more than `p->sz` therefore becomes a "grow"
to a size near `2^32`, which `uvmdealloc` ignores: `growproc` returns `0`
and leaves `p->sz` as it was (`growproc_shrink_wraps`).
-/

namespace Xv6
namespace Vm

open Kernel

/-- `PGROUNDUP(sz)` -/
def PGROUNDUP (a : Nat) : Nat := (a + PGSIZE - 1) / PGSIZE * PGSIZE

/-- `TRAMPOLINE`: the highest page of every address space. -/
def TRAMPOLINE : Nat := MAXVA - PGSIZE

/-- `TRAPFRAME`: the page below `TRAMPOLINE`. -/
def TRAPFRAME : Nat := TRAMPOLINE - PGSIZE

/-- `PTE_V` -/
def PTE_V : Nat := 1

/-- `PTE_R` -/
def PTE_R : Nat := 2

/-- `PTE_W` -/
def PTE_W : Nat := 4

/-- `PTE_X` -/
def PTE_X : Nat := 8

/-- `PTE_U`: user can access. -/
def PTE_U : Nat := 16

/-- A valid PTE of the last level: `PTE2PA` and `PTE_FLAGS` of it, `PTE_V`
among the flags. -/
structure Pte where
  pa : Nat
  flags : Nat
  deriving DecidableEq

/-- What `freewalk` takes for a leaf: one of `PTE_R`, `PTE_W`, `PTE_X` set. -/
def Pte.Leaf (pte : Pte) : Prop := pte.flags &&& (PTE_R ||| PTE_W ||| PTE_X) ≠ 0

instance (pte : Pte) : Decidable pte.Leaf := inferInstanceAs (Decidable (_ ≠ _))

/-- A leaf that maps a page of RAM after the kernel image. -/
def Pte.Ok (kend : Nat) (pte : Pte) : Prop := PageOk kend pte.pa ∧ pte.Leaf

/-- A page table: the leaf PTE of each page-aligned virtual address. -/
abbrev Pagetable := Nat → Option Pte

/-- The page-aligned addresses `a, a + PGSIZE, ...` below `b`: the passes of
`for(a = ...; a < b; a += PGSIZE)`. -/
def pageRange (a b : Nat) : List Nat :=
  (List.range ((b - a + PGSIZE - 1) / PGSIZE)).map fun j => a + j * PGSIZE

/-- The page `pa` filled with `b` (`memset`), or with the byte of another
page (`memmove` of a whole page). -/
def fillPage (k : Kmem) (pa : Nat) (b : UInt8) : Kmem :=
  { k with fill := Function.update k.fill pa b }

/-- `mappages(pagetable, va, PGSIZE, pa, perm)` for the page at `va`;
`.ok none` is its `-1`, when `walk` could not allocate a page-table page. -/
def mappage (pt : Pagetable) (va pa perm : Nat) (walkOk : Bool) :
    Except String (Option Pagetable) :=
  if MAXVA ≤ va then .error "walk"
  else if !walkOk then .ok none
  else if (pt va).isSome then .error "remap"
  else .ok (some (Function.update pt va (some ⟨pa, perm ||| PTE_V⟩)))

/-- One pass of `uvmunmap`'s loop: the page at `a` unmapped, and its
physical page freed if `doFree`. -/
def unmapPage (doFree : Bool) (st : Kmem × Pagetable) (a : Nat) : Except String (Kmem × Pagetable) :=
  if MAXVA ≤ a then .error "walk"
  else
    match st.2 a with
    | none => .error "uvmunmap: not mapped"
    | some pte =>
        if pte.flags = PTE_V then .error "uvmunmap: not a leaf"
        else if doFree then (kfree st.1 pte.pa).map fun k => (k, Function.update st.2 a none)
        else .ok (st.1, Function.update st.2 a none)

/-- `uvmunmap(pagetable, va, npages, do_free)` -/
def uvmunmap (k : Kmem) (pt : Pagetable) (va npages : Nat) (doFree : Bool) :
    Except String (Kmem × Pagetable) :=
  if va % PGSIZE ≠ 0 then .error "uvmunmap: not aligned"
  else (pageRange va (va + npages * PGSIZE)).foldlM (unmapPage doFree) (k, pt)

/-- `uvmdealloc(pagetable, oldsz, newsz)`: the new size, which is `oldsz`
when `newsz` is not below it. -/
def uvmdealloc (k : Kmem) (pt : Pagetable) (oldsz newsz : Nat) :
    Except String (Kmem × Pagetable × Nat) :=
  if oldsz ≤ newsz then .ok (k, pt, oldsz)
  else if PGROUNDUP newsz < PGROUNDUP oldsz then
    let npages := (PGROUNDUP oldsz - PGROUNDUP newsz) / PGSIZE
    (uvmunmap k pt (PGROUNDUP newsz) npages true).map fun r => (r.1, r.2, newsz)
  else .ok (k, pt, newsz)

/-- `uvmalloc`'s loop over the pages `as`, from the rounded-up `oldsz`;
`false` when it failed and undid itself with `uvmdealloc`. -/
def uvmallocLoop (oldsz : Nat) (walkOk : Nat → Bool) :
    List Nat → Kmem → Pagetable → Except String (Kmem × Pagetable × Bool)
  | [], k, pt => .ok (k, pt, true)
  | a :: as, k, pt =>
      let (k, mem) := kalloc k
      if mem = 0 then (uvmdealloc k pt a oldsz).map fun r => (r.1, r.2.1, false)
      else
        let k := fillPage k mem 0
        match mappage pt a mem (PTE_W ||| PTE_X ||| PTE_R ||| PTE_U) (walkOk a) with
        | .error e => .error e
        | .ok none => do
            let k ← kfree k mem
            (uvmdealloc k pt a oldsz).map fun r => (r.1, r.2.1, false)
        | .ok (some pt) => uvmallocLoop oldsz walkOk as k pt

/-- `uvmalloc(pagetable, oldsz, newsz)`: `newsz`, or `0` on failure. -/
def uvmalloc (k : Kmem) (pt : Pagetable) (oldsz newsz : Nat) (walkOk : Nat → Bool) :
    Except String (Kmem × Pagetable × Nat) :=
  if newsz < oldsz then .ok (k, pt, oldsz)
  else
    let oldsz := PGROUNDUP oldsz
    (uvmallocLoop oldsz walkOk (pageRange oldsz newsz) k pt).map fun r =>
      (r.1, r.2.1, if r.2.2 then newsz else 0)

/-- `uvmcopy`'s loop over the pages `is` of `old`, copying each into a new
page of `new`; `false` when it failed and freed what it had mapped. -/
def uvmcopyLoop (old : Pagetable) (walkOk : Nat → Bool) :
    List Nat → Kmem → Pagetable → Except String (Kmem × Pagetable × Bool)
  | [], k, new => .ok (k, new, true)
  | i :: is, k, new =>
      if MAXVA ≤ i then .error "walk"
      else
        match old i with
        | none => .error "uvmcopy: page not present"
        | some pte =>
            let (k, mem) := kalloc k
            if mem = 0 then (uvmunmap k new 0 (i / PGSIZE) true).map fun r => (r.1, r.2, false)
            else
              let k := fillPage k mem (k.fill pte.pa)
              match mappage new i mem pte.flags (walkOk i) with
              | .error e => .error e
              | .ok none => do
                  let k ← kfree k mem
                  (uvmunmap k new 0 (i / PGSIZE) true).map fun r => (r.1, r.2, false)
              | .ok (some new) => uvmcopyLoop old walkOk is k new

/-- `uvmcopy(old, new, sz)`: `false` for its `-1`. -/
def uvmcopy (k : Kmem) (old new : Pagetable) (sz : Nat) (walkOk : Nat → Bool) :
    Except String (Kmem × Pagetable × Bool) :=
  uvmcopyLoop old walkOk (pageRange 0 sz) k new

/-- `freewalk(pagetable)`: it panics on a leaf left mapped. -/
def freewalk (pt : Pagetable) : Except String Unit :=
  if ∃ va < MAXVA, (pt va).isSome then .error "freewalk: leaf" else .ok ()

/-- `uvmfree(pagetable, sz)` -/
def uvmfree (k : Kmem) (pt : Pagetable) (sz : Nat) : Except String Kmem := do
  let (k, pt) ← if 0 < sz then uvmunmap k pt 0 (PGROUNDUP sz / PGSIZE) true else pure (k, pt)
  freewalk pt
  pure k

/-- `proc_freepagetable(pagetable, sz)` -/
def procFreepagetable (k : Kmem) (pt : Pagetable) (sz : Nat) : Except String Kmem := do
  let (k, pt) ← uvmunmap k pt TRAMPOLINE 1 false
  let (k, pt) ← uvmunmap k pt TRAPFRAME 1 false
  uvmfree k pt sz

section Pages

variable {a b x : Nat}

theorem pgsize_pos : 0 < PGSIZE := by decide

theorem mem_pageRange (ha : a % PGSIZE = 0) :
    x ∈ pageRange a b ↔ x % PGSIZE = 0 ∧ a ≤ x ∧ x < b := by
  unfold pageRange PGSIZE at *
  simp only [List.mem_map, List.mem_range]
  constructor
  · rintro ⟨j, hj, rfl⟩
    omega
  · rintro ⟨hx, hax, hxb⟩
    exact ⟨(x - a) / 4096, by omega, by omega⟩

theorem pageRange_nodup : (pageRange a b).Nodup := by
  unfold pageRange
  refine List.Nodup.map (fun i j h => ?_) List.nodup_range
  have := pgsize_pos
  simp only [Nat.add_left_cancel_iff] at h
  exact Nat.eq_of_mul_eq_mul_right this h

theorem pageRange_of_le (h : b ≤ a) : pageRange a b = [] := by
  unfold pageRange PGSIZE
  rw [List.map_eq_nil_iff, List.range_eq_nil]
  omega

/-- The loop's first pass is at `a`, and the rest starts a page later. -/
theorem pageRange_cons (h : a < b) : pageRange a b = a :: pageRange (a + PGSIZE) b := by
  unfold pageRange
  have hn : (b - a + PGSIZE - 1) / PGSIZE = (b - (a + PGSIZE) + PGSIZE - 1) / PGSIZE + 1 := by
    unfold PGSIZE
    omega
  rw [hn, List.range_succ_eq_map, List.map_cons, List.map_map]
  congr 2
  funext j
  simp only [Function.comp, Nat.succ_mul]
  omega

theorem length_pageRange : (pageRange a b).length = (b - a + PGSIZE - 1) / PGSIZE := by
  simp [pageRange]

/-- A range of whole pages ends one page further on. -/
theorem pageRange_snoc (ha : a % PGSIZE = 0) (hb : b % PGSIZE = 0) (hab : a ≤ b) :
    pageRange a (b + PGSIZE) = pageRange a b ++ [b] := by
  unfold pageRange
  have hn : (b + PGSIZE - a + PGSIZE - 1) / PGSIZE = (b - a + PGSIZE - 1) / PGSIZE + 1 := by
    unfold PGSIZE at *
    omega
  rw [hn, List.range_succ, List.map_append, List.map_singleton]
  congr 2
  unfold PGSIZE at *
  omega

/-- The loop over `n` pages from `a` visits the pages of `pageRange`. -/
theorem pageRange_count (n : Nat) : pageRange a (a + n * PGSIZE) = (List.range n).map fun j => a + j * PGSIZE := by
  unfold pageRange
  congr 2
  unfold PGSIZE
  omega

/-- A loop over the pages of `pageRange a b` ends at the page boundary it
stops at. -/
theorem pageRange_end : pageRange a (a + (pageRange a b).length * PGSIZE) = pageRange a b := by
  rw [pageRange_count, length_pageRange]
  rfl

theorem pgroundup_le (hb : b % PGSIZE = 0) (h : a ≤ b) : PGROUNDUP a ≤ b := by
  unfold PGROUNDUP
  unfold PGSIZE at *
  omega

theorem pgroundup_mod : PGROUNDUP a % PGSIZE = 0 := by
  unfold PGROUNDUP
  exact Nat.mul_mod_left _ _

theorem pgroundup_of_mod (h : a % PGSIZE = 0) : PGROUNDUP a = a := by
  unfold PGROUNDUP
  unfold PGSIZE at *
  omega

theorem pgroundup_div : PGROUNDUP a / PGSIZE = (a + PGSIZE - 1) / PGSIZE := by
  unfold PGROUNDUP PGSIZE
  omega

theorem pgroundup_lt : PGROUNDUP a < a + PGSIZE := by
  unfold PGROUNDUP PGSIZE
  omega

theorem le_pgroundup : a ≤ PGROUNDUP a := by
  unfold PGROUNDUP PGSIZE
  omega

/-- Below a page boundary, a page-aligned address lies below `sz` exactly
when it lies below `PGROUNDUP sz`. -/
theorem lt_pgroundup_iff (hx : x % PGSIZE = 0) : x < PGROUNDUP a ↔ x < a := by
  unfold PGROUNDUP PGSIZE at *
  omega

theorem mem_pageRange_zero : x ∈ pageRange 0 b ↔ x % PGSIZE = 0 ∧ x < b := by
  rw [mem_pageRange (Nat.zero_mod _)]
  omega

theorem pgroundup_mono (h : a ≤ b) : PGROUNDUP a ≤ PGROUNDUP b := by
  unfold PGROUNDUP PGSIZE
  exact Nat.mul_le_mul_right _ (Nat.div_le_div_right (by omega))

/-- From a page boundary, the pages below `b` are the pages below
`PGROUNDUP b`. -/
theorem pageRange_pgroundup (ha : a % PGSIZE = 0) : pageRange a (PGROUNDUP b) = pageRange a b := by
  unfold pageRange
  congr 2
  unfold PGROUNDUP PGSIZE at *
  omega

end Pages

section Map

variable {pt pt' : Pagetable} {va pa perm : Nat} {w : Bool}

@[simp] theorem fillPage_freelist (k : Kmem) (pa : Nat) (b : UInt8) :
    (fillPage k pa b).freelist = k.freelist := rfl

@[simp] theorem fillPage_kend (k : Kmem) (pa : Nat) (b : UInt8) : (fillPage k pa b).kend = k.kend :=
  rfl

@[simp] theorem fillPage_fill (k : Kmem) (pa : Nat) (b : UInt8) :
    (fillPage k pa b).fill = Function.update k.fill pa b := rfl

/-- `mappages` panics only at a page past `MAXVA` or one mapped already. -/
theorem mappage_error {e : String} (h : mappage pt va pa perm w = .error e) :
    MAXVA ≤ va ∨ (pt va).isSome := by
  unfold mappage at h
  by_cases h₁ : MAXVA ≤ va
  · exact .inl h₁
  · rw [if_neg h₁] at h
    by_cases h₂ : (pt va).isSome
    · exact .inr h₂
    · cases w <;> simp [h₂] at h

theorem mappage_none (h : mappage pt va pa perm w = .ok none) : va < MAXVA ∧ w = false := by
  unfold mappage at h
  by_cases h₁ : MAXVA ≤ va
  · rw [if_pos h₁] at h
    cases h
  · rw [if_neg h₁] at h
    cases w with
    | false => exact ⟨by omega, rfl⟩
    | true =>
        simp only [Bool.not_true, Bool.false_eq_true, if_false] at h
        split_ifs at h
        cases h

theorem mappage_some (h : mappage pt va pa perm w = .ok (some pt')) :
    va < MAXVA ∧ pt va = none ∧ pt' = Function.update pt va (some ⟨pa, perm ||| PTE_V⟩) := by
  unfold mappage at h
  by_cases h₁ : MAXVA ≤ va
  · rw [if_pos h₁] at h
    cases h
  · rw [if_neg h₁] at h
    cases w with
    | false => cases h
    | true =>
        simp only [Bool.not_true, Bool.false_eq_true, if_false] at h
        split_ifs at h with h₃
        cases h
        exact ⟨by omega, by simpa using h₃, rfl⟩

/-- Setting `PTE_V` keeps a leaf a leaf. -/
theorem Pte.leaf_or_v {pte : Pte} (h : pte.Leaf) : Pte.Leaf ⟨pa, pte.flags ||| PTE_V⟩ := by
  unfold Pte.Leaf at *
  rw [Nat.and_or_distrib_right]
  intro h₀
  exact h (Nat.or_eq_zero_iff.mp h₀).1

/-- A leaf is not a PTE of `PTE_V` alone, which `uvmunmap` takes for an
interior one. -/
theorem Pte.Leaf.ne_v {pte : Pte} (h : pte.Leaf) : pte.flags ≠ PTE_V := by
  intro hv
  unfold Pte.Leaf at h
  rw [hv] at h
  exact h (by decide)

end Map

section Unmap

/-- `pt` with the pages `l` unmapped. -/
def unmapped (pt : Pagetable) (l : List Nat) : Pagetable := fun va => if va ∈ l then none else pt va

theorem unmapped_nil (pt : Pagetable) : unmapped pt [] = pt := by
  funext va
  simp [unmapped]

/-- The physical pages mapped at the pages `l`, in order. -/
def frames (pt : Pagetable) (l : List Nat) : List Nat := l.filterMap fun va => (pt va).map Pte.pa

section Frames

variable {pt pt' : Pagetable} {l : List Nat} {a : Nat} {pte : Pte}

@[simp]
theorem frames_nil (pt : Pagetable) : frames pt [] = [] := rfl

theorem frames_cons_of_some (h : pt a = some pte) : frames pt (a :: l) = pte.pa :: frames pt l := by
  simp [frames, h]

theorem frames_append (l₁ l₂ : List Nat) : frames pt (l₁ ++ l₂) = frames pt l₁ ++ frames pt l₂ :=
  List.filterMap_append

theorem frames_congr (h : ∀ va ∈ l, pt va = pt' va) : frames pt l = frames pt' l :=
  List.filterMap_congr fun va hva => by rw [h va hva]

end Frames

/-- `uvmunmap`'s loop over mapped leaves: each is unmapped, and its page
goes on the free list if `doFree`. -/
theorem foldlM_unmapPage (doFree : Bool) :
    ∀ (l : List Nat) (k : Kmem) (pt : Pagetable), l.Nodup →
      (∀ a ∈ l, a < MAXVA ∧ ∃ pte, pt a = some pte ∧ pte.Leaf ∧ (doFree → PageOk k.kend pte.pa)) →
      ∃ k', l.foldlM (unmapPage doFree) (k, pt) = .ok (k', unmapped pt l) ∧ k'.kend = k.kend ∧
        k'.freelist = (if doFree then (frames pt l).reverse else []) ++ k.freelist := by
  intro l
  induction l with
  | nil =>
      intro k pt _ _
      refine ⟨k, ?_, rfl, by simp⟩
      rw [unmapped_nil]
      rfl
  | cons a l ih =>
      intro k pt hnd hl
      obtain ⟨ha, pte, hpte, hleaf, hok⟩ := hl a List.mem_cons_self
      have hnot : a ∉ l := (List.nodup_cons.mp hnd).1
      -- the first pass unmaps `a`, freeing its page if asked
      obtain ⟨k₁, hstep, hkend, hfl⟩ : ∃ k₁, unmapPage doFree (k, pt) a =
          .ok (k₁, Function.update pt a none) ∧ k₁.kend = k.kend ∧
          k₁.freelist = (if doFree then [pte.pa] else []) ++ k.freelist := by
        unfold unmapPage
        rw [if_neg (by omega)]
        simp only [hpte, if_neg hleaf.ne_v]
        cases doFree with
        | false => exact ⟨k, rfl, rfl, by simp⟩
        | true =>
            obtain ⟨k₁, hk, hfl, -, hke⟩ := kfree_of_ok (hok rfl)
            exact ⟨k₁, by simp [hk, Except.map], hke, by simp [hfl]⟩
      have hrest : ∀ a' ∈ l, a' < MAXVA ∧ ∃ pte, Function.update pt a none a' = some pte ∧
          pte.Leaf ∧ (doFree → PageOk k₁.kend pte.pa) := by
        intro a' ha'
        have hne : a' ≠ a := fun e => hnot (e ▸ ha')
        rw [Function.update_of_ne hne, hkend]
        exact hl a' (List.mem_cons_of_mem a ha')
      obtain ⟨k', hfold, hkend', hfl'⟩ := ih k₁ _ (List.nodup_cons.mp hnd).2 hrest
      have heq : unmapped (Function.update pt a none) l = unmapped pt (a :: l) := by
        funext va
        by_cases hva : va = a
        · subst hva
          simp [unmapped, hnot]
        · simp [unmapped, hva]
      -- the rest of the loop sees the pages of `l` as `pt` maps them
      have hframes : frames (Function.update pt a none) l = frames pt l :=
        frames_congr fun va hva => Function.update_of_ne (fun (e : va = a) => hnot (e ▸ hva)) _ _
      refine ⟨k', ?_, hkend'.trans hkend, ?_⟩
      · rw [List.foldlM_cons, hstep, ← heq]
        exact hfold
      · rw [hfl', hfl, hframes, frames_cons_of_some hpte]
        cases doFree <;> simp

/-- `uvmunmap` of `npages` mapped leaves from an aligned `va`. -/
theorem uvmunmap_ok (k : Kmem) (pt : Pagetable) {va : Nat} (npages : Nat) (doFree : Bool)
    (hva : va % PGSIZE = 0)
    (hl : ∀ a ∈ pageRange va (va + npages * PGSIZE), a < MAXVA ∧
      ∃ pte, pt a = some pte ∧ pte.Leaf ∧ (doFree → PageOk k.kend pte.pa)) :
    ∃ k', uvmunmap k pt va npages doFree =
        .ok (k', unmapped pt (pageRange va (va + npages * PGSIZE))) ∧ k'.kend = k.kend ∧
      k'.freelist = (if doFree then (frames pt (pageRange va (va + npages * PGSIZE))).reverse
        else []) ++ k.freelist := by
  obtain ⟨k', h, hkend, hfl⟩ := foldlM_unmapPage doFree _ k pt pageRange_nodup hl
  refine ⟨k', ?_, hkend, hfl⟩
  rw [uvmunmap, if_neg (by omega)]
  exact h

/-- How many pages `uvmunmap` frees. -/
theorem length_pageRange_count (va npages : Nat) :
    (pageRange va (va + npages * PGSIZE)).length = npages := by
  rw [length_pageRange]
  unfold PGSIZE
  omega

end Unmap

section Space

variable {kend : Nat} {k k' : Kmem} {pt pt' : Pagetable} {sz oldsz newsz : Nat}

/-- The address space the kernel keeps for a process of size `sz`: a leaf
mapping a page of RAM at every page below `sz`, leaves at `TRAPFRAME` and
`TRAMPOLINE` above them, and no other leaf. -/
structure Maps (kend : Nat) (pt : Pagetable) (sz : Nat) : Prop where
  below : PGROUNDUP sz ≤ TRAPFRAME
  user : ∀ va ∈ pageRange 0 sz, ∃ pte, pt va = some pte ∧ pte.Ok kend
  only : ∀ va, (pt va).isSome → va ∈ pageRange 0 sz ∨ va = TRAMPOLINE ∨ va = TRAPFRAME
  trampoline : ∃ pte, pt TRAMPOLINE = some pte ∧ pte.Leaf
  trapframe : ∃ pte, pt TRAPFRAME = some pte ∧ pte.Leaf

theorem trapframe_mod : TRAPFRAME % PGSIZE = 0 := by decide

theorem trampoline_mod : TRAMPOLINE % PGSIZE = 0 := by decide

theorem trapframe_lt_trampoline : TRAPFRAME < TRAMPOLINE := by decide

theorem trampoline_lt_maxva : TRAMPOLINE < MAXVA := by decide

theorem Maps.isSome_trampoline (h : Maps kend pt sz) : (pt TRAMPOLINE).isSome := by
  obtain ⟨pte, hpte, -⟩ := h.trampoline
  simp [hpte]

theorem Maps.isSome_trapframe (h : Maps kend pt sz) : (pt TRAPFRAME).isSome := by
  obtain ⟨pte, hpte, -⟩ := h.trapframe
  simp [hpte]

/-- The user pages of a process lie below `TRAPFRAME`. -/
theorem Maps.lt_trapframe (h : Maps kend pt sz) {va : Nat} (hva : va ∈ pageRange 0 sz) :
    va < TRAPFRAME := by
  rw [mem_pageRange_zero] at hva
  have := h.below
  have := (lt_pgroundup_iff (a := sz) hva.1).mpr hva.2
  omega

/-- How many user pages a process of size `sz` has. -/
theorem length_pageRange_zero (sz : Nat) : (pageRange 0 sz).length = PGROUNDUP sz / PGSIZE := by
  rw [length_pageRange]
  unfold PGROUNDUP PGSIZE
  omega

/-- Unmapping the pages from `PGROUNDUP newsz` on leaves the address space
of size `newsz`. -/
theorem Maps.shrink (h : Maps kend pt oldsz) (hn : newsz ≤ oldsz) :
    Maps kend (unmapped pt (pageRange (PGROUNDUP newsz) (PGROUNDUP oldsz))) newsz := by
  have hmod := pgroundup_mod (a := newsz)
  have hmono := pgroundup_mono hn
  have hbelow := h.below
  have hup : ∀ va, va ∉ pageRange (PGROUNDUP newsz) (PGROUNDUP oldsz) →
      unmapped pt (pageRange (PGROUNDUP newsz) (PGROUNDUP oldsz)) va = pt va := fun va hva => by
    simp [unmapped, hva]
  -- the two pages above the user pages are past the unmapped range
  have hhigh : ∀ va, TRAPFRAME ≤ va → va ∉ pageRange (PGROUNDUP newsz) (PGROUNDUP oldsz) := by
    intro va hva hmem
    rw [mem_pageRange hmod] at hmem
    omega
  refine ⟨by omega, fun va hva => ?_, fun va hva => ?_, ?_, ?_⟩
  · rw [mem_pageRange_zero] at hva
    have hlt := (lt_pgroundup_iff (a := newsz) hva.1).mpr hva.2
    rw [hup va (by rw [mem_pageRange hmod]; omega)]
    exact h.user va (mem_pageRange_zero.2 ⟨hva.1, by omega⟩)
  · by_cases hmem : va ∈ pageRange (PGROUNDUP newsz) (PGROUNDUP oldsz)
    · simp [unmapped, hmem] at hva
    · rw [hup va hmem] at hva
      rcases h.only va hva with hu | hu | hu
      · left
        rw [mem_pageRange_zero] at hu ⊢
        rw [mem_pageRange hmod] at hmem
        have := (lt_pgroundup_iff (a := oldsz) hu.1).mpr hu.2
        have := (lt_pgroundup_iff (a := newsz) hu.1)
        omega
      · exact .inr (.inl hu)
      · exact .inr (.inr hu)
  · rw [hup _ (hhigh _ (Nat.le_of_lt trapframe_lt_trampoline))]
    exact h.trampoline
  · rw [hup _ (hhigh _ (le_refl _))]
    exact h.trapframe

/-- `uvmdealloc` from an address space of size `oldsz`: the address space
of the new size, the pages above it unmapped and pushed on the free list. -/
theorem uvmdealloc_maps (h : Maps k.kend pt oldsz) (newsz : Nat) :
    ∃ k', uvmdealloc k pt oldsz newsz =
        .ok (k', unmapped pt (pageRange (PGROUNDUP newsz) (PGROUNDUP oldsz)), min oldsz newsz) ∧
      Maps k'.kend (unmapped pt (pageRange (PGROUNDUP newsz) (PGROUNDUP oldsz))) (min oldsz newsz) ∧
      k'.kend = k.kend ∧
      k'.freelist = (frames pt (pageRange (PGROUNDUP newsz) (PGROUNDUP oldsz))).reverse ++
        k.freelist := by
  by_cases hle : oldsz ≤ newsz
  · -- nothing to free
    have hnil : pageRange (PGROUNDUP newsz) (PGROUNDUP oldsz) = [] :=
      pageRange_of_le (pgroundup_mono hle)
    rw [hnil, unmapped_nil, frames_nil, Nat.min_eq_left hle]
    exact ⟨k, by rw [uvmdealloc, if_pos hle], h, rfl, rfl⟩
  · have hlt : newsz < oldsz := by omega
    have hshrink := h.shrink hlt.le
    rw [Nat.min_eq_right hlt.le]
    have hmodn := pgroundup_mod (a := newsz)
    by_cases hpg : PGROUNDUP newsz < PGROUNDUP oldsz
    · -- the pages between the two rounded sizes are mapped, and go
      have hend : PGROUNDUP newsz + (PGROUNDUP oldsz - PGROUNDUP newsz) / PGSIZE * PGSIZE =
          PGROUNDUP oldsz := by
        have hmodo := pgroundup_mod (a := oldsz)
        unfold PGSIZE at *
        omega
      obtain ⟨k', hun, hkend, hfl⟩ := uvmunmap_ok k pt
        ((PGROUNDUP oldsz - PGROUNDUP newsz) / PGSIZE) true hmodn (by
          rw [hend]
          intro a ha
          have ha' : a ∈ pageRange 0 oldsz := by
            rw [mem_pageRange hmodn] at ha
            rw [mem_pageRange_zero]
            exact ⟨ha.1, (lt_pgroundup_iff ha.1).mp ha.2.2⟩
          have := h.lt_trapframe ha'
          obtain ⟨pte, hpte, hok⟩ := h.user a ha'
          exact ⟨by have := trapframe_lt_trampoline; have := trampoline_lt_maxva; omega,
            pte, hpte, hok.2, fun _ => hok.1⟩)
      rw [hend] at hun hfl
      rw [if_pos rfl] at hfl
      refine ⟨k', ?_, hkend ▸ hshrink, hkend, hfl⟩
      rw [uvmdealloc, if_neg hle, if_pos hpg]
      dsimp only
      rw [hun]
      rfl
    · have hnil : pageRange (PGROUNDUP newsz) (PGROUNDUP oldsz) = [] := pageRange_of_le (by omega)
      rw [hnil, unmapped_nil] at hshrink ⊢
      rw [frames_nil]
      exact ⟨k, by rw [uvmdealloc, if_neg hle, if_neg hpg], hshrink, rfl, rfl⟩

/-- `uvmunmap` of one leaf, keeping its page. -/
theorem uvmunmap_one (k : Kmem) {pt : Pagetable} {va : Nat} {pte : Pte} (hva : va % PGSIZE = 0)
    (hmax : va < MAXVA) (hpte : pt va = some pte) (hleaf : pte.Leaf) :
    uvmunmap k pt va 1 false = .ok (k, Function.update pt va none) := by
  have hone : pageRange va (va + 1 * PGSIZE) = [va] := by
    rw [one_mul, pageRange_cons (by unfold PGSIZE; omega), pageRange_of_le (le_refl _)]
  have hstep : unmapPage false (k, pt) va = .ok (k, Function.update pt va none) := by
    rw [unmapPage, if_neg (Nat.not_le.mpr hmax)]
    simp only [hpte, if_neg hleaf.ne_v]
    rfl
  rw [uvmunmap, if_neg (by omega), hone, List.foldlM_cons, hstep]
  rfl

/-- `uvmfree` of an address space whose only leaves are its user pages:
they go on the free list, and `freewalk` finds no leaf left. -/
theorem uvmfree_ok (k : Kmem) (pt : Pagetable) (sz : Nat)
    (huser : ∀ va ∈ pageRange 0 sz, va < MAXVA ∧ ∃ pte, pt va = some pte ∧ pte.Ok k.kend)
    (honly : ∀ va, (pt va).isSome → va ∈ pageRange 0 sz) :
    ∃ k', uvmfree k pt sz = .ok k' ∧ k'.kend = k.kend ∧
      k'.freelist = (frames pt (pageRange 0 sz)).reverse ++ k.freelist := by
  -- with the user pages unmapped, no leaf is left
  have hfw : freewalk (unmapped pt (pageRange 0 sz)) = .ok () := by
    rw [freewalk, if_neg]
    rintro ⟨va, -, hva⟩
    by_cases hmem : va ∈ pageRange 0 sz
    · simp [unmapped, hmem] at hva
    · simp only [unmapped, if_neg hmem] at hva
      exact hmem (honly va hva)
  unfold uvmfree
  by_cases hsz : 0 < sz
  · have hend : 0 + PGROUNDUP sz / PGSIZE * PGSIZE = PGROUNDUP sz := by
      have := pgroundup_mod (a := sz)
      unfold PGSIZE at *
      omega
    obtain ⟨k', hun, hkend, hfl⟩ := uvmunmap_ok k pt (PGROUNDUP sz / PGSIZE) true (Nat.zero_mod _)
      (by
        rw [hend, pageRange_pgroundup (Nat.zero_mod _)]
        intro a ha
        obtain ⟨hmax, pte, hpte, hok⟩ := huser a ha
        exact ⟨hmax, pte, hpte, hok.2, fun _ => hok.1⟩)
    rw [hend, pageRange_pgroundup (Nat.zero_mod _)] at hun hfl
    rw [if_pos rfl] at hfl
    refine ⟨k', ?_, hkend, hfl⟩
    rw [if_pos hsz, hun, except_ok_bind]
    dsimp only
    rw [hfw, except_ok_bind]
    rfl
  · have hnil : pageRange 0 sz = [] := pageRange_of_le (by omega)
    rw [hnil, unmapped_nil] at hfw
    refine ⟨k, ?_, rfl, by rw [hnil, frames_nil]; rfl⟩
    rw [if_neg hsz, pure_bind]
    dsimp only
    rw [hfw, except_ok_bind]
    rfl

/-- `proc_freepagetable` of a process's address space: it frees the user
pages, keeps the trampoline and trapframe pages, and panics nowhere. -/
theorem procFreepagetable_maps (h : Maps k.kend pt sz) :
    ∃ k', procFreepagetable k pt sz = .ok k' ∧ k'.kend = k.kend ∧
      k'.freelist = (frames pt (pageRange 0 sz)).reverse ++ k.freelist := by
  obtain ⟨pte₁, hpte₁, hleaf₁⟩ := h.trampoline
  obtain ⟨pte₂, hpte₂, hleaf₂⟩ := h.trapframe
  have hne : TRAPFRAME ≠ TRAMPOLINE := Nat.ne_of_lt trapframe_lt_trampoline
  have hmax₂ : TRAPFRAME < MAXVA := Nat.lt_trans trapframe_lt_trampoline trampoline_lt_maxva
  -- after the two `uvmunmap`s, what is left are the user pages
  have hkeep : ∀ va ∈ pageRange 0 sz,
      Function.update (Function.update pt TRAMPOLINE none) TRAPFRAME none va = pt va := by
    intro va hva
    have := h.lt_trapframe hva
    have := trapframe_lt_trampoline
    rw [Function.update_of_ne (by omega), Function.update_of_ne (by omega)]
  obtain ⟨k', hfree, hkend, hfl⟩ :=
    uvmfree_ok k (Function.update (Function.update pt TRAMPOLINE none) TRAPFRAME none) sz
      (fun va hva => by
        rw [hkeep va hva]
        have := h.lt_trapframe hva
        exact ⟨by omega, h.user va hva⟩)
      (fun va hva => by
        by_cases h₂ : va = TRAPFRAME
        · simp [h₂] at hva
        · by_cases h₁ : va = TRAMPOLINE
          · simp [h₁, hne.symm] at hva
          · rw [Function.update_of_ne h₂, Function.update_of_ne h₁] at hva
            rcases h.only va hva with hu | hu | hu
            · exact hu
            · exact absurd hu h₁
            · exact absurd hu h₂)
  refine ⟨k', ?_, hkend, by rw [hfl, frames_congr hkeep]⟩
  rw [procFreepagetable, uvmunmap_one k trampoline_mod trampoline_lt_maxva hpte₁ hleaf₁]
  show (do
      let (k, pt) ← uvmunmap k (Function.update pt TRAMPOLINE none) TRAPFRAME 1 false
      uvmfree k pt sz) = _
  rw [uvmunmap_one k trapframe_mod hmax₂ (by rw [Function.update_of_ne hne]; exact hpte₂) hleaf₂]
  exact hfree

end Space

section Grow

variable {good : Nat → Pte → Kmem → Prop} {k0 k k₁ k' : Kmem} {pt0 pt pt' : Pagetable}
  {done : List Nat}

/-- Where the loop of `uvmalloc` or `uvmcopy` has got to: it mapped a leaf
to a page of RAM at each page of `done`, where `pt0` had none, each `good`,
and left the rest of `pt0` alone; the free list is what it was less the
pages it mapped. -/
structure Grown (good : Nat → Pte → Kmem → Prop) (k0 : Kmem) (pt0 : Pagetable) (done : List Nat)
    (k : Kmem) (pt : Pagetable) : Prop where
  fresh : ∀ va ∈ done, va < MAXVA ∧ pt0 va = none ∧
    ∃ pte, pt va = some pte ∧ pte.Ok k.kend ∧ good va pte k
  rest : ∀ va, va ∉ done → pt va = pt0 va
  kend : k.kend = k0.kend
  free : k0.freelist.Perm (frames pt done ++ k.freelist)

theorem grown_nil (good : Nat → Pte → Kmem → Prop) (k0 : Kmem) (pt0 : Pagetable) :
    Grown good k0 pt0 [] k0 pt0 :=
  ⟨fun _ h => absurd h List.not_mem_nil, fun _ _ => rfl, rfl, by rw [frames_nil, List.nil_append]⟩

/-- The loop maps one more page, at `a`, where nothing was mapped, with the
page it took off the head of the free list. -/
theorem Grown.map (h : Grown good k0 pt0 done k pt) {a : Nat} (ha : a ∉ done) (hmax : a < MAXVA)
    (hpt : pt a = none) {pte : Pte} (hok : pte.Ok k'.kend) (hgood : good a pte k')
    (hkeep : ∀ va pte', good va pte' k → good va pte' k') (hkend : k'.kend = k.kend)
    (hfree : k.freelist = pte.pa :: k'.freelist) :
    Grown good k0 pt0 (done ++ [a]) k' (Function.update pt a (some pte)) := by
  refine ⟨fun va hva => ?_, fun va hva => ?_, hkend.trans h.kend, ?_⟩
  · by_cases hvaa : va = a
    · subst hvaa
      exact ⟨hmax, (h.rest va ha).symm.trans hpt, pte, Function.update_self .., hok, hgood⟩
    · have hd : va ∈ done := by simpa [hvaa] using hva
      obtain ⟨hm, h0, pte', hpte', hok', hgood'⟩ := h.fresh va hd
      exact ⟨hm, h0, pte', by rw [Function.update_of_ne hvaa, hpte'], hkend ▸ hok', hkeep _ _ hgood'⟩
  · have hvaa : va ≠ a := fun e => hva (by simp [e])
    rw [Function.update_of_ne hvaa]
    exact h.rest va (fun hd => hva (List.mem_append_left _ hd))
  · -- the page taken off the free list is the one now mapped at `a`
    have hframes : frames (Function.update pt a (some pte)) (done ++ [a]) =
        frames pt done ++ [pte.pa] := by
      rw [frames_append,
        frames_congr fun va hva => Function.update_of_ne (fun (e : va = a) => ha (e ▸ hva)) _ _]
      simp [frames]
    rw [hframes, List.append_assoc, List.singleton_append, ← hfree]
    exact h.free

/-- The free list may change without touching what the loop mapped, when
nothing more is asked of the mapped pages. -/
theorem Grown.forget (h : Grown good k0 pt0 done k pt) (hkend : k'.kend = k.kend)
    (hfree : k'.freelist.Perm k.freelist) : Grown (fun _ _ _ => True) k0 pt0 done k' pt := by
  refine ⟨fun va hva => ?_, h.rest, hkend.trans h.kend, h.free.trans (hfree.symm.append_left _)⟩
  obtain ⟨hm, h0, pte, hpte, hok, -⟩ := h.fresh va hva
  exact ⟨hm, h0, pte, hpte, hkend ▸ hok, trivial⟩

/-- A pass that got a page from `kalloc`, filled it with `b` and mapped it
at `a` with `perm`: one more page done. -/
theorem Grown.alloc (h : Grown good k0 pt0 done k pt) {a mem perm : Nat} {b : UInt8} {w : Bool}
    (hk : kalloc k = (k₁, mem)) (hmem : mem ≠ 0) (ha : a ∉ done)
    (hm : mappage pt a mem perm w = .ok (some pt')) (hleaf : Pte.Leaf ⟨mem, perm ||| PTE_V⟩)
    (hgood : good a ⟨mem, perm ||| PTE_V⟩ (fillPage k₁ mem b))
    (hkeep : ∀ va pte, good va pte k → good va pte (fillPage k₁ mem b)) :
    Grown good k0 pt0 (done ++ [a]) (fillPage k₁ mem b) pt' := by
  obtain ⟨hfl, hok, -, hkend⟩ := kalloc_of_ne_zero hk hmem
  obtain ⟨hmax, hpt, rfl⟩ := mappage_some hm
  refine h.map ha hmax hpt ⟨?_, hleaf⟩ hgood hkeep (by rw [fillPage_kend, hkend])
    (by rw [fillPage_freelist, hfl])
  rw [fillPage_kend, hkend]
  exact hok

/-- A pass whose `mappages` failed: `kfree` puts the page back. -/
theorem Grown.unalloc (h : Grown good k0 pt0 done k pt) {mem : Nat} {b : UInt8}
    (hk : kalloc k = (k₁, mem)) (hmem : mem ≠ 0) :
    ∃ k₃, kfree (fillPage k₁ mem b) mem = .ok k₃ ∧ Grown (fun _ _ _ => True) k0 pt0 done k₃ pt := by
  obtain ⟨hfl, hok, -, hkend⟩ := kalloc_of_ne_zero hk hmem
  obtain ⟨k₃, hkf, hfl₃, -, hkend₃⟩ :=
    kfree_of_ok (k := fillPage k₁ mem b) (by rw [fillPage_kend, hkend]; exact hok)
  refine ⟨k₃, hkf, h.forget (by rw [hkend₃, fillPage_kend, hkend]) ?_⟩
  rw [hfl₃, fillPage_freelist, hfl]

/-- Undoing the loop from `a0` to `a`: `uvmunmap` of its pages gives back
`pt0` and the free pages. -/
theorem Grown.unmap {a0 a : Nat} (h : Grown (fun _ _ _ => True) k0 pt0 (pageRange a0 a) k pt)
    (ha0 : a0 % PGSIZE = 0) (ha : a % PGSIZE = 0) (hle : a0 ≤ a) :
    ∃ k', uvmunmap k pt a0 ((a - a0) / PGSIZE) true = .ok (k', pt0) ∧ k'.kend = k0.kend ∧
      k'.freelist.Perm k0.freelist := by
  have hend : a0 + (a - a0) / PGSIZE * PGSIZE = a := by
    unfold PGSIZE at *
    omega
  obtain ⟨k', hun, hkend, hfl⟩ := uvmunmap_ok k pt ((a - a0) / PGSIZE) true ha0 (by
      rw [hend]
      intro va hva
      obtain ⟨hm, -, pte, hpte, hok, -⟩ := h.fresh va hva
      exact ⟨hm, pte, hpte, hok.2, fun _ => hok.1⟩)
  rw [hend] at hun hfl
  have hpt : unmapped pt (pageRange a0 a) = pt0 := by
    funext va
    by_cases hva : va ∈ pageRange a0 a
    · simp [unmapped, hva, (h.fresh va hva).2.1]
    · simp [unmapped, hva, h.rest va hva]
  refine ⟨k', by rw [hun, hpt], hkend.trans h.kend, ?_⟩
  -- the pages go back in the reverse of the order they were taken
  rw [hfl, if_pos rfl]
  exact ((List.reverse_perm _).append_right _).trans h.free.symm

/-- `uvmalloc`'s undoing, `uvmdealloc(pagetable, a, a0)`, of a loop that
mapped the pages from `PGROUNDUP a0` up to `a`: the page table and the free
pages as they were. -/
theorem Grown.dealloc {a0 a : Nat}
    (h : Grown (fun _ _ _ => True) k0 pt0 (pageRange (PGROUNDUP a0) a) k pt) :
    ∃ k', uvmdealloc k pt a a0 = .ok (k', pt0, min a a0) ∧ k'.kend = k0.kend ∧
      k'.freelist.Perm k0.freelist := by
  have hmod := pgroundup_mod (a := a0)
  by_cases hpg : PGROUNDUP a0 < PGROUNDUP a
  · -- the pages between the rounded sizes are the loop's
    have hlt : a0 < a := by
      by_contra hle
      have := pgroundup_mono (Nat.not_lt.mp hle)
      omega
    rw [← pageRange_pgroundup hmod] at h
    obtain ⟨k', hun, hkend, hfree⟩ := h.unmap hmod pgroundup_mod hpg.le
    refine ⟨k', ?_, hkend, hfree⟩
    rw [uvmdealloc, if_neg (by omega), if_pos hpg, Nat.min_eq_right hlt.le]
    dsimp only
    rw [hun]
    rfl
  · -- the loop mapped nothing
    have hnil : pageRange (PGROUNDUP a0) a = [] := by
      rw [← pageRange_pgroundup hmod]
      exact pageRange_of_le (by omega)
    have hpt : pt = pt0 := funext fun va => h.rest va (by rw [hnil]; exact List.not_mem_nil)
    have hfree := h.free
    rw [hnil, frames_nil, List.nil_append] at hfree
    refine ⟨k, ?_, h.kend, hfree.symm⟩
    rw [uvmdealloc, hpt]
    by_cases hle : a ≤ a0
    · rw [if_pos hle, Nat.min_eq_left hle]
    · rw [if_neg hle, if_neg hpg, Nat.min_eq_right (by omega)]

/-- What `uvmalloc` maps: a page of zeros the user may read, write and
execute. -/
def Zeroed (_ : Nat) (pte : Pte) (k : Kmem) : Prop :=
  pte.flags = PTE_W ||| PTE_X ||| PTE_R ||| PTE_U ||| PTE_V ∧ k.fill pte.pa = 0

theorem Pte.leaf_rwxu (pa : Nat) : Pte.Leaf ⟨pa, PTE_W ||| PTE_X ||| PTE_R ||| PTE_U ||| PTE_V⟩ := by
  show (PTE_W ||| PTE_X ||| PTE_R ||| PTE_U ||| PTE_V) &&& (PTE_R ||| PTE_W ||| PTE_X) ≠ 0
  decide

/-- `uvmalloc`'s loop from page `a` to `b`, having mapped the pages from `a0`
to `a`: it maps the rest, or undoes all it mapped; it panics only at a page
of the rest past `MAXVA` or mapped already. -/
theorem uvmallocLoop_spec (walkOk : Nat → Bool) {a0 b : Nat} (ha0 : a0 % PGSIZE = 0) :
    ∀ (n a : Nat) (k : Kmem) (pt : Pagetable),
      (pageRange a b).length = n → a % PGSIZE = 0 → a0 ≤ a →
      Grown Zeroed k0 pt0 (pageRange a0 a) k pt →
      Outcome (fun r =>
          (r.2.2 = true ∧ Grown Zeroed k0 pt0 (pageRange a0 (a + n * PGSIZE)) r.1 r.2.1) ∨
          (r.2.2 = false ∧ r.2.1 = pt0 ∧ r.1.kend = k0.kend ∧ r.1.freelist.Perm k0.freelist))
        (∃ va ∈ pageRange a b, MAXVA ≤ va ∨ (pt0 va).isSome)
        (uvmallocLoop a0 walkOk (pageRange a b) k pt) := by
  intro n
  induction n with
  | zero =>
      intro a k pt hn _ _ hg
      rw [List.length_eq_zero_iff.mp hn, uvmallocLoop]
      exact Or.inl ⟨rfl, by simpa using hg⟩
  | succ n ih =>
      intro a k pt hn ha hle hg
      have hab : a < b := by
        by_contra hba
        rw [pageRange_of_le (by omega)] at hn
        cases hn
      have hn' : (pageRange (a + PGSIZE) b).length = n := by
        have h := congrArg List.length (pageRange_cons hab)
        rw [List.length_cons] at h
        omega
      have hnot : a ∉ pageRange a0 a := by
        rw [mem_pageRange ha0]
        omega
      -- a failed pass undoes the loop with `uvmdealloc(pagetable, a, oldsz)`
      have hundo : ∀ {k' : Kmem}, Grown (fun _ _ _ => True) k0 pt0 (pageRange a0 a) k' pt →
          ∃ k'', uvmdealloc k' pt a a0 = .ok (k'', pt0, min a a0) ∧ k''.kend = k0.kend ∧
            k''.freelist.Perm k0.freelist := fun hg' =>
        Grown.dealloc (by rwa [pgroundup_of_mod ha0])
      rw [pageRange_cons hab, uvmallocLoop]
      rcases hk : kalloc k with ⟨k₁, mem⟩
      dsimp only
      by_cases hmem : mem = 0
      · -- out of memory
        subst hmem
        obtain ⟨rfl, -⟩ := kalloc_of_zero hk
        obtain ⟨k', hd, hkend, hfree⟩ := hundo (hg.forget rfl (List.Perm.refl _))
        rw [if_pos rfl, hd]
        exact Or.inr ⟨rfl, rfl, hkend, hfree⟩
      · rw [if_neg hmem]
        cases hm : mappage pt a mem (PTE_W ||| PTE_X ||| PTE_R ||| PTE_U) (walkOk a) with
        | error e =>
            refine outcome_of_error ⟨a, List.mem_cons_self, ?_⟩
            rw [← hg.rest a hnot]
            exact mappage_error hm
        | ok o =>
            cases o with
            | none =>
                -- `walk` could not map it: the page goes back, and the loop is undone
                obtain ⟨k₃, hkf, hg₃⟩ := hg.unalloc (b := 0) hk hmem
                obtain ⟨k', hd, hkend, hfree⟩ := hundo hg₃
                dsimp only
                rw [hkf]
                change Outcome _ _ ((uvmdealloc k₃ pt a a0).map _)
                rw [hd]
                exact Or.inr ⟨rfl, rfl, hkend, hfree⟩
            | some pt' =>
                -- the page is mapped: go on from the next one
                have hfill := (kalloc_of_ne_zero hk hmem).2.2.1
                have hg' := hg.alloc (b := 0) hk hmem hnot hm (Pte.leaf_rwxu mem) ⟨rfl, by simp⟩
                  (fun va pte hz => ⟨hz.1, by
                    by_cases hpa : pte.pa = mem
                    · simp [hpa]
                    · simp [hpa, hfill, hz.2]⟩)
                rw [← pageRange_snoc ha0 ha hle] at hg'
                have ha' : (a + PGSIZE) % PGSIZE = 0 := by
                  rw [Nat.add_mod_right]
                  exact ha
                have hend : a + (n + 1) * PGSIZE = a + PGSIZE + n * PGSIZE := by ring
                rw [hend]
                refine (ih (a + PGSIZE) _ _ hn' ha' (by omega) hg').mono (fun _ h => h) ?_
                rintro ⟨va, hva, hbad⟩
                exact ⟨va, List.mem_cons_of_mem a hva, hbad⟩

/-- What `uvmcopy` maps at `va`: a leaf with the flags of the parent's. -/
def Copied (old : Pagetable) (va : Nat) (pte : Pte) (_ : Kmem) : Prop :=
  ∃ pte0, old va = some pte0 ∧ pte.flags = pte0.flags ||| PTE_V

/-- `uvmcopy`'s loop from page `a` to `sz`, having copied the pages below
`a`: it copies the rest, or unmaps and frees all it mapped; it panics only
at a page of the rest past `MAXVA`, missing in the parent, or mapped in the
child already. -/
theorem uvmcopyLoop_spec (old : Pagetable) (walkOk : Nat → Bool) (sz : Nat) :
    ∀ (n a : Nat) (k : Kmem) (new : Pagetable),
      (pageRange a sz).length = n → a % PGSIZE = 0 →
      (∀ va ∈ pageRange a sz, ∀ pte, old va = some pte → pte.Leaf) →
      Grown (Copied old) k0 pt0 (pageRange 0 a) k new →
      Outcome (fun r =>
          (r.2.2 = true ∧ Grown (Copied old) k0 pt0 (pageRange 0 (a + n * PGSIZE)) r.1 r.2.1) ∨
          (r.2.2 = false ∧ r.2.1 = pt0 ∧ r.1.kend = k0.kend ∧ r.1.freelist.Perm k0.freelist))
        (∃ va ∈ pageRange a sz, MAXVA ≤ va ∨ old va = none ∨ (pt0 va).isSome)
        (uvmcopyLoop old walkOk (pageRange a sz) k new) := by
  intro n
  induction n with
  | zero =>
      intro a k new hn _ _ hg
      rw [List.length_eq_zero_iff.mp hn, uvmcopyLoop]
      exact Or.inl ⟨rfl, by simpa using hg⟩
  | succ n ih =>
      intro a k new hn ha hleaf hg
      have hab : a < sz := by
        by_contra hba
        rw [pageRange_of_le (by omega)] at hn
        cases hn
      have hn' : (pageRange (a + PGSIZE) sz).length = n := by
        have h := congrArg List.length (pageRange_cons hab)
        rw [List.length_cons] at h
        omega
      have hnot : a ∉ pageRange 0 a := by
        rw [mem_pageRange_zero]
        omega
      -- a failed pass undoes the loop with `uvmunmap(new, 0, i / PGSIZE, 1)`
      have hundo : ∀ {k' : Kmem}, Grown (fun _ _ _ => True) k0 pt0 (pageRange 0 a) k' new →
          ∃ k'', uvmunmap k' new 0 (a / PGSIZE) true = .ok (k'', pt0) ∧ k''.kend = k0.kend ∧
            k''.freelist.Perm k0.freelist := fun hg' => by
        simpa using hg'.unmap (Nat.zero_mod _) ha (Nat.zero_le _)
      rw [pageRange_cons hab] at hleaf ⊢
      rw [uvmcopyLoop]
      by_cases hmax : MAXVA ≤ a
      · rw [if_pos hmax]
        exact outcome_of_error ⟨a, List.mem_cons_self, .inl hmax⟩
      rw [if_neg hmax]
      cases hold : old a with
      | none => exact outcome_of_error ⟨a, List.mem_cons_self, .inr (.inl hold)⟩
      | some pte0 =>
          dsimp only
          rcases hk : kalloc k with ⟨k₁, mem⟩
          dsimp only
          by_cases hmem : mem = 0
          · -- out of memory
            subst hmem
            obtain ⟨rfl, -⟩ := kalloc_of_zero hk
            obtain ⟨k', hun, hkend, hfree⟩ := hundo (hg.forget rfl (List.Perm.refl _))
            rw [if_pos rfl, hun]
            exact Or.inr ⟨rfl, rfl, hkend, hfree⟩
          · rw [if_neg hmem]
            cases hm : mappage new a mem pte0.flags (walkOk a) with
            | error e =>
                refine outcome_of_error ⟨a, List.mem_cons_self, .inr (.inr ?_)⟩
                rw [← hg.rest a hnot]
                exact (mappage_error hm).resolve_left hmax
            | ok o =>
                cases o with
                | none =>
                    obtain ⟨k₃, hkf, hg₃⟩ := hg.unalloc (b := k₁.fill pte0.pa) hk hmem
                    obtain ⟨k', hun, hkend, hfree⟩ := hundo hg₃
                    dsimp only
                    rw [hkf]
                    change Outcome _ _ ((uvmunmap k₃ new 0 (a / PGSIZE) true).map _)
                    rw [hun]
                    exact Or.inr ⟨rfl, rfl, hkend, hfree⟩
                | some new' =>
                    have hg' := hg.alloc (b := k₁.fill pte0.pa) hk hmem hnot hm
                      (Pte.leaf_or_v (hleaf a List.mem_cons_self pte0 hold)) ⟨pte0, hold, rfl⟩
                      (fun _ _ h => h)
                    rw [← pageRange_snoc (Nat.zero_mod _) ha (Nat.zero_le _)] at hg'
                    have ha' : (a + PGSIZE) % PGSIZE = 0 := by
                      rw [Nat.add_mod_right]
                      exact ha
                    have hend : a + (n + 1) * PGSIZE = a + PGSIZE + n * PGSIZE := by ring
                    rw [hend]
                    refine (ih (a + PGSIZE) _ _ hn' ha'
                      (fun va hva => hleaf va (List.mem_cons_of_mem a hva)) hg').mono
                      (fun _ h => h) ?_
                    rintro ⟨va, hva, hbad⟩
                    exact ⟨va, List.mem_cons_of_mem a hva, hbad⟩

section Spec

variable {k k' : Kmem} {pt pt' : Pagetable} {oldsz newsz sz : Nat} {walkOk : Nat → Bool}

/-- Mapping the pages from `PGROUNDUP oldsz` to `newsz` where nothing was
mapped grows the address space to `newsz`. -/
theorem Maps.grow {good : Nat → Pte → Kmem → Prop} (hm : Maps k.kend pt oldsz) (hle : oldsz ≤ newsz)
    (hg : Grown good k pt (pageRange (PGROUNDUP oldsz) newsz) k' pt') : Maps k'.kend pt' newsz := by
  have hmod := pgroundup_mod (a := oldsz)
  have hbelow := hm.below
  -- a page mapped before is not one the loop mapped
  have hold : ∀ va, (pt va).isSome → va ∉ pageRange (PGROUNDUP oldsz) newsz := fun va hva hmem => by
    simp [(hg.fresh va hmem).2.1] at hva
  have htf := hold _ hm.isSome_trapframe
  rw [mem_pageRange hmod] at htf
  have hnew : newsz ≤ TRAPFRAME := by
    have := trapframe_mod
    omega
  refine ⟨pgroundup_le trapframe_mod hnew, fun va hva => ?_, fun va hva => ?_, ?_, ?_⟩
  · by_cases hmem : va ∈ pageRange (PGROUNDUP oldsz) newsz
    · obtain ⟨-, -, pte, hpte, hok, -⟩ := hg.fresh va hmem
      exact ⟨pte, hpte, hok⟩
    · rw [mem_pageRange_zero] at hva
      rw [mem_pageRange hmod] at hmem
      have hlt : va < oldsz := (lt_pgroundup_iff hva.1).mp (by omega)
      obtain ⟨pte, hpte, hok⟩ := hm.user va (mem_pageRange_zero.2 ⟨hva.1, hlt⟩)
      refine ⟨pte, ?_, hg.kend ▸ hok⟩
      rw [hg.rest va (by rw [mem_pageRange hmod]; omega), hpte]
  · by_cases hmem : va ∈ pageRange (PGROUNDUP oldsz) newsz
    · rw [mem_pageRange hmod] at hmem
      exact .inl (mem_pageRange_zero.2 ⟨hmem.1, hmem.2.2⟩)
    · rw [hg.rest va hmem] at hva
      rcases hm.only va hva with hu | hu | hu
      · rw [mem_pageRange_zero] at hu ⊢
        exact .inl ⟨hu.1, by omega⟩
      · exact .inr (.inl hu)
      · exact .inr (.inr hu)
  · rw [hg.rest _ (hold _ hm.isSome_trampoline)]
    exact hm.trampoline
  · rw [hg.rest _ (hold _ hm.isSome_trapframe)]
    exact hm.trapframe

/-- `uvmalloc`: it returns `0` with the page table and the free pages as
they were, or `max oldsz newsz` with the pages from `PGROUNDUP oldsz` up to
it mapped, zeroed, where nothing was mapped; it panics only at a page of the
range past `MAXVA` or mapped already. -/
theorem uvmalloc_spec (k : Kmem) (pt : Pagetable) (oldsz newsz : Nat) (walkOk : Nat → Bool) :
    Outcome (fun res : Kmem × Pagetable × Nat =>
        (res.2.2 = 0 ∧ res.2.1 = pt ∧ res.1.kend = k.kend ∧ res.1.freelist.Perm k.freelist) ∨
        (res.2.2 = max oldsz newsz ∧ 0 < res.2.2 ∧
          Grown Zeroed k pt (pageRange (PGROUNDUP oldsz) res.2.2) res.1 res.2.1))
      (∃ va ∈ pageRange (PGROUNDUP oldsz) newsz, MAXVA ≤ va ∨ (pt va).isSome)
      (uvmalloc k pt oldsz newsz walkOk) := by
  unfold uvmalloc
  by_cases hlt : newsz < oldsz
  · -- nothing to grow
    rw [if_pos hlt, outcome_ok]
    dsimp only
    refine Or.inr ⟨(Nat.max_eq_left hlt.le).symm, by omega, ?_⟩
    rw [pageRange_of_le le_pgroundup]
    exact grown_nil _ _ _
  · rw [if_neg hlt]
    dsimp only
    have hmod := pgroundup_mod (a := oldsz)
    have hstart : Grown Zeroed k pt (pageRange (PGROUNDUP oldsz) (PGROUNDUP oldsz)) k pt := by
      rw [pageRange_of_le (le_refl _)]
      exact grown_nil _ _ _
    have hloop := uvmallocLoop_spec walkOk (b := newsz) hmod _ _ k pt rfl hmod
      (le_refl _) hstart
    rw [pageRange_end] at hloop
    -- `uvmalloc` reads the loop's flag
    rw [outcome_map]
    refine hloop.mono (fun res hres => ?_) id
    obtain ⟨k', pt', flag⟩ := res
    dsimp only at hres ⊢
    rcases hres with ⟨rfl, hg⟩ | ⟨rfl, hpt, hkend, hfree⟩
    · -- the loop mapped every page
      rw [if_pos rfl]
      by_cases hz : newsz = 0
      · -- growing to `0` maps nothing, and reads as a failure
        subst hz
        have hnil : pageRange (PGROUNDUP oldsz) 0 = [] := pageRange_of_le (Nat.zero_le _)
        rw [hnil] at hg
        have hfree := hg.free
        rw [frames_nil, List.nil_append] at hfree
        exact Or.inl ⟨rfl, funext fun va => hg.rest va (by simp), hg.kend, hfree.symm⟩
      · exact Or.inr ⟨(Nat.max_eq_right (by omega)).symm, by omega, hg⟩
    · rw [if_neg Bool.false_ne_true]
      exact Or.inl ⟨rfl, hpt, hkend, hfree⟩

/-- `uvmalloc` from an address space of size `oldsz`: as `uvmalloc_spec`
says, and the address space of the size it returns; it panics only when
asked to grow past `TRAPFRAME`. -/
theorem uvmalloc_maps (hm : Maps k.kend pt oldsz) (newsz : Nat) (walkOk : Nat → Bool) :
    Outcome (fun res : Kmem × Pagetable × Nat =>
        (res.2.2 = 0 ∧ res.2.1 = pt ∧ res.1.kend = k.kend ∧ res.1.freelist.Perm k.freelist) ∨
        (res.2.2 = max oldsz newsz ∧ 0 < res.2.2 ∧ Maps res.1.kend res.2.1 res.2.2 ∧
          Grown Zeroed k pt (pageRange (PGROUNDUP oldsz) res.2.2) res.1 res.2.1))
      (TRAPFRAME < newsz) (uvmalloc k pt oldsz newsz walkOk) := by
  refine (uvmalloc_spec k pt oldsz newsz walkOk).mono (fun res h => ?_) ?_
  · rcases h with h | ⟨hr, hpos, hg⟩
    · exact .inl h
    · exact .inr ⟨hr, hpos, hm.grow (by omega) hg, hg⟩
  · -- above the user pages only `TRAPFRAME` and `TRAMPOLINE` are mapped
    rintro ⟨va, hva, hbad⟩
    rw [mem_pageRange pgroundup_mod] at hva
    have := trapframe_lt_trampoline
    have := trampoline_lt_maxva
    rcases hbad with hbad | hbad
    · omega
    · rcases hm.only va hbad with hu | hu | hu
      · rw [mem_pageRange_zero] at hu
        have := (lt_pgroundup_iff (a := oldsz) hu.1).mpr hu.2
        omega
      · omega
      · omega

/-- One free page, the top page of RAM, above a kernel image that ends at
`KERNBASE`. -/
def onePage : Kmem := ⟨[PHYSTOP - PGSIZE], fun _ => 0, KERNBASE, le_refl _, by decide⟩

/-- `uvmcopy` of a process of size `sz` into the fresh page table of a
child, which maps only `TRAMPOLINE` and `TRAPFRAME`: it panics nowhere, and
either gives the child the address space of size `sz`, or returns `-1` with
the child's page table and the free pages as they were. -/
theorem uvmcopy_maps (hold : Maps k.kend pt sz) {new : Pagetable} (hnew : Maps k.kend new 0) :
    ∃ r, uvmcopy k pt new sz walkOk = .ok r ∧
      ((r.2.2 = true ∧ Maps r.1.kend r.2.1 sz ∧ r.1.kend = k.kend) ∨
        (r.2.2 = false ∧ r.2.1 = new ∧ r.1.kend = k.kend ∧ r.1.freelist.Perm k.freelist)) := by
  have hstart : Grown (Copied pt) k new (pageRange 0 0) k new := by
    rw [pageRange_of_le (le_refl _)]
    exact grown_nil _ _ _
  have hloop := uvmcopyLoop_spec pt walkOk sz _ 0 k new rfl (Nat.zero_mod _)
    (fun va hva pte hpte => by
      obtain ⟨pte', hpte', hok⟩ := hold.user va hva
      rw [hpte] at hpte'
      cases hpte'
      exact hok.2)
    hstart
  rw [pageRange_end] at hloop
  -- the parent's pages are all there, below `TRAPFRAME`, where the child maps nothing
  obtain ⟨r, hr, hpost⟩ := hloop.exists_ok (by
    rintro ⟨va, hva, hbad⟩
    have hlt := hold.lt_trapframe hva
    have := trapframe_lt_trampoline
    have := trampoline_lt_maxva
    rcases hbad with hbad | hbad | hbad
    · omega
    · obtain ⟨pte, hpte, -⟩ := hold.user va hva
      rw [hpte] at hbad
      cases hbad
    · rcases hnew.only va hbad with hu | hu | hu
      · rw [pageRange_of_le (le_refl _)] at hu
        cases hu
      · omega
      · omega)
  refine ⟨r, hr, ?_⟩
  rcases hpost with ⟨hok, hg⟩ | hfail
  · have hg' : Grown (Copied pt) k new (pageRange (PGROUNDUP 0) sz) r.1 r.2.1 := by
      rwa [pgroundup_of_mod (Nat.zero_mod _)]
    exact .inl ⟨hok, hnew.grow (Nat.zero_le _) hg', hg.kend⟩
  · exact .inr hfail

end Spec

end Grow

end Vm

namespace Kernel

open Vm

/-- `growproc(n)` for the process with page table `pt` and `p->sz = psz`:
the new page table, `p->sz` and the result.  `sz` is a `uint`, so `p->sz`
is cut to 32 bits and `sz + n` is computed in 32 bits. -/
def growproc (k : Kmem) (pt : Pagetable) (psz : Nat) (n : Int32) (walkOk : Nat → Bool) :
    Except String (Kmem × Pagetable × Nat × Int) :=
  let sz : UInt32 := UInt32.ofNat psz
  if 0 < n then
    match uvmalloc k pt sz.toNat (sz + n.toUInt32).toNat walkOk with
    | .error e => .error e
    | .ok (k, pt, r) =>
        let sz : UInt32 := UInt32.ofNat r
        if sz = 0 then .ok (k, pt, psz, -1) else .ok (k, pt, sz.toNat, 0)
  else if n < 0 then
    (uvmdealloc k pt sz.toNat (sz + n.toUInt32).toNat).map fun r =>
      (r.1, r.2.1, (UInt32.ofNat r.2.2).toNat, 0)
  else .ok (k, pt, sz.toNat, 0)

/-- `sys_sbrk()` with argument `n`: the old `p->sz` as an `int`, or `-1`. -/
def sysSbrk (k : Kmem) (pt : Pagetable) (psz : Nat) (n : Int32) (walkOk : Nat → Bool) :
    Except String (Kmem × Pagetable × Nat × Int) :=
  let addr : Int32 := Int32.ofNat psz
  match growproc k pt psz n walkOk with
  | .error e => .error e
  | .ok (k, pt, sz, r) => if r < 0 then .ok (k, pt, sz, -1) else .ok (k, pt, sz, addr.toInt)

section Growproc

variable {k : Kmem} {pt : Pagetable} {psz : Nat} {n : Int32} {walkOk : Nat → Bool}

/-- An `int` converted to `unsigned`: a negative `n` becomes `n + 2^32`. -/
theorem toNat_toUInt32 (n : Int32) :
    (n.toUInt32.toNat : Int) = if n.toInt < 0 then n.toInt + 2 ^ 32 else n.toInt := by
  have hcond := BitVec.toInt_eq_toNat_cond n.toBitVec
  have hlt := n.toBitVec.isLt
  have hnat : n.toUInt32.toNat = n.toBitVec.toNat := by
    rw [← UInt32.toNat_toBitVec, Int32.toBitVec_toUInt32]
  rw [Int32.toInt_toBitVec] at hcond
  rw [hnat]
  split_ifs at hcond with h <;> split_ifs <;> omega

/-- `growproc`'s `sz + n`, when `p->sz` fits in 32 bits. -/
theorem toNat_uint_add (hsz : psz < 2 ^ 32) :
    ((UInt32.ofNat psz + n.toUInt32).toNat : Int) = (psz + n.toInt) % 2 ^ 32 := by
  have hn := toNat_toUInt32 n
  have hlo := Int32.le_toInt n
  have hhi := Int32.toInt_lt n
  rw [UInt32.toNat_add, UInt32.toNat_ofNat', Nat.mod_eq_of_lt hsz]
  push_cast
  rw [hn]
  split_ifs <;> omega

/-- A shrink by more than `p->sz` wraps `sz + n` past `p->sz`:
`uvmdealloc` takes it for a grow and does nothing, and `growproc` returns
`0` with `p->sz` and the page table unchanged. -/
theorem growproc_shrink_wraps (hsz : psz < 2 ^ 32) (hn : psz + n.toInt < 0) :
    growproc k pt psz n walkOk = .ok (k, pt, psz, 0) := by
  have hsum := toNat_uint_add (n := n) hsz
  have hlo := Int32.le_toInt n
  have hneg : n < 0 := Int32.lt_iff_toInt_lt.mpr (by simp; omega)
  have hpos : ¬ 0 < n := fun h => by
    have := Int32.lt_iff_toInt_lt.mp h
    simp at this
    omega
  -- the wrapped `sz + n` lies above `p->sz`
  have hle : psz ≤ (UInt32.ofNat psz + n.toUInt32).toNat := by omega
  have hsz' : (UInt32.ofNat psz).toNat = psz := by
    rw [UInt32.toNat_ofNat', Nat.mod_eq_of_lt hsz]
  unfold growproc
  simp only [if_neg hpos, if_pos hneg, hsz', uvmdealloc, if_pos hle, Except.map]

/-- `growproc` on the address space of a process whose `p->sz` fits in 32
bits: it panics nowhere and leaves the address space of the new `p->sz`; it
fails with the page table and `p->sz` unchanged, or returns `0` with the
pages it added zeroed and, when `p->sz + n` neither goes below `0` nor
wraps, with `p->sz` set to it. -/
theorem growproc_maps (hm : Maps k.kend pt psz) (hsz : psz < 2 ^ 32) :
    ∃ k' pt' sz' r, growproc k pt psz n walkOk = .ok (k', pt', sz', r) ∧
      Maps k'.kend pt' sz' ∧ k'.kend = k.kend ∧ sz' < 2 ^ 32 ∧
      (∀ va ∈ pageRange (PGROUNDUP psz) sz', ∃ pte, pt' va = some pte ∧ k'.fill pte.pa = 0) ∧
      ((r = -1 ∧ pt' = pt ∧ sz' = psz) ∨
        (r = 0 ∧ (0 ≤ psz + n.toInt → psz + n.toInt < 2 ^ 32 → (sz' : Int) = psz + n.toInt))) := by
  have hsz' : (UInt32.ofNat psz).toNat = psz := by
    rw [UInt32.toNat_ofNat', Nat.mod_eq_of_lt hsz]
  have hsum := toNat_uint_add (n := n) hsz
  have hnew := UInt32.toNat_lt (UInt32.ofNat psz + n.toUInt32)
  -- a size that did not grow adds no page
  have hnone : ∀ {s : Nat} (pt' : Pagetable) (k' : Kmem), s ≤ psz →
      ∀ va ∈ pageRange (PGROUNDUP psz) s, ∃ pte, pt' va = some pte ∧ k'.fill pte.pa = 0 := by
    intro s pt' k' hs va hva
    rw [pageRange_of_le (hs.trans le_pgroundup)] at hva
    cases hva
  unfold growproc
  by_cases hpos : 0 < n
  · -- growing: `uvmalloc` from `p->sz` to `sz + n`
    have hn : 0 < n.toInt := by
      have := Int32.lt_iff_toInt_lt.mp hpos
      simpa using this
    rw [if_pos hpos, hsz']
    have htf : 2 ^ 32 ≤ TRAPFRAME := by decide
    obtain ⟨⟨k₁, pt₁, r₁⟩, hres, hspec⟩ :=
      (uvmalloc_maps hm (UInt32.ofNat psz + n.toUInt32).toNat walkOk).exists_ok (by omega)
    rw [hres]
    dsimp only
    dsimp only at hspec
    rcases hspec with ⟨rfl, rfl, hkend, -⟩ | ⟨hr, hpos', hm', hg⟩
    · -- `uvmalloc` failed: `-1`
      rw [if_pos (by decide)]
      exact ⟨_, _, _, _, rfl, hkend ▸ hm, hkend, hsz, hnone _ _ le_rfl, .inl ⟨rfl, rfl, rfl⟩⟩
    · have hr32 : r₁ < 2 ^ 32 := by omega
      have hrnat : (UInt32.ofNat r₁).toNat = r₁ := by
        rw [UInt32.toNat_ofNat', Nat.mod_eq_of_lt hr32]
      have hne : UInt32.ofNat r₁ ≠ 0 := fun h0 => by
        rw [h0] at hrnat
        simp at hrnat
        omega
      rw [if_neg hne, hrnat]
      refine ⟨_, _, _, _, rfl, hm', hg.kend, hr32, fun va hva => ?_, .inr ⟨rfl, fun h0 h1 => ?_⟩⟩
      · obtain ⟨-, -, pte, hpte, -, -, hz⟩ := hg.fresh va hva
        exact ⟨pte, hpte, hz⟩
      · -- without a wrap `sz + n` is the new size, above `p->sz`
        omega
  · rw [if_neg hpos]
    by_cases hneg : n < 0
    · -- shrinking: `uvmdealloc` from `p->sz` to `sz + n`
      rw [if_pos hneg, hsz']
      obtain ⟨k', hd, hm', hkend, -⟩ := uvmdealloc_maps hm (UInt32.ofNat psz + n.toUInt32).toNat
      have hmin : min psz (UInt32.ofNat psz + n.toUInt32).toNat < 2 ^ 32 := by omega
      have hmn : (UInt32.ofNat (min psz (UInt32.ofNat psz + n.toUInt32).toNat)).toNat =
          min psz (UInt32.ofNat psz + n.toUInt32).toNat := by
        rw [UInt32.toNat_ofNat', Nat.mod_eq_of_lt hmin]
      rw [hd, Except.map]
      dsimp only
      rw [hmn]
      have hn : n.toInt < 0 := by
        have := Int32.lt_iff_toInt_lt.mp hneg
        simpa using this
      refine ⟨_, _, _, _, rfl, hm', hkend, hmin, hnone _ _ (Nat.min_le_left _ _),
        .inr ⟨rfl, fun h0 h1 => ?_⟩⟩
      omega
    · -- `n = 0`: nothing changes
      rw [if_neg hneg, hsz']
      have hn : n.toInt = 0 := by
        have h₁ : ¬ 0 < n.toInt := fun h => hpos (Int32.lt_iff_toInt_lt.mpr (by simpa using h))
        have h₂ : ¬ n.toInt < 0 := fun h => hneg (Int32.lt_iff_toInt_lt.mpr (by simpa using h))
        omega
      refine ⟨_, _, _, _, rfl, hm, rfl, hsz, hnone _ _ le_rfl, .inr ⟨rfl, fun _ _ => ?_⟩⟩
      omega

end Growproc

/-- `sbrk(-8192)` by a process of one page, as the first process is after
`userinit`: `sz + n` wraps to just below `2^32`, so `growproc` returns `0`
with `p->sz` still one page and nothing unmapped, and `sbrk` returns the old
size as if it had shrunk the process. -/
theorem sbrk_past_zero_keeps_size (k : Kmem) (pt : Pagetable) (walkOk : Nat → Bool) :
    growproc k pt PGSIZE (-8192) walkOk = .ok (k, pt, PGSIZE, 0) ∧
      sysSbrk k pt PGSIZE (-8192) walkOk = .ok (k, pt, PGSIZE, PGSIZE) := by
  have hg : growproc k pt PGSIZE (-8192) walkOk = .ok (k, pt, PGSIZE, 0) :=
    growproc_shrink_wraps (by decide) (by decide)
  refine ⟨hg, ?_⟩
  unfold sysSbrk
  rw [hg]
  rfl

end Kernel
end Xv6
