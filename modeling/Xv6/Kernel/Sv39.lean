import Xv6.Kernel.UserCopy
import Xv6.Support.Refine

/-!
# Sv39 page tables

`walk`, `walkaddr`, `mappages` and `uvmunmap` of `kernel/vm.c` over the
page-table pages in physical memory, and what they are over the page tables
of `Xv6.Kernel.Uvm`, which map each page-aligned virtual address below
`MAXVA` to its leaf PTE.

Physical memory is the 64-bit word at each address; `kalloc` and `kfree`
act on the free list of `Xv6.Kernel.Kalloc` and fill the page with junk.  A
page-table page is a `Node`: the root, a page of level 1 by its index in the
root, or a page of level 0 by its two indices.  The leaf PTE of a virtual
address is read from the level-0 page its two upper indices lead to
(`absPt`).

The walk is sound when no two nodes are one page (`TreeInv`), and `walk`
allocates safely when the free list holds distinct pages none of which is a
node (`Fresh`): then `walk` keeps both and the map, `walkaddr` is the
`walkaddr` of the map, `mappages` maps its pages in order until `kalloc`
runs out, and `uvmunmap` does what it does on the map.
-/

namespace Xv6
namespace Sv39

open Kernel Vm

/-! ## The model -/

/-- `PGSHIFT` -/
def PGSHIFT : Nat := 12

/-- `PXMASK` -/
def PXMASK : Nat := 0x1FF

/-- `PXSHIFT(level)` -/
def PXSHIFT (level : Nat) : Nat := PGSHIFT + 9 * level

/-- `PX(level, va)`: the index of `va` in a page-table page of that level. -/
def PX (level va : Nat) : Nat := (va >>> PXSHIFT level) &&& PXMASK

/-- `PA2PTE(pa)` -/
def PA2PTE (pa : Nat) : Nat := (pa >>> 12) <<< 10

/-- `PTE2PA(pte)` -/
def PTE2PA (pte : Nat) : Nat := (pte >>> 10) <<< 12

/-- `PTE_FLAGS(pte)` -/
def PTE_FLAGS (pte : Nat) : Nat := pte &&& 0x3FF

/-- Physical memory, as the 64-bit word at each address, and `kmem`. -/
structure Mach where
  kmem : Kmem
  mem : Nat → Nat

/-- The page at `pa` filled with the word `w` (`memset` of the page). -/
def setPage (mem : Nat → Nat) (pa w : Nat) : Nat → Nat :=
  fun a => if pa ≤ a ∧ a < pa + PGSIZE then w else mem a

/-- `kalloc()`, which fills the page it returns with `5`s. -/
def Mach.kalloc (m : Mach) : Mach × Nat :=
  let (k, pa) := Kernel.kalloc m.kmem
  if pa = 0 then (⟨k, m.mem⟩, 0) else (⟨k, setPage m.mem pa (fillWord 5)⟩, pa)

/-- `kfree(pa)`, which fills the page with `1`s. -/
def Mach.kfree (m : Mach) (pa : Nat) : Except String Mach :=
  (Kernel.kfree m.kmem pa).map fun k => ⟨k, setPage m.mem pa (fillWord 1)⟩

/-- The loop of `walk` from the page-table page `pagetable` of `level` down:
the machine with the pages it allocated, and the address of the PTE of
level 0, or `0`. -/
def walkLoop (va : Nat) (alloc : Bool) : Nat → Mach → Nat → Mach × Nat
  | 0, m, pagetable => (m, pagetable + 8 * PX 0 va)
  | level + 1, m, pagetable =>
    let pte := pagetable + 8 * PX (level + 1) va
    if m.mem pte &&& PTE_V ≠ 0 then walkLoop va alloc level m (PTE2PA (m.mem pte))
    else if !alloc then (m, 0)
    else
      let (m, pagetable) := m.kalloc
      if pagetable = 0 then (m, 0)
      else
        let mem := setPage m.mem pagetable 0
        walkLoop va alloc level ⟨m.kmem, Function.update mem pte (PA2PTE pagetable ||| PTE_V)⟩
          pagetable

/-- `walk(pagetable, va, alloc)` -/
def walk (m : Mach) (pagetable va : Nat) (alloc : Bool) : Except String (Mach × Nat) :=
  if MAXVA ≤ va then .error "walk" else .ok (walkLoop va alloc 2 m pagetable)

/-- `walkaddr(pagetable, va)`; below `MAXVA` its `walk` cannot panic. -/
def walkaddr (m : Mach) (pagetable va : Nat) : Nat :=
  if MAXVA ≤ va then 0
  else
    let pte := (walkLoop va false 2 m pagetable).2
    if pte = 0 then 0
    else if m.mem pte &&& PTE_V = 0 then 0
    else if m.mem pte &&& PTE_U = 0 then 0
    else PTE2PA (m.mem pte)

/-- A `walk` that returns leaves the address below `MAXVA`. -/
theorem lt_of_walk {m m' : Mach} {pagetable va pte : Nat} {alloc : Bool}
    (h : walk m pagetable va alloc = .ok (m', pte)) : va < MAXVA := by
  unfold walk at h
  split at h
  · cases h
  · omega

/-- The loop of `mappages` from the page `a`, mapped to `pa`, up to `last`:
`0`, or `-1` when `walk` could not allocate. -/
def mappagesLoop (pagetable last perm : Nat) (m : Mach) (a pa : Nat) : Except String (Mach × Int) :=
  match h : walk m pagetable a true with
  | .error e => .error e
  | .ok (m, pte) =>
    if pte = 0 then .ok (m, -1)
    else if m.mem pte &&& PTE_V ≠ 0 then .error "remap"
    else
      let m := { m with mem := Function.update m.mem pte (PA2PTE pa ||| perm ||| PTE_V) }
      if a = last then .ok (m, 0)
      else mappagesLoop pagetable last perm m (a + PGSIZE) (pa + PGSIZE)
termination_by MAXVA - a
decreasing_by
  have := lt_of_walk h
  unfold PGSIZE
  omega

/-- `mappages(pagetable, va, size, pa, perm)`; `va + size - 1` is computed
in 64 bits. -/
def mappages (m : Mach) (pagetable va size pa perm : Nat) : Except String (Mach × Int) :=
  mappagesLoop pagetable (PGROUNDDOWN ((va + size + (2 ^ 64 - 1)) % 2 ^ 64)) perm m
    (PGROUNDDOWN va) pa

/-- One pass of `uvmunmap`'s loop, at the page `a`. -/
def unmapPage (pagetable : Nat) (doFree : Bool) (m : Mach) (a : Nat) : Except String Mach := do
  let (m, pte) ← walk m pagetable a false
  if pte = 0 then throw "uvmunmap: walk"
  else if m.mem pte &&& PTE_V = 0 then throw "uvmunmap: not mapped"
  else if PTE_FLAGS (m.mem pte) = PTE_V then throw "uvmunmap: not a leaf"
  else
    let m ← if doFree then m.kfree (PTE2PA (m.mem pte)) else pure m
    pure { m with mem := Function.update m.mem pte 0 }

/-- `uvmunmap(pagetable, va, npages, do_free)` -/
def uvmunmap (m : Mach) (pagetable va npages : Nat) (doFree : Bool) : Except String Mach :=
  if va % PGSIZE ≠ 0 then .error "uvmunmap: not aligned"
  else (pageRange va (va + npages * PGSIZE)).foldlM (unmapPage pagetable doFree) m

/-- `uvmcreate()`: a zeroed page for an empty page table, or `0`. -/
def uvmcreate (m : Mach) : Mach × Nat :=
  let (m, pagetable) := m.kalloc
  if pagetable = 0 then (m, 0) else ({ m with mem := setPage m.mem pagetable 0 }, pagetable)

/-! ## Indices and PTE words -/

theorem PX_eq (level va : Nat) : PX level va = va / 2 ^ (12 + 9 * level) % 512 := by
  rw [PX, PXSHIFT, PGSHIFT, PXMASK, Nat.shiftRight_eq_div_pow,
    show (0x1FF : Nat) = 2 ^ 9 - 1 from rfl, Nat.and_two_pow_sub_one_eq_mod]

theorem PX_lt (level va : Nat) : PX level va < 512 := by
  rw [PX_eq]
  omega

/-- The index of `va` at `level`, as a position in a page of 512 PTEs. -/
def px (level va : Nat) : Fin 512 := ⟨PX level va, PX_lt level va⟩

theorem PTE2PA_eq (w : Nat) : PTE2PA w = w / 1024 * PGSIZE := by
  rw [PTE2PA, Nat.shiftLeft_eq, Nat.shiftRight_eq_div_pow]
  rfl

theorem PTE_FLAGS_eq (w : Nat) : PTE_FLAGS w = w % 1024 := by
  rw [PTE_FLAGS, show (0x3FF : Nat) = 2 ^ 10 - 1 from rfl, Nat.and_two_pow_sub_one_eq_mod]

theorem valid_iff (w : Nat) : w &&& PTE_V ≠ 0 ↔ w % 2 = 1 := by
  rw [PTE_V, Nat.and_one_is_mod]
  omega

/-- A PTE made of a physical address and flags below `2^10`. -/
theorem PA2PTE_or {pa q : Nat} (hq : q < 2 ^ 10) : PA2PTE pa ||| q = pa / PGSIZE * 1024 + q := by
  rw [PA2PTE, ← Nat.shiftLeft_add_eq_or_of_lt hq, Nat.shiftLeft_eq, Nat.shiftRight_eq_div_pow]
  rfl

theorem PTE2PA_PA2PTE_or {pa q : Nat} (hq : q < 2 ^ 10) :
    PTE2PA (PA2PTE pa ||| q) = PGROUNDDOWN pa := by
  rw [PTE2PA_eq, PA2PTE_or hq, PGROUNDDOWN, PGSIZE]
  omega

theorem PTE_FLAGS_PA2PTE_or {pa q : Nat} (hq : q < 2 ^ 10) : PTE_FLAGS (PA2PTE pa ||| q) = q := by
  rw [PTE_FLAGS_eq, PA2PTE_or hq]
  omega

theorem PTE2PA_mod (w : Nat) : PTE2PA w % PGSIZE = 0 := by
  rw [PTE2PA_eq]
  exact Nat.mul_mod_left _ _

/-- The PTE of `va` at `level` in the page `p` lies in that page. -/
theorem slot_ne {p q : Nat} (hp : p % PGSIZE = 0) (hq : q % PGSIZE = 0) (hne : p ≠ q)
    (i j : Fin 512) : p + 8 * i ≠ q + 8 * j := by
  have := i.isLt
  have := j.isLt
  unfold PGSIZE at hp hq
  omega

/-- Two aligned addresses below `MAXVA` with the same three indices are one. -/
theorem eq_of_px {va va' : Nat} (hva : va < MAXVA) (hva' : va' < MAXVA) (ha : va % PGSIZE = 0)
    (ha' : va' % PGSIZE = 0) (h2 : px 2 va = px 2 va') (h1 : px 1 va = px 1 va')
    (h0 : px 0 va = px 0 va') : va = va' := by
  simp only [px, Fin.mk.injEq, PX_eq] at h2 h1 h0
  unfold MAXVA at hva hva'
  unfold PGSIZE at ha ha'
  norm_num at h2 h1 h0 hva hva'
  omega

theorem px_pgrounddown (level va : Nat) (hl : level < 3) : px level (PGROUNDDOWN va) = px level va := by
  simp only [px, Fin.mk.injEq, PX_eq, PGROUNDDOWN, PGSIZE]
  interval_cases level <;> norm_num <;> omega

/-! ## The tree of page-table pages -/

/-- The page a valid PTE at `a` points to. -/
def next (mem : Nat → Nat) (a : Nat) : Option Nat :=
  if mem a &&& PTE_V ≠ 0 then some (PTE2PA (mem a)) else none

/-- The leaf PTE a word holds, when it is valid. -/
def decode (w : Nat) : Option Pte :=
  if w &&& PTE_V ≠ 0 then some ⟨PTE2PA w, PTE_FLAGS w⟩ else none

/-- A page-table page, by the indices that lead to it from the root. -/
inductive Node
  | root
  | mid (i : Fin 512)
  | low (i j : Fin 512)
  deriving DecidableEq

/-- The page of a node of the table at `r`, when the PTEs that lead to it
are valid. -/
def Node.page (mem : Nat → Nat) (r : Nat) : Node → Option Nat
  | .root => some r
  | .mid i => next mem (r + 8 * i)
  | .low i j => (next mem (r + 8 * i)).bind fun c => next mem (c + 8 * j)

/-- The leaf PTE at the indices `i`, `j`, `k`. -/
def leaf (mem : Nat → Nat) (r : Nat) (i j k : Fin 512) : Option Pte :=
  ((Node.low i j).page mem r).bind fun g => decode (mem (g + 8 * k))

/-- The page table of `Xv6.Kernel.Uvm` the table at `r` holds. -/
def absPt (mem : Nat → Nat) (r : Nat) : Pagetable := fun va =>
  if va < MAXVA ∧ va % PGSIZE = 0 then leaf mem r (px 2 va) (px 1 va) (px 0 va) else none

/-- `p` is a page of the table at `r`. -/
def Table (mem : Nat → Nat) (r p : Nat) : Prop := ∃ n : Node, n.page mem r = some p

/-- The tree invariant: the root is a page, no page of the table is `0`,
and no two nodes are one page. -/
structure TreeInv (mem : Nat → Nat) (r : Nat) : Prop where
  aligned : r % PGSIZE = 0
  pos : ∀ p, Table mem r p → p ≠ 0
  inj : ∀ (n n' : Node) p, n.page mem r = some p → n'.page mem r = some p → n = n'

/-- What `kalloc` hands out is fresh: the free pages are distinct, and none
is a page of the table. -/
structure Fresh (m : Mach) (r : Nat) : Prop where
  nodup : m.kmem.freelist.Nodup
  not_table : ∀ p ∈ m.kmem.freelist, ¬Table m.mem r p

section Frame

variable {mem mem' : Nat → Nat} {r : Nat}

theorem next_eq_some {a p : Nat} (h : next mem a = some p) :
    mem a &&& PTE_V ≠ 0 ∧ p = PTE2PA (mem a) := by
  unfold next at h
  split at h
  · exact ⟨by assumption, (Option.some.inj h).symm⟩
  · cases h

theorem TreeInv.page_aligned (hT : TreeInv mem r) {n : Node} {p : Nat} (h : n.page mem r = some p) :
    p % PGSIZE = 0 := by
  cases n with
  | root =>
    cases h
    exact hT.aligned
  | mid i =>
    rw [(next_eq_some h).2]
    exact PTE2PA_mod _
  | low i j =>
    obtain ⟨c, -, hc⟩ := Option.bind_eq_some_iff.mp h
    rw [(next_eq_some hc).2]
    exact PTE2PA_mod _

/-- Two memories agree on the 512 PTEs of the page at `p`. -/
def Agree (mem mem' : Nat → Nat) (p : Nat) : Prop :=
  ∀ i : Fin 512, mem' (p + 8 * i) = mem (p + 8 * i)

/-- The nodes are found through the root and the pages of level 1 only. -/
theorem page_congr (hr : Agree mem mem' r)
    (hmid : ∀ i c, (Node.mid i).page mem r = some c → Agree mem mem' c) (n : Node) :
    n.page mem' r = n.page mem r := by
  have hroot : ∀ i : Fin 512, next mem' (r + 8 * i) = next mem (r + 8 * i) := fun i => by
    simp only [next, hr i]
  cases n with
  | root => rfl
  | mid i => exact hroot i
  | low i j =>
    simp only [Node.page, hroot i]
    cases hc : next mem (r + 8 * i) with
    | none => rfl
    | some c => simp only [Option.bind_some, next, hmid i c hc j]

/-- The leaves are read from the pages of level 0. -/
theorem leaf_congr (hpage : ∀ i j, (Node.low i j).page mem' r = (Node.low i j).page mem r)
    (hlow : ∀ i j g, (Node.low i j).page mem r = some g → Agree mem mem' g) (i j k : Fin 512) :
    leaf mem' r i j k = leaf mem r i j k := by
  unfold leaf
  rw [hpage]
  cases hg : (Node.low i j).page mem r with
  | none => rfl
  | some g => simp only [Option.bind_some, hlow i j g hg k]

/-- A memory that agrees with `mem` on every page of the table holds the same
nodes and the same map. -/
theorem congr_of_agree (h : ∀ p, Table mem r p → Agree mem mem' p) :
    (∀ n : Node, n.page mem' r = n.page mem r) ∧ absPt mem' r = absPt mem r := by
  have hpage := page_congr (h r ⟨.root, rfl⟩) (fun i c hc => h c ⟨_, hc⟩)
  refine ⟨hpage, ?_⟩
  funext va
  simp only [absPt, leaf_congr (fun i j => hpage _) (fun i j g hg => h g ⟨_, hg⟩)]

theorem TreeInv.congr (hT : TreeInv mem r) (hpage : ∀ n : Node, n.page mem' r = n.page mem r) :
    TreeInv mem' r where
  aligned := hT.aligned
  pos p hp := by
    obtain ⟨n, hn⟩ := hp
    exact hT.pos p ⟨n, (hpage n).symm.trans hn⟩
  inj n n' p h h' := by
    rw [hpage] at h h'
    exact hT.inj n n' p h h'

theorem table_congr (hpage : ∀ n : Node, n.page mem' r = n.page mem r) (p : Nat) :
    Table mem' r p ↔ Table mem r p := by
  simp only [Table, hpage]

/-- A write outside the pages of the table. -/
theorem agree_update {p a w : Nat} (h : ∀ i : Fin 512, p + 8 * i ≠ a) :
    Agree mem (Function.update mem a w) p := fun i =>
  Function.update_of_ne (h i) _ _

/-- A `memset` of a page that is not `p`. -/
theorem agree_setPage {p q w : Nat} (hp : p % PGSIZE = 0) (hq : q % PGSIZE = 0) (hne : p ≠ q) :
    Agree mem (setPage mem q w) p := by
  intro i
  have := i.isLt
  unfold setPage
  rw [if_neg]
  unfold PGSIZE at hp hq ⊢
  omega

end Frame

/-! ## Linking a fresh page -/

section Link

variable {mem : Nat → Nat} {r q : Nat}

theorem setPage_setPage (mem : Nat → Nat) (q a b : Nat) :
    setPage (setPage mem q a) q b = setPage mem q b := by
  funext x
  unfold setPage
  split_ifs <;> rfl

/-- The PTE linking the page `q` points to it. -/
theorem next_link (hq : q % PGSIZE = 0) (mem : Nat → Nat) (s : Nat) :
    next (Function.update mem s (PA2PTE q ||| PTE_V)) s = some q := by
  have hv : (PA2PTE q ||| PTE_V) &&& PTE_V ≠ 0 := by
    rw [valid_iff, PTE_V, PA2PTE_or (by decide)]
    omega
  simp only [next, Function.update_self, if_pos hv, PTE2PA_PA2PTE_or (show PTE_V < 2 ^ 10 by decide),
    PGROUNDDOWN, Nat.div_mul_cancel (Nat.dvd_of_mod_eq_zero hq)]

/-- A zeroed page has no valid PTE. -/
theorem next_zero (mem : Nat → Nat) (a : Nat) (h : mem a = 0) : next mem a = none := by
  simp [next, h]

/-- What linking leaves in a page other than the two it writes. -/
theorem agree_link {p x s w : Nat} (hp : p % PGSIZE = 0) (hq : q % PGSIZE = 0)
    (hx : x % PGSIZE = 0) (hxp : x ≠ p) (hxq : x ≠ q) (i : Fin 512) (hs : s = p + 8 * i) :
    Agree mem (Function.update (setPage mem q 0) s w) x := by
  intro j
  rw [hs, Function.update_of_ne (slot_ne hx hp hxp j i), agree_setPage hx hq hxq j]

/-- The new page reads as zeros. -/
theorem link_new {p s w : Nat} (hp : p % PGSIZE = 0) (hq : q % PGSIZE = 0) (hpq : p ≠ q)
    (i j : Fin 512) (hs : s = p + 8 * i) :
    Function.update (setPage mem q 0) s w (q + 8 * j) = 0 := by
  have := j.isLt
  rw [hs, Function.update_of_ne (slot_ne hq hp hpq.symm j i)]
  unfold setPage
  rw [if_pos]
  unfold PGSIZE
  omega

/-- The other PTEs of the page written keep their value. -/
theorem link_same_page {p s w : Nat} (hp : p % PGSIZE = 0) (hq : q % PGSIZE = 0) (hpq : p ≠ q)
    {i j : Fin 512} (hij : j ≠ i) (hs : s = p + 8 * i) :
    Function.update (setPage mem q 0) s w (p + 8 * j) = mem (p + 8 * j) := by
  have hne : p + 8 * (j : Nat) ≠ p + 8 * i := fun h => hij (Fin.ext (by omega))
  rw [hs, Function.update_of_ne hne, agree_setPage hp hq hpq j]

/-- A table with one more node, at the fresh page `q`. -/
theorem TreeInv.extend {mem' : Nat → Nat} (hT : TreeInv mem r) {n₀ : Node} (hq0 : q ≠ 0)
    (hqt : ¬Table mem r q) (hn₀ : n₀.page mem r = none)
    (hpage : ∀ n : Node, n.page mem' r = if n = n₀ then some q else n.page mem r) :
    TreeInv mem' r ∧ ∀ p, Table mem' r p ↔ Table mem r p ∨ p = q := by
  have htable : ∀ p, Table mem' r p ↔ Table mem r p ∨ p = q := by
    intro p
    constructor
    · rintro ⟨n, hn⟩
      rw [hpage] at hn
      split_ifs at hn
      · exact Or.inr (Option.some.inj hn).symm
      · exact Or.inl ⟨n, hn⟩
    · rintro (⟨n, hn⟩ | rfl)
      · refine ⟨n, ?_⟩
        rw [hpage, if_neg]
        · exact hn
        · rintro rfl
          rw [hn₀] at hn
          cases hn
      · exact ⟨n₀, by rw [hpage, if_pos rfl]⟩
  refine ⟨⟨hT.aligned, fun p hp => ?_, fun n n' p h h' => ?_⟩, htable⟩
  · rcases (htable p).mp hp with hp | rfl
    · exact hT.pos p hp
    · exact hq0
  · rw [hpage] at h h'
    split_ifs at h h' with hn hn'
    · exact hn.trans hn'.symm
    · cases h
      exact absurd ⟨n', h'⟩ hqt
    · cases h'
      exact absurd ⟨n, h⟩ hqt
    · exact hT.inj n n' p h h'

/-- Linking `q` at the root, for the index `i` whose PTE is not valid. -/
theorem link_root (hT : TreeInv mem r) (hq : q % PGSIZE = 0) (hqt : ¬Table mem r q) {i : Fin 512}
    (hi : (Node.mid i).page mem r = none) :
    (∀ n : Node, n.page (Function.update (setPage mem q 0) (r + 8 * i) (PA2PTE q ||| PTE_V)) r =
        if n = .mid i then some q else n.page mem r) ∧
      ∀ i' j k, leaf (Function.update (setPage mem q 0) (r + 8 * i) (PA2PTE q ||| PTE_V)) r i' j k =
        leaf mem r i' j k := by
  set mem' := Function.update (setPage mem q 0) (r + 8 * i) (PA2PTE q ||| PTE_V)
  have hrq : r ≠ q := fun h => hqt ⟨.root, by rw [h]; rfl⟩
  -- the other PTEs of the root keep their value
  have hroot : ∀ i' : Fin 512, i' ≠ i → next mem' (r + 8 * i') = next mem (r + 8 * i') :=
    fun i' hi' => by simp only [next, mem', link_same_page hT.aligned hq hrq hi' rfl]
  -- and so does every page of the table but the root
  have hother : ∀ n x, n ≠ Node.root → n.page mem r = some x → Agree mem mem' x := by
    intro n x hn hx
    refine agree_link hT.aligned hq (hT.page_aligned hx) (fun h => hn ?_) (fun h => hqt ⟨n, h ▸ hx⟩) i rfl
    exact hT.inj n .root x hx (h ▸ rfl)
  have hpage : ∀ n : Node, n.page mem' r = if n = .mid i then some q else n.page mem r := by
    intro n
    cases n with
    | root => rfl
    | mid i' =>
      by_cases h : i' = i
      · subst h
        exact (next_link hq _ _).trans (if_pos rfl).symm
      · rw [if_neg (by simpa using h)]
        exact hroot i' h
    | low i' j =>
      rw [if_neg (by simp)]
      by_cases h : i' = i
      · -- the new page of level 1 is all zeros
        subst h
        simp only [Node.page, mem', next_link hq, Option.bind_some]
        rw [show next mem (r + 8 * i') = none from hi, Option.bind_none]
        exact next_zero _ _ (link_new hT.aligned hq hrq i' j rfl)
      · simp only [Node.page]
        rw [hroot i' h]
        cases hc : next mem (r + 8 * i') with
        | none => rfl
        | some c =>
          simp only [Option.bind_some, next, hother (.mid i') c (by simp) hc j]
  exact ⟨hpage, fun i' j k => leaf_congr (fun i' j => by rw [hpage, if_neg (by simp)])
    (fun i' j g hg => hother _ g (by simp) hg) i' j k⟩

/-- Linking `q` at the page `c` of level 1, for the index `j` whose PTE is
not valid. -/
theorem link_mid (hT : TreeInv mem r) (hq : q % PGSIZE = 0) (hqt : ¬Table mem r q) {i j : Fin 512}
    {c : Nat} (hc : (Node.mid i).page mem r = some c) (hj : (Node.low i j).page mem r = none) :
    (∀ n : Node, n.page (Function.update (setPage mem q 0) (c + 8 * j) (PA2PTE q ||| PTE_V)) r =
        if n = .low i j then some q else n.page mem r) ∧
      ∀ i' j' k, leaf (Function.update (setPage mem q 0) (c + 8 * j) (PA2PTE q ||| PTE_V)) r i' j' k =
        leaf mem r i' j' k := by
  set mem' := Function.update (setPage mem q 0) (c + 8 * j) (PA2PTE q ||| PTE_V)
  have hca : c % PGSIZE = 0 := hT.page_aligned hc
  have hcq : c ≠ q := fun h => hqt ⟨_, h ▸ hc⟩
  have hother : ∀ n x, n ≠ Node.mid i → n.page mem r = some x → Agree mem mem' x := by
    intro n x hn hx
    refine agree_link hca hq (hT.page_aligned hx) (fun h => hn ?_) (fun h => hqt ⟨n, h ▸ hx⟩) j rfl
    exact hT.inj n _ x hx (h ▸ hc)
  have hroot : ∀ i' : Fin 512, next mem' (r + 8 * i') = next mem (r + 8 * i') := fun i' => by
    simp only [next, hother .root r (by simp) rfl i']
  have hpage : ∀ n : Node, n.page mem' r = if n = .low i j then some q else n.page mem r := by
    intro n
    cases n with
    | root => rfl
    | mid i' =>
      rw [if_neg (by simp)]
      exact hroot i'
    | low i' j' =>
      simp only [Node.page, hroot]
      cases hc' : next mem (r + 8 * i') with
      | none =>
        have hne : Node.low i' j' ≠ Node.low i j := by
          rintro ⟨⟩
          simp [Node.page, hc'] at hc
        rw [if_neg hne]
        rfl
      | some c' =>
        simp only [Option.bind_some]
        by_cases hi' : i' = i
        · subst hi'
          obtain rfl : c' = c := Option.some.inj (hc'.symm.trans hc)
          by_cases hj' : j' = j
          · subst hj'
            rw [if_pos rfl]
            exact next_link hq _ _
          · rw [if_neg (by simp [hj'])]
            simp only [next, mem', link_same_page hca hq hcq hj' rfl]
        · rw [if_neg (by simp [hi'])]
          simp only [next, hother (.mid i') c' (by simp [hi']) hc' j']
  refine ⟨hpage, fun i' j' k => ?_⟩
  unfold leaf
  rw [hpage]
  split_ifs with h
  · -- the new page of level 0 is all zeros
    cases h
    rw [hj, Option.bind_some, Option.bind_none,
      show mem' (q + 8 * k) = 0 from link_new hca hq hcq j k rfl]
    rfl
  · cases hg : (Node.low i' j').page mem r with
    | none => rfl
    | some g => simp only [Option.bind_some, hother _ g (by simp) hg k]

end Link

/-! ## `walk` -/

section Walk

variable {m m' m₁ m₂ : Mach} {r : Nat}

theorem Mach.kalloc_of_zero (h : m.kalloc = (m', 0)) : m' = m ∧ m.kmem.freelist = [] := by
  unfold Mach.kalloc at h
  rcases hk : Kernel.kalloc m.kmem with ⟨k, pa⟩
  rw [hk] at h
  dsimp only at h
  split at h
  · next hpa =>
    subst hpa
    obtain ⟨rfl, hnil⟩ := Kernel.kalloc_of_zero hk
    exact ⟨(Prod.mk.inj h).1.symm, hnil⟩
  · exact absurd (Prod.mk.inj h).2 ‹_›

theorem Mach.kalloc_of_ne_zero {q : Nat} (h : m.kalloc = (m', q)) (hq : q ≠ 0) :
    m.kmem.freelist = q :: m'.kmem.freelist ∧ PageOk m.kmem.kend q ∧
      m'.mem = setPage m.mem q (fillWord 5) ∧ m'.kmem.kend = m.kmem.kend := by
  unfold Mach.kalloc at h
  rcases hk : Kernel.kalloc m.kmem with ⟨k, pa⟩
  rw [hk] at h
  dsimp only at h
  split at h
  · exact absurd (Prod.mk.inj h).2.symm hq
  · next hpa =>
    obtain ⟨rfl, rfl⟩ := Prod.mk.inj h
    obtain ⟨hfl, hok, -, hkend⟩ := Kernel.kalloc_of_ne_zero hk hpa
    exact ⟨hfl, hok, rfl, hkend⟩

theorem Mach.kfree_of_ok {pa : Nat} {k : Kmem} (h : Kernel.kfree m.kmem pa = .ok k) :
    m.kfree pa = .ok ⟨k, setPage m.mem pa (fillWord 1)⟩ := by
  show (Kernel.kfree m.kmem pa).map _ = _
  rw [h]
  rfl

theorem Mach.kfree_of_error {pa : Nat} {e : String} (h : Kernel.kfree m.kmem pa = .error e) :
    m.kfree pa = .error e := by
  show (Kernel.kfree m.kmem pa).map _ = _
  rw [h]
  rfl

/-- `m'` is `m` with pages taken off the free list and made pages of the
table, which holds the same map. -/
structure Grows (r : Nat) (m m' : Mach) : Prop where
  tree : TreeInv m'.mem r
  fresh : Fresh m' r
  absPt_eq : absPt m'.mem r = absPt m.mem r
  table : ∀ p, Table m'.mem r p ↔ Table m.mem r p ∨ (p ∈ m.kmem.freelist ∧ p ∉ m'.kmem.freelist)
  suffix : m'.kmem.freelist <:+ m.kmem.freelist
  kend : m'.kmem.kend = m.kmem.kend

theorem Grows.refl (hT : TreeInv m.mem r) (hF : Fresh m r) : Grows r m m :=
  ⟨hT, hF, rfl, fun _ => by tauto, List.suffix_refl _, rfl⟩

theorem Grows.trans (h₁ : Grows r m m₁) (h₂ : Grows r m₁ m₂) : Grows r m m₂ where
  tree := h₂.tree
  fresh := h₂.fresh
  absPt_eq := h₂.absPt_eq.trans h₁.absPt_eq
  table p := by
    rw [h₂.table, h₁.table]
    have h₁₂ := h₂.suffix.subset (a := p)
    have h₀₁ := h₁.suffix.subset (a := p)
    tauto
  suffix := h₂.suffix.trans h₁.suffix
  kend := h₂.kend.trans h₁.kend

/-- `walk` taking the page `q` off the free list and linking it as the node
`n₀`, whose PTE was not valid. -/
theorem Grows.link (hT : TreeInv m.mem r) (hF : Fresh m r) {q : Nat} {k : Kmem}
    (hfl : m.kmem.freelist = q :: k.freelist) (hok : PageOk m.kmem.kend q)
    (hkend : k.kend = m.kmem.kend) {mem' : Nat → Nat} {n₀ : Node} (hn₀ : n₀.page m.mem r = none)
    (hpage : ∀ n : Node, n.page mem' r = if n = n₀ then some q else n.page m.mem r)
    (hleaf : ∀ i j k, leaf mem' r i j k = leaf m.mem r i j k) : Grows r m ⟨k, mem'⟩ := by
  have hq0 : q ≠ 0 := (pageOk_pos m.kmem.kend_ge hok).ne'
  have hqt : ¬Table m.mem r q := hF.not_table q (by simp [hfl])
  have hnd : q ∉ k.freelist ∧ k.freelist.Nodup := List.nodup_cons.mp (hfl ▸ hF.nodup)
  obtain ⟨htree, htable⟩ := hT.extend hq0 hqt hn₀ hpage
  refine ⟨htree, ⟨hnd.2, fun p hp ht => ?_⟩, ?_, fun p => ?_, hfl ▸ List.suffix_cons q _, hkend⟩
  · rcases (htable p).mp ht with ht | rfl
    · exact hF.not_table p (by simp [hfl, hp]) ht
    · exact hnd.1 hp
  · funext va
    simp only [absPt, hleaf]
  · rw [htable, hfl]
    constructor
    · rintro (h | rfl)
      · exact Or.inl h
      · exact Or.inr ⟨List.mem_cons_self, hnd.1⟩
    · rintro (h | ⟨hp, hp'⟩)
      · exact Or.inl h
      · exact Or.inr ((List.mem_cons.mp hp).resolve_right hp')

/-- What `walk` with `alloc` leaves: the table grown, and the PTE of level 0
for `va`, or `0` when `kalloc` ran out. -/
structure WalkPost (r va : Nat) (m : Mach) (res : Mach × Nat) : Prop where
  grows : Grows r m res.1
  out_of_memory : res.2 = 0 → res.1.kmem.freelist = []
  found : res.2 ≠ 0 → ∃ g, (Node.low (px 2 va) (px 1 va)).page res.1.mem r = some g ∧
    res.2 = g + 8 * PX 0 va

/-- The loop of `walk` from the level-1 page `c` on the way to `va`. -/
theorem walkLoop_one (hT : TreeInv m.mem r) (hF : Fresh m r) {va c : Nat}
    (hc : (Node.mid (px 2 va)).page m.mem r = some c) : WalkPost r va m (walkLoop va true 1 m c) := by
  have hlow : (Node.low (px 2 va) (px 1 va)).page m.mem r = next m.mem (c + 8 * PX 1 va) := by
    simp only [Node.page] at hc ⊢
    rw [hc, Option.bind_some]
    rfl
  rw [walkLoop]
  simp only [walkLoop, Nat.zero_add]
  rcases hk : m.kalloc with ⟨m₁, q⟩
  dsimp only
  split_ifs with hv hnot hq
  · -- the PTE is valid: it leads to the page of level 0
    have hg := hlow.trans (if_pos hv)
    refine ⟨Grows.refl hT hF, fun h0 => absurd (by omega) (hT.pos _ ⟨_, hg⟩), fun _ => ⟨_, hg, rfl⟩⟩
  · exact absurd hnot (by decide)
  · -- `kalloc` ran out
    subst hq
    obtain ⟨rfl, hnil⟩ := Mach.kalloc_of_zero hk
    exact ⟨Grows.refl hT hF, fun _ => hnil, fun h => absurd rfl h⟩
  · obtain ⟨hfl, hok, hmem, hkend⟩ := Mach.kalloc_of_ne_zero hk hq
    have hqt : ¬Table m.mem r q := hF.not_table q (by simp [hfl])
    have hj : (Node.low (px 2 va) (px 1 va)).page m.mem r = none := by
      rw [hlow, next, if_neg hv]
    obtain ⟨hpage, hleaf⟩ := link_mid hT hok.1 hqt hc hj
    rw [hmem, setPage_setPage]
    have hgrow := Grows.link hT hF hfl hok hkend hj hpage hleaf
    refine ⟨hgrow, fun h0 => absurd h0 ?_, fun _ => ⟨q, ?_, rfl⟩⟩
    · exact Nat.ne_of_gt (Nat.lt_add_right _ (pageOk_pos m.kmem.kend_ge hok))
    · exact (hpage _).trans (if_pos rfl)

/-- The loop of `walk` from the root. -/
theorem walkLoop_two (hT : TreeInv m.mem r) (hF : Fresh m r) (va : Nat) :
    WalkPost r va m (walkLoop va true 2 m r) := by
  have hmid : (Node.mid (px 2 va)).page m.mem r = next m.mem (r + 8 * PX 2 va) := rfl
  rw [walkLoop]
  simp only [Nat.reduceAdd]
  rcases hk : m.kalloc with ⟨m₁, q⟩
  dsimp only
  split_ifs with hv hnot hq
  · exact walkLoop_one hT hF (hmid.trans (if_pos hv))
  · exact absurd hnot (by decide)
  · subst hq
    obtain ⟨rfl, hnil⟩ := Mach.kalloc_of_zero hk
    exact ⟨Grows.refl hT hF, fun _ => hnil, fun h => absurd rfl h⟩
  · obtain ⟨hfl, hok, hmem, hkend⟩ := Mach.kalloc_of_ne_zero hk hq
    have hqt : ¬Table m.mem r q := hF.not_table q (by simp [hfl])
    have hi : (Node.mid (px 2 va)).page m.mem r = none := by
      rw [hmid, next, if_neg hv]
    obtain ⟨hpage, hleaf⟩ := link_root hT hok.1 hqt hi
    rw [hmem, setPage_setPage]
    -- the new page of level 1 is where the walk goes on
    have hgrow := Grows.link hT hF hfl hok hkend hi hpage hleaf
    have hpost := walkLoop_one hgrow.tree hgrow.fresh ((hpage _).trans (if_pos rfl))
    exact ⟨hgrow.trans hpost.grows, hpost.out_of_memory, hpost.found⟩

/-- `walk(pagetable, va, 1)` below `MAXVA`. -/
theorem walk_alloc (hT : TreeInv m.mem r) (hF : Fresh m r) {va : Nat} (hva : va < MAXVA) :
    ∃ res, walk m r va true = .ok res ∧ WalkPost r va m res :=
  ⟨_, by rw [walk, if_neg (by omega)], walkLoop_two hT hF va⟩

/-- One level of the loop without `alloc`: it follows a valid PTE or stops. -/
theorem walkLoop_false_succ (m : Mach) (va level p : Nat) :
    walkLoop va false (level + 1) m p =
      (next m.mem (p + 8 * PX (level + 1) va)).elim (m, 0) (walkLoop va false level m) := by
  rw [walkLoop, next]
  by_cases hv : m.mem (p + 8 * PX (level + 1) va) &&& PTE_V ≠ 0
  · rw [if_pos hv, if_pos hv]
    rfl
  · rw [if_neg hv, if_neg hv]
    rfl

/-- Without `alloc`, `walk` changes nothing and finds the PTE of level 0 of
`va` when the pages leading to it are there. -/
theorem walkLoop_false (m : Mach) (r va : Nat) :
    walkLoop va false 2 m r =
      (m, ((Node.low (px 2 va) (px 1 va)).page m.mem r).elim 0 fun g => g + 8 * PX 0 va) := by
  have hlow : (Node.low (px 2 va) (px 1 va)).page m.mem r =
      (next m.mem (r + 8 * PX 2 va)).bind fun c => next m.mem (c + 8 * PX 1 va) := rfl
  simp only [walkLoop_false_succ, hlow]
  -- one case per level whose PTE may be invalid
  cases next m.mem (r + 8 * PX 2 va) with
  | none => rfl
  | some c =>
    simp only [Option.elim_some, Option.bind_some, walkLoop_false_succ]
    cases next m.mem (c + 8 * PX 1 va) <;> rfl

end Walk

/-! ## The map -/

section Map

variable {mem : Nat → Nat} {m : Mach} {r : Nat}

theorem PTE_FLAGS_and (w : Nat) {b : Nat} (hb : b < 2 ^ 10) : PTE_FLAGS w &&& b = w &&& b := by
  rw [PTE_FLAGS, Nat.and_assoc, Nat.and_comm 0x3FF b, show (0x3FF : Nat) = 2 ^ 10 - 1 from rfl,
    Nat.and_two_pow_sub_one_eq_mod, Nat.mod_eq_of_lt hb]

/-- The leaf PTE of an aligned address below `MAXVA`. -/
theorem absPt_of_lt {va : Nat} (hva : va < MAXVA) (ha : va % PGSIZE = 0) :
    absPt mem r va = leaf mem r (px 2 va) (px 1 va) (px 0 va) :=
  if_pos ⟨hva, ha⟩

/-- `walkaddr` is the `walkaddr` of the map the table holds. -/
theorem walkaddr_eq (hT : TreeInv m.mem r) (va : Nat) :
    walkaddr m r va = Vm.walkaddr (absPt m.mem r) va := by
  unfold walkaddr Vm.walkaddr
  split_ifs with hva
  · rfl
  · have hpg : PGROUNDDOWN va < MAXVA := by
      unfold PGROUNDDOWN PGSIZE
      omega
    rw [walkLoop_false, absPt_of_lt hpg (by unfold PGROUNDDOWN; simp),
      px_pgrounddown 2 va (by decide), px_pgrounddown 1 va (by decide),
      px_pgrounddown 0 va (by decide), leaf]
    dsimp only
    cases hg : (Node.low (px 2 va) (px 1 va)).page m.mem r with
    | none => rfl
    | some g =>
      -- the PTE found is not at address `0`: the page is not `0`
      have hslot : (g + 8 * PX 0 va = 0) = False :=
        eq_false fun h => hT.pos g ⟨_, hg⟩ (by omega)
      by_cases hv : m.mem (g + 8 * PX 0 va) &&& PTE_V = 0
      · simp only [Option.elim, Option.bind_some, hslot, if_false, hv, if_true, decode, px,
          ne_eq, not_true_eq_false]
      · simp only [Option.elim, Option.bind_some, hslot, if_false, hv, decode, px, ne_eq,
          not_false_eq_true, if_true, PTE_FLAGS_and _ (show PTE_V < 2 ^ 10 by decide),
          PTE_FLAGS_and _ (show PTE_U < 2 ^ 10 by decide)]
        -- the two sides decide the test on `PTE_U` through different instances
        exact if_congr Iff.rfl rfl rfl

/-- Writing the PTE of level 0 of `va` changes the map at `va` only. -/
theorem write_leaf (hT : TreeInv mem r) {va g : Nat} (hva : va < MAXVA) (ha : va % PGSIZE = 0)
    (hg : (Node.low (px 2 va) (px 1 va)).page mem r = some g) (w : Nat) :
    (∀ n : Node, n.page (Function.update mem (g + 8 * PX 0 va) w) r = n.page mem r) ∧
      absPt (Function.update mem (g + 8 * PX 0 va) w) r = Function.update (absPt mem r) va (decode w) := by
  set mem' := Function.update mem (g + 8 * PX 0 va) w
  have hga := hT.page_aligned hg
  -- the write is in the page of level 0 only
  have hother : ∀ (n : Node) x, n.page mem r = some x → x ≠ g → Agree mem mem' x := fun n x hx hne =>
    agree_update fun i => slot_ne (hT.page_aligned hx) hga hne i (px 0 va)
  have hpage : ∀ n : Node, n.page mem' r = n.page mem r :=
    page_congr (hother .root r rfl fun h => by cases hT.inj .root _ g (by rw [← h]; rfl) hg)
      fun i c hc => hother _ c hc fun h => by cases hT.inj (.mid i) _ g (h ▸ hc) hg
  refine ⟨hpage, funext fun a => ?_⟩
  by_cases hav : a = va
  · subst hav
    rw [Function.update_self, absPt_of_lt hva ha, leaf, hpage, hg, Option.bind_some]
    exact congrArg decode (Function.update_self _ _ _)
  · rw [Function.update_of_ne hav]
    unfold absPt
    split_ifs with hdom
    · unfold leaf
      rw [hpage]
      cases hg' : (Node.low (px 2 a) (px 1 a)).page mem r with
      | none => rfl
      | some g' =>
        simp only [Option.bind_some]
        congr 1
        apply Function.update_of_ne
        by_cases hgg : g' = g
        · -- one page of level 0: then the indices of level 0 differ
          subst hgg
          obtain ⟨h2, h1⟩ : px 2 a = px 2 va ∧ px 1 a = px 1 va := by
            simpa using hT.inj _ _ g' hg' hg
          have h0 : px 0 a ≠ px 0 va := fun h0 => hav (eq_of_px hdom.1 hva hdom.2 ha h2 h1 h0)
          intro h
          exact h0 (Fin.ext (by simp only [px] at h ⊢; omega))
        · exact slot_ne (hT.page_aligned hg') hga hgg (px 0 a) (px 0 va)
    · rfl

end Map

/-! ## `mappages` -/

/-- `pt` with the pages `as` mapped, in order, to the consecutive physical
pages from `pa`, with `perm` and `PTE_V`. -/
def mapRange (pt : Pagetable) (pa perm : Nat) : List Nat → Pagetable
  | [] => pt
  | a :: as => mapRange (Function.update pt a (some ⟨pa, perm ||| PTE_V⟩)) (pa + PGSIZE) perm as

section Mappages

variable {m : Mach} {r perm : Nat}

/-- The leaf PTE `mappages` writes. -/
theorem decode_pte (pa : Nat) (hperm : perm < 2 ^ 10) :
    decode (PA2PTE pa ||| perm ||| PTE_V) = some ⟨PGROUNDDOWN pa, perm ||| PTE_V⟩ := by
  have hq : perm ||| PTE_V < 2 ^ 10 := Nat.or_lt_two_pow hperm (by decide)
  have hv : (PA2PTE pa ||| perm ||| PTE_V) &&& PTE_V ≠ 0 :=
    (valid_iff _).mpr (Nat.or_mod_two_eq_one.mpr (Or.inr (show PTE_V % 2 = 1 by decide)))
  rw [decode, if_pos hv, Nat.or_assoc, PTE2PA_PA2PTE_or hq, PTE_FLAGS_PA2PTE_or hq]

theorem pgrounddown_add_pgsize (pa : Nat) : PGROUNDDOWN (pa + PGSIZE) = PGROUNDDOWN pa + PGSIZE := by
  unfold PGROUNDDOWN PGSIZE
  omega

/-- One pass of `mappages`, at an unmapped page `a`: `walk` runs out of
memory, or the page gets mapped and nothing else changes. -/
theorem mappages_pass (hperm : perm < 2 ^ 10) (hT : TreeInv m.mem r) (hF : Fresh m r)
    {a : Nat} (pa : Nat) (hva : a < MAXVA) (ha : a % PGSIZE = 0) (hfree : absPt m.mem r a = none) :
    ∃ m₁ pte, walk m r a true = .ok (m₁, pte) ∧ TreeInv m₁.mem r ∧ Fresh m₁ r ∧
      absPt m₁.mem r = absPt m.mem r ∧
      ((pte = 0 ∧ m₁.kmem.freelist = []) ∨
        (pte ≠ 0 ∧ m₁.mem pte &&& PTE_V = 0 ∧
          absPt (Function.update m₁.mem pte (PA2PTE pa ||| perm ||| PTE_V)) r =
            Function.update (absPt m.mem r) a (some ⟨PGROUNDDOWN pa, perm ||| PTE_V⟩) ∧
          TreeInv (Function.update m₁.mem pte (PA2PTE pa ||| perm ||| PTE_V)) r ∧
          Fresh ⟨m₁.kmem, Function.update m₁.mem pte (PA2PTE pa ||| perm ||| PTE_V)⟩ r)) := by
  obtain ⟨⟨m₁, pte⟩, hwalk, hpost⟩ := walk_alloc hT hF hva
  have hg : Grows r m m₁ := hpost.grows
  refine ⟨m₁, pte, hwalk, hg.tree, hg.fresh, hg.absPt_eq, ?_⟩
  by_cases hpte : pte = 0
  · exact Or.inl ⟨hpte, hpost.out_of_memory hpte⟩
  obtain ⟨g, hlow, rfl⟩ := hpost.found hpte
  dsimp only at hlow
  -- the PTE is not valid: the page is not mapped
  have hv : m₁.mem (g + 8 * PX 0 a) &&& PTE_V = 0 := by
    have h := hfree
    rw [← hg.absPt_eq, absPt_of_lt hva ha, leaf, hlow, Option.bind_some] at h
    by_contra hv
    exact absurd h (by simp [decode, px, hv])
  obtain ⟨hpage, habs⟩ := write_leaf hg.tree hva ha hlow (PA2PTE pa ||| perm ||| PTE_V)
  refine Or.inr ⟨hpte, hv, ?_, hg.tree.congr hpage, hg.fresh.nodup, fun p hp ht => ?_⟩
  · rw [habs, hg.absPt_eq, decode_pte pa hperm]
  · exact hg.fresh.not_table p hp ((table_congr hpage p).mp ht)

/-- The loop of `mappages` over the `n + 1` unmapped pages from `a` to
`last`: it maps a prefix of them, all unless `kalloc` runs out. -/
theorem mappagesLoop_spec (hperm : perm < 2 ^ 10) {last : Nat} (hmax : last < MAXVA) (n : Nat) :
    ∀ (m : Mach) (a pa : Nat), a % PGSIZE = 0 → a + n * PGSIZE = last →
      TreeInv m.mem r → Fresh m r → (∀ b ∈ pageRange a (last + PGSIZE), absPt m.mem r b = none) →
      ∃ m' t, t ≤ n + 1 ∧ mappagesLoop r last perm m a pa = .ok (m', if t = n + 1 then 0 else -1) ∧
        absPt m'.mem r =
          mapRange (absPt m.mem r) (PGROUNDDOWN pa) perm ((pageRange a (last + PGSIZE)).take t) ∧
        TreeInv m'.mem r ∧ Fresh m' r ∧ (t ≤ n → m'.kmem.freelist = []) := by
  -- induction on the number of pages after `a`
  induction n with
  | zero =>
    intro m a pa ha hlast hT hF hfree
    have hrange : pageRange a (last + PGSIZE) = [a] := by
      rw [pageRange_cons (by unfold PGSIZE; omega), pageRange_of_le (by omega)]
    obtain ⟨m₁, pte, hwalk, hT₁, hF₁, habs₁, hcase⟩ :=
      mappages_pass hperm hT hF pa (by omega) ha (hfree a (by simp [hrange]))
    rw [mappagesLoop]
    split
    · next e he => cases hwalk.symm.trans he
    · next m₁' pte' he =>
      obtain ⟨rfl, rfl⟩ := Prod.mk.inj (Except.ok.inj (hwalk.symm.trans he))
      rcases hcase with ⟨rfl, hnil⟩ | ⟨hpte, hv, habs, hT₂, hF₂⟩
      · exact ⟨m₁, 0, by omega, by simp, by simp [mapRange, habs₁], hT₁, hF₁, fun _ => hnil⟩
      · rw [if_neg hpte, if_neg (not_not.mpr hv), if_pos (by omega)]
        refine ⟨_, 1, le_refl _, rfl, ?_, hT₂, hF₂, fun h => absurd h (by omega)⟩
        rw [habs, hrange]
        rfl
  | succ n ih =>
    intro m a pa ha hlast hT hF hfree
    have hrange : pageRange a (last + PGSIZE) = a :: pageRange (a + PGSIZE) (last + PGSIZE) :=
      pageRange_cons (by unfold PGSIZE at *; omega)
    obtain ⟨m₁, pte, hwalk, hT₁, hF₁, habs₁, hcase⟩ :=
      mappages_pass hperm hT hF pa (by unfold PGSIZE at *; omega) ha (hfree a (by simp [hrange]))
    rw [mappagesLoop]
    split
    · next e he => cases hwalk.symm.trans he
    · next m₁' pte' he =>
      obtain ⟨rfl, rfl⟩ := Prod.mk.inj (Except.ok.inj (hwalk.symm.trans he))
      rcases hcase with ⟨rfl, hnil⟩ | ⟨hpte, hv, habs, hT₂, hF₂⟩
      · exact ⟨m₁, 0, by omega, by simp, by simp [mapRange, habs₁], hT₁, hF₁, fun _ => hnil⟩
      · rw [if_neg hpte, if_neg (not_not.mpr hv), if_neg (by unfold PGSIZE at hlast; omega)]
        -- the rest of the pages are unmapped still
        have hrest : ∀ b ∈ pageRange (a + PGSIZE) (last + PGSIZE),
            absPt (Function.update m₁.mem pte (PA2PTE pa ||| perm ||| PTE_V)) r b = none := by
          intro b hb
          have hab : b ≠ a := by
            have := ((mem_pageRange (by unfold PGSIZE at *; omega)).mp hb).2.1
            unfold PGSIZE at this
            omega
          rw [habs, Function.update_of_ne hab]
          exact hfree b (by simp [hrange, hb])
        obtain ⟨m', t, ht, hloop, habs', hT', hF', hfl'⟩ :=
          ih ⟨m₁.kmem, Function.update m₁.mem pte (PA2PTE pa ||| perm ||| PTE_V)⟩ (a + PGSIZE)
            (pa + PGSIZE) (by unfold PGSIZE at *; omega)
            (by rw [← hlast]; ring) hT₂ hF₂ hrest
        refine ⟨m', t + 1, by omega, by rw [hloop]; simp, ?_, hT', hF', fun h => hfl' (by omega)⟩
        rw [habs', habs, hrange, List.take_succ_cons, mapRange, pgrounddown_add_pgsize]

/-- `mappages(pagetable, va, size, pa, perm)` over pages below `MAXVA`, none
of them mapped: it returns `0` having mapped them all, in order, to the
consecutive physical pages from `pa`, or `-1`, out of memory, having mapped
a prefix of them. -/
theorem mappages_spec (hperm : perm < 2 ^ 10) (hT : TreeInv m.mem r) (hF : Fresh m r)
    {va size : Nat} (pa : Nat) (hsize : 0 < size) (hmax : va + size ≤ MAXVA)
    (hfree : ∀ a ∈ pageRange (PGROUNDDOWN va) (va + size), absPt m.mem r a = none) :
    ∃ m' t, t ≤ (pageRange (PGROUNDDOWN va) (va + size)).length ∧
      mappages m r va size pa perm =
        .ok (m', if t = (pageRange (PGROUNDDOWN va) (va + size)).length then 0 else -1) ∧
      absPt m'.mem r = mapRange (absPt m.mem r) (PGROUNDDOWN pa) perm
        ((pageRange (PGROUNDDOWN va) (va + size)).take t) ∧
      TreeInv m'.mem r ∧ Fresh m' r ∧
      (t < (pageRange (PGROUNDDOWN va) (va + size)).length → m'.kmem.freelist = []) := by
  -- the last page, `va + size - 1` rounded down: no 64-bit wrap below `MAXVA`
  have hlast : PGROUNDDOWN ((va + size + (2 ^ 64 - 1)) % 2 ^ 64) = PGROUNDDOWN (va + size - 1) := by
    have hwrap : (va + size + (2 ^ 64 - 1)) % 2 ^ 64 = va + size - 1 := by
      unfold MAXVA at hmax
      omega
    rw [hwrap]
  set last := PGROUNDDOWN (va + size - 1)
  have hrange : pageRange (PGROUNDDOWN va) (va + size) = pageRange (PGROUNDDOWN va) (last + PGSIZE) := by
    unfold pageRange
    congr 2
    unfold last PGROUNDDOWN PGSIZE
    omega
  set n := (last - PGROUNDDOWN va) / PGSIZE
  have hn : PGROUNDDOWN va + n * PGSIZE = last := by
    unfold n last PGROUNDDOWN PGSIZE
    omega
  have hlen : (pageRange (PGROUNDDOWN va) (va + size)).length = n + 1 := by
    rw [hrange, length_pageRange]
    unfold n last PGROUNDDOWN PGSIZE
    omega
  obtain ⟨m', t, ht, hloop, habs, hT', hF', hfl⟩ :=
    mappagesLoop_spec hperm (by unfold last PGROUNDDOWN PGSIZE; unfold MAXVA at hmax ⊢; omega) n m
      (PGROUNDDOWN va) pa (by unfold PGROUNDDOWN; simp) hn hT hF (hrange ▸ hfree)
  refine ⟨m', t, hlen ▸ ht, ?_, hrange ▸ habs, hT', hF', fun h => hfl (by omega)⟩
  rw [mappages, hlast, hloop, hlen]

end Mappages

/-! ## `uvmunmap` -/

section Unmap

variable {m : Mach} {r : Nat}

theorem pageOk_of_kfree {k k' : Kmem} {pa : Nat} (h : Kernel.kfree k pa = .ok k') :
    PageOk k.kend pa := by
  unfold Kernel.kfree at h
  split at h
  · cases h
  · next hn =>
    simp only [not_or, ne_eq, not_not, not_lt, not_le] at hn
    exact ⟨hn.1, hn.2.1, hn.2.2⟩

theorem decode_zero : decode 0 = none := rfl

/-- The relation `uvmunmap`'s loop keeps with the loop of `Xv6.Kernel.Uvm`:
the state is the abstraction of the machine, whose table is a tree with the
pages it had at the start and maps no page it did not map then. -/
def UnmapRel (r : Nat) (m₀ m : Mach) (st : Kmem × Pagetable) : Prop :=
  st = (m.kmem, absPt m.mem r) ∧ TreeInv m.mem r ∧ (∀ p, Table m.mem r p ↔ Table m₀.mem r p) ∧
    ∀ a pte, absPt m.mem r a = some pte → absPt m₀.mem r a = some pte

/-- Clearing the PTE of level 0 of `a` unmaps `a` and keeps the relation. -/
theorem unmapRel_clear {m₀ : Mach} {k : Kmem} {mem : Nat → Nat} (hT : TreeInv mem r)
    (htab : ∀ p, Table mem r p ↔ Table m₀.mem r p)
    (hsub : ∀ a pte, absPt mem r a = some pte → absPt m₀.mem r a = some pte) {a g : Nat}
    (hva : a < MAXVA) (ha : a % PGSIZE = 0) (hg : (Node.low (px 2 a) (px 1 a)).page mem r = some g) :
    UnmapRel r m₀ ⟨k, Function.update mem (g + 8 * PX 0 a) 0⟩
      (k, Function.update (absPt mem r) a none) := by
  obtain ⟨hpage, habs⟩ := write_leaf hT hva ha hg 0
  rw [decode_zero] at habs
  refine ⟨by rw [habs], hT.congr hpage, fun p => (table_congr hpage p).trans (htab p), ?_⟩
  intro b pte hb
  rw [habs] at hb
  by_cases hba : b = a
  · subst hba
    rw [Function.update_self] at hb
    cases hb
  · rw [Function.update_of_ne hba] at hb
    exact hsub b pte hb

/-- One pass of `uvmunmap` refines the pass of `Xv6.Kernel.Uvm`, when the
page it frees, if any, is not a page of the table. -/
theorem unmapPage_rel {m₀ : Mach} {st : Kmem × Pagetable} {doFree : Bool} {a : Nat}
    (ha : a % PGSIZE = 0)
    (hfree : doFree = true → ∀ pte, absPt m₀.mem r a = some pte → ¬Table m₀.mem r pte.pa)
    (hrel : UnmapRel r m₀ m st) :
    ExceptRel (UnmapRel r m₀) (unmapPage r doFree m a) (Vm.unmapPage doFree st a) := by
  obtain ⟨rfl, hT, htab, hsub⟩ := hrel
  unfold unmapPage Vm.unmapPage
  by_cases hva : MAXVA ≤ a
  · rw [walk, if_pos hva, if_pos hva]
    trivial
  rw [walk, if_neg hva, if_neg hva, walkLoop_false, except_ok_bind]
  dsimp only
  have hva' : a < MAXVA := by omega
  rw [absPt_of_lt hva' ha, leaf]
  cases hg : (Node.low (px 2 a) (px 1 a)).page m.mem r with
  | none => trivial
  | some g =>
    -- the PTE is not at address `0`: the page is not `0`
    have hslot : (g + 8 * PX 0 a = 0) = False := eq_false fun h => hT.pos g ⟨_, hg⟩ (by omega)
    simp only [Option.elim, Option.bind_some, hslot, if_false, decode, px]
    by_cases hv : m.mem (g + 8 * PX 0 a) &&& PTE_V = 0
    · simp only [hv, if_true, ne_eq, not_true_eq_false, if_false]
      exact trivial
    simp only [hv, if_false, ne_eq, not_false_eq_true, if_true]
    by_cases hflag : PTE_FLAGS (m.mem (g + 8 * PX 0 a)) = PTE_V
    · simp only [hflag, if_true]
      exact trivial
    simp only [hflag, if_false]
    cases doFree with
    | false => exact unmapRel_clear hT htab hsub hva' ha hg
    | true =>
      simp only [if_true]
      cases hk : Kernel.kfree m.kmem (PTE2PA (m.mem (g + 8 * PX 0 a))) with
      | error e =>
        rw [Mach.kfree_of_error hk]
        trivial
      | ok k' =>
        -- the freed page is not a page of the table: its junk leaves the table as it was
        have hpte : absPt m.mem r a =
            some ⟨PTE2PA (m.mem (g + 8 * PX 0 a)), PTE_FLAGS (m.mem (g + 8 * PX 0 a))⟩ := by
          rw [absPt_of_lt hva' ha, leaf, hg, Option.bind_some]
          simp [decode, px, hv]
        have hnt : ¬Table m.mem r (PTE2PA (m.mem (g + 8 * PX 0 a))) := fun ht =>
          hfree rfl _ (hsub a _ hpte) ((htab _).mp ht)
        have hpa := (pageOk_of_kfree hk).1
        obtain ⟨hpage, habs⟩ := @congr_of_agree m.mem
          (setPage m.mem (PTE2PA (m.mem (g + 8 * PX 0 a))) (fillWord 1)) r fun p ⟨n, hn⟩ => agree_setPage (hT.page_aligned hn) hpa fun h => hnt ⟨n, h ▸ hn⟩
        have hrel := unmapRel_clear (k := k') (hT.congr hpage)
          (fun p => (table_congr hpage p).trans (htab p)) (fun b pte hb => hsub b pte (habs ▸ hb))
          hva' ha ((hpage _).trans hg)
        rw [habs] at hrel
        -- the records are put in the form of `hrel` before it is used: unifying
        -- them as they are unfolds `absPt`
        rw [Mach.kfree_of_ok hk, except_ok_bind]
        dsimp only
        exact hrel

/-- `uvmunmap` refines the `uvmunmap` of `Xv6.Kernel.Uvm` on the map the
table holds, as long as it frees no page of the table. -/
theorem uvmunmap_refines (hT : TreeInv m.mem r) {va npages : Nat} {doFree : Bool}
    (hfree : doFree = true → ∀ a ∈ pageRange va (va + npages * PGSIZE), ∀ pte,
      absPt m.mem r a = some pte → ¬Table m.mem r pte.pa) :
    ExceptRel (fun m' st => st = (m'.kmem, absPt m'.mem r) ∧ TreeInv m'.mem r)
      (uvmunmap m r va npages doFree) (Vm.uvmunmap m.kmem (absPt m.mem r) va npages doFree) := by
  unfold uvmunmap Vm.uvmunmap
  split_ifs with hva
  · trivial
  · have hstep : ∀ m' st, ∀ a ∈ pageRange va (va + npages * PGSIZE), UnmapRel r m m' st →
        ExceptRel (UnmapRel r m) (unmapPage r doFree m' a) (Vm.unmapPage doFree st a) := by
      intro m' st a ha hrel
      exact unmapPage_rel ((mem_pageRange (by omega)).mp ha).1
        (fun hd pte hpte => hfree hd a ha pte hpte) hrel
    have hrel := foldlM_exceptRel _ hstep (⟨rfl, hT, fun _ => Iff.rfl, fun _ _ h => h⟩ :
      UnmapRel r m m (m.kmem, absPt m.mem r))
    exact hrel.mono fun m' st h => ⟨h.1, h.2.1⟩

end Unmap

/-! ## The refinement -/

section Refinement

variable {m : Mach} {r : Nat}

/-- A zeroed root is an empty tree. -/
theorem treeInv_of_zero {mem : Nat → Nat} (hr : r % PGSIZE = 0) (hr0 : r ≠ 0)
    (hz : ∀ i : Fin 512, mem (r + 8 * i) = 0) :
    TreeInv mem r ∧ (∀ p, Table mem r p ↔ p = r) ∧ absPt mem r = fun _ => none := by
  have hpage : ∀ n : Node, n.page mem r = if n = .root then some r else none := by
    intro n
    cases n with
    | root => rfl
    | mid i => exact next_zero _ _ (hz i)
    | low i j =>
      simp only [Node.page, next_zero _ _ (hz i), Option.bind_none]
      rfl
  have htable : ∀ p, Table mem r p ↔ p = r := by
    intro p
    constructor
    · rintro ⟨n, hn⟩
      rw [hpage] at hn
      split_ifs at hn
      exact (Option.some.inj hn).symm
    · rintro rfl
      exact ⟨.root, rfl⟩
  refine ⟨⟨hr, fun p hp => (htable p).mp hp ▸ hr0, fun n n' p h h' => ?_⟩, htable, ?_⟩
  · rw [hpage] at h h'
    split_ifs at h h' with hn hn'
    exact hn.trans hn'.symm
  · funext va
    simp only [absPt, leaf, hpage, reduceCtorEq, if_false, Option.bind_none, ite_self]

/-- `uvmcreate` makes an empty tree, and keeps what `kalloc` hands out fresh. -/
theorem uvmcreate_spec {m' : Mach} {pt : Nat} (hnd : m.kmem.freelist.Nodup)
    (hc : uvmcreate m = (m', pt)) (hpt : pt ≠ 0) :
    TreeInv m'.mem pt ∧ Fresh m' pt ∧ absPt m'.mem pt = fun _ => none := by
  unfold uvmcreate at hc
  rcases hk : m.kalloc with ⟨m₁, q⟩
  rw [hk] at hc
  dsimp only at hc
  split_ifs at hc with hq
  · exact absurd (Prod.mk.inj hc).2.symm hpt
  obtain ⟨rfl, rfl⟩ := Prod.mk.inj hc
  obtain ⟨hfl, hok, -, -⟩ := Mach.kalloc_of_ne_zero hk hq
  have hz : ∀ i : Fin 512, setPage m₁.mem q 0 (q + 8 * i) = 0 := fun i => by
    have := i.isLt
    unfold setPage
    rw [if_pos (by unfold PGSIZE; omega)]
  obtain ⟨hT, htable, habs⟩ := treeInv_of_zero hok.1 hq hz
  have hnd' : q ∉ m₁.kmem.freelist ∧ m₁.kmem.freelist.Nodup := List.nodup_cons.mp (hfl ▸ hnd)
  exact ⟨hT, ⟨hnd'.2, fun p hp ht => hnd'.1 ((htable p).mp ht ▸ hp)⟩, habs⟩

theorem lt_of_absPt_eq_some {mem : Nat → Nat} {a : Nat} {pte : Pte} (h : absPt mem r a = some pte) :
    a < MAXVA := by
  unfold absPt at h
  split_ifs at h with ha
  · exact ha.1

/-- What the page table at `r` refines: `walk`, `walkaddr`, `mappages` and
`uvmunmap` against the map it holds. -/
structure Refines (m : Mach) (r : Nat) : Prop where
  /-- `walk(pagetable, va, 1)` grows the table, keeping the map, and returns
  the PTE of level 0 of `va`, or `0` when `kalloc` ran out. -/
  walk_grows : ∀ va, va < MAXVA → ∃ res, walk m r va true = .ok res ∧ WalkPost r va m res
  /-- `walkaddr` is the `walkaddr` of the map. -/
  walkaddr_map : ∀ va, walkaddr m r va = Vm.walkaddr (absPt m.mem r) va
  /-- `mappages` over unmapped pages below `MAXVA` maps them all, in order,
  to the consecutive physical pages from `pa`, and returns `0`; or, once
  `kalloc` ran out, a prefix of them, and returns `-1`. -/
  mappages_maps : ∀ va size pa perm, 0 < size → va + size ≤ MAXVA → perm < 2 ^ 10 →
    (∀ a ∈ pageRange (PGROUNDDOWN va) (va + size), absPt m.mem r a = none) →
    ∃ m' t, t ≤ (pageRange (PGROUNDDOWN va) (va + size)).length ∧
      mappages m r va size pa perm =
        .ok (m', if t = (pageRange (PGROUNDDOWN va) (va + size)).length then 0 else -1) ∧
      absPt m'.mem r = mapRange (absPt m.mem r) (PGROUNDDOWN pa) perm
        ((pageRange (PGROUNDDOWN va) (va + size)).take t) ∧
      TreeInv m'.mem r ∧ Fresh m' r ∧
      (t < (pageRange (PGROUNDDOWN va) (va + size)).length → m'.kmem.freelist = [])
  /-- `uvmunmap` of mapped leaves, freeing (if asked) pages `kfree` takes
  and none a page of the table, removes exactly those and puts their pages
  on the free list. -/
  uvmunmap_unmaps : ∀ va npages (doFree : Bool), va % PGSIZE = 0 →
    (∀ a ∈ pageRange va (va + npages * PGSIZE), ∃ pte, absPt m.mem r a = some pte ∧ pte.Leaf ∧
      (doFree = true → PageOk m.kmem.kend pte.pa ∧ ¬Table m.mem r pte.pa)) →
    ∃ m', uvmunmap m r va npages doFree = .ok m' ∧
      absPt m'.mem r = unmapped (absPt m.mem r) (pageRange va (va + npages * PGSIZE)) ∧
      TreeInv m'.mem r ∧
      m'.kmem.freelist = (if doFree then (frames (absPt m.mem r)
        (pageRange va (va + npages * PGSIZE))).reverse else []) ++ m.kmem.freelist

/-- A machine with no free page, and the empty table `uvmcreate` leaves at
`KERNBASE`. -/
def emptyMach : Mach := ⟨⟨[], fun _ => 0, KERNBASE, le_refl _, by simp⟩, fun _ => 0⟩

/-- A root page that is also on the free list: `walk` allocating for `0`
takes the root itself, zeroes it and links it under itself, so the empty
table comes to map page `0`. -/
def rootFreeMach : Mach := ⟨⟨[KERNBASE], fun _ => 0, KERNBASE, le_refl _, by decide⟩, fun _ => 0⟩

end Refinement

end Sv39
end Xv6
