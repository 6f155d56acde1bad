import Xv6.Support.Chain
import Xv6.Support.System
import Mathlib

/-!
# The user-space allocator (`user/umalloc.c`)

Kernighan and Ritchie's allocator: a circular singly linked list of free
blocks, headed by the static `base` block of size `0`, kept in address order,
searched first-fit from the roving pointer `freep`.  A block is a header
(`ptr`, `size` in header units) followed by its data; `malloc` takes a block
whole or splits the tail end off it, and asks `sbrk` for at least `4096`
units when no block is large enough; `free` puts a block back between its
neighbours in address order and merges it with either or both of them.

Memory is modelled only as what the allocator reads and writes, a header at
every address.  `sbrk` is modelled as `sys_sbrk` and `growproc` compute it:
an `int` argument, added to the process size in a `uint`.
-/

namespace Xv6.Umalloc

/-- `sizeof(Header)`: a pointer and a `uint`, aligned to a `long`. -/
def headerSize : Nat := 16

theorem headerSize_eq : headerSize = 16 := rfl

/-- `union header`: the next free block and the block's size in units. -/
structure Header where
  ptr : Nat
  size : Nat
deriving DecidableEq, Repr

/-- The allocator's state: memory as headers, `freep`, and the process size
(`p->sz`) that `sbrk` grows. -/
structure Arena where
  mem : Nat → Header
  freep : Nat
  brk : Nat

/-- Memory as the partial heap of the linked-list library: every address
holds a header. -/
def cells (mem : Nat → Header) : Nat → Option Header := fun a => some (mem a)

/-- A bound on the pointer-chasing loops, which in C run until they stop. -/
def loopFuel : Nat := 2 ^ 64

/-! ## `free` -/

/-- The test of `free`'s search loop at the free block `p` with header `c`:
`bp` lies between `p` and the next block, or `p` is the wrap point, the last
block, and `bp` lies above it or below the first. -/
def freeStop (bp p : Nat) (c : Header) : Bool :=
  (decide (p < bp) && decide (bp < c.ptr)) || (decide (c.ptr ≤ p) && (decide (p < bp) || decide (bp < c.ptr)))

/-- `free`'s first merge, once its search stopped at `p`: `bp` takes over
the block after `p` when it ends where that starts, and otherwise links to it. -/
def joinAbove (mem : Nat → Header) (bp p : Nat) : Nat → Header :=
  if bp + headerSize * (mem bp).size = (mem p).ptr then
    Function.update mem bp ⟨(mem (mem p).ptr).ptr, ((mem bp).size + (mem (mem p).ptr).size) % 2 ^ 32⟩
  else Function.update mem bp { mem bp with ptr := (mem p).ptr }

/-- `free`'s second merge: `p` takes over `bp` when it ends where `bp` starts,
and otherwise links to it. -/
def joinBelow (mem : Nat → Header) (bp p : Nat) : Nat → Header :=
  if p + headerSize * (mem p).size = bp then
    Function.update mem p ⟨(mem bp).ptr, ((mem p).size + (mem bp).size) % 2 ^ 32⟩
  else Function.update mem p { mem p with ptr := bp }

theorem joinAbove_of_ne (mem : Nat → Header) {bp p a : Nat} (ha : a ≠ bp) :
    joinAbove mem bp p a = mem a := by
  delta joinAbove
  split <;> exact Function.update_of_ne ha _ _

theorem joinBelow_of_ne (mem : Nat → Header) {bp p a : Nat} (ha : a ≠ p) :
    joinBelow mem bp p a = mem a := by
  delta joinBelow
  split <;> exact Function.update_of_ne ha _ _

/-- `free(ap)`: `none` only when the search runs out of fuel. -/
def free (h : Arena) (ap : Nat) : Option Arena :=
  let bp := ap - headerSize
  (Heap.walk Header.ptr (cells h.mem) (freeStop bp) loopFuel h.freep).map fun p =>
    { h with mem := joinBelow (joinAbove h.mem bp p) bp p, freep := p }

/-! ## `sbrk` and `morecore` -/

/-- `sbrk(n)` for a process of size `sz`: `sys_sbrk`'s `int` result and the
new size.  `growproc` computes `sz + n` in a `uint`, so a growth past `2^32`
and a shrink below `0` wrap, and `uvmalloc` or `uvmdealloc` then keep the
size; `ok` says whether `uvmalloc` gets the pages it needs. -/
def sbrk (sz : Nat) (n : Int32) (ok : Bool) : Int32 × Nat :=
  let addr := Int32.ofNat sz
  let old := sz % 2 ^ 32
  let new := (old + n.toBitVec.toNat) % 2 ^ 32
  if 0 < n then
    if new < old then (addr, old)
    else if ok then (addr, new) else (-1, sz)
  else if n < 0 then (addr, if new < old then new else old)
  else (addr, old)

/-- The pointer `sbrk` returns: the `int` sign-extended to 64 bits. -/
def ptrOf (a : Int32) : Nat := (a.toInt % 2 ^ 64).toNat

/-- A growth by `k` bytes that keeps the size below `2^31` is what it says:
the old size, and the new one when `uvmalloc` gets its pages. -/
theorem sbrk_grow {sz k : Nat} (hk : 0 < k) (h : sz + k < 2 ^ 31) (ok : Bool) :
    sbrk sz (Int32.ofNat k) ok = if ok then (Int32.ofNat sz, sz + k) else (-1, sz) := by
  have hbits : (Int32.ofNat k).toBitVec.toNat = k := by
    have : (Int32.ofNat k).toBitVec = BitVec.ofNat 32 k := rfl
    rw [this, BitVec.toNat_ofNat]
    omega
  have hpos : 0 < Int32.ofNat k := by
    rw [Int32.lt_iff_toInt_lt, Int32.toInt_ofNat_of_lt (by omega)]
    simp
    omega
  have hsz : sz % 2 ^ 32 = sz := Nat.mod_eq_of_lt (by omega)
  have hnew : (sz + k) % 2 ^ 32 = sz + k := Nat.mod_eq_of_lt (by omega)
  delta sbrk
  simp only [hbits, hsz, hnew, if_pos hpos, show ¬ sz + k < sz by omega, if_false]

theorem ptrOf_ofNat {k : Nat} (hk : k < 2 ^ 31) : ptrOf (Int32.ofNat k) = k := by
  delta ptrOf
  rw [Int32.toInt_ofNat_of_lt hk]
  omega

theorem ofNat_ne_neg_one {k : Nat} (hk : k < 2 ^ 31) : Int32.ofNat k ≠ -1 := by
  intro h
  have := congrArg Int32.toInt h
  rw [Int32.toInt_ofNat_of_lt hk] at this
  simp at this

/-- `morecore(nu)`: `none` when `free` runs out of fuel, `some none` when
`sbrk` fails, and otherwise the heap after the new block is freed. -/
def morecore (h : Arena) (nu : Nat) (ok : Bool) : Option (Option Arena) :=
  let nu := if nu < 4096 then 4096 else nu
  let (p, sz) := sbrk h.brk (Int32.ofNat (nu * headerSize)) ok
  if p = -1 then some none
  else
    let hp := ptrOf p
    let mem := Function.update h.mem hp { h.mem hp with size := nu }
    (free { h with mem, brk := sz } (hp + headerSize)).map some

/-! ## `malloc` -/

/-- `nunits`: the data rounded up to whole units, and one for the header. -/
def nunitsOf (nbytes : UInt32) : Nat := (nbytes.toNat + headerSize - 1) / headerSize + 1

/-- The branch of `malloc`'s loop where `p` is large enough: it is unlinked
after `prevp` when it fits exactly, and otherwise its tail end is split off;
`freep` becomes `prevp`, and the result is the data after the header. -/
def carve (h : Arena) (nunits prevp p : Nat)   : Arena × Nat :=
  if (h.mem p).size = nunits then
    ({ h with mem := Function.update h.mem prevp { h.mem prevp with ptr := (h.mem p).ptr },
              freep := prevp }, p + headerSize)
  else
    let mem := Function.update h.mem p { h.mem p with size := (h.mem p).size - nunits }
    let q := p + headerSize * (mem p).size
    ({ h with mem := Function.update mem q { mem q with size := nunits }, freep := prevp },
      q + headerSize)

/-- `malloc`'s loop from `prevp` and `p`: `none` only when out of fuel, and
`0` as the pointer when `morecore` fails. -/
def mallocLoop (nunits : Nat) (ok : Bool) : Nat → Arena → Nat → Nat → Option (Arena × Nat)
  | 0, _, _, _ => none
  | fuel + 1, h, prevp, p =>
      if nunits ≤ (h.mem p).size then some (carve h nunits prevp p)
      else if p = h.freep then
        match morecore h nunits ok with
        | none => none
        | some none => some (h, 0)
        | some (some h) => mallocLoop nunits ok fuel h h.freep (h.mem h.freep).ptr
      else mallocLoop nunits ok fuel h p (h.mem p).ptr

/-- `malloc(nbytes)`; the first call makes the list `base` alone. -/
def malloc (base : Nat) (h : Arena) (nbytes : UInt32) (ok : Bool) : Option (Arena × Nat) :=
  let h := if h.freep = 0 then
      { h with mem := Function.update h.mem base ⟨base, 0⟩, freep := base }
    else h
  mallocLoop (nunitsOf nbytes) ok loopFuel h h.freep (h.mem h.freep).ptr

/-! ## A program calling `malloc` and `free` -/

/-- The heap and the blocks handed out and not yet freed, as header address
and units. -/
structure UState where
  heap : Arena
  live : List (Nat × Nat)

/-- A call: `malloc(nbytes)`, with `ok` the fate of a `uvmalloc` it causes,
or `free(ap)`. -/
inductive UEv
  | malloc (nbytes : UInt32) (ok : Bool)
  | free (ap : Nat)

/-- A call of the program; `free` only of a pointer `malloc` returned and
that is not freed yet. -/
def uStep (base : Nat) (s : UState) : UEv → Option UState
  | .malloc nbytes ok =>
      (malloc base s.heap nbytes ok).map fun r =>
        { heap := r.1,
          live := if r.2 = 0 then s.live else s.live ++ [(r.2 - headerSize, nunitsOf nbytes)] }
  | .free ap =>
      match s.live.find? (·.1 = ap - headerSize) with
      | none => none
      | some b => (free s.heap ap).map fun h => { heap := h, live := s.live.erase b }

theorem uStep_malloc (base : Nat) (s : UState) (nbytes : UInt32) (ok : Bool) :
    uStep base s (.malloc nbytes ok) = (malloc base s.heap nbytes ok).map fun r =>
      { heap := r.1,
        live := if r.2 = 0 then s.live else s.live ++ [(r.2 - headerSize, nunitsOf nbytes)] } :=
  rfl

/-- A program whose static `base` is at `base` and whose size is `brk0`, with
memory `mem0`, before its first `malloc`. -/
def umallocSystem (base brk0 : Nat) (mem0 : Nat → Header) : System UState UEv :=
  ⟨⟨⟨mem0, 0, brk0⟩, []⟩, uStep base⟩

/-! ## The free list as blocks in address order -/

/-- `mem` holds the headers of the blocks `l`, each linked to the next and
the last to `t`. -/
def Links (mem : Nat → Header) (t : Nat) : List (Nat × Nat) → Prop
  | [] => True
  | x :: l => mem x.1 = ⟨(l.head?.map Prod.fst).getD t, x.2⟩ ∧ Links mem t l

theorem links_nil (mem : Nat → Header) (t : Nat) : Links mem t [] ↔ True := Iff.rfl

theorem links_cons (mem : Nat → Header) (t : Nat) (x : Nat × Nat) (l : List (Nat × Nat)) :
    Links mem t (x :: l) ↔ mem x.1 = ⟨(l.head?.map Prod.fst).getD t, x.2⟩ ∧ Links mem t l :=
  Iff.rfl

section Links

variable {mem mem' : Nat → Header} {t : Nat}

theorem links_append {l₁ l₂ : List (Nat × Nat)} {x : Nat × Nat} :
    Links mem t (l₁ ++ x :: l₂) ↔ Links mem x.1 l₁ ∧ Links mem t (x :: l₂) := by
  induction l₁ with
  | nil => simp [links_nil]
  | cons y l₁ ih =>
      have hhead : ((l₁ ++ x :: l₂).head?.map Prod.fst).getD t = (l₁.head?.map Prod.fst).getD x.1 := by
        cases l₁ <;> rfl
      simp only [List.cons_append, links_cons, hhead, ih, and_assoc]

theorem Links.header {l : List (Nat × Nat)} (h : Links mem t l) {x : Nat × Nat} (hx : x ∈ l) :
    (mem x.1).size = x.2 := by
  obtain ⟨l₁, l₂, rfl⟩ := List.append_of_mem hx
  rw [(links_append.1 h).2.1]

theorem Links.frame {l : List (Nat × Nat)} (h : Links mem t l) (hm : ∀ x ∈ l, mem' x.1 = mem x.1) :
    Links mem' t l := by
  induction l with
  | nil => trivial
  | cons x l ih =>
      refine ⟨(hm x List.mem_cons_self).trans h.1, ih h.2 fun y hy => hm y (List.mem_cons_of_mem _ hy)⟩

/-- The blocks of `Links`, read as the linked list they are. -/
theorem Links.seg {l : List (Nat × Nat)} (h : Links mem t l) (h0 : ∀ x ∈ l, x.1 ≠ 0) :
    Heap.Seg Header.ptr (cells mem) ((l.head?.map Prod.fst).getD t) (l.map Prod.fst) t := by
  induction l with
  | nil => exact .nil t
  | cons x l ih =>
      have hx : (mem x.1).ptr = (l.head?.map Prod.fst).getD t := by rw [h.1]
      show Heap.Seg Header.ptr (cells mem) x.1 (x.1 :: l.map Prod.fst) t
      refine .cons (h0 x List.mem_cons_self) rfl ?_
      rw [hx]
      exact ih h.2 fun y hy => h0 y (List.mem_cons_of_mem _ hy)

end Links

/-- Block `x` ends before block `y` starts, and not where it starts. -/
def Below (x y : Nat × Nat) : Prop := x.1 + headerSize * x.2 < y.1

theorem below_iff {x y : Nat × Nat} : Below x y ↔ x.1 + headerSize * x.2 < y.1 := Iff.rfl

/-- Blocks `x` and `y` share no byte. -/
def Apart (x y : Nat × Nat) : Prop :=
  x.1 + headerSize * x.2 ≤ y.1 ∨ y.1 + headerSize * y.2 ≤ x.1

theorem apart_iff {x y : Nat × Nat} :
    Apart x y ↔ x.1 + headerSize * x.2 ≤ y.1 ∨ y.1 + headerSize * y.2 ≤ x.1 := Iff.rfl

instance : DecidableRel Apart := fun _ _ => inferInstanceAs (Decidable (_ ∨ _))

/-- Block `x` is not empty and lies between the addresses `lo` and `hi`. -/
def Within (lo hi : Nat) (x : Nat × Nat) : Prop :=
  0 < x.2 ∧ lo ≤ x.1 ∧ x.1 + headerSize * x.2 ≤ hi

theorem within_iff {lo hi : Nat} {x : Nat × Nat} :
    Within lo hi x ↔ 0 < x.2 ∧ lo ≤ x.1 ∧ x.1 + headerSize * x.2 ≤ hi := Iff.rfl

/-! ## What `free` does to the list of free blocks

The abstract effect of `free`: the block goes between the free blocks below
and above it, merged with the one above when it ends where that starts, and
then with the one below when that ends where it starts. -/

/-- `m`, merged with the first block of `R` when that starts where `m` ends. -/
def joinUp (m : Nat × Nat) : List (Nat × Nat) → List (Nat × Nat)
  | [] => [m]
  | y :: R => if m.1 + headerSize * m.2 = y.1 then (m.1, m.2 + y.2) :: R else m :: y :: R

theorem joinUp_cons (m y : Nat × Nat) (R : List (Nat × Nat)) :
    joinUp m (y :: R) =
      if m.1 + headerSize * m.2 = y.1 then (m.1, m.2 + y.2) :: R else m :: y :: R := rfl

/-- The blocks `lo` and then `M`, the last of `lo` merged with the first of
`M` when that starts where it ends. -/
def joinDown (lo : List (Nat × Nat)) : List (Nat × Nat) → List (Nat × Nat)
  | [] => lo
  | m :: R =>
      match lo.getLast? with
      | some x =>
          if x.1 + headerSize * x.2 = m.1 then lo.dropLast ++ (x.1, x.2 + m.2) :: R
          else lo ++ m :: R
      | none => m :: R

theorem joinDown_nil (M : List (Nat × Nat)) : joinDown [] M = M := by
  cases M <;> rfl

theorem joinDown_nil_right (lo : List (Nat × Nat)) : joinDown lo [] = lo := rfl

theorem joinDown_concat (lo : List (Nat × Nat)) (x m : Nat × Nat) (R : List (Nat × Nat)) :
    joinDown (lo ++ [x]) (m :: R) =
      if x.1 + headerSize * x.2 = m.1 then lo ++ (x.1, x.2 + m.2) :: R
      else lo ++ x :: m :: R := by
  simp [joinDown]

theorem joinDown_of_not_adj {lo : List (Nat × Nat)} {m : Nat × Nat} (R : List (Nat × Nat))
    (h : ∀ x ∈ lo.getLast?, x.1 + headerSize * x.2 ≠ m.1) : joinDown lo (m :: R) = lo ++ m :: R := by
  rcases List.eq_nil_or_concat' lo with rfl | ⟨lo, x, rfl⟩
  · rfl
  · rw [joinDown_concat, if_neg (h x (by simp))]
    simp

theorem Below.lt {x y : Nat × Nat} (h : Below x y) : x.1 < y.1 := by
  rw [below_iff] at h
  omega

theorem Below.apart {x y : Nat × Nat} (h : Below x y) : Apart x y := .inl (Nat.le_of_lt h)

theorem Apart.symm {x y : Nat × Nat} (h : Apart x y) : Apart y x := Or.symm h

/-- Two blocks that touch, merged, share no byte with a block that shares
none with either. -/
theorem Apart.join {u v w : Nat × Nat} (huw : Apart u w) (hvw : Apart v w)
    (hadj : u.1 + headerSize * u.2 = v.1) (hw : 0 < w.2) : Apart (u.1, u.2 + v.2) w := by
  simp only [apart_iff, headerSize_eq] at *
  omega

theorem Within.join {lo hi : Nat} {u v : Nat × Nat} (hu : Within lo hi u) (hv : Within lo hi v)
    (hadj : u.1 + headerSize * u.2 = v.1) : Within lo hi (u.1, u.2 + v.2) := by
  simp only [within_iff, headerSize_eq] at *
  omega

/-- Two blocks that share no byte, neither empty, start at different
addresses. -/
theorem Apart.fst_ne {x y : Nat × Nat} (h : Apart x y) (hx : 0 < x.2) (hy : 0 < y.2) : x.1 ≠ y.1 := by
  rw [apart_iff, headerSize_eq] at h
  omega

/-- The block `joinUp` puts first holds at least `m`'s units. -/
theorem le_joinUp_head (m : Nat × Nat) (R : List (Nat × Nat)) {m' : Nat × Nat} {R' : List (Nat × Nat)}
    (h : joinUp m R = m' :: R') : m.2 ≤ m'.2 := by
  cases R with
  | nil =>
      cases h
      exact le_rfl
  | cons y R =>
      rw [joinUp_cons] at h
      split at h
      · cases h
        exact Nat.le_add_right _ _
      · cases h
        exact le_rfl

/-- `joinDown` keeps a block of at least `m`'s units. -/
theorem exists_ge_joinDown (lo : List (Nat × Nat)) (m : Nat × Nat) (R : List (Nat × Nat)) :
    ∃ z ∈ joinDown lo (m :: R), m.2 ≤ z.2 := by
  rcases List.eq_nil_or_concat' lo with rfl | ⟨lo, x, rfl⟩
  · exact ⟨m, by simp [joinDown_nil], le_rfl⟩
  rw [joinDown_concat]
  split
  · exact ⟨(x.1, x.2 + m.2), by simp, Nat.le_add_left _ _⟩
  · exact ⟨m, by simp, le_rfl⟩

/-- A block inside `x` shares no byte with a block `x` shares none with. -/
theorem Apart.of_inside {x y z : Nat × Nat} (h : Apart x z) (h₁ : x.1 ≤ y.1)
    (h₂ : y.1 + headerSize * y.2 ≤ x.1 + headerSize * x.2) : Apart y z := by
  simp only [apart_iff] at *
  omega

theorem Within.of_inside {lo hi : Nat} {x y : Nat × Nat} (h : Within lo hi x) (h₁ : x.1 ≤ y.1)
    (h₂ : y.1 + headerSize * y.2 ≤ x.1 + headerSize * x.2) (hy : 0 < y.2) : Within lo hi y := by
  simp only [within_iff] at *
  omega

theorem Within.mono {lo hi hi' : Nat} {x : Nat × Nat} (h : Within lo hi x) (hle : hi ≤ hi') :
    Within lo hi' x :=
  ⟨h.1, h.2.1, h.2.2.trans hle⟩

/-- Merging two touching blocks at the head of a list of blocks that share
no byte. -/
theorem apart_merge {u v : Nat × Nat} {rest : List (Nat × Nat)}
    (h : (u :: v :: rest).Pairwise Apart) (hadj : u.1 + headerSize * u.2 = v.1)
    (hpos : ∀ z ∈ rest, 0 < z.2) : ((u.1, u.2 + v.2) :: rest).Pairwise Apart := by
  obtain ⟨hu, hv, hrest⟩ := List.pairwise_cons.mp h |>.imp_right List.pairwise_cons.mp |> fun h =>
    (⟨h.1, h.2.1, h.2.2⟩ : _ ∧ _ ∧ _)
  exact List.pairwise_cons.mpr ⟨fun z hz =>
    (hu z (List.mem_cons_of_mem _ hz)).join (hv z hz) hadj (hpos z hz), hrest⟩

theorem sorted_joinUp (m : Nat × Nat) {R : List (Nat × Nat)} (hR : R.Pairwise Below)
    (hm : ∀ y ∈ R, m.1 + headerSize * m.2 ≤ y.1) : (joinUp m R).Pairwise Below := by
  cases R with
  | nil => exact List.pairwise_singleton _ _
  | cons y R =>
      obtain ⟨hy, hR⟩ := List.pairwise_cons.mp hR
      rw [joinUp_cons]
      split
      · -- `m` and `y` merge: the merged block ends where `y` ends
        refine List.pairwise_cons.mpr ⟨fun z hz => ?_, hR⟩
        have := hy z hz
        rw [below_iff] at this ⊢
        simp only [headerSize_eq] at *
        omega
      · refine List.pairwise_cons.mpr ⟨fun z hz => ?_, List.pairwise_cons.mpr ⟨hy, hR⟩⟩
        have hmy := hm y List.mem_cons_self
        rcases List.mem_cons.mp hz with rfl | hz
        · rw [below_iff]
          omega
        · have := hy z hz
          rw [below_iff] at this ⊢
          omega

theorem sorted_joinDown {lo M : List (Nat × Nat)} (hlo : lo.Pairwise Below)
    (hM : M.Pairwise Below) (hcross : ∀ x ∈ lo, ∀ z ∈ M, x.1 + headerSize * x.2 ≤ z.1) :
    (joinDown lo M).Pairwise Below := by
  rcases M with _ | ⟨m, R⟩
  · exact hlo
  obtain ⟨hm, hR⟩ := List.pairwise_cons.mp hM
  rcases List.eq_nil_or_concat' lo with rfl | ⟨lo, x, rfl⟩
  · rwa [joinDown_nil]
  obtain ⟨hlo, -, hx⟩ := List.pairwise_append.mp hlo
  have hxm := hcross x (List.mem_append_right _ (List.mem_singleton_self x)) m List.mem_cons_self
  -- a block below `x` ends before `x` starts, so before anything of `M`
  have hbelow : ∀ w ∈ lo, ∀ z ∈ m :: R, Below w z := fun w hw z hz => by
    have h₁ := hx w hw x (List.mem_singleton_self x)
    have h₂ := hcross x (List.mem_append_right _ (List.mem_singleton_self x)) z hz
    rw [below_iff] at h₁ ⊢
    omega
  rw [joinDown_concat]
  split
  · refine List.pairwise_append.mpr ⟨hlo, List.pairwise_cons.mpr ⟨fun z hz => ?_, hR⟩, ?_⟩
    · have := hm z hz
      rw [below_iff] at this ⊢
      simp only [headerSize_eq] at *
      omega
    · intro w hw z hz
      rcases List.mem_cons.mp hz with rfl | hz
      · exact hx w hw x (List.mem_singleton_self x)
      · exact hbelow w hw z (List.mem_cons_of_mem _ hz)
  · refine List.pairwise_append.mpr ⟨hlo, List.pairwise_cons.mpr ⟨fun z hz => ?_,
      List.pairwise_cons.mpr ⟨hm, hR⟩⟩, fun w hw z hz => ?_⟩
    · rcases List.mem_cons.mp hz with rfl | hz
      · rw [below_iff]
        omega
      · have := hm z hz
        rw [below_iff] at this ⊢
        omega
    · rcases List.mem_cons.mp hz with rfl | hz
      · exact hx w hw _ (List.mem_singleton_self _)
      · exact hbelow w hw z hz

theorem apart_joinUp (m : Nat × Nat) {R rest : List (Nat × Nat)}
    (h : (m :: R ++ rest).Pairwise Apart) (hpos : ∀ z ∈ R ++ rest, 0 < z.2) :
    (joinUp m R ++ rest).Pairwise Apart := by
  cases R with
  | nil => exact h
  | cons y R =>
      rw [joinUp_cons]
      split
      · exact apart_merge h ‹_› fun z hz => hpos z (List.mem_cons_of_mem _ hz)
      · exact h

theorem apart_joinDown {lo M rest : List (Nat × Nat)} (h : (lo ++ M ++ rest).Pairwise Apart)
    (hpos : ∀ z ∈ lo ++ M ++ rest, 0 < z.2) : (joinDown lo M ++ rest).Pairwise Apart := by
  rcases M with _ | ⟨m, R⟩
  · simpa [joinDown_nil_right] using h
  rcases List.eq_nil_or_concat' lo with rfl | ⟨lo, x, rfl⟩
  · rwa [joinDown_nil]
  rw [joinDown_concat]
  split
  · -- move `x` and `m` to the front, merge them, and move the result back
    have hperm : List.Perm (lo ++ [x] ++ m :: R ++ rest) (x :: m :: (lo ++ R ++ rest)) := by
      simp only [List.append_assoc, List.cons_append]
      exact List.perm_middle.trans (List.perm_middle.cons x)
    have hmerged := apart_merge (h.perm hperm Apart.symm) ‹_› fun z hz =>
      hpos z ((hperm.mem_iff).mpr (List.mem_cons_of_mem _ (List.mem_cons_of_mem _ hz)))
    refine hmerged.perm ?_ Apart.symm
    simp only [List.append_assoc, List.cons_append]
    exact List.perm_middle.symm
  · simpa using h

theorem within_joinUp {lo hi : Nat} (m : Nat × Nat) {R : List (Nat × Nat)}
    (h : ∀ z ∈ m :: R, Within lo hi z) : ∀ z ∈ joinUp m R, Within lo hi z := by
  cases R with
  | nil => exact h
  | cons y R =>
      rw [joinUp_cons]
      split
      · intro z hz
        rcases List.mem_cons.mp hz with rfl | hz
        · exact (h m List.mem_cons_self).join (h y (List.mem_cons_of_mem _ List.mem_cons_self)) ‹_›
        · exact h z (List.mem_cons_of_mem _ (List.mem_cons_of_mem _ hz))
      · exact h

theorem within_joinDown {lo hi : Nat} {L M : List (Nat × Nat)}
    (h : ∀ z ∈ L ++ M, Within lo hi z) : ∀ z ∈ joinDown L M, Within lo hi z := by
  rcases M with _ | ⟨m, R⟩
  · simpa [joinDown_nil_right] using h
  rcases List.eq_nil_or_concat' L with rfl | ⟨L, x, rfl⟩
  · rw [joinDown_nil]
    simpa using h
  rw [joinDown_concat]
  split
  · intro z hz
    rcases List.mem_append.mp hz with hz | hz
    · exact h z (by simp [hz])
    rcases List.mem_cons.mp hz with rfl | hz
    · exact (h x (by simp)).join (h m (by simp)) ‹_›
    · exact h z (by simp [hz])
  · intro z hz
    exact h z (by simpa using hz)

/-- The heap of a program that called `malloc`: the free list is `base` and
then the blocks `fl` in address order, linked round to `base`, with a gap
between any two of them; the blocks `live` are handed out with their sizes in
their headers; no two blocks overlap, and all lie between the program's
initial size `brk0` and its size `brk`. -/
structure Layout (base brk0 brk : Nat) (mem : Nat → Header) (fl live : List (Nat × Nat)) :
    Prop where
  links : Links mem base ((base, 0) :: fl)
  size : ∀ x ∈ live, (mem x.1).size = x.2
  sorted : fl.Pairwise Below
  apart : (fl ++ live).Pairwise Apart
  within : ∀ x ∈ fl ++ live, Within brk0 brk x
  grown : brk0 ≤ brk

/-- A list of distinct addresses below `N` has at most `N` entries. -/
theorem length_le_of_lt {l : List Nat} {N : Nat} (hnd : l.Nodup) (hl : ∀ a ∈ l, a < N) :
    l.length ≤ N := by
  rw [← List.toFinset_card_of_nodup hnd, ← Finset.card_range N]
  exact Finset.card_le_card fun a ha => Finset.mem_range.mpr (hl a (List.mem_toFinset.mp ha))

/-- In a list sorted by address, a block above `x` comes after it. -/
theorem mem_right_of_lt {B X Y : List (Nat × Nat)} {x z : Nat × Nat}
    (hs : B.Pairwise (·.1 < ·.1)) (hB : B = X ++ x :: Y) (hz : z ∈ B) (h : x.1 < z.1) : z ∈ Y := by
  subst hB
  rcases List.mem_append.mp hz with hz | hz
  · exact absurd ((List.pairwise_append.mp hs).2.2 z hz x List.mem_cons_self) (by omega)
  · rcases List.mem_cons.mp hz with rfl | hz
    · omega
    · exact hz

/-- `free`'s test at a block `x` of a list sorted by address, followed by
the blocks `Y` and then `base`: it holds exactly when `x` is the last block
below `bp`. -/
theorem freeStop_iff {bp base : Nat} {x : Nat × Nat} {Y : List (Nat × Nat)} {c : Header}
    (hc : c.ptr = (Y.head?.map Prod.fst).getD base) (hY : (x :: Y).Pairwise (·.1 < ·.1))
    (hba : base ≤ x.1) (hbp : base < bp) (hbY : ∀ y ∈ Y, y.1 ≠ bp) :
    freeStop bp x.1 c = true ↔ x.1 < bp ∧ ∀ y ∈ Y, bp < y.1 := by
  cases Y with
  | nil =>
      simp only [List.head?_nil, Option.map_none, Option.getD_none] at hc
      delta freeStop
      simp only [hc, Bool.or_eq_true, Bool.and_eq_true, decide_eq_true_eq,
        List.not_mem_nil, IsEmpty.forall_iff, implies_true, and_true]
      constructor <;> intro h <;> omega
  | cons y Y =>
      simp only [List.head?_cons, Option.map_some, Option.getD_some] at hc
      have hxy : x.1 < y.1 := List.rel_of_pairwise_cons hY List.mem_cons_self
      have hyY : ∀ z ∈ Y, y.1 < z.1 := fun z hz =>
        List.rel_of_pairwise_cons (List.pairwise_cons.mp hY).2 hz
      have hne := hbY y List.mem_cons_self
      delta freeStop
      simp only [hc, Bool.or_eq_true, Bool.and_eq_true, decide_eq_true_eq,
        List.forall_mem_cons]
      constructor
      · rintro (⟨h₁, h₂⟩ | ⟨h₁, -⟩)
        · exact ⟨h₁, h₂, fun z hz => Nat.lt_trans h₂ (hyY z hz)⟩
        · omega
      · rintro ⟨h₁, h₂, -⟩
        exact .inl ⟨h₁, h₂⟩

section Layout

variable {base brk0 brk : Nat} {mem : Nat → Header} {fl live : List (Nat × Nat)}

theorem Layout.sorted_blocks (hL : Layout base brk0 brk mem fl live)
    (hb : base + headerSize ≤ brk0) : ((base, 0) :: fl).Pairwise (·.1 < ·.1) := by
  refine List.pairwise_cons.mpr ⟨fun y hy => ?_, hL.sorted.imp fun h => by rw [below_iff] at h; omega⟩
  have := (hL.within y (List.mem_append_left _ hy)).2.1
  simp only [headerSize_eq] at hb
  omega

theorem Layout.nodup (hL : Layout base brk0 brk mem fl live) (hb : base + headerSize ≤ brk0) :
    (base :: fl.map Prod.fst).Nodup :=
  List.pairwise_map.mpr ((hL.sorted_blocks hb).imp Nat.ne_of_lt)

/-- The free list from `base` round to `base`. -/
theorem Layout.seg (hL : Layout base brk0 brk mem fl live) (hb0 : 0 < base)
    (hb : base + headerSize ≤ brk0) :
    Heap.Seg Header.ptr (cells mem) base (base :: fl.map Prod.fst) base := by
  refine hL.links.seg fun x hx => ?_
  rcases List.mem_cons.mp hx with rfl | hx
  · exact Nat.pos_iff_ne_zero.mp hb0
  · have := (hL.within x (List.mem_append_left _ hx)).2.1
    omega

/-- The free list has at most `brk` blocks, so the loops that walk it have
fuel enough. -/
theorem Layout.length_le (hL : Layout base brk0 brk mem fl live) (hb : base + headerSize ≤ brk0) :
    (base :: fl.map Prod.fst).length ≤ brk := by
  refine length_le_of_lt (hL.nodup hb) fun a ha => ?_
  have := hL.grown
  rcases List.mem_cons.mp ha with rfl | ha
  · simp only [headerSize_eq] at hb
    omega
  · obtain ⟨x, hx, rfl⟩ := List.mem_map.mp ha
    have hin := hL.within x (List.mem_append_left _ hx)
    simp only [within_iff, headerSize_eq] at hin
    omega

/-- The link of a block of the free list is the next block, or `base`. -/
theorem Layout.ptr_eq (hL : Layout base brk0 brk mem fl live) {X Y : List (Nat × Nat)}
    {x : Nat × Nat} (hB : (base, 0) :: fl = X ++ x :: Y) :
    (mem x.1).ptr = (Y.head?.map Prod.fst).getD base := by
  have h := (links_append.1 (hB ▸ hL.links)).2.1
  rw [h]

/-- `free`'s search, from any block of the list, stops at the last block
below `bp`. -/
theorem Layout.free_walk (hL : Layout base brk0 brk mem fl live) (hb0 : 0 < base)
    (hb : base + headerSize ≤ brk0) (hfuel : brk ≤ loopFuel) {bp : Nat}
    {lo hi : List (Nat × Nat)} (hfl : fl = lo ++ hi) (hlo : ∀ x ∈ lo, x.1 < bp)
    (hhi : ∀ y ∈ hi, bp < y.1) (hbp : base < bp) {I : List (Nat × Nat)} {xp : Nat × Nat}
    (hxp : (base, 0) :: lo = I ++ [xp]) {F : Nat} (hF : F ∈ base :: fl.map Prod.fst) :
    Heap.walk Header.ptr (cells mem) (freeStop bp) loopFuel F = some xp.1 := by
  have hsort := hL.sorted_blocks hb
  -- the free list splits at `xp`, the last block below `bp`
  have hI : (base, 0) :: fl = I ++ xp :: hi := by
    rw [hfl, ← List.cons_append, hxp, List.append_assoc, List.singleton_append]
  have hxpbp : xp.1 < bp := by
    have hmem : xp ∈ (base, 0) :: lo := hxp ▸ List.mem_append_right _ (List.mem_singleton_self xp)
    rcases List.mem_cons.mp hmem with h | h
    · rw [h]; exact hbp
    · exact hlo _ h
  have hbase : ∀ z ∈ (base, 0) :: fl, base ≤ z.1 := by
    intro z hz
    rcases List.mem_cons.mp hz with rfl | hz
    · exact le_rfl
    · exact Nat.le_of_lt (List.rel_of_pairwise_cons hsort hz)
  have hnotbp : ∀ z ∈ (base, 0) :: fl, z.1 ≠ bp := by
    intro z hz
    rcases List.mem_cons.mp hz with rfl | hz
    · exact Nat.ne_of_lt hbp
    · rw [hfl] at hz
      rcases List.mem_append.mp hz with hz | hz
      · exact Nat.ne_of_lt (hlo z hz)
      · exact Nat.ne_of_gt (hhi z hz)
  -- `free`'s test at any block, in terms of the blocks after it
  have hstop : ∀ {X Y : List (Nat × Nat)} {x : Nat × Nat}, (base, 0) :: fl = X ++ x :: Y →
      (freeStop bp x.1 (mem x.1) = true ↔ x.1 < bp ∧ ∀ y ∈ Y, bp < y.1) := by
    intro X Y x hB
    have hx : x ∈ (base, 0) :: fl := hB ▸ List.mem_append_right _ List.mem_cons_self
    refine freeStop_iff (hL.ptr_eq hB) (List.pairwise_append.mp (hB ▸ hsort)).2.1 (hbase x hx) hbp
      fun y hy => hnotbp y (hB ▸ List.mem_append_right _ (List.mem_cons_of_mem _ hy))
  obtain ⟨U, V, hUV⟩ := List.append_of_mem hF
  have hperm : (F :: V ++ U).Perm (base :: fl.map Prod.fst) := by
    rw [hUV]
    exact List.perm_append_comm
  have haddrs : base :: fl.map Prod.fst = ((base, 0) :: fl).map Prod.fst := rfl
  refine Heap.walk_cycle (freeStop bp) (hUV ▸ hL.seg hb0 hb).rotate
    ((hperm.nodup_iff).mpr (hL.nodup hb)) ?_ ?_ ?_ ?_
  · rw [hperm.mem_iff, haddrs, hI]
    exact List.mem_map_of_mem (List.mem_append_right _ List.mem_cons_self)
  · intro a ha hne c hc
    rw [hperm.mem_iff, haddrs] at ha
    obtain ⟨x, hx, rfl⟩ := List.mem_map.mp ha
    cases hc
    obtain ⟨X, Y, hB⟩ := List.append_of_mem hx
    rw [← Bool.not_eq_true, hstop hB]
    rintro ⟨hlt, hY⟩
    -- a block that stops is `xp`: one above `xp` lies above `bp`, one below is not the last
    rcases Nat.lt_trichotomy x.1 xp.1 with h | h | h
    · have := hY xp (mem_right_of_lt hsort hB (hI ▸ List.mem_append_right _ List.mem_cons_self) h)
      omega
    · exact hne h
    · have := hhi x (mem_right_of_lt hsort hI hx h)
      omega
  · intro c hc
    cases hc
    exact (hstop hI).mpr ⟨hxpbp, hhi⟩
  · rw [hperm.length_eq]
    exact (hL.length_le hb).trans hfuel

/-- `free`'s first merge, read on the free blocks `hi` above the block `b`:
the first block of `joinUp b hi` has its header at `b.1`, linked to the rest. -/
theorem joinAbove_eq {b : Nat × Nat} {p : Nat} {hi : List (Nat × Nat)}
    (hp : (mem p).ptr = (hi.head?.map Prod.fst).getD base) (hhi : Links mem base hi)
    (hbs : (mem b.1).size = b.2) (hbase : b.1 + headerSize * b.2 ≠ base)
    (hsmall : ∀ y ∈ hi, b.2 + y.2 < 2 ^ 32) :
    ∃ m R, joinUp b hi = m :: R ∧ m.1 = b.1 ∧ (∀ x ∈ R, x ∈ hi) ∧ Links mem base R ∧
      joinAbove mem b.1 p = Function.update mem b.1 ⟨(R.head?.map Prod.fst).getD base, m.2⟩ := by
  cases hi with
  | nil =>
      simp only [List.head?_nil, Option.map_none, Option.getD_none] at hp
      refine ⟨b, [], rfl, rfl, by simp, trivial, ?_⟩
      delta joinAbove
      rw [hbs, hp, if_neg hbase, ← hbs]
      rfl
  | cons y R =>
      obtain ⟨hy, hR⟩ := hhi
      simp only [List.head?_cons, Option.map_some, Option.getD_some] at hp
      by_cases hadj : b.1 + headerSize * b.2 = y.1
      · refine ⟨(b.1, b.2 + y.2), R, by simp [joinUp_cons, hadj], rfl,
          fun x hx => List.mem_cons_of_mem _ hx, hR, ?_⟩
        delta joinAbove
        rw [hbs, hp, if_pos hadj, hy, Nat.mod_eq_of_lt (hsmall y List.mem_cons_self)]
      · refine ⟨b, y :: R, by simp [joinUp_cons, hadj], rfl, fun x hx => hx, ⟨hy, hR⟩, ?_⟩
        delta joinAbove
        rw [hbs, hp, if_neg hadj, ← hbs]
        rfl

/-- `free`'s second merge, on the blocks `I` up to the block `xp` where the
search stopped, the block `m` the first merge left at its header, and the
free blocks `R` after it: `xp` takes `m` over, or links to it. -/
theorem joinBelow_links {lo I R : List (Nat × Nat)} {xp m : Nat × Nat}
    (hxp : (base, 0) :: lo = I ++ [xp]) (hI : Links mem xp.1 I) (hR : Links mem base R)
    (hxps : (mem xp.1).size = xp.2) (hm : mem m.1 = ⟨(R.head?.map Prod.fst).getD base, m.2⟩)
    (hne : xp.1 ≠ m.1) (hIa : ∀ x ∈ I, x.1 ≠ xp.1) (hRa : ∀ x ∈ R, x.1 ≠ xp.1)
    (hbase : base ≠ m.1) (hsmall : xp.2 + m.2 < 2 ^ 32) :
    Links (joinBelow mem m.1 xp.1) base ((base, 0) :: joinDown lo (m :: R)) ∧
      xp.1 ∈ base :: (joinDown lo (m :: R)).map Prod.fst := by
  by_cases hadj : xp.1 + headerSize * xp.2 = m.1
  · -- `xp` is a free block, not `base`, and it takes `m` over
    cases I with
    | nil =>
        obtain ⟨rfl, -⟩ : (base, 0) = xp ∧ lo = [] := by simpa using hxp
        simp [headerSize_eq] at hadj
        exact absurd hadj hbase
    | cons i I =>
        obtain ⟨rfl, rfl⟩ : (base, 0) = i ∧ lo = I ++ [xp] := by simpa using hxp
        have hjb : joinBelow mem m.1 xp.1 =
            Function.update mem xp.1 ⟨(R.head?.map Prod.fst).getD base, xp.2 + m.2⟩ := by
          delta joinBelow
          rw [hxps, if_pos hadj, hm, Nat.mod_eq_of_lt hsmall]
        rw [joinDown_concat, if_pos hadj, hjb, ← List.cons_append]
        refine ⟨links_append.2 ⟨hI.frame fun x hx => Function.update_of_ne (hIa x hx) _ _,
          Function.update_self .., hR.frame fun x hx => Function.update_of_ne (hRa x hx) _ _⟩, ?_⟩
        simp
  · -- `xp` links to `m`
    have hlast : ((base, 0) :: lo).getLast? = some xp := by rw [hxp]; simp
    rw [joinDown_of_not_adj R fun x hx => by
      rw [List.getLast?_cons, Option.mem_def.mp hx] at hlast
      cases hlast
      exact hadj]
    have hjb : joinBelow mem m.1 xp.1 = Function.update mem xp.1 ⟨m.1, xp.2⟩ := by
      delta joinBelow
      rw [hxps, if_neg hadj, ← hxps]
    have hmem : xp ∈ (base, 0) :: lo := hxp ▸ List.mem_append_right _ (List.mem_singleton_self xp)
    rw [hjb, ← List.cons_append, hxp, List.append_assoc, List.singleton_append]
    refine ⟨links_append.2 ⟨hI.frame fun x hx => Function.update_of_ne (hIa x hx) _ _,
      Function.update_self .., (Function.update_of_ne hne.symm _ _).trans hm,
      hR.frame fun x hx => Function.update_of_ne (hRa x hx) _ _⟩, ?_⟩
    rcases List.mem_cons.mp hmem with rfl | hmem
    · exact List.mem_cons_self
    · exact List.mem_cons_of_mem _ (List.mem_map_of_mem (List.mem_append_left _ hmem))

/-- The free blocks split at a block that shares no byte with any of them. -/
theorem split_blocks {fl : List (Nat × Nat)} (hs : fl.Pairwise Below) {b : Nat × Nat}
    (hapart : ∀ x ∈ fl, Apart x b) :
    ∃ lo hi, fl = lo ++ hi ∧ (∀ x ∈ lo, x.1 + headerSize * x.2 ≤ b.1) ∧
      ∀ y ∈ hi, b.1 + headerSize * b.2 ≤ y.1 := by
  induction fl with
  | nil => exact ⟨[], [], rfl, by simp, by simp⟩
  | cons x l ih =>
      obtain ⟨hx, hl⟩ := List.pairwise_cons.mp hs
      rcases hapart x List.mem_cons_self with hxb | hbx
      · obtain ⟨lo, hi, rfl, hlo, hhi⟩ := ih hl fun y hy => hapart y (List.mem_cons_of_mem _ hy)
        refine ⟨x :: lo, hi, rfl, fun z hz => ?_, hhi⟩
        rcases List.mem_cons.mp hz with rfl | hz
        · exact hxb
        · exact hlo z hz
      · refine ⟨[], x :: l, rfl, by simp, fun y hy => ?_⟩
        rcases List.mem_cons.mp hy with rfl | hy
        · exact hbx
        · exact hbx.trans (Nat.le_of_lt (hx y hy).lt)

/-- `free` of a handed-out block `b`: the search stops at the last free
block below `b`, and the free list is then `joinDown lo (joinUp b hi)`, for the
free blocks `lo` below `b` and `hi` above it; `freep` stays on the list. -/
theorem Layout.after_free {h : Arena} {b : Nat × Nat} (hL : Layout base brk0 h.brk h.mem fl (b :: live))
    (hb0 : 0 < base) (hb : base + headerSize ≤ brk0) (hbrk : h.brk < 2 ^ 31)
    (hF : h.freep ∈ base :: fl.map Prod.fst) :
    ∃ p fl', free h (b.1 + headerSize) =
        some { h with mem := joinBelow (joinAbove h.mem b.1 p) b.1 p, freep := p } ∧
      Layout base brk0 h.brk (joinBelow (joinAbove h.mem b.1 p) b.1 p) fl' live ∧
      p ∈ base :: fl'.map Prod.fst ∧ ∃ x ∈ fl', b.2 ≤ x.2 := by
  have hall : ∀ z ∈ fl ++ b :: live, Within brk0 h.brk z := hL.within
  have hsmall : ∀ z ∈ fl ++ b :: live, z.2 < 2 ^ 27 := fun z hz => by
    have := hall z hz
    simp only [within_iff, headerSize_eq] at this
    omega
  have hbW := hall b (by simp)
  have hbase_lt : base < b.1 := by
    rw [within_iff] at hbW
    simp only [headerSize_eq] at hb
    omega
  have hsort := hL.sorted_blocks hb
  -- the free blocks below `b`, and those above it
  obtain ⟨lo, hi, hfl, hlo, hhi⟩ := split_blocks hL.sorted fun x hx =>
    (List.pairwise_append.mp hL.apart).2.2 x hx b List.mem_cons_self
  obtain ⟨I, xp, hxp⟩ : ∃ I xp, (base, 0) :: lo = I ++ [xp] :=
    ⟨_, _, (List.dropLast_append_getLast (List.cons_ne_nil _ _)).symm⟩
  have hI : (base, 0) :: fl = I ++ xp :: hi := by
    rw [hfl, ← List.cons_append, hxp, List.append_assoc, List.singleton_append]
  have hpos : ∀ z ∈ fl ++ b :: live, 0 < z.2 := fun z hz => (hall z hz).1
  have hxpb : xp.1 + headerSize * xp.2 ≤ b.1 ∧ xp.1 < b.1 := by
    have hmem : xp ∈ (base, 0) :: lo := hxp ▸ List.mem_append_right _ (List.mem_singleton_self xp)
    rcases List.mem_cons.mp hmem with rfl | hmem
    · simp only [headerSize_eq]
      omega
    · have h₁ := hlo xp hmem
      have h₂ := hpos xp (by simp [hfl, hmem])
      simp only [headerSize_eq] at h₁ ⊢
      omega
  have hlinks := links_append.1 (hI ▸ hL.links)
  have hxp_ne : xp.1 ≠ b.1 := Nat.ne_of_lt hxpb.2
  -- the search
  have hwalk : Heap.walk Header.ptr (cells h.mem) (freeStop b.1) loopFuel h.freep = some xp.1 := by
    refine hL.free_walk hb0 hb (by delta loopFuel; omega) hfl (fun x hx => ?_) (fun y hy => ?_)
      hbase_lt hxp hF
    · have := hpos x (by simp [hfl, hx])
      have := hlo x hx
      simp only [headerSize_eq] at this
      omega
    · have h₁ := hhi y hy
      have h₂ := hbW.1
      simp only [headerSize_eq] at h₁
      omega
  -- the first merge
  obtain ⟨m, R, hup, hm1, hRhi, hRlinks, habove⟩ := joinAbove_eq
    (hL.ptr_eq hI) hlinks.2.2 (hL.size b List.mem_cons_self)
    (by simp only [headerSize_eq]; omega) fun y hy => by
      have h₁ := hsmall y (by simp [hfl, hy])
      have h₂ := hsmall b (by simp)
      omega
  have hRb : ∀ x ∈ R, b.1 < x.1 := fun x hx => by
    have h₁ := hhi x (hRhi x hx)
    have h₂ := hbW.1
    simp only [headerSize_eq] at h₁
    omega
  have hIxp : ∀ x ∈ I, x.1 < xp.1 := fun x hx =>
    (List.pairwise_append.mp (hI ▸ hsort)).2.2 x hx xp List.mem_cons_self
  have hxp_mem : xp ∈ (base, 0) :: fl := hI ▸ List.mem_append_right _ List.mem_cons_self
  have hmW : ∀ z ∈ m :: R, Within brk0 h.brk z := by
    rw [← hup]
    refine within_joinUp b fun z hz => hall z ?_
    rcases List.mem_cons.mp hz with rfl | hz
    · simp
    · simp [hfl, hz]
  have hm2 : m.2 < 2 ^ 27 := by
    have := hmW m List.mem_cons_self
    simp only [within_iff, headerSize_eq] at this
    omega
  have hxp2 : xp.2 < 2 ^ 27 := by
    rcases List.mem_cons.mp hxp_mem with rfl | hx
    · simp
    · exact hsmall xp (List.mem_append_left _ hx)
  -- the second merge
  have hI1 : Links (Function.update h.mem b.1 ⟨(R.head?.map Prod.fst).getD base, m.2⟩) xp.1 I :=
    hlinks.1.frame fun x hx => Function.update_of_ne (Nat.ne_of_lt ((hIxp x hx).trans hxpb.2)) _ _
  obtain ⟨hlk, hpmem⟩ := joinBelow_links hxp hI1
    (hRlinks.frame fun x hx => Function.update_of_ne (Nat.ne_of_gt (hRb x hx)) _ _)
    (by rw [Function.update_of_ne hxp_ne]; exact hL.links.header hxp_mem)
    (by rw [hm1]; exact Function.update_self ..)
    (hm1 ▸ hxp_ne) (fun x hx => Nat.ne_of_lt (hIxp x hx))
    (fun x hx => Nat.ne_of_gt (hxpb.2.trans (hRb x hx))) (hm1 ▸ Nat.ne_of_lt hbase_lt) (by omega)
  rw [hm1] at hlk
  have hpos' : ∀ z ∈ lo ++ (m :: R) ++ live, 0 < z.2 := by
    intro z hz
    simp only [List.mem_append] at hz
    rcases hz with (hz | hz) | hz
    · exact hpos z (by simp [hfl, hz])
    · exact (hmW z hz).1
    · exact hpos z (by simp [hz])
  have hge : ∃ x ∈ joinDown lo (m :: R), b.2 ≤ x.2 := by
    obtain ⟨z, hz, hmz⟩ := exists_ge_joinDown lo m R
    exact ⟨z, hz, (le_joinUp_head b hi hup).trans hmz⟩
  refine ⟨xp.1, joinDown lo (m :: R), ?_, ⟨?_, fun v hv => ?_, ?_, ?_, ?_, hL.grown⟩, hpmem, hge⟩
  · simp only [free, Nat.add_sub_cancel, hwalk, Option.map_some]
  · rw [habove]
    exact hlk
  · -- a block still handed out is neither `b` nor `xp`
    have hvW := hall v (by simp [hv])
    have hbv : v.1 ≠ b.1 := fun e => (Apart.fst_ne
      (List.rel_of_pairwise_cons (List.pairwise_append.mp hL.apart).2.1 hv) hbW.1 hvW.1) e.symm
    have hxpv : v.1 ≠ xp.1 := by
      rcases List.mem_cons.mp hxp_mem with rfl | hx
      · have := hvW.2.1
        simp only [headerSize_eq] at hb
        simp only
        omega
      · exact fun e => (Apart.fst_ne ((List.pairwise_append.mp hL.apart).2.2 xp hx v
          (List.mem_cons_of_mem _ hv)) (hpos xp (List.mem_append_left _ hx)) hvW.1) e.symm
    rw [joinBelow_of_ne _ hxpv, joinAbove_of_ne _ hbv]
    exact hL.size v (List.mem_cons_of_mem _ hv)
  · have hsorted := hfl ▸ hL.sorted
    refine sorted_joinDown (hsorted.sublist (List.sublist_append_left lo hi))
      (hup ▸ sorted_joinUp b (hsorted.sublist (List.sublist_append_right lo hi)) hhi)
      fun x hx z hz => ?_
    have h₁ := hlo x hx
    rcases List.mem_cons.mp hz with rfl | hz
    · omega
    · have := hRb z hz
      omega
  · -- the blocks, reordered so that the merges happen at the front
    have h0 : (b :: hi ++ (lo ++ live)).Pairwise Apart := hL.apart.perm (by
      rw [hfl]
      refine List.perm_middle.trans (List.Perm.cons b ?_)
      rw [List.append_assoc]
      exact List.perm_append_comm_assoc _ _ _) Apart.symm
    have h1 := apart_joinUp b h0 fun z hz => hpos z (by
      simp only [List.mem_append] at hz
      rcases hz with hz | hz | hz <;> simp [hfl, hz])
    rw [hup] at h1
    refine apart_joinDown (h1.perm ?_ Apart.symm) hpos'
    rw [List.append_assoc]
    exact List.perm_append_comm_assoc _ _ _
  · intro z hz
    rcases List.mem_append.mp hz with hz | hz
    · refine within_joinDown (fun z hz => ?_) z hz
      rcases List.mem_append.mp hz with hz | hz
      · exact hall z (by simp [hfl, hz])
      · exact hmW z hz
    · exact hall z (by simp [hz])

/-- The cycle split at a block `x` after `w`: the free blocks before `x`
and after it. -/
theorem split_at_block {fl A B : List (Nat × Nat)} {w x : Nat × Nat}
    (hC : (base, 0) :: fl = A ++ w :: x :: B) :
    ∃ F, A ++ [w] = (base, 0) :: F ∧ fl = F ++ x :: B := by
  cases A with
  | nil =>
      obtain ⟨rfl, rfl⟩ : (base, 0) = w ∧ fl = x :: B := by simpa using hC
      exact ⟨[], rfl, rfl⟩
  | cons a A =>
      obtain ⟨rfl, rfl⟩ : (base, 0) = a ∧ fl = A ++ w :: x :: B := by simpa using hC
      exact ⟨A ++ [w], rfl, by simp⟩

/-- `malloc`'s loop takes a free block `x` of exactly `x.2` units whole: it
is unlinked after `w`, and handed out. -/
theorem Layout.after_take {mem : Nat → Header} (hL : Layout base brk0 brk mem fl live)
    (hb : base + headerSize ≤ brk0) {A B : List (Nat × Nat)} {w x : Nat × Nat}
    (hC : (base, 0) :: fl = A ++ w :: x :: B) :
    ∃ fl', Layout base brk0 brk (Function.update mem w.1 { mem w.1 with ptr := (mem x.1).ptr })
        fl' (live ++ [x]) ∧ w.1 ∈ base :: fl'.map Prod.fst := by
  obtain ⟨F, hF, rfl⟩ := split_at_block hC
  have hsort := hC ▸ hL.sorted_blocks hb
  obtain ⟨hA, hw, hx, hB⟩ : Links mem w.1 A ∧ mem w.1 = ⟨x.1, w.2⟩ ∧
      mem x.1 = ⟨(B.head?.map Prod.fst).getD base, x.2⟩ ∧ Links mem base B := by
    have := links_append.1 (hC ▸ hL.links)
    exact ⟨this.1, this.2.1, this.2.2.1, this.2.2.2⟩
  -- addresses in the list are in increasing order
  have hAw : ∀ a ∈ A, a.1 < w.1 := fun a ha =>
    (List.pairwise_append.mp hsort).2.2 a ha w List.mem_cons_self
  have hwx : w.1 < x.1 := List.rel_of_pairwise_cons (List.pairwise_append.mp hsort).2.1
    List.mem_cons_self
  have hBw : ∀ c ∈ B, w.1 < c.1 := fun c hc => List.rel_of_pairwise_cons
    (List.pairwise_append.mp hsort).2.1 (List.mem_cons_of_mem _ hc)
  have hmem : w ∈ (base, 0) :: F := hF ▸ List.mem_append_right _ (List.mem_singleton_self w)
  refine ⟨F ++ B, ⟨?_, fun v hv => ?_, ?_, ?_, ?_, hL.grown⟩, ?_⟩
  · have hC' : (base, 0) :: (F ++ B) = A ++ w :: B := by
      rw [← List.cons_append, ← hF, List.append_assoc, List.singleton_append]
    rw [hC', links_append]
    refine ⟨hA.frame fun a ha => Function.update_of_ne (Nat.ne_of_lt (hAw a ha)) _ _, ?_,
      hB.frame fun c hc => Function.update_of_ne (Nat.ne_of_gt (hBw c hc)) _ _⟩
    rw [Function.update_self, hx, hw]
  · rcases List.mem_append.mp hv with hv | hv
    · -- a block handed out before does not start at `w`, a block of the list
      have hvW := hL.within v (List.mem_append_right _ hv)
      have hne : v.1 ≠ w.1 := by
        rcases List.mem_cons.mp hmem with rfl | hwF
        · have := hvW.2.1
          simp only [headerSize_eq] at hb
          simp only
          omega
        · exact fun e => Apart.fst_ne ((List.pairwise_append.mp hL.apart).2.2 w (by simp [hwF]) v hv)
            (hL.within w (by simp [hwF])).1 hvW.1 e.symm
      rw [Function.update_of_ne hne]
      exact hL.size v hv
    · rw [List.mem_singleton.mp hv, Function.update_of_ne (Nat.ne_of_gt hwx), hx]
  · exact hL.sorted.sublist ((List.sublist_cons_self x B).append_left F)
  · refine hL.apart.perm ?_ Apart.symm
    simp only [List.append_assoc, List.cons_append]
    refine List.Perm.append_left F ?_
    rw [← List.append_assoc]
    exact (List.perm_append_singleton x (B ++ live)).symm
  · intro z hz
    exact hL.within z (by simp only [List.mem_append, List.mem_cons] at hz ⊢; tauto)
  · rcases List.mem_cons.mp hmem with rfl | hwF
    · exact List.mem_cons_self
    · exact List.mem_cons_of_mem _ (List.mem_map_of_mem (List.mem_append_left _ hwF))

/-- `malloc`'s loop splits the tail end off a free block `x` of more than
`n` units: `x` keeps its head end, and its last `n` units are handed out. -/
theorem Layout.after_split {mem : Nat → Header} (hL : Layout base brk0 brk mem fl live)
    (hb : base + headerSize ≤ brk0) {A B : List (Nat × Nat)} {w x : Nat × Nat}
    (hC : (base, 0) :: fl = A ++ w :: x :: B) {n : Nat} (hn : 0 < n) (hx : n < x.2) :
    ∃ fl', Layout base brk0 brk
        (Function.update (Function.update mem x.1 { mem x.1 with size := x.2 - n })
          (x.1 + headerSize * (x.2 - n))
          { Function.update mem x.1 { mem x.1 with size := x.2 - n } (x.1 + headerSize * (x.2 - n))
            with size := n })
        fl' (live ++ [(x.1 + headerSize * (x.2 - n), n)]) ∧ w.1 ∈ base :: fl'.map Prod.fst := by
  obtain ⟨F, hF, rfl⟩ := split_at_block hC
  set q := x.1 + headerSize * (x.2 - n) with hq
  set x' : Nat × Nat := (x.1, x.2 - n)
  have hsort := hC ▸ hL.sorted_blocks hb
  obtain ⟨hA, hw, hxh, hB⟩ : Links mem w.1 A ∧ mem w.1 = ⟨x.1, w.2⟩ ∧
      mem x.1 = ⟨(B.head?.map Prod.fst).getD base, x.2⟩ ∧ Links mem base B := by
    have := links_append.1 (hC ▸ hL.links)
    exact ⟨this.1, this.2.1, this.2.2.1, this.2.2.2⟩
  have hxW := hL.within x (by simp)
  -- `q` lies strictly inside `x`, and every other block of the list lies outside it
  have hqx : x.1 < q ∧ q < x.1 + headerSize * x.2 := by
    simp only [hq, headerSize_eq]
    omega
  have hAx : ∀ a ∈ A ++ [w], a.1 < x.1 := fun a ha => by
    have := (List.pairwise_append.mp (show (A ++ [w] ++ x :: B).Pairwise (·.1 < ·.1) by
      simpa using hsort)).2.2 a ha x List.mem_cons_self
    exact this
  have hBx : ∀ c ∈ B, x.1 + headerSize * x.2 < c.1 := fun c hc =>
    List.rel_of_pairwise_cons (List.pairwise_append.mp hL.sorted).2.1 hc
  have hout : ∀ a, a ≠ x.1 → a ≠ q → Function.update (Function.update mem x.1
      { mem x.1 with size := x.2 - n }) q { Function.update mem x.1
        { mem x.1 with size := x.2 - n } q with size := n } a = mem a := fun a h₁ h₂ => by
    rw [Function.update_of_ne h₂, Function.update_of_ne h₁]
  have hxnew : Function.update (Function.update mem x.1 { mem x.1 with size := x.2 - n }) q
      { Function.update mem x.1 { mem x.1 with size := x.2 - n } q with size := n } x.1 =
      ⟨(B.head?.map Prod.fst).getD base, x.2 - n⟩ := by
    rw [Function.update_of_ne (Nat.ne_of_lt hqx.1), Function.update_self, hxh]
  have hmem : w ∈ (base, 0) :: F := hF ▸ List.mem_append_right _ (List.mem_singleton_self w)
  have hfl_apart := hL.apart
  rw [List.append_assoc, List.cons_append] at hfl_apart
  -- the blocks with `x` in front, and the new ones with the two halves of `x` in front
  have hrest : (x :: (F ++ (B ++ live))).Pairwise Apart := hfl_apart.perm List.perm_middle Apart.symm
  have hnew : (x' :: (q, n) :: (F ++ (B ++ live))).Pairwise Apart := by
    obtain ⟨hxr, hr⟩ := List.pairwise_cons.mp hrest
    have hpos : ∀ z ∈ F ++ (B ++ live), 0 < z.2 := fun z hz => (hL.within z (by
      simp only [List.mem_append, List.mem_cons] at hz ⊢; tauto)).1
    refine List.pairwise_cons.mpr ⟨fun z hz => ?_, List.pairwise_cons.mpr ⟨fun z hz => ?_, hr⟩⟩
    · rcases List.mem_cons.mp hz with rfl | hz
      · exact .inl (by simp [x', hq])
      · exact (hxr z hz).of_inside (le_refl _) (by simp only [x', headerSize_eq]; omega)
    · exact (hxr z hz).of_inside (Nat.le_of_lt hqx.1) (by simp only [hq, headerSize_eq]; omega)
  refine ⟨F ++ x' :: B, ⟨?_, fun v hv => ?_, ?_, ?_, ?_, hL.grown⟩, ?_⟩
  · have hC' : (base, 0) :: (F ++ x' :: B) = A ++ w :: x' :: B := by
      rw [← List.cons_append, ← hF, List.append_assoc, List.singleton_append]
    rw [hC', links_append]
    refine ⟨hA.frame fun a ha => hout a.1 (Nat.ne_of_lt (hAx a (by simp [ha])))
      (Nat.ne_of_lt ((hAx a (by simp [ha])).trans hqx.1)),
      (hout w.1 (Nat.ne_of_lt (hAx w (by simp))) (Nat.ne_of_lt ((hAx w (by simp)).trans hqx.1))).trans hw,
      hxnew, hB.frame fun c hc => hout c.1 ?_ ?_⟩
    · have := hBx c hc
      omega
    · have := hBx c hc
      omega
  · rcases List.mem_append.mp hv with hv | hv
    · -- a block handed out before lies outside `x`
      have hvW := hL.within v (List.mem_append_right _ hv)
      have hxv := (List.pairwise_append.mp hL.apart).2.2 x (by simp) v hv
      rw [apart_iff] at hxv
      have h₁ : v.1 ≠ x.1 := by
        have := hvW.1
        simp only [headerSize_eq] at hxv hqx ⊢
        omega
      have h₂ : v.1 ≠ q := by
        have := hvW.1
        simp only [headerSize_eq] at hxv hqx ⊢
        omega
      rw [hout v.1 h₁ h₂]
      exact hL.size v hv
    · rw [List.mem_singleton.mp hv, Function.update_self]
  · obtain ⟨hFs, hxB, hcross⟩ := List.pairwise_append.mp hL.sorted
    obtain ⟨hxc, hBs⟩ := List.pairwise_cons.mp hxB
    refine List.pairwise_append.mpr ⟨hFs, List.pairwise_cons.mpr ⟨fun c hc => ?_, hBs⟩,
      fun f hf z hz => ?_⟩
    · have := hxc c hc
      rw [below_iff] at this ⊢
      simp only [x', headerSize_eq] at this ⊢
      omega
    · rcases List.mem_cons.mp hz with rfl | hz
      · exact hcross f hf x List.mem_cons_self
      · exact hcross f hf z (List.mem_cons_of_mem _ hz)
  · refine hnew.perm ?_ Apart.symm
    simp only [List.append_assoc, List.cons_append]
    refine (List.Perm.cons x' ?_).trans List.perm_middle.symm
    rw [show F ++ (B ++ (live ++ [(q, n)])) = F ++ (B ++ live) ++ [(q, n)] by simp]
    exact (List.perm_append_singleton (q, n) (F ++ (B ++ live))).symm
  · intro z hz
    simp only [List.mem_append, List.mem_cons, List.not_mem_nil, or_false] at hz
    rcases hz with (hz | rfl | hz) | hz | rfl
    · exact hL.within z (by simp [hz])
    · exact hxW.of_inside (le_refl _) (by simp only [x', headerSize_eq]; omega) (by simp only [x']; omega)
    · exact hL.within z (by simp [hz])
    · exact hL.within z (by simp [hz])
    · exact hxW.of_inside (Nat.le_of_lt hqx.1) (by simp only [hq, headerSize_eq]; omega) hn
  · rcases List.mem_cons.mp hmem with rfl | hwF
    · exact List.mem_cons_self
    · exact List.mem_cons_of_mem _ (List.mem_map_of_mem (List.mem_append_left _ hwF))

/-- `malloc`'s fitting branch at a free block `x` linked after `w`: the heap
stays laid out, with the `n` units handed out among the live blocks. -/
theorem Layout.after_carve {h : Arena} (hL : Layout base brk0 h.brk h.mem fl live)
    (hb : base + headerSize ≤ brk0) {A B : List (Nat × Nat)} {w x : Nat × Nat}
    (hC : (base, 0) :: fl = A ++ w :: x :: B) {n : Nat} (hn : 0 < n) (hx : n ≤ x.2) :
    (carve h n w.1 x.1).2 ≠ 0 ∧ (carve h n w.1 x.1).1.brk = h.brk ∧
      ∃ fl', Layout base brk0 h.brk (carve h n w.1 x.1).1.mem fl'
          (live ++ [((carve h n w.1 x.1).2 - headerSize, n)]) ∧
        (carve h n w.1 x.1).1.freep ∈ base :: fl'.map Prod.fst := by
  have hxs : (h.mem x.1).size = x.2 := hL.links.header (hC ▸ by simp)
  delta carve
  rw [hxs]
  split
  · rename_i heq
    obtain ⟨fl', hL', hw⟩ := hL.after_take hb hC
    refine ⟨by simp [headerSize_eq], rfl, fl', ?_, hw⟩
    have hx' : (x.1, n) = x := by rw [← heq]
    simpa only [Nat.add_sub_cancel, hx'] using hL'
  · obtain ⟨fl', hL', hw⟩ := hL.after_split hb hC hn (lt_of_le_of_ne hx (Ne.symm ‹_›))
    refine ⟨by simp [headerSize_eq], rfl, fl', ?_, hw⟩
    simpa only [Function.update_self, Nat.add_sub_cancel] using hL'

/-- The heap after `sbrk` gave the `nu` units at the old size `brk`, with
that block counted as handed out until `morecore` frees it. -/
theorem Layout.grow {mem : Nat → Header} (hL : Layout base brk0 brk mem fl live)
    (hb : base + headerSize ≤ brk0) {nu : Nat} (hnu : 0 < nu) :
    Layout base brk0 (brk + headerSize * nu) (Function.update mem brk { mem brk with size := nu })
      fl ((brk, nu) :: live) := by
  have hbelow : ∀ z ∈ fl ++ live, z.1 < brk := fun z hz => by
    have := hL.within z hz
    simp only [within_iff, headerSize_eq] at this
    omega
  have hgrown := hL.grown
  have hbase : base < brk := by
    simp only [headerSize_eq] at hb
    omega
  refine ⟨hL.links.frame fun x hx => Function.update_of_ne ?_ _ _, fun v hv => ?_, hL.sorted,
    ?_, fun z hz => ?_, by omega⟩
  · rcases List.mem_cons.mp hx with rfl | hx
    · exact Nat.ne_of_lt hbase
    · exact Nat.ne_of_lt (hbelow x (List.mem_append_left _ hx))
  · rcases List.mem_cons.mp hv with rfl | hv
    · simp
    · rw [Function.update_of_ne (Nat.ne_of_lt (hbelow v (List.mem_append_right _ hv)))]
      exact hL.size v hv
  · -- the new block lies above every other one
    refine (List.pairwise_cons.mpr ⟨fun z hz => .inr ?_, hL.apart⟩).perm List.perm_middle.symm
      Apart.symm
    have := hL.within z hz
    exact this.2.2
  · rcases List.mem_append.mp hz with hz | hz
    · exact (hL.within z (List.mem_append_left _ hz)).mono (by omega)
    rcases List.mem_cons.mp hz with rfl | hz
    · exact ⟨hnu, hgrown, le_rfl⟩
    · exact (hL.within z (List.mem_append_right _ hz)).mono (by omega)

/-- `morecore` in a program that stays below `2^31` bytes: it fails only
when `uvmalloc` does, and otherwise frees a block of at least `n` units into
the free list. -/
theorem Layout.after_morecore {h : Arena} (hL : Layout base brk0 h.brk h.mem fl live)
    (hb0 : 0 < base) (hb : base + headerSize ≤ brk0) (hF : h.freep ∈ base :: fl.map Prod.fst)
    {n : Nat} (hguard : h.brk + headerSize * max n 4096 < 2 ^ 31) (ok : Bool) :
    (ok = false ∧ morecore h n ok = some none) ∨
    ∃ h' fl', morecore h n ok = some (some h') ∧ Layout base brk0 h'.brk h'.mem fl' live ∧
      h'.freep ∈ base :: fl'.map Prod.fst ∧ h'.brk < 2 ^ 31 ∧ ∃ x ∈ fl', n ≤ x.2 := by
  have hnu : max n 4096 = if n < 4096 then 4096 else n := by
    split <;> omega
  rw [hnu] at hguard
  have hbrk : h.brk < 2 ^ 31 := by omega
  have hsb := @sbrk_grow h.brk ((if n < 4096 then 4096 else n) * headerSize)
    (by simp only [headerSize_eq]; split <;> omega) (by rw [Nat.mul_comm]; exact hguard) ok
  cases ok with
  | false =>
      refine .inl ⟨rfl, ?_⟩
      delta morecore
      simp only [hsb, Bool.false_eq_true, if_false, if_true]
  | true =>
      right
      have hpos : 0 < if n < 4096 then 4096 else n := by split <;> omega
      rw [if_pos rfl] at hsb
      have hmc : morecore h n true = (free { h with
          mem := Function.update h.mem h.brk { h.mem h.brk with size := if n < 4096 then 4096 else n },
          brk := h.brk + (if n < 4096 then 4096 else n) * headerSize } (h.brk + headerSize)).map some := by
        delta morecore
        simp only [hsb, ofNat_ne_neg_one hbrk, if_false, ptrOf_ofNat hbrk]
      set nu := if n < 4096 then 4096 else n
      set h1 : Arena := { h with
        mem := Function.update h.mem h.brk { h.mem h.brk with size := nu },
        brk := h.brk + nu * headerSize }
      have hguard' : h1.brk < 2 ^ 31 := by
        simp only [h1, Nat.mul_comm nu]
        exact hguard
      have hL' : Layout base brk0 h1.brk h1.mem fl ((h.brk, nu) :: live) := by
        simpa only [h1, Nat.mul_comm nu] using hL.grow hb hpos
      obtain ⟨p, fl', hfree, hL'', hp, x, hx, hnx⟩ :=
        Layout.after_free (b := (h.brk, nu)) hL' hb0 hb hguard' hF
      refine ⟨{ h1 with mem := joinBelow (joinAbove h1.mem h.brk p) h.brk p, freep := p }, fl',
        by rw [hmc, hfree]; rfl, hL'', hp, hguard', x, hx,
        le_trans (by simp only [nu]; split <;> omega) hnx⟩

end Layout

/-! ## `malloc`'s search -/

section Search

variable {n : Nat} (ok : Bool) {h : Arena}

/-- A pass of the loop, read off the definition. -/
theorem mallocLoop_succ (fuel : Nat) (h : Arena) (prevp p : Nat) :
    mallocLoop n ok (fuel + 1) h prevp p =
      if n ≤ (h.mem p).size then some (carve h n prevp p)
      else if p = h.freep then
        match morecore h n ok with
        | none => none
        | some none => some (h, 0)
        | some (some h) => mallocLoop n ok fuel h h.freep (h.mem h.freep).ptr
      else mallocLoop n ok fuel h p (h.mem p).ptr := rfl

theorem mallocLoop_fit (fuel : Nat) {prevp p : Nat} (hp : n ≤ (h.mem p).size) :
    mallocLoop n ok (fuel + 1) h prevp p = some (carve h n prevp p) := by
  rw [mallocLoop_succ, if_pos hp]

theorem mallocLoop_next (fuel : Nat) {prevp p : Nat} (hp : (h.mem p).size < n) (hF : p ≠ h.freep) :
    mallocLoop n ok (fuel + 1) h prevp p = mallocLoop n ok fuel h p (h.mem p).ptr := by
  rw [mallocLoop_succ, if_neg (Nat.not_le.mpr hp), if_neg hF]

theorem mallocLoop_more_none (fuel : Nat) {w : Nat} (hp : (h.mem h.freep).size < n)
    (hm : morecore h n ok = some none) : mallocLoop n ok (fuel + 1) h w h.freep = some (h, 0) := by
  rw [mallocLoop_succ, if_neg (Nat.not_le.mpr hp), if_pos rfl, hm]

theorem mallocLoop_more_some (fuel : Nat) {w : Nat} {h' : Arena} (hp : (h.mem h.freep).size < n)
    (hm : morecore h n ok = some (some h')) :
    mallocLoop n ok (fuel + 1) h w h.freep = mallocLoop n ok fuel h' h'.freep (h'.mem h'.freep).ptr := by
  rw [mallocLoop_succ, if_neg (Nat.not_le.mpr hp), if_pos rfl, hm]

/-- `malloc`'s loop along linked blocks none of which is `freep`: it carves
the first large enough, or goes past them all. -/
theorem mallocLoop_links {t : Nat} {l : List (Nat × Nat)} (hl : Links h.mem t l)
    (hF : ∀ x ∈ l, x.1 ≠ h.freep) (prevp fuel : Nat) :
    (∃ l₁ x l₂, l = l₁ ++ x :: l₂ ∧ n ≤ x.2 ∧
      mallocLoop n ok (fuel + l.length) h prevp ((l.head?.map Prod.fst).getD t) =
        some (carve h n ((prevp :: l₁.map Prod.fst).getLast (List.cons_ne_nil _ _)) x.1)) ∨
    ((∀ x ∈ l, x.2 < n) ∧
      mallocLoop n ok (fuel + l.length) h prevp ((l.head?.map Prod.fst).getD t) =
        mallocLoop n ok fuel h ((prevp :: l.map Prod.fst).getLast (List.cons_ne_nil _ _)) t) := by
  induction l generalizing prevp with
  | nil => exact .inr ⟨by simp, by simp⟩
  | cons x l ih =>
      obtain ⟨hx, hl⟩ := hl
      have hxs : (h.mem x.1).size = x.2 := by rw [hx]
      have hfuel : fuel + (x :: l).length = fuel + l.length + 1 := by simp; omega
      simp only [List.head?_cons, Option.map_some, Option.getD_some, hfuel]
      by_cases hfit : n ≤ x.2
      · exact .inl ⟨[], x, l, rfl, hfit, by simpa using mallocLoop_fit ok _ (hxs ▸ hfit)⟩
      rw [mallocLoop_next ok _ (hxs ▸ Nat.not_le.mp hfit) (hF x List.mem_cons_self), hx]
      rcases ih hl (fun y hy => hF y (List.mem_cons_of_mem _ hy)) x.1 with
        ⟨l₁, y, l₂, rfl, hy, hrun⟩ | ⟨hno, hrun⟩
      · exact .inl ⟨x :: l₁, y, l₂, rfl, hy, by simpa using hrun⟩
      · refine .inr ⟨fun y hy => ?_, by simpa using hrun⟩
        rcases List.mem_cons.mp hy with rfl | hy
        · exact Nat.not_le.mp hfit
        · exact hno y hy

/-- The block before `x` in a list split at `x`. -/
theorem split_pred {C P B : List (Nat × Nat)} {x : Nat × Nat} (hC : C = P ++ x :: B) (hP : P ≠ []) :
    C = P.dropLast ++ P.getLast hP :: x :: B := by
  rw [hC]
  nth_rewrite 1 [← List.dropLast_append_getLast hP]
  simp

theorem getLast_fst (a : Nat × Nat) (l : List (Nat × Nat)) :
    (a.1 :: l.map Prod.fst).getLast (List.cons_ne_nil _ _) =
      ((a :: l).getLast (List.cons_ne_nil _ _)).1 :=
  List.getLast_map (f := Prod.fst) (l := a :: l) (List.cons_ne_nil _ _)

end Search

section Round

variable {base brk0 brk : Nat} {fl live : List (Nat × Nat)} {n : Nat} (ok : Bool) {h : Arena}

/-- One round of `malloc`'s loop from `freep`: it carves the first free block
large enough after `freep`, or comes back to `freep` when there is none. -/
theorem Layout.malloc_round (hL : Layout base brk0 h.brk h.mem fl live)
    (hb : base + headerSize ≤ brk0) (hF : h.freep ∈ base :: fl.map Prod.fst) (hn : 0 < n)
    (fuel : Nat) :
    (∃ P x B, ∃ hP : P ≠ [], (base, 0) :: fl = P ++ x :: B ∧ n ≤ x.2 ∧
      mallocLoop n ok (fuel + (fl.length + 1)) h h.freep (h.mem h.freep).ptr =
        some (carve h n (P.getLast hP).1 x.1)) ∨
    ((∀ x ∈ fl, x.2 < n) ∧ ∃ w,
      mallocLoop n ok (fuel + (fl.length + 1)) h h.freep (h.mem h.freep).ptr =
        mallocLoop n ok (fuel + 1) h w h.freep) := by
  have hnd := hL.nodup hb
  obtain ⟨f, hfC, hfF⟩ : ∃ f ∈ (base, 0) :: fl, f.1 = h.freep := by
    have hF' : h.freep ∈ ((base, 0) :: fl).map Prod.fst := hF
    obtain ⟨f, hf, e⟩ := List.mem_map.mp hF'
    exact ⟨f, hf, e⟩
  obtain ⟨U, V, hC⟩ := List.append_of_mem hfC
  have hnd' : ((U ++ f :: V).map Prod.fst).Nodup := by rw [← hC]; simpa using hnd
  rw [List.map_append, List.map_cons] at hnd'
  have hUF : ∀ y ∈ U, y.1 ≠ h.freep := fun y hy e =>
    (List.nodup_middle.mp hnd' |> List.nodup_cons.mp).1
      (List.mem_append_left _ (hfF ▸ e ▸ List.mem_map_of_mem hy))
  have hVF : ∀ y ∈ V, y.1 ≠ h.freep := fun y hy e =>
    (List.nodup_middle.mp hnd' |> List.nodup_cons.mp).1
      (List.mem_append_right _ (hfF ▸ e ▸ List.mem_map_of_mem hy))
  obtain ⟨hU, hf, hV⟩ : Links h.mem f.1 U ∧ h.mem f.1 = ⟨(V.head?.map Prod.fst).getD base, f.2⟩ ∧
      Links h.mem base V := by
    have := links_append.1 (hC ▸ hL.links)
    exact ⟨this.1, this.2.1, this.2.2⟩
  have hlen : fuel + (fl.length + 1) = fuel + U.length + 1 + V.length := by
    have := congrArg List.length hC
    simp at this
    omega
  rw [hlen, ← hfF, hf]
  -- the blocks after `freep`, up to the end of the list
  rcases mallocLoop_links (n := n) ok hV hVF f.1 (fuel + U.length + 1) with
    ⟨l₁, x, l₂, rfl, hx, hrun⟩ | ⟨hno, hrun⟩
  · refine .inl ⟨U ++ f :: l₁, x, l₂, by simp, by rw [hC]; simp, hx, ?_⟩
    rw [hrun, getLast_fst, List.getLast_append_of_ne_nil _ (List.cons_ne_nil _ _)]
  rw [hrun]
  cases U with
  | nil =>
      -- `freep` is `base`: the round ends there
      obtain ⟨rfl, rfl⟩ : (base, 0) = f ∧ fl = V := by simpa using hC
      exact .inr ⟨hno, _, rfl⟩
  | cons u U =>
      obtain ⟨rfl, rfl⟩ : (base, 0) = u ∧ fl = U ++ f :: V := by simpa using hC
      obtain ⟨hu, hU⟩ := hU
      -- past `base`, which is never large enough
      have hus : (h.mem base).size < n := by rw [hu]; exact hn
      have hlen' : fuel + ((base, 0) :: U).length + 1 = fuel + 1 + U.length + 1 := by simp; omega
      rw [hlen', mallocLoop_next ok _ hus (hUF _ List.mem_cons_self), hu]
      -- the blocks from `base` up to `freep`
      rcases mallocLoop_links (n := n) ok hU (fun y hy => hUF y (List.mem_cons_of_mem _ hy))
          base (fuel + 1) with ⟨l₁, x, l₂, rfl, hx, hrun⟩ | ⟨hno', hrun⟩
      · refine .inl ⟨(base, 0) :: l₁, x, l₂ ++ f :: V, List.cons_ne_nil _ _, by simp, hx, ?_⟩
        rw [hrun]
        exact congrArg (fun w => some (carve h n w x.1)) (getLast_fst (base, 0) l₁)
      rw [hrun]
      have hfs : (h.mem f.1).size = f.2 := by rw [hf]
      by_cases hfit : n ≤ f.2
      · refine .inl ⟨(base, 0) :: U, f, V, List.cons_ne_nil _ _, by simp, hfit, ?_⟩
        rw [mallocLoop_fit ok _ (hfs ▸ hfit)]
        exact congrArg (fun w => some (carve h n w f.1)) (getLast_fst (base, 0) U)
      · refine .inr ⟨fun y hy => ?_, _, rfl⟩
        rcases List.mem_append.mp hy with hy | hy
        · exact hno' y hy
        rcases List.mem_cons.mp hy with rfl | hy
        · exact Nat.not_le.mp hfit
        · exact hno y hy

theorem Layout.freep_small (hL : Layout base brk0 h.brk h.mem fl live)
    (hF : h.freep ∈ base :: fl.map Prod.fst) (hn : 0 < n) (hno : ∀ x ∈ fl, x.2 < n) :
    (h.mem h.freep).size < n := by
  have hF' : h.freep ∈ ((base, 0) :: fl).map Prod.fst := hF
  obtain ⟨f, hf, hfe⟩ := List.mem_map.mp hF'
  rw [← hfe, hL.links.header hf]
  rcases List.mem_cons.mp hf with rfl | hf
  · exact hn
  · exact hno f hf

/-- A round of `malloc`'s loop that carves a block keeps the heap laid out. -/
theorem Layout.after_round_carve (hL : Layout base brk0 h.brk h.mem fl live)
    (hb : base + headerSize ≤ brk0) (hn : 0 < n) {P B : List (Nat × Nat)} {x : Nat × Nat}
    (hP : P ≠ []) (hC : (base, 0) :: fl = P ++ x :: B) (hx : n ≤ x.2) :
    (carve h n (P.getLast hP).1 x.1).2 ≠ 0 ∧ (carve h n (P.getLast hP).1 x.1).1.brk = h.brk ∧
      ∃ fl', Layout base brk0 h.brk (carve h n (P.getLast hP).1 x.1).1.mem fl'
          (live ++ [((carve h n (P.getLast hP).1 x.1).2 - headerSize, n)]) ∧
        (carve h n (P.getLast hP).1 x.1).1.freep ∈ base :: fl'.map Prod.fst :=
  hL.after_carve hb (split_pred hC hP) hn hx

end Round

/-! ## The program's runs -/

section Runs

variable {base brk0 : Nat}

/-- The allocator's invariant: before the first `malloc` nothing is handed
out; after it, the heap is laid out and `freep` is on the free list. -/
def UInv (base brk0 : Nat) (s : UState) : Prop :=
  (s.heap.freep = 0 ∧ s.live = [] ∧ s.heap.brk = brk0) ∨
  (s.heap.brk < 2 ^ 31 ∧ ∃ fl, Layout base brk0 s.heap.brk s.heap.mem fl s.live ∧
    s.heap.freep ∈ base :: fl.map Prod.fst)

/-- The calls of a program whose heap stays below `2^31` bytes: a `malloc`
whose `morecore` would ask for more is not made. -/
def honest (s : UState) : UEv → Bool
  | .malloc nbytes _ => decide (s.heap.brk + headerSize * max (nunitsOf nbytes) 4096 < 2 ^ 31)
  | .free _ => true

/-- The program, making only the calls `honest` allows. -/
def honestSystem (base brk0 : Nat) (mem0 : Nat → Header) : System UState UEv :=
  ⟨(umallocSystem base brk0 mem0).init, fun s e => if honest s e then uStep base s e else none⟩

theorem honestSystem_step (base brk0 : Nat) (mem0 : Nat → Header) (s : UState) (e : UEv) :
    (honestSystem base brk0 mem0).step s e = if honest s e then uStep base s e else none := rfl

theorem Layout.perm {brk : Nat} {mem : Nat → Header} {fl live live' : List (Nat × Nat)}
    (hL : Layout base brk0 brk mem fl live) (hp : live.Perm live') :
    Layout base brk0 brk mem fl live' :=
  ⟨hL.links, fun v hv => hL.size v (hp.mem_iff.mpr hv), hL.sorted,
    hL.apart.perm (hp.append_left fl) Apart.symm,
    fun z hz => hL.within z ((hp.append_left fl).mem_iff.mpr hz), hL.grown⟩

theorem nunitsOf_pos (nbytes : UInt32) : 0 < nunitsOf nbytes := Nat.succ_pos _

/-- `malloc` in a program that stays below `2^31` bytes: it hands out a
block of `nunits` units, or returns `0` when `uvmalloc` fails, and the heap
stays laid out. -/
theorem malloc_spec (hb0 : 0 < base) (hb : base + headerSize ≤ brk0) {s : UState}
    (hs : UInv base brk0 s) {nbytes : UInt32} (ok : Bool)
    (hguard : s.heap.brk + headerSize * max (nunitsOf nbytes) 4096 < 2 ^ 31) :
    ∃ h' r, malloc base s.heap nbytes ok = some (h', r) ∧ h'.brk < 2 ^ 31 ∧
      ∃ fl, Layout base brk0 h'.brk h'.mem fl
          (if r = 0 then s.live else s.live ++ [(r - headerSize, nunitsOf nbytes)]) ∧
        h'.freep ∈ base :: fl.map Prod.fst := by
  set n := nunitsOf nbytes
  have hn : 0 < n := nunitsOf_pos nbytes
  have hbrk : s.heap.brk < 2 ^ 31 := by omega
  -- the heap `malloc`'s loop starts from
  set h1 : Arena := if s.heap.freep = 0 then
      { s.heap with mem := Function.update s.heap.mem base ⟨base, 0⟩, freep := base }
    else s.heap with hh1
  obtain ⟨fl, hL, hF⟩ : ∃ fl, Layout base brk0 h1.brk h1.mem fl s.live ∧
      h1.freep ∈ base :: fl.map Prod.fst := by
    rcases hs with ⟨h0, hlive, hbrk0⟩ | ⟨-, fl, hL, hF⟩
    · rw [hh1, if_pos h0, hlive]
      refine ⟨[], ⟨⟨Function.update_self .., trivial⟩, by simp, .nil, .nil, by simp, ?_⟩, by simp⟩
      exact hbrk0 ▸ le_rfl
    · have hne : s.heap.freep ≠ 0 := by
        have hpos := (hL.seg hb0 hb).mem_ne_zero
        exact hpos _ hF
      rw [hh1, if_neg hne]
      exact ⟨fl, hL, hF⟩
  have hh1brk : h1.brk = s.heap.brk := by rw [hh1]; split <;> rfl
  rw [← hh1brk] at hbrk hguard
  have hmalloc : malloc base s.heap nbytes ok =
      mallocLoop n ok loopFuel h1 h1.freep (h1.mem h1.freep).ptr := rfl
  have hlen := hL.length_le hb
  have hfuel : loopFuel = (loopFuel - (fl.length + 1)) + (fl.length + 1) := by
    simp only [List.length_cons, List.length_map] at hlen
    delta loopFuel
    omega
  rw [hmalloc, hfuel]
  rcases hL.malloc_round ok hb hF hn (loopFuel - (fl.length + 1)) with
    ⟨P, x, B, hP, hC, hx, hrun⟩ | ⟨hno, w, hrun⟩
  · obtain ⟨hr, hbrk', fl', hL', hF'⟩ := hL.after_round_carve hb hn hP hC hx
    refine ⟨(carve h1 n (P.getLast hP).1 x.1).1, (carve h1 n (P.getLast hP).1 x.1).2, hrun,
      by rw [hbrk']; exact hbrk, fl', ?_, hF'⟩
    rw [if_neg hr, hbrk']
    exact hL'
  rw [hrun]
  have hsmall := hL.freep_small hF hn hno
  rcases hL.after_morecore hb0 hb hF hguard ok with
    ⟨-, hm⟩ | ⟨h', fl', hm, hL', hF', hbrk', x, hx, hnx⟩
  · -- `sbrk` failed: `malloc` returns `0`
    refine ⟨h1, 0, mallocLoop_more_none ok _ hsmall hm, hbrk, fl, ?_, hF⟩
    rw [if_pos rfl]
    exact hL
  rw [mallocLoop_more_some ok _ hsmall hm]
  -- the second round finds the block `morecore` freed
  have hlen' := hL'.length_le hb
  have hfuel' : loopFuel - (fl.length + 1) = (loopFuel - (fl.length + 1) - (fl'.length + 1)) + (fl'.length + 1) := by
    simp only [List.length_cons, List.length_map] at hlen hlen'
    delta loopFuel
    omega
  rw [hfuel']
  rcases hL'.malloc_round ok hb hF' hn (loopFuel - (fl.length + 1) - (fl'.length + 1)) with
    ⟨P, y, B, hP, hC, hy, hrun'⟩ | ⟨hno', -⟩
  · obtain ⟨hr, hbrk'', fl'', hL'', hF''⟩ := hL'.after_round_carve hb hn hP hC hy
    refine ⟨(carve h' n (P.getLast hP).1 y.1).1, (carve h' n (P.getLast hP).1 y.1).2, hrun',
      by rw [hbrk'']; exact hbrk', fl'', ?_, hF''⟩
    rw [if_neg hr, hbrk'']
    exact hL''
  · exact absurd (hno' x hx) (Nat.not_lt.mpr hnx)

/-- Every call the program makes keeps the invariant. -/
theorem UInv.honest_step {mem0 : Nat → Header} (hb0 : 0 < base) (hb : base + headerSize ≤ brk0)
    {s s' : UState} {e : UEv} (hs : UInv base brk0 s)
    (hstep : (honestSystem base brk0 mem0).step s e = some s') : UInv base brk0 s' := by
  rw [honestSystem_step] at hstep
  split at hstep
  case isFalse => cases hstep
  rename_i hhonest
  cases e with
  | malloc nbytes ok =>
      have hguard : s.heap.brk + headerSize * max (nunitsOf nbytes) 4096 < 2 ^ 31 := by
        exact of_decide_eq_true hhonest
      obtain ⟨h', r, hm, hbrk', fl, hL, hF⟩ := malloc_spec hb0 hb hs ok hguard
      rw [uStep_malloc, hm, Option.map_some, Option.some.injEq] at hstep
      subst hstep
      exact .inr ⟨hbrk', fl, hL, hF⟩
  | free ap =>
      simp only [uStep] at hstep
      split at hstep
      case h_1 => cases hstep
      rename_i b hfind
      have hbl : b ∈ s.live := List.mem_of_find?_eq_some hfind
      have hb1 : b.1 = ap - headerSize := by simpa using List.find?_some hfind
      rcases hs with ⟨-, hlive, -⟩ | ⟨hbrk, fl, hL, hF⟩
      · rw [hlive] at hbl
        cases hbl
      have hL' := hL.perm (List.perm_cons_erase hbl)
      have hap : ap = b.1 + headerSize := by
        have := (hL.within b (List.mem_append_right _ hbl)).2.1
        simp only [headerSize_eq] at hb hb1 ⊢
        omega
      obtain ⟨p, fl', hfree, hL'', hp, -⟩ := hL'.after_free (h := s.heap) hb0 hb hbrk hF
      rw [hap, hfree, Option.map_some, Option.some.injEq] at hstep
      subst hstep
      exact .inr ⟨hbrk, fl', hL'', hp⟩

end Runs

end Xv6.Umalloc
