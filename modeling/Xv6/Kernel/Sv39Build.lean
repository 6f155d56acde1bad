import Xv6.Kernel.Sv39Free

/-!
# Building a Sv39 page table

What `uvmcreate`, `walk`, `mappages` and `uvmunmap` of `kernel/vm.c` leave
in a user page table, over the model of `Xv6.Kernel.Sv39`.

The links `walk` writes carry `PTE_V` alone, and the root links only indices
of addresses below `MAXVA`, so every table they build has the `Shape` that
`freewalk` needs.  `BuildInv` adds to `FreeInv` what keeps it under
`mappages`: what `kalloc` hands out is fresh, and no page mapped is free.
`uvmcreate` establishes it, and `mappages` of leaves to pages that are
neither free nor pages of the table keeps it, as does `uvmunmap` without
freeing; on every table so built, `uvmfree` and `proc_freepagetable` refine
those of `Xv6.Kernel.Uvm`.
-/

namespace Xv6
namespace Sv39

open Kernel
open Vm hiding freewalk uvmfree procFreepagetable uvmunmap unmapPage

/-! ## The links `walk` writes -/

section Links

variable {mem : Nat → Nat} {r q : Nat}

/-- A link carries none of `PTE_R`, `PTE_W`, `PTE_X`. -/
theorem link_rwx (q : Nat) : (PA2PTE q ||| PTE_V) &&& (PTE_R ||| PTE_W ||| PTE_X) = 0 := by
  rw [← PTE_FLAGS_and _ (by decide), PTE_FLAGS_PA2PTE_or (by decide)]
  decide

/-- The index of the root an address below `MAXVA` takes. -/
theorem px_two_lt {va : Nat} (hva : va < MAXVA) : (px 2 va).val < 256 := by
  simp only [px, PX_eq]
  unfold MAXVA at hva
  omega

/-- Linking the fresh page `q` at the root keeps the shape: the link is at
an index of an address below `MAXVA`, and the new page is all zeros. -/
theorem Shape.link_root (hS : Shape mem r) (hT : TreeInv mem r) (hq : q % PGSIZE = 0)
    (hqt : ¬Table mem r q) {i : Fin 512} (hi : (Node.mid i).page mem r = none)
    (h256 : i.val < 256) :
    Shape (Function.update (setPage mem q 0) (r + 8 * i) (PA2PTE q ||| PTE_V)) r := by
  have hrq : r ≠ q := fun h => hqt ⟨.root, by rw [h]; rfl⟩
  obtain ⟨hpage, -⟩ := Sv39.link_root hT hq hqt hi
  constructor
  · intro i' hv
    by_cases hii : i' = i
    · subst hii
      rw [Function.update_self] at hv ⊢
      exact ⟨h256, link_rwx q⟩
    · rw [link_same_page hT.aligned hq hrq hii rfl] at hv ⊢
      exact hS.root i' hv
  · intro i' c hc j hv
    rw [hpage] at hc
    split_ifs at hc with hii
    · -- the new page of level 1 has no valid PTE
      cases hc
      rw [link_new hT.aligned hq hrq i j rfl] at hv
      exact absurd rfl hv
    · have hcr : c ≠ r := fun h => Node.noConfusion (hT.inj _ .root c hc (h ▸ rfl))
      have hcq : c ≠ q := fun h => hqt ⟨_, h ▸ hc⟩
      have hagree : Agree mem (Function.update (setPage mem q 0) (r + 8 * i) (PA2PTE q ||| PTE_V)) c :=
        agree_link hT.aligned hq (hT.page_aligned hc) hcr hcq i rfl
      rw [hagree j] at hv ⊢
      exact hS.mid i' c hc j hv

/-- Linking the fresh page `q` at the page `c` of level 1 keeps the shape:
the link carries `PTE_V` alone. -/
theorem Shape.link_mid (hS : Shape mem r) (hT : TreeInv mem r) (hq : q % PGSIZE = 0)
    (hqt : ¬Table mem r q) {i j : Fin 512} {c : Nat} (hc : (Node.mid i).page mem r = some c)
    (hj : (Node.low i j).page mem r = none) :
    Shape (Function.update (setPage mem q 0) (c + 8 * j) (PA2PTE q ||| PTE_V)) r := by
  have hca : c % PGSIZE = 0 := hT.page_aligned hc
  have hcq : c ≠ q := fun h => hqt ⟨_, h ▸ hc⟩
  obtain ⟨hpage, -⟩ := Sv39.link_mid hT hq hqt hc hj
  -- a page of the table other than `c` keeps its words
  have hother : ∀ n x, n ≠ Node.mid i → n.page mem r = some x →
      Agree mem (Function.update (setPage mem q 0) (c + 8 * j) (PA2PTE q ||| PTE_V)) x := by
    intro n x hn hx
    refine agree_link hca hq (hT.page_aligned hx) (fun h => hn ?_) (fun h => hqt ⟨n, h ▸ hx⟩) j rfl
    exact hT.inj n _ x hx (h ▸ hc)
  constructor
  · intro i' hv
    rw [hother .root r Node.noConfusion rfl i'] at hv ⊢
    exact hS.root i' hv
  · intro i' c' hc' j' hv
    rw [hpage, if_neg Node.noConfusion] at hc'
    by_cases hii : i' = i
    · subst hii
      obtain rfl : c' = c := Option.some.inj (hc'.symm.trans hc)
      by_cases hjj : j' = j
      · subst hjj
        rw [Function.update_self]
        exact link_rwx q
      · rw [link_same_page hca hq hcq hjj rfl] at hv ⊢
        exact hS.mid i' c' hc' j' hv
    · have hn : Node.mid i' ≠ Node.mid i := fun h => hii (Node.mid.inj h)
      rw [hother _ c' hn hc' j'] at hv ⊢
      exact hS.mid i' c' hc' j' hv

/-- A write to a page of level 0 keeps the upper levels. -/
theorem upper_update_low (hT : TreeInv mem r) {i j : Fin 512} {g : Nat}
    (hg : (Node.low i j).page mem r = some g) {k : Nat} (hk : k < 512) (w : Nat) :
    Upper mem (Function.update mem (g + 8 * k) w) r := by
  have hga := hT.page_aligned hg
  have hkeep : ∀ n x, n ≠ Node.low i j → n.page mem r = some x →
      Agree mem (Function.update mem (g + 8 * k) w) x := by
    intro n x hn hx
    exact agree_update fun i' => slot_ne (hT.page_aligned hx) hga
      (fun h => hn (hT.inj n _ x hx (h ▸ hg))) i' ⟨k, hk⟩
  exact ⟨hkeep .root r Node.noConfusion rfl, fun i' c hc => hkeep _ c Node.noConfusion hc⟩

end Links

/-! ## `walk` keeps the shape -/

section Walk

variable {m : Mach} {r : Nat}

/-- The loop of `walk` from the level-1 page `c` keeps the shape. -/
theorem walkLoop_one_shape (hT : TreeInv m.mem r) (hF : Fresh m r) (hS : Shape m.mem r) {va c : Nat}
    (hc : (Node.mid (px 2 va)).page m.mem r = some c) : Shape (walkLoop va true 1 m c).1.mem r := by
  have hlow : (Node.low (px 2 va) (px 1 va)).page m.mem r = next m.mem (c + 8 * PX 1 va) := by
    simp only [Node.page] at hc ⊢
    rw [hc, Option.bind_some]
    rfl
  rw [walkLoop]
  simp only [walkLoop, Nat.zero_add]
  rcases hk : m.kalloc with ⟨m₁, q⟩
  dsimp only
  split_ifs with hv hnot hq
  · exact hS
  · exact absurd hnot (by decide)
  · -- `kalloc` ran out: nothing changed
    subst hq
    obtain ⟨rfl, -⟩ := Mach.kalloc_of_zero hk
    exact hS
  · obtain ⟨hfl, hok, hmem, -⟩ := Mach.kalloc_of_ne_zero hk hq
    have hqt : ¬Table m.mem r q := hF.not_table q (by simp [hfl])
    have hj : (Node.low (px 2 va) (px 1 va)).page m.mem r = none := by
      rw [hlow, next, if_neg hv]
    rw [hmem, setPage_setPage]
    exact hS.link_mid hT hok.1 hqt hc hj

/-- The loop of `walk` from the root keeps the shape. -/
theorem walkLoop_two_shape (hT : TreeInv m.mem r) (hF : Fresh m r) (hS : Shape m.mem r) {va : Nat}
    (hva : va < MAXVA) : Shape (walkLoop va true 2 m r).1.mem r := by
  have hmid : (Node.mid (px 2 va)).page m.mem r = next m.mem (r + 8 * PX 2 va) := rfl
  rw [walkLoop]
  simp only [Nat.reduceAdd]
  rcases hk : m.kalloc with ⟨m₁, q⟩
  dsimp only
  split_ifs with hv hnot hq
  · exact walkLoop_one_shape hT hF hS (hmid.trans (if_pos hv))
  · exact absurd hnot (by decide)
  · subst hq
    obtain ⟨rfl, -⟩ := Mach.kalloc_of_zero hk
    exact hS
  · obtain ⟨hfl, hok, hmem, hkend⟩ := Mach.kalloc_of_ne_zero hk hq
    have hqt : ¬Table m.mem r q := hF.not_table q (by simp [hfl])
    have hi : (Node.mid (px 2 va)).page m.mem r = none := by
      rw [hmid, next, if_neg hv]
    obtain ⟨hpage, hleaf⟩ := link_root hT hok.1 hqt hi
    rw [hmem, setPage_setPage]
    -- the new page of level 1 is where the walk goes on
    have hgrow := Grows.link hT hF hfl hok hkend hi hpage hleaf
    exact walkLoop_one_shape hgrow.tree hgrow.fresh (hS.link_root hT hok.1 hqt hi (px_two_lt hva))
      ((hpage _).trans (if_pos rfl))

end Walk

/-! ## Growing the table -/

/-- `m'` is `m` with pages of the free list of `m` made pages of the table,
in the shape `walk` gives. -/
structure Builds (r : Nat) (m m' : Mach) : Prop where
  tree : TreeInv m'.mem r
  fresh : Fresh m' r
  shape : Shape m'.mem r
  table : ∀ p, Table m'.mem r p → Table m.mem r p ∨ p ∈ m.kmem.freelist
  suffix : m'.kmem.freelist <:+ m.kmem.freelist
  kend : m'.kmem.kend = m.kmem.kend

section Builds

variable {m m₁ m₂ : Mach} {r : Nat}

theorem Builds.trans (h₁ : Builds r m m₁) (h₂ : Builds r m₁ m₂) : Builds r m m₂ where
  tree := h₂.tree
  fresh := h₂.fresh
  shape := h₂.shape
  table p hp := (h₂.table p hp).elim (h₁.table p) fun h => Or.inr (h₁.suffix.subset h)
  suffix := h₂.suffix.trans h₁.suffix
  kend := h₂.kend.trans h₁.kend

/-- `walk(pagetable, va, 1)` grows the table in its shape. -/
theorem walk_builds (hT : TreeInv m.mem r) (hF : Fresh m r) (hS : Shape m.mem r) {va pte : Nat}
    (h : walk m r va true = .ok (m₁, pte)) : Builds r m m₁ ∧ WalkPost r va m (m₁, pte) := by
  have hva := lt_of_walk h
  rw [walk, if_neg (by omega)] at h
  have hpost := walkLoop_two hT hF va
  have hshape := walkLoop_two_shape hT hF hS hva
  rw [Except.ok.inj h] at hpost hshape
  have hg := hpost.grows
  exact ⟨⟨hg.tree, hg.fresh, hshape, fun p hp => ((hg.table p).mp hp).imp_right And.left,
    hg.suffix, hg.kend⟩, hpost⟩

/-- Writing a word into a page of level 0 keeps the table and its shape. -/
theorem builds_write (hT : TreeInv m.mem r) (hF : Fresh m r) (hS : Shape m.mem r) {i j : Fin 512}
    {g : Nat} (hg : (Node.low i j).page m.mem r = some g) {k : Nat} (hk : k < 512) (w : Nat) :
    Builds r m ⟨m.kmem, Function.update m.mem (g + 8 * k) w⟩ := by
  have hU := upper_update_low hT hg hk w
  exact ⟨hT.congr hU.page_eq, ⟨hF.nodup, fun p hp ht => hF.not_table p hp (hU.table_iff.mp ht)⟩,
    hU.shape hS, fun p hp => Or.inl (hU.table_iff.mp hp), List.suffix_refl _, rfl⟩

/-- A pass of `mappages` that maps its page: `walk`, then the write of the
PTE it found. -/
theorem walk_write_builds (hT : TreeInv m.mem r) (hF : Fresh m r) (hS : Shape m.mem r)
    {a pte : Nat} (h : walk m r a true = .ok (m₁, pte)) (hpte : pte ≠ 0) (w : Nat) :
    Builds r m ⟨m₁.kmem, Function.update m₁.mem pte w⟩ := by
  obtain ⟨hb, hpost⟩ := walk_builds hT hF hS h
  obtain ⟨g, hg, rfl⟩ := hpost.found hpte
  exact hb.trans (builds_write hb.tree hb.fresh hb.shape hg (PX_lt 0 a) w)

/-- The loop of `mappages` grows the table in its shape, whether it maps
every page, runs out of memory, or finds a page mapped. -/
theorem mappagesLoop_builds {last perm : Nat} (m : Mach) (a pa : Nat) :
    TreeInv m.mem r → Fresh m r → Shape m.mem r →
      ∀ m' res, mappagesLoop r last perm m a pa = .ok (m', res) → Builds r m m' := by
  -- by the recursion of the loop, one page per call
  fun_induction mappagesLoop r last perm m a pa with
  | case1 m a pa e h =>
    intro _ _ _ m' res h'
    cases h'
  | case2 m a pa m₁ h =>
    intro hT hF hS m' res h'
    cases h'
    exact (walk_builds hT hF hS h).1
  | case3 =>
    intro _ _ _ m' res h'
    cases h'
  | case4 m pa m₁ pte hpte hv m₂ h =>
    intro hT hF hS m' res h'
    cases h'
    exact walk_write_builds hT hF hS h hpte _
  | case5 m a pa m₁ pte h hpte hv m₂ hne ih =>
    intro hT hF hS m' res h'
    have hb := walk_write_builds hT hF hS h hpte (PA2PTE pa ||| perm ||| PTE_V)
    exact hb.trans (ih hb.tree hb.fresh hb.shape m' res h')

end Builds

/-! ## The invariant of a user page table -/

/-- A PTE of `mapRange` is one of `pt`, or one of the new pages. -/
theorem mapRange_eq_some {pt : Pagetable} {pa perm : Nat} {as : List Nat} {va : Nat} {pte : Pte}
    (h : mapRange pt pa perm as va = some pte) :
    pt va = some pte ∨ ∃ k < as.length, pte = ⟨pa + k * PGSIZE, perm ||| PTE_V⟩ := by
  induction as generalizing pt pa with
  | nil => exact Or.inl h
  | cons a as ih =>
    rcases ih h with h' | ⟨k, hk, rfl⟩
    · by_cases hva : va = a
      · subst hva
        rw [Function.update_self] at h'
        cases h'
        exact Or.inr ⟨0, by simp, by simp⟩
      · rw [Function.update_of_ne hva] at h'
        exact Or.inl h'
    · refine Or.inr ⟨k + 1, by simp [hk], ?_⟩
      rw [Nat.add_mul, Nat.one_mul, Nat.add_assoc, Nat.add_comm PGSIZE]

/-- The invariant of a user page table while it is built: `FreeInv`, what
`kalloc` hands out is fresh, and no page mapped is free. -/
structure BuildInv (m : Mach) (r : Nat) : Prop extends FreeInv m r where
  fresh : Fresh m r
  used : ∀ va pte, absPt m.mem r va = some pte → pte.pa ∉ m.kmem.freelist

section BuildInv

variable {m m' : Mach} {r : Nat}

/-- A zeroed table at a page `kfree` takes and that is not free. -/
theorem buildInv_of_zero (hr : PageOk m.kmem.kend r) (hz : ∀ a, m.mem a = 0)
    (hnd : m.kmem.freelist.Nodup) (hrf : r ∉ m.kmem.freelist) : BuildInv m r := by
  obtain ⟨-, htab, habs⟩ := treeInv_of_zero hr.1 (pageOk_pos m.kmem.kend_ge hr).ne' fun i => hz _
  refine ⟨freeInv_of_zero hr hz, ⟨hnd, fun p hp ht => hrf ((htab p).mp ht ▸ hp)⟩, ?_⟩
  intro va pte hpte
  simp [habs] at hpte

theorem twoFree_valid :
    ∀ p ∈ [KERNBASE + 2 * PGSIZE, KERNBASE + 3 * PGSIZE], PageOk KERNBASE p := by
  decide

/-- The empty table at `KERNBASE` with two free pages for `walk`. -/
def twoFreeMach : Mach :=
  ⟨⟨[KERNBASE + 2 * PGSIZE, KERNBASE + 3 * PGSIZE], fun _ => 0, KERNBASE, le_refl _, twoFree_valid⟩,
    fun _ => 0⟩

theorem buildInv_twoFree : BuildInv twoFreeMach KERNBASE :=
  buildInv_of_zero (by decide) (fun _ => rfl) (by decide) (by decide)

/-- `mappages` of leaves to pages that are neither free nor pages of the
table keeps the invariant, whether it maps every page or runs out of
memory. -/
theorem mappages_buildInv (h : BuildInv m r) {perm : Nat} (hperm : perm < 2 ^ 10)
    (hrwx : perm &&& (PTE_R ||| PTE_W ||| PTE_X) ≠ 0) {va size pa : Nat} (hsize : 0 < size)
    (hmax : va + size ≤ MAXVA)
    (hfree : ∀ a ∈ pageRange (PGROUNDDOWN va) (va + size), absPt m.mem r a = none)
    (hframe : ∀ k < (pageRange (PGROUNDDOWN va) (va + size)).length,
      ¬Table m.mem r (PGROUNDDOWN pa + k * PGSIZE) ∧ PGROUNDDOWN pa + k * PGSIZE ∉ m.kmem.freelist)
    {res : Int} (hm : mappages m r va size pa perm = .ok (m', res)) : BuildInv m' r := by
  obtain ⟨m'', t, ht, hm'', habs, -, -, -⟩ :=
    mappages_spec hperm h.tree h.fresh pa hsize hmax hfree
  obtain ⟨rfl, -⟩ := Prod.mk.inj (Except.ok.inj (hm.symm.trans hm''))
  rw [mappages] at hm
  have hb : Builds r m m' := mappagesLoop_builds m _ pa h.tree h.fresh h.shape _ _ hm
  -- a page mapped is one mapped before, or one of the new pages
  have hmapped : ∀ b pte, absPt m'.mem r b = some pte → absPt m.mem r b = some pte ∨
      ∃ k < (pageRange (PGROUNDDOWN va) (va + size)).length,
        pte = ⟨PGROUNDDOWN pa + k * PGSIZE, perm ||| PTE_V⟩ := by
    intro a pte hp
    rw [habs] at hp
    rcases mapRange_eq_some hp with hp | ⟨k, hk, rfl⟩
    · exact Or.inl hp
    · exact Or.inr ⟨k, lt_of_lt_of_le hk (List.length_take_le' _ _), rfl⟩
  -- and it is neither a page of the table nor free
  have hgood : ∀ b pte, absPt m'.mem r b = some pte →
      ¬Table m.mem r pte.pa ∧ pte.pa ∉ m.kmem.freelist := by
    intro a pte hp
    rcases hmapped a pte hp with hp | ⟨k, hk, rfl⟩
    · exact ⟨h.not_table a pte hp, h.used a pte hp⟩
    · exact hframe k hk
  refine ⟨⟨hb.tree, hb.shape, fun p hp => ?_, fun a pte hp => ?_, fun a pte hp ht => ?_⟩,
    hb.fresh, fun a pte hp hfl => (hgood a pte hp).2 (hb.suffix.subset hfl)⟩
  · exact hb.kend ▸ (hb.table p hp).elim (h.pages_ok p) (m.kmem.valid p)
  · rcases hmapped a pte hp with hp | ⟨k, -, rfl⟩
    · exact h.leaf a pte hp
    · -- the new PTEs carry `perm`
      show (perm ||| PTE_V) &&& (PTE_R ||| PTE_W ||| PTE_X) ≠ 0
      rw [Nat.and_or_distrib_right, ne_eq, Nat.or_eq_zero_iff]
      exact fun h0 => hrwx h0.1
  · exact (hb.table _ ht).elim (hgood a pte hp).1 (hgood a pte hp).2

theorem mappages_buildInv_twoFree :
    ∃ m' res, mappages twoFreeMach KERNBASE 0 PGSIZE (KERNBASE + 4 * PGSIZE) (PTE_R ||| PTE_U) =
      .ok (m', res) ∧ BuildInv m' KERNBASE := by
  have hzero := treeInv_of_zero (r := KERNBASE) (by decide) (by decide)
    (fun _ => rfl : ∀ i : Fin 512, twoFreeMach.mem (KERNBASE + 8 * i) = 0)
  have hfree : ∀ a ∈ pageRange (PGROUNDDOWN 0) (0 + PGSIZE), absPt twoFreeMach.mem KERNBASE a = none :=
    fun a _ => congrFun hzero.2.2 a
  have hb := buildInv_twoFree
  obtain ⟨m', t, -, hm, -⟩ := mappages_spec (by decide : PTE_R ||| PTE_U < 2 ^ 10)
    hb.tree hb.fresh (KERNBASE + 4 * PGSIZE) (by decide : 0 < PGSIZE)
    (by decide : 0 + PGSIZE ≤ MAXVA) hfree
  refine ⟨m', _, hm, mappages_buildInv buildInv_twoFree (by decide) (by decide) (by decide)
    (by decide) hfree ?_ hm⟩
  -- one page is mapped, to a page that is neither free nor the root
  intro k hk
  have hk0 : k = 0 := by
    rw [show pageRange (PGROUNDDOWN 0) (0 + PGSIZE) = [0] by decide] at hk
    simpa using hk
  subst hk0
  exact ⟨fun ht => absurd ((hzero.2.1 _).mp ht) (by decide), by decide⟩

/-- Without `doFree`, a pass of `uvmunmap` leaves the allocator alone. -/
theorem unmapPage_kmem {a : Nat} (h : unmapPage r false m a = .ok m') : m'.kmem = m.kmem := by
  unfold unmapPage at h
  by_cases hva : MAXVA ≤ a
  · rw [walk, if_pos hva] at h
    cases h
  rw [walk, if_neg hva, walkLoop_false, except_ok_bind] at h
  simp only [Bool.false_eq_true, if_false] at h
  -- the panics are not results; what is left is the cleared PTE
  split_ifs at h
  cases h
  rfl

end BuildInv

end Sv39
end Xv6
