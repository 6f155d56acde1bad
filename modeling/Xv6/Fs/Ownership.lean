import Xv6.Fs.Inode

/-!
# Block ownership

Which inode refers to which disk block, and the invariant that makes the
allocator safe: every referenced block is referenced once, lies in the data
area, and is marked in use, and the metadata blocks are marked in use.

The invariant `OwnInv sb nmeta d it` is stated for a disk `d` and an inode
table `it`, which is the disk's dinodes for the inodes not in memory and the
in-memory copies for the others: `bmap` fills a slot of the in-memory inode
long before `iupdate` writes it back (and `readi` never does).  References
are read as the code reads them (`slotBlock`): the direct blocks and the
indirect block from the inode, the entries of the indirect block from the
disk.

The lemmas below say what each kind of write does to the invariant: a store
to the bitmap or to a dinode, to a data block, a slot filled with a block
fresh from `balloc`, and from them a whole `bmap`.
-/

namespace Xv6
namespace Fs

open Bytes Bitmap

/-- The places an inode refers to a block from. -/
inductive Slot
  | direct (k : Fin NDIRECT)
  | ind
  | entry (j : Fin NINDIRECT)
  deriving DecidableEq

/-- The block in slot `s` of the inode `din`, zero for none: an entry of the
indirect block is read only when there is one, as `bmap` and `itrunc` do. -/
def slotBlock (d : Disk Log.Block) (din : DInode) : Slot → Nat
  | .direct k => (din.addrs k.castSucc).toNat
  | .ind => (din.addrs indIdx).toNat
  | .entry j => if din.addrs indIdx = 0 then 0 else entryAt (d (din.addrs indIdx).toNat) j

/-- Block `x` is referenced from slot `s` of the allocated inode `i`. -/
def Refs (sb : SuperBlock) (d : Disk Log.Block) (it : Nat → DInode) (x i : Nat) (s : Slot) :
    Prop :=
  i < sb.ninodes ∧ (it i).type ≠ 0 ∧ x ≠ 0 ∧ slotBlock d (it i) s = x

/-- The layout `mkfs` chooses, as the invariant needs it: the inode blocks
and the bitmap blocks lie below `nmeta`, apart from each other, and block
numbers fit in a `uint`. -/
structure DiskLayout (sb : SuperBlock) (nmeta : Nat) : Prop where
  meta_pos : 0 < nmeta
  meta_le : nmeta ≤ sb.size
  size_lt : sb.size < 2 ^ 32
  iblock_lt : ∀ i < sb.ninodes, IBLOCK i sb < nmeta
  bblock_lt : ∀ x < sb.size, BBLOCK x sb < nmeta
  bblock_ne : ∀ x < sb.size, ∀ i < sb.ninodes, BBLOCK x sb ≠ IBLOCK i sb

/-- Block ownership: every referenced block is referenced from one slot of
one inode, lies in the data area and is marked in use, and every metadata
block is marked in use. -/
structure OwnInv (sb : SuperBlock) (nmeta : Nat) (d : Disk Log.Block) (it : Nat → DInode) :
    Prop where
  unique : ∀ {x i j s t}, Refs sb d it x i s → Refs sb d it x j t → i = j ∧ s = t
  inData : ∀ {x i s}, Refs sb d it x i s → nmeta ≤ x ∧ x < sb.size
  marked : ∀ {x i s}, Refs sb d it x i s → used sb d x = true
  metaUsed : ∀ x < nmeta, used sb d x = true

variable {sb : SuperBlock} {nmeta : Nat} {d : Disk Log.Block} {it : Nat → DInode}

/-! ## References -/

theorem toNat_ne_zero {a : UInt32} (h : a ≠ 0) : a.toNat ≠ 0 := by
  intro h0
  apply h
  rw [← UInt32.toNat_inj, h0, UInt32.toNat_zero]

theorem toNat_ofNat_of_lt {x : Nat} (h : x < 2 ^ 32) : (UInt32.ofNat x).toNat = x :=
  UInt32.toNat_ofNat_of_lt' (by rw [UInt32.size]; omega)

/-- The indirect block of an allocated inode is one of its references. -/
theorem refs_ind {i : Nat} (hi : i < sb.ninodes) (ht : (it i).type ≠ 0)
    (ha : (it i).addrs indIdx ≠ 0) : Refs sb d it ((it i).addrs indIdx).toNat i .ind :=
  ⟨hi, ht, toNat_ne_zero ha, rfl⟩

/-- References depend on the disk only through the indirect blocks. -/
theorem refs_congr {d' : Disk Log.Block}
    (h : ∀ i < sb.ninodes, (it i).type ≠ 0 → (it i).addrs indIdx ≠ 0 →
      d' ((it i).addrs indIdx).toNat = d ((it i).addrs indIdx).toNat) {x i : Nat} {s : Slot} :
    Refs sb d' it x i s ↔ Refs sb d it x i s := by
  unfold Refs
  constructor
  · rintro ⟨hi, ht, hx, hs⟩
    refine ⟨hi, ht, hx, ?_⟩
    cases s with
    | entry j =>
        simp only [slotBlock] at hs ⊢
        split at hs
        · rwa [if_pos ‹_›]
        · rwa [if_neg ‹_›, ← h i hi ht ‹_›]
    | _ => exact hs
  · rintro ⟨hi, ht, hx, hs⟩
    refine ⟨hi, ht, hx, ?_⟩
    cases s with
    | entry j =>
        simp only [slotBlock] at hs ⊢
        split at hs
        · rwa [if_pos ‹_›]
        · rwa [if_neg ‹_›, h i hi ht ‹_›]
    | _ => exact hs

/-- A write to a block that is no inode's indirect block changes no
reference. -/
theorem refs_update_of_not_ind {z : Nat} (blk : Log.Block)
    (hz : ∀ i, ¬Refs sb d it z i .ind) {x i : Nat} {s : Slot} :
    Refs sb (Function.update d z blk) it x i s ↔ Refs sb d it x i s :=
  refs_congr fun i hi ht ha => Function.update_of_ne (by
    intro he
    exact hz i (he ▸ refs_ind hi ht ha)) _ _

theorem OwnInv.not_ind_of_lt (hinv : OwnInv sb nmeta d it) {z : Nat} (hz : z < nmeta) (i : Nat) :
    ¬Refs sb d it z i .ind := fun hr => by
  have := (hinv.inData hr).1
  omega

/-! ## Slots -/

theorem indIdx_ne_castSucc (k : Fin NDIRECT) : indIdx ≠ k.castSucc := fun h => by
  have hv := congrArg Fin.val h
  simp only [indIdx, Fin.val_last, Fin.val_castSucc] at hv
  exact absurd hv (Nat.ne_of_gt k.isLt)

theorem slotBlock_setDirect (d : Disk Log.Block) (din : DInode) (k : Fin NDIRECT) (v : UInt32)
    (s : Slot) : slotBlock d { din with addrs := Function.update din.addrs k.castSucc v } s =
      if s = .direct k then v.toNat else slotBlock d din s := by
  cases s with
  | direct k' =>
      by_cases h : k' = k
      · subst h
        simp [slotBlock]
      · have hne : k'.castSucc ≠ k.castSucc := fun he => h (Fin.castSucc_inj.mp he)
        simp [slotBlock, h, Function.update_of_ne hne]
  | ind => simp [slotBlock, Function.update_of_ne (indIdx_ne_castSucc k)]
  | entry j => simp [slotBlock, Function.update_of_ne (indIdx_ne_castSucc k)]

/-- A new indirect block whose entries are all zero adds itself and no
entry. -/
theorem slotBlock_setInd (d : Disk Log.Block) (din : DInode) {v : UInt32} (hv : v ≠ 0)
    (hz : ∀ j, entryAt (d v.toNat) j = 0) (h0 : din.addrs indIdx = 0) (s : Slot) :
    slotBlock d { din with addrs := Function.update din.addrs indIdx v } s =
      if s = .ind then v.toNat else slotBlock d din s := by
  cases s with
  | direct k => simp [slotBlock, Function.update_of_ne (indIdx_ne_castSucc k).symm]
  | ind => simp [slotBlock]
  | entry j => simp [slotBlock, hv, hz, h0]

/-- A write to a block other than the inode's indirect block leaves its
slots as they were. -/
theorem slotBlock_update_of_ne (d : Disk Log.Block) (din : DInode) {z : Nat} (blk : Log.Block)
    (h : din.addrs indIdx ≠ 0 → (din.addrs indIdx).toNat ≠ z) (s : Slot) :
    slotBlock (Function.update d z blk) din s = slotBlock d din s := by
  cases s with
  | entry j =>
      simp only [slotBlock]
      split
      · rfl
      · rw [Function.update_of_ne (h ‹_›)]
  | _ => rfl

/-- How the references change when slot `s₀` of inode `i`, empty before,
comes to hold `x`, and no other slot of an allocated inode changes. -/
theorem refs_iff_of_slot {d' : Disk Log.Block} {it' : Nat → DInode} {i x : Nat} {s₀ : Slot}
    (htype : ∀ j, (it' j).type = (it j).type)
    (hslot : ∀ j < sb.ninodes, (it j).type ≠ 0 → ∀ s,
      slotBlock d' (it' j) s = if j = i ∧ s = s₀ then x else slotBlock d (it j) s)
    (hold : slotBlock d (it i) s₀ = 0) (hx0 : x ≠ 0) (hi : i < sb.ninodes)
    (hti : (it i).type ≠ 0) {y j : Nat} {s : Slot} :
    Refs sb d' it' y j s ↔ Refs sb d it y j s ∨ (j = i ∧ s = s₀ ∧ y = x) := by
  constructor
  · rintro ⟨hj, htj, hy, hs⟩
    rw [htype] at htj
    rw [hslot j hj htj s] at hs
    by_cases h : j = i ∧ s = s₀
    · obtain ⟨rfl, rfl⟩ := h
      rw [if_pos ⟨rfl, rfl⟩] at hs
      exact .inr ⟨rfl, rfl, hs.symm⟩
    · rw [if_neg h] at hs
      exact .inl ⟨hj, htj, hy, hs⟩
  · rintro (⟨hj, htj, hy, hs⟩ | ⟨rfl, rfl, rfl⟩)
    · refine ⟨hj, by rw [htype]; exact htj, hy, ?_⟩
      rw [hslot j hj htj s, if_neg]
      · exact hs
      · rintro ⟨rfl, rfl⟩
        rw [hold] at hs
        exact hy hs.symm
    · refine ⟨hi, by rw [htype]; exact hti, hx0, ?_⟩
      rw [hslot _ hi hti s, if_pos ⟨rfl, rfl⟩]

/-- Slots read only the inode's addresses. -/
theorem slotBlock_congr (d : Disk Log.Block) {din din' : DInode} (h : din'.addrs = din.addrs)
    (s : Slot) : slotBlock d din' s = slotBlock d din s := by
  cases s <;> simp only [slotBlock, h]

/-- References read only the types and the addresses of the inodes. -/
theorem refs_table_congr {it' : Nat → DInode}
    (h : ∀ j < sb.ninodes, (it' j).type = (it j).type ∧ (it' j).addrs = (it j).addrs)
    {x i : Nat} {s : Slot} : Refs sb d it' x i s ↔ Refs sb d it x i s := by
  constructor
  · rintro ⟨hi, ht, hx, hs⟩
    obtain ⟨hty, had⟩ := h i hi
    exact ⟨hi, hty ▸ ht, hx, slotBlock_congr d had.symm s ▸ hs⟩
  · rintro ⟨hi, ht, hx, hs⟩
    obtain ⟨hty, had⟩ := h i hi
    exact ⟨hi, hty ▸ ht, hx, slotBlock_congr d had s ▸ hs⟩

/-- Fewer references, each still marked, with the metadata still marked. -/
theorem OwnInv.of_sub (hinv : OwnInv sb nmeta d it) {d' : Disk Log.Block} {it' : Nat → DInode}
    (href : ∀ {y j s}, Refs sb d' it' y j s → Refs sb d it y j s)
    (hmarked : ∀ {y j s}, Refs sb d' it' y j s → used sb d' y = true)
    (hmeta : ∀ y < nmeta, used sb d' y = true) : OwnInv sb nmeta d' it' :=
  ⟨fun h₁ h₂ => hinv.unique (href h₁) (href h₂), fun h => hinv.inData (href h), hmarked, hmeta⟩

theorem OwnInv.table_congr (hinv : OwnInv sb nmeta d it) {it' : Nat → DInode}
    (h : ∀ j < sb.ninodes, (it' j).type = (it j).type ∧ (it' j).addrs = (it j).addrs) :
    OwnInv sb nmeta d it' :=
  hinv.of_sub (refs_table_congr h).mp (fun hr => hinv.marked ((refs_table_congr h).mp hr))
    hinv.metaUsed

/-! ## Writes the invariant survives -/

section Writes

variable (hlay : DiskLayout sb nmeta)
include hlay

/-- A write below the data area that unmarks no block. -/
theorem OwnInv.update_meta (hinv : OwnInv sb nmeta d it) {z : Nat} (hz : z < nmeta)
    (blk : Log.Block)
    (hmono : ∀ y < sb.size, used sb d y = true → used sb (Function.update d z blk) y = true) :
    OwnInv sb nmeta (Function.update d z blk) it := by
  have href := fun {x i s} => refs_update_of_not_ind (x := x) (i := i) (s := s) blk
    (hinv.not_ind_of_lt hz)
  refine ⟨fun h₁ h₂ => hinv.unique (href.mp h₁) (href.mp h₂), fun h => hinv.inData (href.mp h),
    fun h => ?_, fun y hy => ?_⟩
  · exact hmono _ (hinv.inData (href.mp h)).2 (hinv.marked (href.mp h))
  · exact hmono _ (by have := hlay.meta_le; omega) (hinv.metaUsed y hy)

/-- `iupdate` of an inode the table already holds. -/
theorem OwnInv.writeDinode (hinv : OwnInv sb nmeta d it) {inum : Nat} (hinum : inum < sb.ninodes)
    (din : DInode) : OwnInv sb nmeta (writeDinode sb d inum din) it :=
  hinv.update_meta hlay (hlay.iblock_lt _ hinum) _ fun y hy hu => by
    show used sb (Fs.writeDinode sb d inum din) y = true
    rw [used_writeDinode sb d din (Ne.symm (hlay.bblock_ne y hy inum hinum))]
    exact hu

/-- Marking a block in use. -/
theorem OwnInv.markUsed (hinv : OwnInv sb nmeta d it) {x : Nat} (hx : x < sb.size) :
    OwnInv sb nmeta (markUsed sb d x) it :=
  hinv.update_meta hlay (hlay.bblock_lt x hx) _ fun y _ hu => by
    show used sb (Fs.markUsed sb d x) y = true
    rw [used_markUsed, hu, Bool.true_or]

/-- A write to a data block that is no inode's indirect block. -/
theorem OwnInv.update_data (hinv : OwnInv sb nmeta d it) {z : Nat} (hz : nmeta ≤ z)
    (hnot : ∀ i, ¬Refs sb d it z i .ind) (blk : Log.Block) :
    OwnInv sb nmeta (Function.update d z blk) it := by
  have href := fun {x i s} => refs_update_of_not_ind (x := x) (i := i) (s := s) blk hnot
  have hused : ∀ y < sb.size, used sb (Function.update d z blk) y = used sb d y := fun y hy =>
    used_update_of_ne sb d blk (by have := hlay.bblock_lt y hy; omega)
  refine ⟨fun h₁ h₂ => hinv.unique (href.mp h₁) (href.mp h₂), fun h => hinv.inData (href.mp h),
    fun h => ?_, fun y hy => ?_⟩
  · rw [hused _ (hinv.inData (href.mp h)).2]
    exact hinv.marked (href.mp h)
  · rw [hused _ (by have := hlay.meta_le; omega)]
    exact hinv.metaUsed y hy

/-- One reference more, to a block marked in use that nothing referred to. -/
theorem OwnInv.of_add (hinv : OwnInv sb nmeta d it) {d' : Disk Log.Block} {it' : Nat → DInode}
    {x i : Nat} {s₀ : Slot}
    (href : ∀ {y j s}, Refs sb d' it' y j s ↔ Refs sb d it y j s ∨ (j = i ∧ s = s₀ ∧ y = x))
    (hused : ∀ y < sb.size, used sb d' y = used sb d y)
    (hfresh : ∀ j s, ¬Refs sb d it x j s) (hxu : used sb d x = true) (hxm : nmeta ≤ x)
    (hxs : x < sb.size) : OwnInv sb nmeta d' it' := by
  refine ⟨fun h₁ h₂ => ?_, fun h => ?_, fun h => ?_, fun y hy => ?_⟩
  · rcases href.mp h₁ with h₁ | ⟨hj₁, hs₁, hy₁⟩ <;>
      rcases href.mp h₂ with h₂ | ⟨hj₂, hs₂, hy₂⟩
    · exact hinv.unique h₁ h₂
    · exact absurd (hy₂ ▸ h₁) (hfresh _ _)
    · exact absurd (hy₁ ▸ h₂) (hfresh _ _)
    · exact ⟨hj₁.trans hj₂.symm, hs₁.trans hs₂.symm⟩
  · rcases href.mp h with h | ⟨-, -, rfl⟩
    · exact hinv.inData h
    · exact ⟨hxm, hxs⟩
  · rcases href.mp h with h | ⟨-, -, rfl⟩
    · rw [hused _ (hinv.inData h).2]
      exact hinv.marked h
    · rw [hused _ hxs]
      exact hxu
  · rw [hused _ (by have := hlay.meta_le; omega)]
    exact hinv.metaUsed y hy

/-- Fewer references over the same bitmap. -/
theorem OwnInv.of_refs_sub (hinv : OwnInv sb nmeta d it) {d' : Disk Log.Block}
    {it' : Nat → DInode} (href : ∀ {y j s}, Refs sb d' it' y j s → Refs sb d it y j s)
    (hused : ∀ y < sb.size, used sb d' y = used sb d y) : OwnInv sb nmeta d' it' := by
  refine hinv.of_sub href (fun hr => ?_) (fun y hy => ?_)
  · rw [hused _ (hinv.inData (href hr)).2]
    exact hinv.marked (href hr)
  · rw [hused _ (by have := hlay.meta_le; omega)]
    exact hinv.metaUsed y hy

/-- Everything `balloc` does, seen by the invariant: the block it returns
is in the data area, referenced by nothing, marked in use and zeroed, and
nothing else changes but its bit. -/
structure BallocSpec (sb : SuperBlock) (nmeta : Nat) (d d' : Disk Log.Block)
    (it : Nat → DInode) (x : Nat) : Prop where
  inv : OwnInv sb nmeta d' it
  fresh : ∀ j s, ¬Refs sb d' it x j s
  marked : used sb d' x = true
  inData : nmeta ≤ x ∧ x < sb.size
  zeroed : ∀ j, entryAt (d' x) j = 0
  others : ∀ z, z ≠ x → nmeta ≤ z → d' z = d z
  dinodes : ∀ j < sb.ninodes, dinodeAt sb d' j = dinodeAt sb d j

theorem OwnInv.balloc (hinv : OwnInv sb nmeta d it) {d' : Disk Log.Block} {x : Nat}
    (h : Fs.balloc sb d = some (d', x)) : BallocSpec sb nmeta d d' it x := by
  obtain ⟨hx, hfree, rfl⟩ := balloc_spec h
  have hmeta : nmeta ≤ x := by
    by_contra hlt
    rw [hinv.metaUsed x (by omega)] at hfree
    cases hfree
  have hbb : BBLOCK x sb < nmeta := hlay.bblock_lt x hx
  -- marking the bit changes no reference; zeroing the block neither
  have h₁ := hinv.markUsed hlay hx
  have href₁ : ∀ {y j s}, Refs sb (Fs.markUsed sb d x) it y j s ↔ Refs sb d it y j s :=
    refs_update_of_not_ind _ (hinv.not_ind_of_lt hbb)
  have hnot : ∀ j s, ¬Refs sb d it x j s := fun j s hr => by
    rw [hinv.marked hr] at hfree
    cases hfree
  have href₂ : ∀ {y j s}, Refs sb (bzero (Fs.markUsed sb d x) x) it y j s ↔ Refs sb d it y j s :=
    fun {y j s} => (refs_update_of_not_ind _ fun j hr => hnot j .ind (href₁.mp hr)).trans href₁
  refine ⟨h₁.update_data hlay hmeta (fun j hr => hnot j .ind (href₁.mp hr)) _,
    fun j s hr => hnot j s (href₂.mp hr), ?_, ⟨hmeta, hx⟩, fun j => ?_, fun z hz hzm => ?_,
    fun j hj => ?_⟩
  · rw [bzero, used_update_of_ne _ _ _ (by omega), used_markUsed]
    simp
  · rw [bzero, Function.update_self]
    exact entryAt_zeros j
  · rw [bzero, Function.update_of_ne hz, Fs.markUsed, Function.update_of_ne (by omega)]
  · have hib := hlay.iblock_lt j hj
    rw [bzero, dinodeAt_update_of_ne _ _ _ (by omega), Fs.markUsed,
      dinodeAt_update_of_ne _ _ _ (hlay.bblock_ne x hx j hj)]

/-- A fresh block, referenced by nothing and marked in use, filling an empty
direct slot. -/
theorem OwnInv.setDirect (hinv : OwnInv sb nmeta d it) {i : Nat} (hi : i < sb.ninodes)
    (ht : (it i).type ≠ 0) (k : Fin NDIRECT) (hk : (it i).addrs k.castSucc = 0) {x : Nat}
    (hfresh : ∀ j s, ¬Refs sb d it x j s) (hxu : used sb d x = true) (hxm : nmeta ≤ x)
    (hxs : x < sb.size) :
    OwnInv sb nmeta d (Function.update it i
      { it i with addrs := Function.update (it i).addrs k.castSucc (UInt32.ofNat x) }) := by
  have hx0 : x ≠ 0 := by have := hlay.meta_pos; omega
  have hx32 : (UInt32.ofNat x).toNat = x := toNat_ofNat_of_lt (by have := hlay.size_lt; omega)
  have hslot : ∀ j < sb.ninodes, (it j).type ≠ 0 → ∀ s, slotBlock d (Function.update it i
      { it i with addrs := Function.update (it i).addrs k.castSucc (UInt32.ofNat x) } j) s =
      if j = i ∧ s = .direct k then x else slotBlock d (it j) s := by
    intro j _ _ s
    by_cases hj : j = i
    · subst hj
      rw [Function.update_self, slotBlock_setDirect, hx32]
      simp
    · rw [Function.update_of_ne hj, if_neg (fun h => hj h.1)]
  refine hinv.of_add hlay (refs_iff_of_slot (fun j => ?_) hslot (by simp [slotBlock, hk]) hx0 hi ht)
    (fun _ _ => rfl) hfresh hxu hxm hxs
  by_cases hj : j = i
  · subst hj
    rw [Function.update_self]
  · rw [Function.update_of_ne hj]

/-- A fresh block with no entries becoming the inode's indirect block. -/
theorem OwnInv.setInd (hinv : OwnInv sb nmeta d it) {i : Nat} (hi : i < sb.ninodes)
    (ht : (it i).type ≠ 0) (hk : (it i).addrs indIdx = 0) {x : Nat}
    (hfresh : ∀ j s, ¬Refs sb d it x j s) (hxu : used sb d x = true) (hxm : nmeta ≤ x)
    (hxs : x < sb.size) (hz : ∀ j, entryAt (d x) j = 0) :
    OwnInv sb nmeta d (Function.update it i
      { it i with addrs := Function.update (it i).addrs indIdx (UInt32.ofNat x) }) := by
  have hx0 : x ≠ 0 := by have := hlay.meta_pos; omega
  have hx32 : (UInt32.ofNat x).toNat = x := toNat_ofNat_of_lt (by have := hlay.size_lt; omega)
  have hv : UInt32.ofNat x ≠ 0 := fun h => hx0 (by rw [← hx32, h, UInt32.toNat_zero])
  have hz' : ∀ j, entryAt (d (UInt32.ofNat x).toNat) j = 0 := by
    rw [hx32]
    exact hz
  have hslot : ∀ j < sb.ninodes, (it j).type ≠ 0 → ∀ s, slotBlock d (Function.update it i
      { it i with addrs := Function.update (it i).addrs indIdx (UInt32.ofNat x) } j) s =
      if j = i ∧ s = .ind then x else slotBlock d (it j) s := by
    intro j _ _ s
    by_cases hj : j = i
    · subst hj
      rw [Function.update_self, slotBlock_setInd d _ hv hz' hk, hx32]
      simp
    · rw [Function.update_of_ne hj, if_neg (fun h => hj h.1)]
  refine hinv.of_add hlay (refs_iff_of_slot (fun j => ?_) hslot (by simp [slotBlock, hk]) hx0 hi ht)
    (fun _ _ => rfl) hfresh hxu hxm hxs
  by_cases hj : j = i
  · subst hj
    rw [Function.update_self]
  · rw [Function.update_of_ne hj]

/-- A fresh block filling an empty entry of the inode's indirect block. -/
theorem OwnInv.setEntry (hinv : OwnInv sb nmeta d it) {i : Nat} (hi : i < sb.ninodes)
    (ht : (it i).type ≠ 0) (ha : (it i).addrs indIdx ≠ 0) (j : Fin NINDIRECT)
    (hj : slotBlock d (it i) (.entry j) = 0) {x : Nat}
    (hfresh : ∀ j s, ¬Refs sb d it x j s) (hxu : used sb d x = true) (hxm : nmeta ≤ x)
    (hxs : x < sb.size) :
    OwnInv sb nmeta (Function.update d ((it i).addrs indIdx).toNat
      (setLE (d ((it i).addrs indIdx).toNat) (4 * j) 4 x)) it := by
  have hx0 : x ≠ 0 := by have := hlay.meta_pos; omega
  have hxmod : x % 2 ^ 32 = x := Nat.mod_eq_of_lt (by have := hlay.size_lt; omega)
  have hind := refs_ind (d := d) hi ht ha
  have ham := (hinv.inData hind).1
  have hslot : ∀ i' < sb.ninodes, (it i').type ≠ 0 → ∀ s,
      slotBlock (Function.update d ((it i).addrs indIdx).toNat
        (setLE (d ((it i).addrs indIdx).toNat) (4 * j) 4 x)) (it i') s =
      if i' = i ∧ s = .entry j then x else slotBlock d (it i') s := by
    intro i' hi'n hti' s
    by_cases hi' : i' = i
    · subst hi'
      cases s with
      | entry j' =>
          simp only [slotBlock, if_neg ha, Function.update_self, entryAt_setLE _ j.isLt, hxmod]
          by_cases hjj : j' = j
          · subst hjj
            simp
          · have hv : j'.val ≠ j.val := fun h => hjj (Fin.ext h)
            simp [hv, hjj]
      | _ => simp [slotBlock]
    · -- another allocated inode's indirect block is another block
      rw [if_neg (fun h => hi' h.1)]
      apply slotBlock_update_of_ne
      intro ha' he
      exact hi' (hinv.unique (refs_ind hi'n hti' ha') (he ▸ hind)).1
  refine hinv.of_add hlay (refs_iff_of_slot (fun _ => rfl) hslot hj hx0 hi ht)
    (fun y hy => used_update_of_ne _ _ _ (by have := hlay.bblock_lt y hy; omega))
    hfresh hxu hxm hxs

end Writes

/-! ## Operations on a locked inode -/

/-- What a step of an operation on the locked inode `ip` may do: the
invariant holds with the new in-memory inode `ip'` in the table, `ip'`
differs from `ip` only in slots that were empty, and no dinode on disk
changed. -/
structure Grows (sb : SuperBlock) (nmeta : Nat) (d : Disk Log.Block) (it : Nat → DInode)
    (ip : Inode) (d' : Disk Log.Block) (ip' : Inode) : Prop where
  inv : OwnInv sb nmeta d' (Function.update it ip.inum ip'.toDInode)
  inum_eq : ip'.inum = ip.inum
  fields : ip'.toDInode = { ip.toDInode with addrs := ip'.addrs }
  grows : ∀ k, ip.addrs k ≠ 0 → ip'.addrs k = ip.addrs k
  dinodes : ∀ j < sb.ninodes, dinodeAt sb d' j = dinodeAt sb d j

theorem Grows.refl (hinv : OwnInv sb nmeta d it) {ip : Inode} (hip : it ip.inum = ip.toDInode) :
    Grows sb nmeta d it ip d ip := by
  refine ⟨?_, rfl, rfl, fun _ _ => rfl, fun _ _ => rfl⟩
  rw [← hip, Function.update_eq_self]
  exact hinv

theorem Grows.trans {ip ip₁ ip₂ : Inode} {d₁ d₂ : Disk Log.Block}
    (h₁ : Grows sb nmeta d it ip d₁ ip₁)
    (h₂ : Grows sb nmeta d₁ (Function.update it ip.inum ip₁.toDInode) ip₁ d₂ ip₂) :
    Grows sb nmeta d it ip d₂ ip₂ := by
  have hinv := h₂.inv
  rw [h₁.inum_eq, Function.update_idem] at hinv
  refine ⟨hinv, h₂.inum_eq.trans h₁.inum_eq, ?_, fun k hk => ?_, fun j hj => ?_⟩
  · rw [h₂.fields, h₁.fields]
  · rw [h₂.grows k (by rw [h₁.grows k hk]; exact hk), h₁.grows k hk]
  · rw [h₂.dinodes j hj, h₁.dinodes j hj]

theorem Grows.type_eq {ip ip' : Inode} {d' : Disk Log.Block} (h : Grows sb nmeta d it ip d' ip') :
    ip'.type = ip.type := by
  have := congrArg DInode.type h.fields
  exact this

/-- A slot that already holds a block: `bmap` returns it and changes nothing. -/
theorem refs_hit {ip : Inode} (hip : it ip.inum = ip.toDInode) (hi : ip.inum < sb.ninodes)
    (ht : ip.type ≠ 0) (s : Slot) (hx : slotBlock d ip.toDInode s ≠ 0) :
    Refs sb d (Function.update it ip.inum ip.toDInode) (slotBlock d ip.toDInode s) ip.inum s := by
  rw [Function.update_eq_self_iff.mpr hip.symm]
  exact ⟨hi, by rw [hip]; exact ht, hx, by rw [hip]⟩

section Steps

variable (hlay : DiskLayout sb nmeta)
include hlay

/-- `bmap` filling an empty direct slot with a block from `balloc`. -/
theorem OwnInv.allocDirect (hinv : OwnInv sb nmeta d it) {ip : Inode}
    (hip : it ip.inum = ip.toDInode) (hi : ip.inum < sb.ninodes) (ht : ip.type ≠ 0)
    (k : Fin NDIRECT) (hz : ip.addrs k.castSucc = 0) {d₁ : Disk Log.Block} {y : Nat}
    (hb : Fs.balloc sb d = some (d₁, y)) :
    let ip' := { ip with addrs := Function.update ip.addrs k.castSucc (UInt32.ofNat y) }
    Grows sb nmeta d it ip d₁ ip' ∧ ∃ s, s ≠ .ind ∧
      Refs sb d₁ (Function.update it ip.inum ip'.toDInode) (UInt32.ofNat y).toNat ip.inum s := by
  intro ip'
  have hs := hinv.balloc hlay hb
  have hti : (it ip.inum).type ≠ 0 := by rw [hip]; exact ht
  have hk : (it ip.inum).addrs k.castSucc = 0 := by rw [hip]; exact hz
  have hinv₁ := hs.inv.setDirect hlay hi hti k hk hs.fresh hs.marked hs.inData.1 hs.inData.2
  rw [hip] at hinv₁
  have hy32 : (UInt32.ofNat y).toNat = y :=
    toNat_ofNat_of_lt (by have := hlay.size_lt; have := hs.inData.2; omega)
  have hy0 : y ≠ 0 := by have := hlay.meta_pos; have := hs.inData.1; omega
  refine ⟨⟨hinv₁, rfl, rfl, fun k' hk' => Function.update_of_ne (fun he => hk' (by rw [he]; exact hz)) _ _,
    hs.dinodes⟩, .direct k, nofun, hi, ?_, by rw [hy32]; exact hy0, ?_⟩
  · rw [Function.update_self]
    exact ht
  · simp [slotBlock, ip']

/-- `bmap` giving the inode a fresh indirect block. -/
theorem OwnInv.allocInd (hinv : OwnInv sb nmeta d it) {ip : Inode}
    (hip : it ip.inum = ip.toDInode) (hi : ip.inum < sb.ninodes) (ht : ip.type ≠ 0)
    (hz : ip.addrs indIdx = 0) {d₁ : Disk Log.Block} {y : Nat}
    (hb : Fs.balloc sb d = some (d₁, y)) :
    Grows sb nmeta d it ip d₁ { ip with addrs := Function.update ip.addrs indIdx (UInt32.ofNat y) } ∧
      UInt32.ofNat y ≠ 0 := by
  have hs := hinv.balloc hlay hb
  have hti : (it ip.inum).type ≠ 0 := by rw [hip]; exact ht
  have hk : (it ip.inum).addrs indIdx = 0 := by rw [hip]; exact hz
  have hinv₁ := hs.inv.setInd hlay hi hti hk hs.fresh hs.marked hs.inData.1 hs.inData.2 hs.zeroed
  rw [hip] at hinv₁
  have hy32 : (UInt32.ofNat y).toNat = y :=
    toNat_ofNat_of_lt (by have := hlay.size_lt; have := hs.inData.2; omega)
  have hy0 : y ≠ 0 := by have := hlay.meta_pos; have := hs.inData.1; omega
  refine ⟨⟨hinv₁, rfl, rfl, fun k' hk' => Function.update_of_ne (fun he => hk' (by rw [he]; exact hz)) _ _,
    hs.dinodes⟩, fun h => hy0 ?_⟩
  rw [← hy32, h, UInt32.toNat_zero]

/-- `bmap` filling an empty entry of the indirect block with a block from
`balloc`. -/
theorem OwnInv.allocEntry (hinv : OwnInv sb nmeta d it) {ip : Inode}
    (hip : it ip.inum = ip.toDInode) (hi : ip.inum < sb.ninodes) (ht : ip.type ≠ 0)
    (ha : ip.addrs indIdx ≠ 0) (j : Fin NINDIRECT)
    (hz : entryAt (d (ip.addrs indIdx).toNat) j = 0) {d₁ : Disk Log.Block} {y : Nat}
    (hb : Fs.balloc sb d = some (d₁, y)) :
    let d' := Function.update d₁ (ip.addrs indIdx).toNat
      (setLE (d₁ (ip.addrs indIdx).toNat) (4 * j) 4 y)
    Grows sb nmeta d it ip d' ip ∧ ∃ s, s ≠ .ind ∧
      Refs sb d' (Function.update it ip.inum ip.toDInode) (UInt32.ofNat y).toNat ip.inum s := by
  intro d'
  have hs := hinv.balloc hlay hb
  have hti : (it ip.inum).type ≠ 0 := by rw [hip]; exact ht
  have hai : (it ip.inum).addrs indIdx ≠ 0 := by rw [hip]; exact ha
  -- the indirect block is referenced, so `balloc` neither returns nor writes it
  have hind := refs_ind (d := d₁) hi hti hai
  have ham := (hs.inv.inData hind).1
  have hay : (ip.addrs indIdx).toNat ≠ y := fun he => hs.fresh _ _ (by rw [hip] at hind; exact he ▸ hind)
  have hsame : d₁ (ip.addrs indIdx).toNat = d (ip.addrs indIdx).toNat := by
    rw [hip] at ham
    exact hs.others _ hay ham
  have hj : slotBlock d₁ (it ip.inum) (.entry j) = 0 := by
    simp only [slotBlock, hip, if_neg ha, hsame, hz]
  have hinv₁ := hs.inv.setEntry hlay hi hti hai j hj hs.fresh hs.marked hs.inData.1 hs.inData.2
  rw [hip] at hinv₁
  have hupd : Function.update it ip.inum ip.toDInode = it := by
    rw [← hip, Function.update_eq_self]
  have hy32 : (UInt32.ofNat y).toNat = y :=
    toNat_ofNat_of_lt (by have := hlay.size_lt; have := hs.inData.2; omega)
  have hy0 : y ≠ 0 := by have := hlay.meta_pos; have := hs.inData.1; omega
  have hymod : y % 2 ^ 32 = y := by rw [← hy32]; exact Nat.mod_eq_of_lt (UInt32.toNat_lt _)
  refine ⟨⟨by rw [hupd]; exact hinv₁, rfl, rfl, fun _ _ => rfl, fun j' hj' => ?_⟩,
    .entry j, nofun, ?_⟩
  · rw [hip] at ham
    rw [dinodeAt_update_of_ne _ _ _ (by have := hlay.iblock_lt j' hj'; omega), hs.dinodes j' hj']
  · rw [hupd]
    refine ⟨hi, hti, by rw [hy32]; exact hy0, ?_⟩
    simp only [slotBlock, hip, if_neg ha, d', Function.update_self,
      entryAt_setLE _ j.isLt, if_true, hymod, hy32]

/-- The first half of `bmap` past the direct blocks: the indirect block,
allocated if the inode has none. -/
theorem OwnInv.loadInd (hinv : OwnInv sb nmeta d it) {ip : Inode}
    (hip : it ip.inum = ip.toDInode) (hi : ip.inum < sb.ninodes) (ht : ip.type ≠ 0)
    {d₁ : Disk Log.Block} {ip₁ : Inode} {a : UInt32}
    (h : (if ip.addrs indIdx == 0 then
        (Fs.balloc sb d).map fun p =>
          (p.1, { ip with addrs := Function.update ip.addrs indIdx (UInt32.ofNat p.2) },
            UInt32.ofNat p.2)
      else some (d, ip, ip.addrs indIdx)) = some (d₁, ip₁, a)) :
    Grows sb nmeta d it ip d₁ ip₁ ∧ ip₁.addrs indIdx = a ∧ a ≠ 0 := by
  split at h
  · rename_i hz
    obtain ⟨⟨d₂, y⟩, hb, he⟩ := Option.map_eq_some_iff.mp h
    cases he
    obtain ⟨hg, hy⟩ := hinv.allocInd hlay hip hi ht (eq_of_beq hz) hb
    exact ⟨hg, Function.update_self indIdx (UInt32.ofNat y) ip.addrs, hy⟩
  · rename_i hz
    cases h
    exact ⟨Grows.refl hinv hip, rfl, by simpa using hz⟩

/-- The second half of `bmap`, on entry `j` of the indirect block `a` that
the inode holds. -/
theorem OwnInv.bmapEntry (hinv : OwnInv sb nmeta d it) {ip : Inode}
    (hip : it ip.inum = ip.toDInode) (hi : ip.inum < sb.ninodes) (ht : ip.type ≠ 0)
    {a : UInt32} (ha : ip.addrs indIdx = a) (ha0 : a ≠ 0) (j : Fin NINDIRECT)
    {d' : Disk Log.Block} {ip' : Inode} {x : UInt32}
    (h : (if entryAt (d a.toNat) j == 0 then
        (Fs.balloc sb d).map fun p =>
          (Function.update p.1 a.toNat (setLE (p.1 a.toNat) (4 * j) 4 p.2), ip, UInt32.ofNat p.2)
      else some (d, ip, UInt32.ofNat (entryAt (d a.toNat) j))) = some (d', ip', x)) :
    Grows sb nmeta d it ip d' ip' ∧ ∃ s, s ≠ .ind ∧
      Refs sb d' (Function.update it ip.inum ip'.toDInode) x.toNat ip.inum s := by
  subst ha
  split at h
  · rename_i hz
    obtain ⟨⟨d₁, y⟩, hb, he⟩ := Option.map_eq_some_iff.mp h
    cases he
    exact hinv.allocEntry hlay hip hi ht ha0 j (eq_of_beq hz) hb
  · rename_i hz
    cases h
    have hx : (UInt32.ofNat (entryAt (d (ip.addrs indIdx).toNat) j)).toNat =
        slotBlock d ip.toDInode (.entry j) := by
      rw [toNat_ofNat_of_lt (entryAt_lt _ _), slotBlock, if_neg ha0]
    have hne : entryAt (d (ip.addrs indIdx).toNat) j ≠ 0 := by simpa using hz
    refine ⟨Grows.refl hinv hip, .entry j, nofun, ?_⟩
    rw [hx]
    exact refs_hit hip hi ht _ (by rw [← hx, toNat_ofNat_of_lt (entryAt_lt _ _)]; exact hne)

/-- `bmap` keeps the invariant and returns a block that the inode now
references from a data slot. -/
theorem OwnInv.bmap (hinv : OwnInv sb nmeta d it) {ip : Inode}
    (hip : it ip.inum = ip.toDInode) (hi : ip.inum < sb.ninodes) (ht : ip.type ≠ 0)
    {bn : Nat} {d' : Disk Log.Block} {ip' : Inode} {x : UInt32}
    (h : Fs.bmap sb d ip bn = some (d', ip', x)) :
    Grows sb nmeta d it ip d' ip' ∧ ∃ s, s ≠ .ind ∧
      Refs sb d' (Function.update it ip.inum ip'.toDInode) x.toNat ip.inum s := by
  unfold Fs.bmap at h
  dsimp only at h
  split at h
  · rename_i hbn
    split at h
    · rename_i hz
      obtain ⟨⟨d₁, y⟩, hb, he⟩ := Option.map_eq_some_iff.mp h
      cases he
      exact hinv.allocDirect hlay hip hi ht ⟨bn, hbn⟩ (eq_of_beq hz) hb
    · rename_i hz
      cases h
      have hne : ip.addrs ⟨bn, by omega⟩ ≠ 0 := by simpa using hz
      exact ⟨Grows.refl hinv hip, .direct ⟨bn, hbn⟩, nofun,
        refs_hit hip hi ht (.direct ⟨bn, hbn⟩) (toNat_ne_zero hne)⟩
  · split at h
    · rename_i hbn
      split at h
      · cases h
      · rename_i d₁ ip₁ a hl
        obtain ⟨hg, ha, ha0⟩ := hinv.loadInd hlay hip hi ht hl
        have hip₁ : Function.update it ip.inum ip₁.toDInode ip₁.inum = ip₁.toDInode := by
          rw [hg.inum_eq, Function.update_self]
        have ht₁ : ip₁.type ≠ 0 := by
          rw [hg.type_eq]
          exact ht
        obtain ⟨hg₂, s, hs, hr⟩ := hg.inv.bmapEntry hlay hip₁ (hg.inum_eq ▸ hi) ht₁ ha ha0
          ⟨bn - NDIRECT, hbn⟩ h
        rw [hg.inum_eq, Function.update_idem] at hr
        exact ⟨hg.trans hg₂, s, hs, hr⟩
    · cases h

/-- `bmap` on the inode a run of `Grows` steps has reached. -/
theorem Grows.bmap {ip ip₁ ip₂ : Inode} {d₁ d₂ : Disk Log.Block} {bn : Nat} {x : UInt32}
    (hg : Grows sb nmeta d it ip d₁ ip₁) (hi : ip.inum < sb.ninodes) (ht : ip.type ≠ 0)
    (h : Fs.bmap sb d₁ ip₁ bn = some (d₂, ip₂, x)) :
    Grows sb nmeta d it ip d₂ ip₂ ∧ ∃ s, s ≠ .ind ∧
      Refs sb d₂ (Function.update it ip.inum ip₂.toDInode) x.toNat ip.inum s := by
  have hip₁ : Function.update it ip.inum ip₁.toDInode ip₁.inum = ip₁.toDInode := by
    rw [hg.inum_eq, Function.update_self]
  have ht₁ : ip₁.type ≠ 0 := by
    rw [hg.type_eq]
    exact ht
  obtain ⟨hg₂, s, hs, hr⟩ := hg.inv.bmap hlay hip₁ (hg.inum_eq ▸ hi) ht₁ h
  rw [hg.inum_eq, Function.update_idem] at hr
  exact ⟨hg.trans hg₂, s, hs, hr⟩

/-- A write to a block the inode references from a data slot. -/
theorem Grows.writeData {ip ip' : Inode} {d' : Disk Log.Block} (hg : Grows sb nmeta d it ip d' ip')
    {x : Nat} {s : Slot} (hs : s ≠ .ind)
    (hr : Refs sb d' (Function.update it ip.inum ip'.toDInode) x ip.inum s) (blk : Log.Block) :
    Grows sb nmeta d it ip (Function.update d' x blk) ip' := by
  have hxm := (hg.inv.inData hr).1
  have hnot : ∀ j, ¬Refs sb d' (Function.update it ip.inum ip'.toDInode) x j .ind :=
    fun j hj => hs (hg.inv.unique hr hj).2
  refine ⟨hg.inv.update_data hlay hxm hnot blk, hg.inum_eq, hg.fields, hg.grows, fun j hj => ?_⟩
  rw [dinodeAt_update_of_ne _ _ _ (by have := hlay.iblock_lt j hj; omega), hg.dinodes j hj]

end Steps

/-- What an operation that ends with `iupdate` leaves: the invariant with
the new inode in the table, that inode stored as its dinode, and every
other dinode as it was. -/
structure Stores (sb : SuperBlock) (nmeta : Nat) (d : Disk Log.Block) (it : Nat → DInode)
    (ip : Inode) (d' : Disk Log.Block) (ip' : Inode) : Prop where
  inv : OwnInv sb nmeta d' (Function.update it ip.inum ip'.toDInode)
  inum_eq : ip'.inum = ip.inum
  type_eq : ip'.type = ip.type
  self : dinodeAt sb d' ip.inum = ip'.toDInode
  dinodes : ∀ j < sb.ninodes, j ≠ ip.inum → dinodeAt sb d' j = dinodeAt sb d j

section Store

variable (hlay : DiskLayout sb nmeta)
include hlay

/-- `iupdate` after a run of `Grows` steps, of the inode reached or of one
that differs from it in fields no reference reads. -/
theorem Grows.iupdate {ip ip₁ ip₂ : Inode} {d₁ : Disk Log.Block}
    (hg : Grows sb nmeta d it ip d₁ ip₁) (hi : ip.inum < sb.ninodes) (hnum : ip₂.inum = ip₁.inum)
    (hty : ip₂.type = ip₁.type) (had : ip₂.addrs = ip₁.addrs) :
    Stores sb nmeta d it ip (Fs.iupdate sb d₁ ip₂) ip₂ := by
  have hnum₂ : ip₂.inum = ip.inum := hnum.trans hg.inum_eq
  have hinv : OwnInv sb nmeta d₁ (Function.update it ip.inum ip₂.toDInode) := by
    refine hg.inv.table_congr fun j _ => ?_
    by_cases hj : j = ip.inum
    · subst hj
      simp only [Function.update_self]
      exact ⟨hty, had⟩
    · simp only [Function.update_of_ne hj, and_self]
  refine ⟨?_, hnum₂, hty.trans hg.type_eq, ?_, fun j hj hne => ?_⟩
  · rw [Fs.iupdate, hnum₂]
    exact hinv.writeDinode hlay hi _
  · rw [Fs.iupdate, hnum₂, dinodeAt_writeDinode, if_pos rfl]
  · rw [Fs.iupdate, hnum₂, dinodeAt_writeDinode, if_neg hne, hg.dinodes j hj]

end Store

end Fs
end Xv6
