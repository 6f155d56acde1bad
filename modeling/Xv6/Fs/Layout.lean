import Xv6.Fs.LogDisk
import Xv6.Support.Bitmap

/-!
# The on-disk layout of the file system

`kernel/fs.h`: the superblock, `struct dinode` laid over the inode blocks,
the free bitmap, and indirect blocks read as arrays of `uint`.

The disk is the one of the log (`Disk Log.Block`), read and written through
the buffer cache; each file-system operation runs inside one transaction,
so its writes reach the disk together (the crash atomicity of the log) and
it is modelled as a function of the disk.

A dinode is read field by field from its 64 bytes (`getDinode`) and
written field by field, in declaration order, as `iupdate` does
(`putDinode`); `getDinode_putDinode` reads a stored dinode back, and
`dinodeAt_writeDinode` says a dinode store changes no other dinode.
The short fields are `Int16` and the `uint` fields `UInt32`, as in C.
-/

namespace Xv6
namespace Fs

open Bytes

/-- `ROOTINO`: the root i-number. -/
def ROOTINO : Nat := 1

/-- `NDIRECT` -/
def NDIRECT : Nat := 12

/-- `NINDIRECT`: `BSIZE / sizeof(uint)` block numbers in an indirect block. -/
def NINDIRECT : Nat := BSIZE / 4

/-- `MAXFILE` -/
def MAXFILE : Nat := NDIRECT + NINDIRECT

/-- `IPB`: inodes per block, `BSIZE / sizeof(struct dinode)`. -/
def IPB : Nat := BSIZE / 64

/-- `BPB`: bitmap bits per block. -/
def BPB : Nat := BSIZE * 8

/-- `DIRSIZ` -/
def DIRSIZ : Nat := 14

/-- `T_DIR` (`kernel/stat.h`) -/
def T_DIR : Int16 := 1

/-- `T_FILE` -/
def T_FILE : Int16 := 2

/-- `T_DEVICE` -/
def T_DEVICE : Int16 := 3

theorem NDIRECT_eq : NDIRECT = 12 := rfl
theorem NINDIRECT_eq : NINDIRECT = 256 := rfl
theorem MAXFILE_eq : MAXFILE = 268 := rfl
theorem IPB_eq : IPB = 16 := rfl
theorem BPB_eq : BPB = 8192 := rfl

/-- `struct superblock`. -/
structure SuperBlock where
  magic : Nat
  size : Nat
  nblocks : Nat
  ninodes : Nat
  nlog : Nat
  logstart : Nat
  inodestart : Nat
  bmapstart : Nat

/-- `IBLOCK(i, sb)`: the block holding inode `i`. -/
def IBLOCK (i : Nat) (sb : SuperBlock) : Nat := i / IPB + sb.inodestart

/-- `BBLOCK(b, sb)`: the bitmap block holding the bit of block `b`. -/
def BBLOCK (b : Nat) (sb : SuperBlock) : Nat := b / BPB + sb.bmapstart

/-- `struct dinode`. -/
structure DInode where
  type : Int16
  major : Int16
  minor : Int16
  nlink : Int16
  size : UInt32
  addrs : Fin (NDIRECT + 1) → UInt32

/-- The fields of `struct dinode` as (offset, width, value), in declaration
order: the stores of `iupdate`, the last of them its `memmove` of `addrs`. -/
def DInode.fields (d : DInode) : List (Nat × Nat × Nat) :=
  [(0, 2, d.type.toUInt16.toNat), (2, 2, d.major.toUInt16.toNat),
    (4, 2, d.minor.toUInt16.toNat), (6, 2, d.nlink.toUInt16.toNat), (8, 4, d.size.toNat)] ++
  (List.finRange (NDIRECT + 1)).map fun k => (12 + 4 * k.val, 4, (d.addrs k).toNat)

/-- The dinode at offset `o` of a block, stored field by field. -/
def putDinode (b : Log.Block) (o : Nat) (d : DInode) : Log.Block :=
  setFields b o d.fields

/-- The dinode at offset `o` of a block, read field by field. -/
def getDinode (b : Log.Block) (o : Nat) : DInode where
  type := (UInt16.ofNat (getLE b o 2)).toInt16
  major := (UInt16.ofNat (getLE b (o + 2) 2)).toInt16
  minor := (UInt16.ofNat (getLE b (o + 4) 2)).toInt16
  nlink := (UInt16.ofNat (getLE b (o + 6) 2)).toInt16
  size := UInt32.ofNat (getLE b (o + 8) 4)
  addrs := fun k => UInt32.ofNat (getLE b (o + (12 + 4 * k.val)) 4)

/-- Inode `inum` of the disk, read as `ilock` reads it. -/
def dinodeAt (sb : SuperBlock) (d : Disk Log.Block) (inum : Nat) : DInode :=
  getDinode (d (IBLOCK inum sb)) (inum % IPB * 64)

/-- The disk with inode `inum` stored, as `iupdate` stores it. -/
def writeDinode (sb : SuperBlock) (d : Disk Log.Block) (inum : Nat) (din : DInode) :
    Disk Log.Block :=
  Function.update d (IBLOCK inum sb) (putDinode (d (IBLOCK inum sb)) (inum % IPB * 64) din)

/-- Whether the bitmap marks block `x` in use. -/
def used (sb : SuperBlock) (d : Disk Log.Block) (x : Nat) : Bool :=
  Bitmap.bit (d (BBLOCK x sb)) (x % BPB)

/-- Entry `j` of a block read as `uint a[NINDIRECT]`. -/
def entryAt (b : Log.Block) (j : Nat) : Nat := getLE b (4 * j) 4

/-! ## The dinode codec -/

/-- Offsets and widths of the fields of `struct dinode`. -/
def dinodeLayout : List (Nat × Nat) :=
  [(0, 2), (2, 2), (4, 2), (6, 2), (8, 4)] ++
  (List.finRange (NDIRECT + 1)).map fun k => (12 + 4 * k.val, 4)

theorem DInode.fields_layout (d : DInode) :
    d.fields.map (fun f => (f.1, f.2.1)) = dinodeLayout := by
  simp [DInode.fields, dinodeLayout, List.map_map, Function.comp_def]

theorem dinodeLayout_apart : dinodeLayout.Pairwise Apart := by decide

/-- Every field lies within the 64 bytes of the structure. -/
theorem DInode.field_end {d : DInode} {f : Nat × Nat × Nat} (hf : f ∈ d.fields) :
    f.1 + f.2.1 ≤ 64 := by
  simp only [DInode.fields, List.mem_append, List.mem_cons, List.mem_map,
    List.mem_finRange, true_and, List.not_mem_nil, or_false] at hf
  rcases hf with (rfl | rfl | rfl | rfl | rfl) | ⟨k, rfl⟩
  all_goals dsimp only
  · omega
  · omega
  · omega
  · omega
  · omega
  · have hk : k.val < 13 := k.isLt
    omega

theorem getLE_putDinode (b : Log.Block) {o : Nat} (d : DInode) {f : Nat × Nat × Nat}
    (hf : f ∈ d.fields) (hb : o + 64 ≤ BSIZE) :
    getLE (putDinode b o d) (o + f.1) f.2.1 = f.2.2 % 256 ^ f.2.1 :=
  getLE_setFields_of_mem b o (d.fields_layout ▸ dinodeLayout_apart) hf
    (by have := DInode.field_end hf; omega)

theorem int16_of_toNat (x : Int16) : (UInt16.ofNat (x.toUInt16.toNat % 256 ^ 2)).toInt16 = x := by
  rw [Nat.mod_eq_of_lt (lt_of_lt_of_eq (UInt16.toNat_lt _) (by norm_num)), UInt16.ofNat_toNat,
    Int16.toInt16_toUInt16]

theorem uint32_of_toNat (x : UInt32) : UInt32.ofNat (x.toNat % 256 ^ 4) = x := by
  rw [Nat.mod_eq_of_lt (lt_of_lt_of_eq (UInt32.toNat_lt _) (by norm_num)), UInt32.ofNat_toNat]

/-- A stored dinode reads back. -/
theorem getDinode_putDinode (b : Log.Block) {o : Nat} (d : DInode) (hb : o + 64 ≤ BSIZE) :
    getDinode (putDinode b o d) o = d := by
  have hfield : ∀ f ∈ d.fields, getLE (putDinode b o d) (o + f.1) f.2.1 = f.2.2 % 256 ^ f.2.1 :=
    fun f hf => getLE_putDinode b d hf hb
  have htype := hfield (0, 2, d.type.toUInt16.toNat) (by simp [DInode.fields])
  have hmajor := hfield (2, 2, d.major.toUInt16.toNat) (by simp [DInode.fields])
  have hminor := hfield (4, 2, d.minor.toUInt16.toNat) (by simp [DInode.fields])
  have hnlink := hfield (6, 2, d.nlink.toUInt16.toNat) (by simp [DInode.fields])
  have hsize := hfield (8, 4, d.size.toNat) (by simp [DInode.fields])
  have haddr : ∀ k : Fin (NDIRECT + 1), getLE (putDinode b o d) (o + (12 + 4 * k.val)) 4 =
      (d.addrs k).toNat % 256 ^ 4 :=
    fun k => hfield (12 + 4 * k.val, 4, (d.addrs k).toNat)
      (List.mem_append_right _ (List.mem_map.mpr ⟨k, List.mem_finRange k, rfl⟩))
  dsimp only at htype hmajor hminor hnlink hsize
  rw [Nat.add_zero] at htype
  obtain ⟨type, major, minor, nlink, size, addrs⟩ := d
  simp only [getDinode, htype, hmajor, hminor, hnlink, hsize, haddr, int16_of_toNat,
    uint32_of_toNat]

/-- A dinode store leaves a dinode elsewhere in the block as it was. -/
theorem getDinode_putDinode_of_apart (b : Log.Block) {o o' : Nat} (d : DInode)
    (h : o + 64 ≤ o' ∨ o' + 64 ≤ o) : getDinode (putDinode b o d) o' = getDinode b o' := by
  have hread : ∀ c w, c + w ≤ 64 → getLE (putDinode b o d) (o' + c) w = getLE b (o' + c) w :=
    fun c w hcw => getLE_setFields_of_disjoint b o fun f hf => by
      have := DInode.field_end hf
      omega
  have h0 := hread 0 2 (by omega)
  simp only [Nat.add_zero] at h0
  simp only [getDinode, h0, hread 2 2 (by omega), hread 4 2 (by omega), hread 6 2 (by omega),
    hread 8 4 (by omega), DInode.mk.injEq, true_and]
  funext k
  have hk : k.val < 13 := k.isLt
  rw [hread (12 + 4 * k.val) 4 (by omega)]

/-- The slot of an inode in its block ends within the block. -/
theorem slot_end (inum : Nat) : inum % IPB * 64 + 64 ≤ BSIZE := by
  have : inum % IPB < 16 := Nat.mod_lt _ (by decide)
  rw [BSIZE_eq]
  omega

/-- A dinode store changes that dinode and no other. -/
theorem dinodeAt_writeDinode (sb : SuperBlock) (d : Disk Log.Block) (inum : Nat) (din : DInode)
    (j : Nat) : dinodeAt sb (writeDinode sb d inum din) j =
      if j = inum then din else dinodeAt sb d j := by
  unfold dinodeAt writeDinode
  split
  · subst j
    rw [Function.update_self, getDinode_putDinode _ _ (slot_end _)]
  · rename_i hne
    by_cases hb : IBLOCK j sb = IBLOCK inum sb
    · -- the same block: another slot of it
      have hslot : j % IPB ≠ inum % IPB := by
        intro hm
        apply hne
        simp only [IBLOCK, Nat.add_right_cancel_iff] at hb
        rw [← Nat.div_add_mod j IPB, ← Nat.div_add_mod inum IPB, hb, hm]
      rw [hb, Function.update_self, getDinode_putDinode_of_apart]
      have h1 : j % IPB < 16 := Nat.mod_lt _ (by decide)
      have h2 : inum % IPB < 16 := Nat.mod_lt _ (by decide)
      omega
    · rw [Function.update_of_ne hb]

/-! ## Indirect blocks -/

theorem entryAt_lt (b : Log.Block) (j : Nat) : entryAt b j < 2 ^ 32 :=
  lt_of_lt_of_eq (getLE_lt b _ 4) (by norm_num)

theorem entryAt_zeros (j : Nat) : entryAt (fun _ => 0) j = 0 := getLE_zeros _ _

/-- Storing entry `j` of an indirect block changes that entry only. -/
theorem entryAt_setLE (b : Log.Block) {j : Nat} (hj : j < NINDIRECT) (x j' : Nat) :
    entryAt (setLE b (4 * j) 4 x) j' = if j' = j then x % 2 ^ 32 else entryAt b j' := by
  unfold entryAt
  split
  · subst j'
    rw [getLE_setLE _ _ (by rw [NINDIRECT_eq] at hj; rw [BSIZE_eq]; omega)]
    norm_num
  · exact getLE_setLE_of_disjoint _ _ (by omega)

/-! ## What a block write leaves alone -/

section Frames

variable (sb : SuperBlock) (d : Disk Log.Block) {z : Nat} (blk : Log.Block)

theorem dinodeAt_update_of_ne {j : Nat} (h : z ≠ IBLOCK j sb) :
    dinodeAt sb (Function.update d z blk) j = dinodeAt sb d j := by
  rw [dinodeAt, Function.update_of_ne (Ne.symm h), dinodeAt]

theorem used_update_of_ne {y : Nat} (h : z ≠ BBLOCK y sb) :
    used sb (Function.update d z blk) y = used sb d y := by
  rw [used, Function.update_of_ne (Ne.symm h), used]

theorem used_writeDinode {inum : Nat} (din : DInode) {y : Nat}
    (h : IBLOCK inum sb ≠ BBLOCK y sb) : used sb (writeDinode sb d inum din) y = used sb d y :=
  used_update_of_ne sb d _ h

end Frames

end Fs
end Xv6
