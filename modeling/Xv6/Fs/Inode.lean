import Xv6.Fs.Balloc
import Xv6.Support.System

/-!
# Inodes and their contents

The inode layer of `kernel/fs.c`: `ialloc`, `iupdate`, `bmap`, `itrunc`,
`readi`, `writei`, and the freeing done by the last `iput`.

Each function takes the disk and the locked in-memory inode `ip` and
returns the new disk and the new in-memory inode, as the C code changes
both; panics are `none`.  The in-memory inode is the locked copy: its
`dev`, `ref`, `valid` and sleep-lock belong to the inode cache and are left
out, as is the single device.

`readi` and `writei` copy from and to the caller's memory through
`either_copyout` and `either_copyin`, which are parameters: `copyout dst
bytes` says whether the copy to address `dst` succeeded, and `copyin src m`
gives the `m` bytes at `src` or fails.  Their loops run over the passes
`chunks off n`, each within one block; the offsets and lengths are `uint`,
checked for overflow before the loop as the C code checks them.
-/

namespace Xv6
namespace Fs

open Bytes Bitmap

/-- The locked in-memory `struct inode`: the dinode fields and `inum`. -/
structure Inode extends DInode where
  inum : Nat

/-- The index of the indirect block's address in `addrs`. -/
def indIdx : Fin (NDIRECT + 1) := Fin.last NDIRECT

/-- `iupdate(ip)`: copy the in-memory inode to its dinode. -/
def iupdate (sb : SuperBlock) (d : Disk Log.Block) (ip : Inode) : Disk Log.Block :=
  writeDinode sb d ip.inum ip.toDInode

/-- The dinode `ialloc` leaves: zeroed, with the type set. -/
def DInode.fresh (type : Int16) : DInode := ⟨type, 0, 0, 0, 0, fun _ => 0⟩

/-- One pass of `ialloc`'s loop: a free dinode is zeroed and given the type. -/
def iallocTry (sb : SuperBlock) (d : Disk Log.Block) (type : Int16) (inum : Nat) :
    Option (Disk Log.Block × Nat) :=
  let bno := IBLOCK inum sb
  let o := inum % IPB * 64
  if (getDinode (d bno) o).type == 0 then
    some (Function.update d bno (setLE (setLE (d bno) o 64 0) o 2 type.toUInt16.toNat), inum)
  else none

/-- `ialloc(dev, type)`: the disk and the inode number allocated; `iget`
is the inode cache's. -/
def ialloc (sb : SuperBlock) (d : Disk Log.Block) (type : Int16) :
    Option (Disk Log.Block × Nat) :=
  (List.range' 1 (sb.ninodes - 1)).findSome? (iallocTry sb d type)

/-- `bmap(ip, bn)`: the block holding block `bn` of the file, allocated if
there is none; allocating the indirect block too when needed. -/
def bmap (sb : SuperBlock) (d : Disk Log.Block) (ip : Inode) (bn : Nat) :
    Option (Disk Log.Block × Inode × UInt32) :=
  if h : bn < NDIRECT then
    let k : Fin (NDIRECT + 1) := ⟨bn, by omega⟩
    if ip.addrs k == 0 then
      (balloc sb d).map fun (d, x) =>
        (d, { ip with addrs := Function.update ip.addrs k (UInt32.ofNat x) }, UInt32.ofNat x)
    else some (d, ip, ip.addrs k)
  else
    let bn := bn - NDIRECT
    if bn < NINDIRECT then
      -- load the indirect block, allocating if necessary
      let loaded : Option (Disk Log.Block × Inode × UInt32) :=
        if ip.addrs indIdx == 0 then
          (balloc sb d).map fun (d, x) =>
            (d, { ip with addrs := Function.update ip.addrs indIdx (UInt32.ofNat x) },
              UInt32.ofNat x)
        else some (d, ip, ip.addrs indIdx)
      match loaded with
      | none => none
      | some (d, ip, addr) =>
          if entryAt (d addr.toNat) bn == 0 then
            (balloc sb d).map fun (d, x) =>
              (Function.update d addr.toNat (setLE (d addr.toNat) (4 * bn) 4 x), ip,
                UInt32.ofNat x)
          else some (d, ip, UInt32.ofNat (entryAt (d addr.toNat) bn))
    else none

/-- One pass of `itrunc`'s first loop: a direct block is freed. -/
def itruncDirect (sb : SuperBlock) (st : Disk Log.Block × Inode) (i : Fin NDIRECT) :
    Option (Disk Log.Block × Inode) :=
  let (d, ip) := st
  if ip.addrs i.castSucc != 0 then
    (bfree sb d (ip.addrs i.castSucc).toNat).map fun d =>
      (d, { ip with addrs := Function.update ip.addrs i.castSucc 0 })
  else some (d, ip)

/-- One pass of `itrunc`'s loop over the indirect block `ind`. -/
def itruncEntry (sb : SuperBlock) (ind : Nat) (d : Disk Log.Block) (j : Nat) :
    Option (Disk Log.Block) :=
  if entryAt (d ind) j != 0 then bfree sb d (entryAt (d ind) j) else some d

/-- `itrunc(ip)`: free the file's blocks, then store the emptied inode. -/
def itrunc (sb : SuperBlock) (d : Disk Log.Block) (ip : Inode) :
    Option (Disk Log.Block × Inode) := do
  let (d, ip) ← (List.finRange NDIRECT).foldlM (itruncDirect sb) (d, ip)
  let (d, ip) ←
    if ip.addrs indIdx != 0 then do
      let d ← (List.range NINDIRECT).foldlM (itruncEntry sb (ip.addrs indIdx).toNat) d
      let d ← bfree sb d (ip.addrs indIdx).toNat
      pure (d, { ip with addrs := Function.update ip.addrs indIdx 0 })
    else pure (d, ip)
  let ip := { ip with size := 0 }
  pure (iupdate sb d ip, ip)

theorem itruncDirect_inum {sb : SuperBlock} {st st' : Disk Log.Block × Inode} {i : Fin NDIRECT}
    (h : itruncDirect sb st i = some st') : st'.2.inum = st.2.inum := by
  obtain ⟨d, ip⟩ := st
  unfold itruncDirect at h
  dsimp only at h
  split at h
  · obtain ⟨d', hd, rfl⟩ := Option.map_eq_some_iff.mp h
    rfl
  · cases h
    rfl

/-- `itrunc` changes the dinode fields only: the inode keeps its number. -/
theorem itrunc_inum {sb : SuperBlock} {d d' : Disk Log.Block} {ip ip' : Inode} (h : itrunc sb d ip = some (d', ip')) :
    ip'.inum = ip.inum := by
  unfold itrunc at h
  obtain ⟨⟨d₁, ip₁⟩, h₁, h⟩ := Option.bind_eq_some_iff.mp h
  -- the loop over the direct blocks keeps the number
  have hnum₁ : ip₁.inum = ip.inum :=
    foldlM_inv (fun st : Disk Log.Block × Inode => st.2.inum = ip.inum)
      (fun _ _ _ hst hstep => (itruncDirect_inum hstep).trans hst) _ rfl h₁
  dsimp only at h
  -- freeing the indirect block only clears its address, and the size is set last
  have hnum : ip'.inum = ip₁.inum := by
    split at h
    · obtain ⟨d₂, -, h⟩ := Option.bind_eq_some_iff.mp h
      obtain ⟨d₃, -, h⟩ := Option.bind_eq_some_iff.mp h
      simp only [Option.pure_def, Option.bind_eq_bind, Option.bind_some, Option.some.injEq,
        Prod.mk.injEq] at h
      rw [← h.2]
    · simp only [Option.pure_def, Option.bind_eq_bind, Option.bind_some, Option.some.injEq,
        Prod.mk.injEq] at h
      rw [← h.2]
  exact hnum.trans hnum₁

/-- The passes `(off, m)` of the loops of `readi` and `writei` over
`n` bytes from `off`: each pass runs to the end of its block or of the
request. -/
def chunks (off n : Nat) : List (Nat × Nat) :=
  if h : n = 0 then []
  else
    let m := min n (BSIZE - off % BSIZE)
    have : 0 < BSIZE - off % BSIZE := by
      have := Nat.mod_lt off (show 0 < BSIZE by decide)
      omega
    (off, m) :: chunks (off + m) (n - m)
termination_by n
decreasing_by omega

/-- The bytes `[o, o + m)` of a block. -/
def getBytes (b : Log.Block) (o m : Nat) : List UInt8 :=
  (List.range m).map fun i => byte b (o + i)

/-- The loop of `readi`: each pass maps its block, allocating as `bmap`
does, and copies the bytes out; a failed copy ends the loop with `-1`. -/
def readLoop (sb : SuperBlock) (copyout : Nat → List UInt8 → Bool) (dst : Nat) :
    List (Nat × Nat) → Disk Log.Block × Inode × Nat → Option (Disk Log.Block × Inode × Int)
  | [], (d, ip, tot) => some (d, ip, tot)
  | (off, m) :: cs, (d, ip, tot) =>
      match bmap sb d ip (off / BSIZE) with
      | none => none
      | some (d, ip, x) =>
          if copyout (dst + tot) (getBytes (d x.toNat) (off % BSIZE) m) then
            readLoop sb copyout dst cs (d, ip, tot + m)
          else some (d, ip, -1)

/-- `readi(ip, user_dst, dst, off, n)` -/
def readi (sb : SuperBlock) (d : Disk Log.Block) (ip : Inode)
    (copyout : Nat → List UInt8 → Bool) (dst : Nat) (off n : UInt32) :
    Option (Disk Log.Block × Inode × Int) :=
  if off > ip.size || off + n < off then some (d, ip, 0)
  else
    let n := if off + n > ip.size then ip.size - off else n
    readLoop sb copyout dst (chunks off.toNat n.toNat) (d, ip, 0)

/-- The loop of `writei`: each pass maps its block, allocating as `bmap`
does, and copies the bytes in; a failed copy ends the loop. -/
def writeLoop (sb : SuperBlock) (copyin : Nat → Nat → Option (List UInt8)) (src : Nat) :
    List (Nat × Nat) → Disk Log.Block × Inode × Nat → Option (Disk Log.Block × Inode × Nat)
  | [], st => some st
  | (off, m) :: cs, (d, ip, tot) =>
      match bmap sb d ip (off / BSIZE) with
      | none => none
      | some (d, ip, x) =>
          match copyin (src + tot) m with
          | none => some (d, ip, tot)
          | some bytes =>
              writeLoop sb copyin src cs
                (Function.update d x.toNat (setBytes (d x.toNat) (off % BSIZE) bytes), ip,
                  tot + m)

/-- `writei(ip, user_src, src, off, n)`: the loop, then the size and the
inode written back even if the size did not change. -/
def writei (sb : SuperBlock) (d : Disk Log.Block) (ip : Inode)
    (copyin : Nat → Nat → Option (List UInt8)) (src : Nat) (off n : UInt32) :
    Option (Disk Log.Block × Inode × Int) :=
  if off > ip.size || off + n < off then some (d, ip, -1)
  else if (off + n).toNat > MAXFILE * BSIZE then some (d, ip, -1)
  else
    match writeLoop sb copyin src (chunks off.toNat n.toNat) (d, ip, 0) with
    | none => none
    | some (d, ip, tot) =>
        let ip := if off.toNat + tot > ip.size.toNat then
          { ip with size := UInt32.ofNat (off.toNat + tot) } else ip
        some (iupdate sb d ip, ip, tot)

/-- `iput(ip)` dropping the last reference to a valid inode: one with no
links left is truncated and freed on disk. -/
def iput (sb : SuperBlock) (d : Disk Log.Block) (ip : Inode) : Option (Disk Log.Block) :=
  if ip.nlink == 0 then do
    let (d, ip) ← itrunc sb d ip
    pure (iupdate sb d { ip with type := 0 })
  else some d

end Fs
end Xv6
