import Mathlib.Data.Nat.Basic

/-!
# File-system constants

The sizes of `kernel/param.h` and `kernel/fs.h` that the modelled code
reads, and the layout choice `mkfs/mkfs.c` makes for the log.  Each constant
has a `rfl` lemma giving its value, so that arithmetic side conditions close
by `omega` after one rewrite.
-/

namespace Xv6

/-- `MAXOPBLOCKS`: max number of blocks any file-system operation writes. -/
def MAXOPBLOCKS : Nat := 10

/-- `LOGSIZE`: max data blocks in the on-disk log. -/
def LOGSIZE : Nat := MAXOPBLOCKS * 3

/-- `NBUF`: size of the disk block cache. -/
def NBUF : Nat := MAXOPBLOCKS * 3

/-- `FSSIZE`: size of the file system in blocks. -/
def FSSIZE : Nat := 1000

/-- `BSIZE`: block size in bytes. -/
def BSIZE : Nat := 1024

/-- `nlog` in `mkfs`: the log area is `LOGSIZE` blocks, header included. -/
def nlog : Nat := LOGSIZE

/-- `ROOTDEV`: the device number of the file system disk. -/
def ROOTDEV : Nat := 1

/-- `NINODE`: maximum number of active inodes. -/
def NINODE : Nat := 50

@[simp] theorem MAXOPBLOCKS_eq : MAXOPBLOCKS = 10 := rfl
@[simp] theorem LOGSIZE_eq : LOGSIZE = 30 := rfl
@[simp] theorem NBUF_eq : NBUF = 30 := rfl
@[simp] theorem FSSIZE_eq : FSSIZE = 1000 := rfl
@[simp] theorem BSIZE_eq : BSIZE = 1024 := rfl
@[simp] theorem nlog_eq : nlog = 30 := rfl

end Xv6
