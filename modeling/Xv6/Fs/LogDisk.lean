import Xv6.Fs.Param
import Xv6.Support.Bytes
import Xv6.Support.Disk

/-!
# The write-ahead log on disk

The disk side of `kernel/log.c`: the header block and its codec, and the
block writes issued by `commit` and by `recover_from_log`.

The log occupies blocks `[log.start, log.start + log.size)`: the header
block at `log.start`, then one block per logged block.  The header is read
and written through `struct logheader` laid over the block's bytes, so its
fields are little-endian 32-bit integers: `n` at offset 0 and `block[i]` at
offset `4 + 4 * i`.  Block numbers are `uint` in the buffer cache, so the
header's entries are `UInt32`; the disk is indexed by their value.

Every `bread` below returns the block as the disk holds it: the buffers it
returns are either freshly read or were written through with `bwrite`, apart
from the logged home blocks that `write_log` reads, whose cached contents are
the parameter `cache`.
-/

namespace Xv6
namespace Log

open Bytes Disk

/-- A disk block: `BSIZE` bytes. -/
abbrev Block := Fin BSIZE → UInt8

/-- `struct logheader`: the block numbers `block[0..n)` of the logged blocks.
The count `n` is the length of the list. -/
structure LogHeader where
  block : List UInt32
  deriving DecidableEq, Repr

/-- `lh.n`, the number of logged blocks. -/
def LogHeader.n (lh : LogHeader) : Nat := lh.block.length

/-- The header with `n = 0`, as `write_head` writes it to clear the log. -/
def LogHeader.empty : LogHeader := ⟨[]⟩

@[simp] theorem LogHeader.n_empty : LogHeader.empty.n = 0 := rfl

theorem LogHeader.n_mk (xs : List UInt32) : (LogHeader.mk xs).n = xs.length := rfl

/-! ## The header codec -/

/-- The count `hb->n` as `read_head` sees it: the field is an `int`, and a
negative count makes the copy loop run zero times. -/
def headerCount (b : Block) : Nat :=
  if getLE b 0 4 < 2 ^ 31 then getLE b 0 4 else 0

/-- `read_head`: the header as `struct logheader` reads it off the block. -/
def readHead (b : Block) : LogHeader :=
  ⟨(List.range (headerCount b)).map fun i => UInt32.ofNat (getLE b (4 + 4 * i) 4)⟩

/-- The stores `hb->block[i] = ...` of `write_head`, from entry `i` on. -/
def storeEntries (b : Block) (i : Nat) : List UInt32 → Block
  | [] => b
  | x :: xs => storeEntries (setLE b (4 + 4 * i) 4 x.toNat) (i + 1) xs

theorem storeEntries_nil (b : Block) (i : Nat) : storeEntries b i [] = b := rfl

theorem storeEntries_cons (b : Block) (i : Nat) (x : UInt32) (xs : List UInt32) :
    storeEntries b i (x :: xs) = storeEntries (setLE b (4 + 4 * i) 4 x.toNat) (i + 1) xs := rfl

/-- The stores of `write_head` into the header block: `hb->n`, then
`hb->block[0..n)`; the rest of the block is left as it was. -/
def setHead (b : Block) (lh : LogHeader) : Block :=
  storeEntries (setLE b 0 4 lh.n) 0 lh.block

theorem setHead_eq (b : Block) (lh : LogHeader) :
    setHead b lh = storeEntries (setLE b 0 4 lh.n) 0 lh.block := rfl

theorem getLE_storeEntries_below (b : Block) (i : Nat) (xs : List UInt32)
    {o w : Nat} (h : o + w ≤ 4 + 4 * i) :
    getLE (storeEntries b i xs) o w = getLE b o w := by
  induction xs generalizing b i with
  | nil => rfl
  | cons x xs ih =>
      rw [storeEntries_cons, ih _ _ (by omega), getLE_setLE_of_disjoint _ _ (by omega)]

theorem getLE_storeEntries_entry (b : Block) (i : Nat) (xs : List UInt32)
    (hfit : 4 + 4 * (i + xs.length) ≤ BSIZE) (j : Nat) (hj : j < xs.length) :
    getLE (storeEntries b i xs) (4 + 4 * (i + j)) 4 = (xs.get ⟨j, hj⟩).toNat := by
  induction xs generalizing b i j with
  | nil => simp at hj
  | cons x xs ih =>
      rw [storeEntries_cons]
      cases j with
      | zero =>
          rw [getLE_storeEntries_below _ _ _ (by omega), Nat.add_zero,
            getLE_setLE _ _ (by simp only [List.length_cons] at hfit; omega)]
          simp [Nat.mod_eq_of_lt (UInt32.toNat_lt x)]
      | succ j =>
          have h := ih (setLE b (4 + 4 * i) 4 x.toNat) (i + 1)
            (by simp only [List.length_cons] at hfit; omega) j
            (by simpa using hj)
          rw [show i + 1 + j = i + (j + 1) by omega] at h
          simpa using h

/-- What `write_head` stores, `read_head` reads back, for every header that
fits in the block. -/
@[simp] theorem readHead_setHead (b : Block) (lh : LogHeader)
    (h : lh.n ≤ LOGSIZE) : readHead (setHead b lh) = lh := by
  have hn : LOGSIZE = 30 := rfl
  have hcount : getLE (setHead b lh) 0 4 = lh.n := by
    rw [setHead_eq, getLE_storeEntries_below _ _ _ (by omega), getLE_setLE _ _ (by decide)]
    exact Nat.mod_eq_of_lt (by omega)
  have hcount' : headerCount (setHead b lh) = lh.n := by
    delta headerCount
    rw [hcount, if_pos (by omega)]
  cases lh with
  | mk xs =>
      delta readHead
      simp only [hcount', LogHeader.mk.injEq]
      apply List.ext_getElem (by simp [LogHeader.n_mk])
      intro j hj₁ hj₂
      have hj : j < xs.length := hj₂
      have hentry := getLE_storeEntries_entry (setLE b 0 4 xs.length) 0 xs
        (by rw [LogHeader.n_mk] at h; rw [BSIZE_eq]; omega) j hj
      rw [Nat.zero_add] at hentry
      simp only [List.getElem_map, List.getElem_range, setHead_eq, LogHeader.n_mk]
      rw [hentry]
      simp

/-- Clearing the log twice is clearing it once. -/
@[simp] theorem setHead_empty_setHead_empty (b : Block) :
    setHead (setHead b .empty) .empty = setHead b .empty := by
  -- with no entries, `write_head` stores only the count
  show setLE (setLE b 0 4 0) 0 4 0 = setLE b 0 4 0
  exact setLE_setLE b 0 4 0 0

/-! ## The writes of `commit` and `recover_from_log` -/

variable (start : Nat)

/-- `write_log`: log block `tail` gets the cached contents of home block
`block[tail]`. -/
def writeLog (lh : LogHeader) (cache : Nat → Block) : List (Write Block) :=
  lh.block.mapIdx fun tail b => ⟨start + tail + 1, fun _ => cache b.toNat⟩

/-- `write_head`: read the header block, store the in-memory header into
it, write it back. -/
def writeHead (lh : LogHeader) : Write Block :=
  ⟨start, fun d => setHead (d start) lh⟩

/-- `install_trans`: home block `block[tail]` gets the contents of log block
`tail`.  The `recovering` flag only decides whether the buffer is unpinned,
which leaves the disk writes the same. -/
def installTrans (lh : LogHeader) : List (Write Block) :=
  lh.block.mapIdx fun tail b => ⟨b.toNat, fun d => d (start + tail + 1)⟩

/-- `commit`: nothing for an empty transaction; otherwise write the log,
commit it by writing the header, install it, and erase it by writing a
header with `n = 0`. -/
def commit (lh : LogHeader) (cache : Nat → Block) : List (Write Block) :=
  if 0 < lh.n then
    writeLog start lh cache ++ writeHead start lh ::
      (installTrans start lh ++ [writeHead start .empty])
  else []

/-- `recover_from_log`: read the header from disk, install what it names,
and clear the log. -/
def recoverFromLog (d : Disk Block) : List (Write Block) :=
  installTrans start (readHead (d start)) ++ [writeHead start .empty]

/-- The disks that running `recover_from_log` at boot, one or more times,
can leave behind: each run may crash after any of its writes and is then
started again on the disk it left, until one run completes. -/
inductive Recovers : Disk Block → Disk Block → Prop
  | run (d : Disk Block) : Recovers d (runWrites (recoverFromLog start d) d)
  | crash (d : Disk Block) (k : Nat) {d' : Disk Block} :
      Recovers (runWrites ((recoverFromLog start d).take k) d) d' → Recovers d d'

end Log
end Xv6
