import Xv6.Fs.Layout

/-!
# Block allocation

`balloc` and `bfree` of `kernel/fs.c`, with `bzero`.  `balloc` scans the
bitmap a block of `BPB` bits at a time, `b` running over `0, BPB, 2 * BPB,
...` below `sb.size` and `bi` over the bits of that bitmap block with
`b + bi < sb.size`; the first clear bit is set and its block zeroed.
`balloc`'s "out of blocks" panic and `bfree`'s "freeing free block" panic
are `none`.

`balloc_spec` says everything a successful `balloc` does in terms of the
bitmap view `used`: the block it returns lies below `sb.size`, was free,
and is marked and zeroed (`markUsed`).  `bfree` clears the bit of a used
block (`markFree`).
-/

namespace Xv6
namespace Fs

open Bitmap

/-- `bzero(dev, bno)`: the block filled with zeros. -/
def bzero (d : Disk Log.Block) (bno : Nat) : Disk Log.Block :=
  Function.update d bno fun _ => 0

/-- The values of `b` in `balloc`'s outer loop: `0, BPB, 2 * BPB, ...`
below `sb.size`. -/
def ballocStarts (sb : SuperBlock) : List Nat :=
  (List.range ((sb.size + BPB - 1) / BPB)).map (· * BPB)

/-- The body of `balloc`'s inner loop at bit `bi` of the bitmap block of
`b`: a clear bit is set, and its block zeroed and returned. -/
def ballocTry (sb : SuperBlock) (d : Disk Log.Block) (b bi : Nat) :
    Option (Disk Log.Block × Nat) :=
  let bp := d (BBLOCK b sb)
  if byte bp (bi / 8) &&& mask bi == 0 then
    some (bzero (Function.update d (BBLOCK b sb) (setBit bp bi)) (b + bi), b + bi)
  else none

/-- `balloc(dev)`: the disk after allocating, and the block allocated. -/
def balloc (sb : SuperBlock) (d : Disk Log.Block) : Option (Disk Log.Block × Nat) :=
  (ballocStarts sb).findSome? fun b =>
    (List.range (min BPB (sb.size - b))).findSome? fun bi => ballocTry sb d b bi

/-- `bfree(dev, b)`. -/
def bfree (sb : SuperBlock) (d : Disk Log.Block) (b : Nat) : Option (Disk Log.Block) :=
  let bp := d (BBLOCK b sb)
  let bi := b % BPB
  if byte bp (bi / 8) &&& mask bi == 0 then none
  else some (Function.update d (BBLOCK b sb) (clearBit bp bi))

/-- The bitmap with block `x` marked in use. -/
def markUsed (sb : SuperBlock) (d : Disk Log.Block) (x : Nat) : Disk Log.Block :=
  Function.update d (BBLOCK x sb) (setBit (d (BBLOCK x sb)) (x % BPB))

/-- The bitmap with block `x` marked free. -/
def markFree (sb : SuperBlock) (d : Disk Log.Block) (x : Nat) : Disk Log.Block :=
  Function.update d (BBLOCK x sb) (clearBit (d (BBLOCK x sb)) (x % BPB))

section Bits

variable {sb : SuperBlock} {d : Disk Log.Block}

/-- The C test of `balloc` and `bfree` reads the bitmap. -/
theorem test_eq_used (sb : SuperBlock) (d : Disk Log.Block) (x : Nat) :
    (byte (d (BBLOCK x sb)) (x % BPB / 8) &&& mask (x % BPB) == 0) = !used sb d x := by
  rw [used, bit, bne, Bool.not_not]

theorem same_bblock {x y : Nat} (h : BBLOCK y sb = BBLOCK x sb) : y / BPB = x / BPB := by
  simpa [BBLOCK] using h

theorem eq_of_bblock_mod {x y : Nat} (h : BBLOCK y sb = BBLOCK x sb)
    (hm : y % BPB = x % BPB) : y = x := by
  rw [← Nat.div_add_mod y BPB, ← Nat.div_add_mod x BPB, same_bblock h, hm]

theorem used_markUsed (x y : Nat) :
    used sb (markUsed sb d x) y = (used sb d y || decide (y = x)) := by
  by_cases hb : BBLOCK y sb = BBLOCK x sb
  · have hbit : x % BPB / 8 < BSIZE := by
      have : x % BPB < 8192 := Nat.mod_lt _ (by decide)
      rw [BSIZE_eq]
      omega
    rw [used, markUsed, hb, Function.update_self, bit_setBit _ _ hbit, ← hb, ← used]
    by_cases hyx : y = x
    · simp [hyx]
    · have hm : y % BPB ≠ x % BPB := fun hm => hyx (eq_of_bblock_mod hb hm)
      rw [decide_eq_false hm, decide_eq_false hyx]
  · have hyx : y ≠ x := fun h => hb (h ▸ rfl)
    rw [markUsed, used_update_of_ne _ _ _ (Ne.symm hb)]
    simp [hyx]

theorem used_markFree (x y : Nat) :
    used sb (markFree sb d x) y = (used sb d y && !decide (y = x)) := by
  by_cases hb : BBLOCK y sb = BBLOCK x sb
  · rw [used, markFree, hb, Function.update_self, bit_clearBit, ← hb, ← used]
    by_cases hyx : y = x
    · simp [hyx]
    · have hm : y % BPB ≠ x % BPB := fun hm => hyx (eq_of_bblock_mod hb hm)
      rw [decide_eq_false hm, decide_eq_false hyx]
  · have hyx : y ≠ x := fun h => hb (h ▸ rfl)
    rw [markFree, used_update_of_ne _ _ _ (Ne.symm hb)]
    simp [hyx]

end Bits

section Spec

variable {sb : SuperBlock} {d d' : Disk Log.Block}

/-- Everything a successful `balloc` does: it returns a free block below
`sb.size`, marked in use and zeroed. -/
theorem balloc_spec {x : Nat} (h : balloc sb d = some (d', x)) :
    x < sb.size ∧ used sb d x = false ∧ d' = bzero (markUsed sb d x) x := by
  obtain ⟨b, hb, hinner⟩ := List.exists_of_findSome?_eq_some h
  obtain ⟨bi, hbi, htry⟩ := List.exists_of_findSome?_eq_some hinner
  obtain ⟨k, -, rfl⟩ := List.mem_map.mp hb
  have hbi' : bi < min BPB (sb.size - k * BPB) := List.mem_range.mp hbi
  have hlt : bi < BPB := lt_of_lt_of_le hbi' (min_le_left _ _)
  -- the block is [b + bi], whose bit is bit [bi] of the bitmap block of [b]
  have hdiv : (k * BPB + bi) / BPB = k := by
    rw [Nat.add_comm, Nat.add_mul_div_right _ _ (by decide), Nat.div_eq_of_lt hlt, Nat.zero_add]
  have hmod : (k * BPB + bi) % BPB = bi := by
    rw [Nat.add_comm, Nat.add_mul_mod_self_right, Nat.mod_eq_of_lt hlt]
  have hblock : BBLOCK (k * BPB + bi) sb = BBLOCK (k * BPB) sb := by
    simp only [BBLOCK, hdiv, Nat.mul_div_cancel _ (by decide : 0 < BPB)]
  unfold ballocTry at htry
  dsimp only at htry
  split at htry
  · rename_i htest
    simp only [Option.some.injEq, Prod.mk.injEq] at htry
    obtain ⟨rfl, rfl⟩ := htry
    have hfree := test_eq_used sb d (k * BPB + bi)
    rw [hmod, hblock, htest] at hfree
    refine ⟨by omega, by simpa using hfree.symm, ?_⟩
    rw [markUsed, hblock, hmod]
  · cases htry

theorem bfree_of_used {b : Nat} (h : used sb d b = true) : bfree sb d b = some (markFree sb d b) := by
  have htest := test_eq_used sb d b
  rw [h, Bool.not_true] at htest
  simp only [bfree, htest, Bool.false_eq_true, if_false, markFree]

theorem bfree_of_free {b : Nat} (h : used sb d b = false) : bfree sb d b = none := by
  have htest := test_eq_used sb d b
  rw [h, Bool.not_false] at htest
  simp only [bfree, htest, if_true]

end Spec

end Fs
end Xv6
