import Mathlib.Data.List.Basic
import Mathlib.Data.List.FinRange
import Xv6.Support.Disk

/-!
# The buffer cache

`kernel/bio.c`: `NBUF` buffers, each holding at most one disk block, kept on
a list through `bcache.head` from the most to the least recently released.
`bget` looks for the block's buffer; failing that it recycles the least
recently used buffer that nobody refers to, and `bread` then fills it from
the disk.  `brelse` drops a reference and moves a buffer that nobody refers
to any more to the front; `bpin` and `bunpin` take and drop a reference that
no `bread` handed out.

A buffer's `data` is any type `β`; the disk is read and written by the
buffer's block number alone, as `virtio_disk_rw` does.  The sleep-locks are
left out: they order the holders of one buffer, and nothing here depends on
the order.  `bget`'s panic is `none`.

`bread_spec` says everything a `bread` can do, in the terms every invariant
of the cache is stated in.
-/

namespace Xv6
namespace Bio

/-- `struct buf`, without its sleep-lock and list links. -/
structure Buf (β : Type) where
  valid : Bool
  dev : Nat
  blockno : UInt32
  refcnt : Nat
  data : β

/-- `bcache`: the buffers, and the list through `head.next` from the most
to the least recently used. -/
structure BCache (n : Nat) (β : Type) where
  buf : Fin n → Buf β
  lru : List (Fin n)

variable {n : Nat} {β : Type}

/-- Whether a buffer holds block `blockno` of device `dev`: the test of
`bget`'s first loop. -/
def Buf.holds (b : Buf β) (dev : Nat) (blockno : UInt32) : Bool :=
  b.dev == dev && b.blockno == blockno

/-- `binit`: every buffer zeroed, as the static `bcache` is, and pushed in
turn at the front of the list. -/
def binit (zero : β) : BCache n β :=
  ⟨fun _ => ⟨false, 0, 0, 0, zero⟩, (List.finRange n).reverse⟩

/-- A change to one buffer's fields. -/
def BCache.modify (c : BCache n β) (i : Fin n) (f : Buf β → Buf β) : BCache n β :=
  { c with buf := Function.update c.buf i (f (c.buf i)) }

/-- `bget(dev, blockno)`: the block's buffer with one more reference, or
else the least recently used buffer with none, recycled for the block. -/
def bget (c : BCache n β) (dev : Nat) (blockno : UInt32) : Option (BCache n β × Fin n) :=
  match c.lru.find? fun i => (c.buf i).holds dev blockno with
  | some i => some (c.modify i fun b => { b with refcnt := b.refcnt + 1 }, i)
  | none =>
      match c.lru.reverse.find? fun i => (c.buf i).refcnt == 0 with
      | some i =>
          some (c.modify i fun b =>
            { b with dev := dev, blockno := blockno, valid := false, refcnt := 1 }, i)
      | none => none

/-- `bread(dev, blockno)`: `bget`, then the block from the disk unless the
buffer already holds its contents. -/
def bread (c : BCache n β) (disk : Disk β) (dev : Nat) (blockno : UInt32) :
    Option (BCache n β × Fin n) :=
  match bget c dev blockno with
  | none => none
  | some (c, i) =>
      if (c.buf i).valid then some (c, i)
      else some (c.modify i fun b => { b with data := disk blockno.toNat, valid := true }, i)

/-- `bwrite(b)`: the buffer's contents to its block. -/
def bwrite (c : BCache n β) (i : Fin n) (disk : Disk β) : Disk β :=
  Function.update disk (c.buf i).blockno.toNat (c.buf i).data

/-- `brelse(b)`: one reference less; a buffer left with none moves to the
front of the list. -/
def brelse (c : BCache n β) (i : Fin n) : BCache n β :=
  let c := c.modify i fun b => { b with refcnt := b.refcnt - 1 }
  if (c.buf i).refcnt = 0 then { c with lru := i :: c.lru.erase i } else c

/-- `bpin(b)` -/
def bpin (c : BCache n β) (i : Fin n) : BCache n β :=
  c.modify i fun b => { b with refcnt := b.refcnt + 1 }

/-- `bunpin(b)` -/
def bunpin (c : BCache n β) (i : Fin n) : BCache n β :=
  c.modify i fun b => { b with refcnt := b.refcnt - 1 }

/-- `memmove(b->data, ...)`: new contents for a buffer. -/
def setData (c : BCache n β) (i : Fin n) (d : β) : BCache n β :=
  c.modify i fun b => { b with data := d }

section Fields

variable (c : BCache n β) (i j : Fin n)

@[simp] theorem modify_lru (f : Buf β → Buf β) : (c.modify i f).lru = c.lru := rfl

@[simp] theorem modify_buf_self (f : Buf β → Buf β) : (c.modify i f).buf i = f (c.buf i) := by
  simp [BCache.modify]

theorem modify_buf_of_ne (f : Buf β → Buf β) (h : j ≠ i) : (c.modify i f).buf j = c.buf j := by
  simp [BCache.modify, Function.update_of_ne h]

theorem modify_buf (f : Buf β → Buf β) :
    (c.modify i f).buf j = if j = i then f (c.buf i) else c.buf j := by
  split
  · subst j
    exact modify_buf_self ..
  · exact modify_buf_of_ne _ _ _ _ (by assumption)

/-- `brelse` of a referenced buffer moves it to the front of the list when
it drops the last reference, and leaves the list otherwise. -/
theorem brelse_lru_of_pos (h : (c.buf i).refcnt ≠ 0) :
    (brelse c i).lru = if (c.buf i).refcnt = 1 then i :: c.lru.erase i else c.lru := by
  unfold brelse
  dsimp only
  rw [modify_buf_self]
  by_cases h1 : (c.buf i).refcnt = 1
  · rw [if_pos (by dsimp only; omega), if_pos h1]
    rfl
  · rw [if_neg (by dsimp only; omega), if_neg h1]
    rfl

@[simp] theorem bpin_lru : (bpin c i).lru = c.lru := rfl
@[simp] theorem bunpin_lru : (bunpin c i).lru = c.lru := rfl
@[simp] theorem setData_lru (d : β) : (setData c i d).lru = c.lru := rfl

theorem mem_brelse_lru (h : i ∈ c.lru) : j ∈ (brelse c i).lru ↔ j ∈ c.lru := by
  unfold brelse
  dsimp only
  split
  · by_cases hj : j = i
    · subst hj
      simp [h]
    · simp [hj, List.mem_erase_of_ne hj]
  · rfl

-- moving a buffer on the list leaves the buffers as they are
theorem brelse_buf : (brelse c i).buf = (c.modify i fun b => { b with refcnt := b.refcnt - 1 }).buf := by
  unfold brelse
  dsimp only
  split <;> rfl

end Fields

/-- `bget` hands out the block's buffer or one nobody refers to. -/
theorem bget_hit_or_free {c c' : BCache n β} {dev : Nat} {blockno : UInt32} {i : Fin n}
    (h : bget c dev blockno = some (c', i)) :
    (c.buf i).holds dev blockno ∨ (c.buf i).refcnt = 0 := by
  unfold bget at h
  cases hf : c.lru.find? fun i => (c.buf i).holds dev blockno with
  | some k =>
      simp only [hf, Option.some.injEq, Prod.mk.injEq] at h
      obtain ⟨-, rfl⟩ := h
      have hk := List.find?_some hf
      beta_reduce at hk
      exact .inl hk
  | none =>
      simp only [hf] at h
      cases hg : c.lru.reverse.find? fun i => (c.buf i).refcnt == 0 with
      | none => simp [hg] at h
      | some k =>
          simp only [hg, Option.some.injEq, Prod.mk.injEq] at h
          obtain ⟨-, rfl⟩ := h
          have hk := List.find?_some hg
          simp only [beq_iff_eq] at hk
          exact .inr hk

/-- `bget` panics exactly when no buffer on the list holds the block and
every one is referenced. -/
theorem bget_eq_none_iff {c : BCache n β} {dev : Nat} {blockno : UInt32} :
    bget c dev blockno = none ↔
      (∀ j ∈ c.lru, (c.buf j).holds dev blockno = false) ∧ ∀ j ∈ c.lru, (c.buf j).refcnt ≠ 0 := by
  unfold bget
  cases hf : c.lru.find? fun i => (c.buf i).holds dev blockno with
  | some k =>
      have hk := List.find?_some hf
      beta_reduce at hk
      simp only [reduceCtorEq, false_iff, not_and]
      intro hnone
      exact absurd (hnone k (List.mem_of_find?_eq_some hf)) (by simp [hk])
  | none =>
      have hnone : ∀ j ∈ c.lru, (c.buf j).holds dev blockno = false := by
        intro j hj
        simpa using List.find?_eq_none.mp hf j hj
      cases hg : c.lru.reverse.find? fun i => (c.buf i).refcnt == 0 with
      | some k =>
          have hk := List.find?_some hg
          simp only [beq_iff_eq] at hk
          simp only [reduceCtorEq, false_iff, not_and, not_forall, not_not]
          exact fun _ => ⟨k, List.mem_reverse.mp (List.mem_of_find?_eq_some hg), hk⟩
      | none =>
          simp only [true_iff]
          refine ⟨hnone, fun j hj => ?_⟩
          simpa using List.find?_eq_none.mp hg j (List.mem_reverse.mpr hj)

/-- `bget` recycles no buffer somebody refers to: it keeps the block of
every referenced buffer. -/
theorem bget_keeps_referenced {c c' : BCache n β} {dev : Nat} {blockno : UInt32} {i j : Fin n}
    (h : bget c dev blockno = some (c', i)) (hj : (c.buf j).refcnt ≠ 0) :
    (c'.buf j).dev = (c.buf j).dev ∧ (c'.buf j).blockno = (c.buf j).blockno := by
  unfold bget at h
  cases hf : c.lru.find? fun i => (c.buf i).holds dev blockno with
  | some k =>
      -- a hit only counts one more reference
      simp only [hf, Option.some.injEq, Prod.mk.injEq] at h
      obtain ⟨rfl, -⟩ := h
      rw [modify_buf]
      split
      · subst j
        exact ⟨rfl, rfl⟩
      · exact ⟨rfl, rfl⟩
  | none =>
      simp only [hf] at h
      cases hg : c.lru.reverse.find? fun i => (c.buf i).refcnt == 0 with
      | none => simp [hg] at h
      | some k =>
          have hk := List.find?_some hg
          simp only [beq_iff_eq] at hk
          simp only [hg, Option.some.injEq, Prod.mk.injEq] at h
          obtain ⟨rfl, -⟩ := h
          -- the recycled buffer is unreferenced, so it is not `j`
          have hjk : j ≠ k := fun e => hj (e ▸ hk)
          rw [modify_buf_of_ne _ _ _ _ hjk]
          exact ⟨rfl, rfl⟩

/-- Everything a successful `bread` does: one buffer now holds the block,
valid, with one more reference, and either held it already (keeping its
contents if they were valid) or was recycled, unreferenced, because no
buffer on the list held it. -/
structure BreadSpec (c c' : BCache n β) (disk : Disk β) (dev : Nat) (blockno : UInt32)
    (i : Fin n) : Prop where
  lru_eq : c'.lru = c.lru
  buf_of_ne : ∀ j, j ≠ i → c'.buf j = c.buf j
  buf_eq : c'.buf i = ⟨true, dev, blockno, (c.buf i).refcnt + 1,
    if (c.buf i).valid && (c.buf i).holds dev blockno then (c.buf i).data
    else disk blockno.toNat⟩
  hit_or_free : (c.buf i).holds dev blockno ∨
    ((c.buf i).refcnt = 0 ∧ ∀ j ∈ c.lru, (c.buf j).holds dev blockno = false)

theorem bread_spec {c c' : BCache n β} {disk : Disk β} {dev : Nat} {blockno : UInt32}
    {i : Fin n} (h : bread c disk dev blockno = some (c', i)) :
    BreadSpec c c' disk dev blockno i := by
  unfold bread bget at h
  cases hf : c.lru.find? fun i => (c.buf i).holds dev blockno with
  | some k =>
      -- the first loop finds the block's buffer
      have hk := List.find?_some hf
      beta_reduce at hk
      simp only [hf] at h
      have hdev : (c.buf k).dev = dev ∧ (c.buf k).blockno = blockno := by
        simpa [Buf.holds] using hk
      obtain ⟨rfl, rfl⟩ := hdev
      split at h <;> simp only [Option.some.injEq, Prod.mk.injEq] at h <;>
        obtain ⟨rfl, rfl⟩ := h
      · rename_i hv
        simp only [modify_buf_self] at hv
        refine ⟨rfl, fun j hj => modify_buf_of_ne _ _ _ _ hj, ?_, .inl hk⟩
        simp [hk, hv]
      · rename_i hv
        simp only [modify_buf_self] at hv
        refine ⟨rfl, fun j hj => ?_, ?_, .inl hk⟩
        · rw [modify_buf_of_ne _ _ _ _ hj, modify_buf_of_ne _ _ _ _ hj]
        · simp [hk, hv]
  | none =>
      -- the second loop recycles the least recently used free buffer
      have hnone : ∀ j ∈ c.lru, (c.buf j).holds dev blockno = false := by
        intro j hj
        simpa using List.find?_eq_none.mp hf j hj
      simp only [hf] at h
      cases hg : c.lru.reverse.find? fun i => (c.buf i).refcnt == 0 with
      | none => simp [hg] at h
      | some k =>
          have hk := List.find?_some hg
          simp only [beq_iff_eq] at hk
          have hmem : k ∈ c.lru := List.mem_reverse.mp (List.mem_of_find?_eq_some hg)
          simp only [hg, modify_buf_self, Bool.false_eq_true, if_false, Option.some.injEq,
            Prod.mk.injEq] at h
          obtain ⟨rfl, rfl⟩ := h
          refine ⟨rfl, fun j hj => ?_, ?_, .inr ⟨hk, hnone⟩⟩
          · rw [modify_buf_of_ne _ _ _ _ hj, modify_buf_of_ne _ _ _ _ hj]
          · simp [hnone k hmem, hk]

end Bio
end Xv6
