import Xv6.Fs.Ownership

/-!
# Reading and writing a file keeps block ownership

`readi` and `writei` map every block they touch with `bmap`, which may
allocate it; `writei` also writes the caller's bytes into the mapped block,
and stores the inode at the end.  Each pass of their loops is a `Grows`
step, so a whole loop is one, by induction on its passes; `writei` then
ends in `Stores`.
-/

namespace Xv6
namespace Fs

variable {sb : SuperBlock} {nmeta : Nat} {d : Disk Log.Block} {it : Nat → DInode}

section Loops

variable (hlay : DiskLayout sb nmeta)
include hlay

theorem Grows.readLoop {ip : Inode} (hi : ip.inum < sb.ninodes) (ht : ip.type ≠ 0)
    {copyout : Nat → List UInt8 → Bool} {dst : Nat} (cs : List (Nat × Nat)) :
    ∀ {d₁ : Disk Log.Block} {ip₁ : Inode} {tot : Nat} {d' : Disk Log.Block} {ip' : Inode}
      {r : Int}, Grows sb nmeta d it ip d₁ ip₁ →
      Fs.readLoop sb copyout dst cs (d₁, ip₁, tot) = some (d', ip', r) →
      Grows sb nmeta d it ip d' ip' := by
  induction cs with
  | nil =>
      intro d₁ ip₁ tot d' ip' r hg h
      simp only [Fs.readLoop, Option.some.injEq, Prod.mk.injEq] at h
      obtain ⟨rfl, rfl, -⟩ := h
      exact hg
  | cons c cs ih =>
      intro d₁ ip₁ tot d' ip' r hg h
      obtain ⟨off, m⟩ := c
      simp only [Fs.readLoop] at h
      split at h
      · cases h
      · rename_i d₂ ip₂ x hb
        have hg₂ := (hg.bmap hlay hi ht hb).1
        split at h
        · exact ih hg₂ h
        · -- a failed copy ends the loop with what `bmap` left
          simp only [Option.some.injEq, Prod.mk.injEq] at h
          obtain ⟨rfl, rfl, -⟩ := h
          exact hg₂

theorem Grows.writeLoop {ip : Inode} (hi : ip.inum < sb.ninodes) (ht : ip.type ≠ 0)
    {copyin : Nat → Nat → Option (List UInt8)} {src : Nat} (cs : List (Nat × Nat)) :
    ∀ {d₁ : Disk Log.Block} {ip₁ : Inode} {tot : Nat} {d' : Disk Log.Block} {ip' : Inode}
      {r : Nat}, Grows sb nmeta d it ip d₁ ip₁ →
      Fs.writeLoop sb copyin src cs (d₁, ip₁, tot) = some (d', ip', r) →
      Grows sb nmeta d it ip d' ip' := by
  induction cs with
  | nil =>
      intro d₁ ip₁ tot d' ip' r hg h
      simp only [Fs.writeLoop, Option.some.injEq, Prod.mk.injEq] at h
      obtain ⟨rfl, rfl, -⟩ := h
      exact hg
  | cons c cs ih =>
      intro d₁ ip₁ tot d' ip' r hg h
      obtain ⟨off, m⟩ := c
      simp only [Fs.writeLoop] at h
      split at h
      · cases h
      · rename_i d₂ ip₂ x hb
        obtain ⟨hg₂, s, hs, hr⟩ := hg.bmap hlay hi ht hb
        split at h
        · simp only [Option.some.injEq, Prod.mk.injEq] at h
          obtain ⟨rfl, rfl, -⟩ := h
          exact hg₂
        · -- the bytes go to the block `bmap` returned, a data block of this inode
          exact ih (hg₂.writeData hlay hs hr _) h

end Loops

section Calls

variable (hlay : DiskLayout sb nmeta)
include hlay

variable {ip : Inode} (hip : it ip.inum = ip.toDInode) (hi : ip.inum < sb.ninodes)
  (ht : ip.type ≠ 0)
include hip hi ht

/-- `readi` on an allocated inode whose table entry is the locked copy. -/
theorem OwnInv.readi (hinv : OwnInv sb nmeta d it) {copyout : Nat → List UInt8 → Bool}
    {dst : Nat} {off n : UInt32} {d' : Disk Log.Block} {ip' : Inode} {r : Int}
    (h : Fs.readi sb d ip copyout dst off n = some (d', ip', r)) :
    Grows sb nmeta d it ip d' ip' := by
  unfold Fs.readi at h
  split at h
  · simp only [Option.some.injEq, Prod.mk.injEq] at h
    obtain ⟨rfl, rfl, -⟩ := h
    exact Grows.refl hinv hip
  · exact Grows.readLoop hlay hi ht _ (Grows.refl hinv hip) h

/-- `writei` on an allocated inode whose table entry is the locked copy:
either it returns at a check and changes nothing, or it stores the inode it
grew. -/
theorem OwnInv.writei (hinv : OwnInv sb nmeta d it) {copyin : Nat → Nat → Option (List UInt8)}
    {src : Nat} {off n : UInt32} {d' : Disk Log.Block} {ip' : Inode} {r : Int}
    (h : Fs.writei sb d ip copyin src off n = some (d', ip', r)) :
    (d' = d ∧ ip' = ip) ∨ Stores sb nmeta d it ip d' ip' := by
  unfold Fs.writei at h
  split at h
  · simp only [Option.some.injEq, Prod.mk.injEq] at h
    exact .inl ⟨h.1.symm, h.2.1.symm⟩
  split at h
  · simp only [Option.some.injEq, Prod.mk.injEq] at h
    exact .inl ⟨h.1.symm, h.2.1.symm⟩
  split at h
  · cases h
  · rename_i d₁ ip₁ tot hl
    have hg := Grows.writeLoop hlay hi ht _ (Grows.refl hinv hip) hl
    simp only [Option.some.injEq, Prod.mk.injEq] at h
    obtain ⟨rfl, rfl, -⟩ := h
    -- the size may change; the inode number, type and addresses do not
    refine .inr (hg.iupdate hlay hi ?_ ?_ ?_) <;> split <;> rfl

end Calls

end Fs
end Xv6
