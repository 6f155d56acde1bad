import Xv6.Fs.ReadWrite

/-!
# The block map of a file

`bmap(ip, bn)` finds block `bn` of a file in a direct slot of the inode or
in an entry of its indirect block, and allocates what it does not find.
`fileBlock` is what it finds when it allocates nothing: the file's block
map, and `fileByte` reads a byte of the file through it.

Under the ownership invariant a call of `bmap` maps `bn` and keeps every
block the file had in its slot, with its bytes (`Extends`); a write to the
block it returns changes the file in that block only.
-/

namespace Xv6
namespace Fs

open Bytes Bitmap

/-- The slot of block `bn` of a file; `none` past `MAXFILE`, where `bmap`
panics "out of range". -/
def slotOf (bn : Nat) : Option Slot :=
  if h : bn < NDIRECT then some (.direct ⟨bn, h⟩)
  else if h' : bn - NDIRECT < NINDIRECT then some (.entry ⟨bn - NDIRECT, h'⟩)
  else none

/-- The block holding block `bn` of the file, `0` for none. -/
def fileBlock (d : Disk Log.Block) (din : DInode) (bn : Nat) : Nat :=
  match slotOf bn with
  | some s => slotBlock d din s
  | none => 0

/-- Byte `k` of the file, read through its block. -/
def fileByte (d : Disk Log.Block) (din : DInode) (k : Nat) : UInt8 :=
  byte (d (fileBlock d din (k / BSIZE))) (k % BSIZE)

/-! ## Slots of file blocks -/

theorem slotOf_ne_ind (bn : Nat) : slotOf bn ≠ some .ind := by
  unfold slotOf
  split
  · simp
  · split <;> simp

theorem slotOf_inj {bn bn' : Nat} {s : Slot} (h : slotOf bn = some s) (h' : slotOf bn' = some s) :
    bn = bn' := by
  unfold slotOf at h h'
  split at h <;> split at h'
  · simp only [Option.some.injEq] at h h'
    subst h
    simp only [Slot.direct.injEq, Fin.mk.injEq] at h'
    omega
  · split at h' <;> simp only [Option.some.injEq, reduceCtorEq] at h h'
    subst h
    cases h'
  · split at h <;> simp only [Option.some.injEq, reduceCtorEq] at h h'
    subst h
    cases h'
  · split at h <;> split at h' <;> simp only [Option.some.injEq, reduceCtorEq] at h h'
    subst h
    simp only [Slot.entry.injEq, Fin.mk.injEq] at h'
    omega

theorem slotOf_isSome {bn : Nat} (h : bn < MAXFILE) : (slotOf bn).isSome := by
  unfold slotOf
  split
  · rfl
  · rw [dif_pos (by unfold MAXFILE at h; omega)]
    rfl

/-- A block of the file is a block in one of the inode's data slots. -/
theorem fileBlock_slot {d : Disk Log.Block} {din : DInode} {bn : Nat} (h : fileBlock d din bn ≠ 0) :
    ∃ s, slotOf bn = some s ∧ slotBlock d din s = fileBlock d din bn := by
  unfold fileBlock at h ⊢
  split at h
  · rename_i s hs
    exact ⟨s, hs, rfl⟩
  · exact absurd rfl h

/-- The slots of file blocks read only the addresses and the indirect
block. -/
theorem fileBlock_congr {d d' : Disk Log.Block} {din din' : DInode}
    (h : ∀ s, slotBlock d' din' s = slotBlock d din s) (bn : Nat) :
    fileBlock d' din' bn = fileBlock d din bn := by
  unfold fileBlock
  split <;> simp [h]

/-- Block numbers of a file fit in a `uint`. -/
theorem fileBlock_lt (d : Disk Log.Block) (din : DInode) (bn : Nat) : fileBlock d din bn < 2 ^ 32 := by
  unfold fileBlock
  split
  · rename_i s _
    cases s with
    | entry j =>
        simp only [slotBlock]
        split
        · norm_num
        · exact entryAt_lt _ _
    | _ => exact UInt32.toNat_lt _
  · norm_num

/-- A byte of a buffer after `setBytes`. -/
theorem byte_setBytes {n : Nat} (b : Fin n → UInt8) (o : Nat) (l : List UInt8) (i : Nat) :
    byte (setBytes b o l) i = if o ≤ i ∧ i < o + l.length ∧ i < n then l.getD (i - o) 0
      else byte b i := by
  unfold byte setBytes
  by_cases hi : i < n
  · by_cases hr : o ≤ i ∧ i < o + l.length
    · simp [hi, hr]
    · simp only [dif_pos hi, if_neg hr, if_neg (fun h : o ≤ i ∧ i < o + l.length ∧ i < n =>
        hr ⟨h.1, h.2.1⟩)]
  · simp [hi]

/-- A write to a block other than the indirect block moves no block of the
file. -/
theorem fileBlock_update {d : Disk Log.Block} {din : DInode} {z : Nat} (blk : Log.Block)
    (h : din.addrs indIdx ≠ 0 → (din.addrs indIdx).toNat ≠ z) (bn : Nat) :
    fileBlock (Function.update d z blk) din bn = fileBlock d din bn :=
  fileBlock_congr (slotBlock_update_of_ne d din blk h) bn

/-- Such a write changes the bytes of the file in block `z` only. -/
theorem fileByte_update {d : Disk Log.Block} {din : DInode} {z : Nat} (blk : Log.Block)
    (h : din.addrs indIdx ≠ 0 → (din.addrs indIdx).toNat ≠ z) (k : Nat) :
    fileByte (Function.update d z blk) din k =
      if fileBlock d din (k / BSIZE) = z then byte blk (k % BSIZE) else fileByte d din k := by
  unfold fileByte
  rw [fileBlock_update blk h]
  split
  · rename_i hz
    rw [hz, Function.update_self]
  · rename_i hz
    rw [Function.update_of_ne hz]

/-! ## Extending a file -/

variable {sb : SuperBlock} {nmeta : Nat} {d d' : Disk Log.Block} {it : Nat → DInode}

/-- From `(d, din)` to `(d', din')` every block the inode refers to stays in
its slot, and every data block keeps its bytes: only empty slots were
filled. -/
structure Extends (d : Disk Log.Block) (din : DInode) (d' : Disk Log.Block) (din' : DInode) :
    Prop where
  slot : ∀ s, slotBlock d din s ≠ 0 → slotBlock d' din' s = slotBlock d din s
  data : ∀ s, s ≠ .ind → slotBlock d din s ≠ 0 → d' (slotBlock d din s) = d (slotBlock d din s)

theorem Extends.refl (d : Disk Log.Block) (din : DInode) : Extends d din d din :=
  ⟨fun _ _ => rfl, fun _ _ _ => rfl⟩

theorem Extends.trans {din din₁ din₂ : DInode} {d₁ d₂ : Disk Log.Block}
    (h₁ : Extends d din d₁ din₁) (h₂ : Extends d₁ din₁ d₂ din₂) : Extends d din d₂ din₂ := by
  refine ⟨fun s hs => ?_, fun s hs h0 => ?_⟩
  · rw [h₂.slot s (by rw [h₁.slot s hs]; exact hs), h₁.slot s hs]
  · have he := h₁.slot s h0
    rw [← he, h₂.data s hs (by rw [he]; exact h0), he, h₁.data s hs h0]

theorem Extends.fileBlock {din din' : DInode} (h : Extends d din d' din') {bn : Nat}
    (hb : fileBlock d din bn ≠ 0) : fileBlock d' din' bn = fileBlock d din bn := by
  obtain ⟨s, hs, he⟩ := fileBlock_slot hb
  have hs0 : slotBlock d din s ≠ 0 := by rw [he]; exact hb
  simp only [Fs.fileBlock, hs]
  exact h.slot s hs0

theorem Extends.fileByte {din din' : DInode} (h : Extends d din d' din') {k : Nat}
    (hb : Fs.fileBlock d din (k / BSIZE) ≠ 0) : Fs.fileByte d' din' k = Fs.fileByte d din k := by
  obtain ⟨s, hs, he⟩ := fileBlock_slot hb
  have hsi : s ≠ .ind := fun e => slotOf_ne_ind _ (e ▸ hs)
  unfold Fs.fileByte
  rw [h.fileBlock hb, ← he, h.data s hsi (by rw [he]; exact hb)]

/-- Slots read the disk at the indirect block only. -/
theorem slotBlock_congr_ind {din : DInode}
    (h : din.addrs indIdx ≠ 0 → d' (din.addrs indIdx).toNat = d (din.addrs indIdx).toNat)
    (s : Slot) : slotBlock d' din s = slotBlock d din s := by
  cases s with
  | entry j =>
      simp only [slotBlock]
      split
      · rfl
      · rename_i ha
        rw [h ha]
  | _ => rfl

/-- A disk that keeps the bytes of every block the inode refers to. -/
theorem extends_of_agree {din : DInode}
    (h : ∀ s, slotBlock d din s ≠ 0 → d' (slotBlock d din s) = d (slotBlock d din s)) :
    Extends d din d' din :=
  ⟨fun s _ => slotBlock_congr_ind (fun ha => h .ind (toNat_ne_zero ha)) s, fun s _ hs => h s hs⟩

/-- Filling the empty direct slot `k`. -/
theorem extends_setDirect {din : DInode} {k : Fin NDIRECT} (hk : din.addrs k.castSucc = 0)
    (v : UInt32) :
    Extends d din d { din with addrs := Function.update din.addrs k.castSucc v } := by
  refine ⟨fun s hs => ?_, fun _ _ _ => rfl⟩
  rw [slotBlock_setDirect, if_neg]
  rintro rfl
  exact hs (by simp [slotBlock, hk])

/-- Filling the empty indirect slot with a block of zero entries. -/
theorem extends_setInd {din : DInode} (h0 : din.addrs indIdx = 0) {v : UInt32} (hv : v ≠ 0)
    (hz : ∀ j, entryAt (d v.toNat) j = 0) :
    Extends d din d { din with addrs := Function.update din.addrs indIdx v } := by
  refine ⟨fun s hs => ?_, fun _ _ _ => rfl⟩
  rw [slotBlock_setInd d din hv hz h0, if_neg]
  rintro rfl
  exact hs (by simp [slotBlock, h0])

/-- Filling the empty entry `j` of the indirect block `a`, which holds no
data of the file. -/
theorem extends_setEntry {din : DInode} {a : UInt32} (ha : din.addrs indIdx = a) (ha0 : a ≠ 0)
    (j : Fin NINDIRECT) (hj : entryAt (d a.toNat) j = 0)
    (hdata : ∀ s, s ≠ .ind → slotBlock d din s ≠ a.toNat) (x : Nat) :
    Extends d din (Function.update d a.toNat (setLE (d a.toNat) (4 * j) 4 x)) din := by
  subst ha
  refine ⟨fun s hs => ?_, fun s hs _ => Function.update_of_ne (hdata s hs) _ _⟩
  cases s with
  | entry j' =>
      have hj' : j' ≠ j := by
        rintro rfl
        exact hs (by simp [slotBlock, ha0, hj])
      simp only [slotBlock, if_neg ha0, Function.update_self, entryAt_setLE _ j.isLt,
        if_neg (Fin.val_ne_of_ne hj')]
  | _ => rfl

/-! ## What `bmap` does to the file -/

/-- `bmap` of a mapped block allocates nothing and returns it. -/
theorem bmap_of_mapped {ip : Inode} {bn : Nat} (h : fileBlock d ip.toDInode bn ≠ 0) :
    bmap sb d ip bn = some (d, ip, UInt32.ofNat (fileBlock d ip.toDInode bn)) := by
  by_cases hbn : bn < NDIRECT
  · have hfb : fileBlock d ip.toDInode bn = (ip.addrs ⟨bn, by omega⟩).toNat := by
      simp [fileBlock, slotOf, hbn, slotBlock, Fin.castSucc_mk]
    have hne : ip.addrs ⟨bn, by omega⟩ ≠ 0 := fun e => h (by rw [hfb, e]; rfl)
    rw [hfb, UInt32.ofNat_toNat]
    simp [bmap, hbn, hne]
  · by_cases hbn' : bn - NDIRECT < NINDIRECT
    · have hfb : fileBlock d ip.toDInode bn = if ip.addrs indIdx = 0 then 0
          else entryAt (d (ip.addrs indIdx).toNat) (bn - NDIRECT) := by
        simp [fileBlock, slotOf, hbn, hbn', slotBlock]
      rw [hfb] at h ⊢
      have ha : ip.addrs indIdx ≠ 0 := fun e => h (if_pos e)
      rw [if_neg ha] at h ⊢
      simp [bmap, hbn, hbn', ha, h]
    · exact absurd (by simp [fileBlock, slotOf, hbn, hbn']) h

/-- `bmap` panics only out of range, or when `balloc` finds no free block. -/
theorem bmap_eq_none {ip : Inode} {bn : Nat} (h : bmap sb d ip bn = none) :
    MAXFILE ≤ bn ∨ ∃ d₁, balloc sb d₁ = none := by
  unfold bmap at h
  dsimp only at h
  split at h
  · split at h
    · exact .inr ⟨d, Option.map_eq_none_iff.mp h⟩
    · cases h
  · split at h
    · split at h
      · rename_i hl
        split at hl
        · exact .inr ⟨d, Option.map_eq_none_iff.mp hl⟩
        · cases hl
      · split at h
        · exact .inr ⟨_, Option.map_eq_none_iff.mp h⟩
        · cases h
    · left
      unfold MAXFILE
      omega

/-- A block of an allocated inode is referenced from its slot. -/
theorem slot_refs {i : Nat} (hi : i < sb.ninodes) (ht : (it i).type ≠ 0) {s : Slot}
    (hs : slotBlock d (it i) s ≠ 0) : Refs sb d it (slotBlock d (it i) s) i s :=
  ⟨hi, ht, hs, rfl⟩

/-- No data slot of an inode holds its indirect block. -/
theorem OwnInv.data_ne_ind (hinv : OwnInv sb nmeta d it) {i : Nat} (hi : i < sb.ninodes)
    (ht : (it i).type ≠ 0) (ha : (it i).addrs indIdx ≠ 0) {s : Slot} (hs : s ≠ .ind) :
    slotBlock d (it i) s ≠ ((it i).addrs indIdx).toNat := by
  intro he
  have h0 : slotBlock d (it i) s ≠ 0 := by rw [he]; exact toNat_ne_zero ha
  exact hs (hinv.unique (slot_refs hi ht h0) (he ▸ refs_ind hi ht ha)).2

/-- Distinct blocks of a file are distinct blocks of the disk. -/
theorem OwnInv.fileBlock_inj (hinv : OwnInv sb nmeta d it) {i : Nat} (hi : i < sb.ninodes)
    (ht : (it i).type ≠ 0) {bn bn' : Nat} (h0 : fileBlock d (it i) bn ≠ 0)
    (he : fileBlock d (it i) bn = fileBlock d (it i) bn') : bn = bn' := by
  obtain ⟨s, hs, hsb⟩ := fileBlock_slot h0
  obtain ⟨s', hs', hsb'⟩ := fileBlock_slot (he ▸ h0 : fileBlock d (it i) bn' ≠ 0)
  have hr := slot_refs hi ht (by rw [hsb]; exact h0 : slotBlock d (it i) s ≠ 0)
  have hr' := slot_refs hi ht (by rw [hsb', ← he]; exact h0 : slotBlock d (it i) s' ≠ 0)
  rw [hsb, he, ← hsb'] at hr
  obtain ⟨-, rfl⟩ := hinv.unique hr hr'
  exact slotOf_inj hs hs'

section Bmap

variable (hlay : DiskLayout sb nmeta)
include hlay

/-- `balloc` hands out no block an inode refers to, and changes the bytes of
none. -/
theorem OwnInv.balloc_keeps (hinv : OwnInv sb nmeta d it) {d₁ : Disk Log.Block} {y z i : Nat}
    {s : Slot} (hb : Fs.balloc sb d = some (d₁, y)) (hr : Refs sb d it z i s) :
    z ≠ y ∧ d₁ z = d z := by
  obtain ⟨-, hfree, -⟩ := balloc_spec hb
  have hzy : z ≠ y := by
    rintro rfl
    rw [hinv.marked hr] at hfree
    cases hfree
  exact ⟨hzy, (hinv.balloc hlay hb).others z hzy (hinv.inData hr).1⟩

theorem OwnInv.balloc_extends (hinv : OwnInv sb nmeta d it) {d₁ : Disk Log.Block} {y i : Nat}
    (hi : i < sb.ninodes) (ht : (it i).type ≠ 0) (hb : Fs.balloc sb d = some (d₁, y)) :
    Extends d (it i) d₁ (it i) :=
  extends_of_agree fun _ hs => (hinv.balloc_keeps hlay hb (slot_refs hi ht hs)).2

variable {ip : Inode} (hip : it ip.inum = ip.toDInode) (hi : ip.inum < sb.ninodes)
  (ht : ip.type ≠ 0)
include hip hi ht

/-- The first half of `bmap` past the direct blocks extends the file. -/
theorem OwnInv.loadInd_extends (hinv : OwnInv sb nmeta d it) {d₁ : Disk Log.Block} {ip₁ : Inode}
    {a : UInt32}
    (h : (if ip.addrs indIdx == 0 then
        (Fs.balloc sb d).map fun p =>
          (p.1, { ip with addrs := Function.update ip.addrs indIdx (UInt32.ofNat p.2) },
            UInt32.ofNat p.2)
      else some (d, ip, ip.addrs indIdx)) = some (d₁, ip₁, a)) :
    Extends d ip.toDInode d₁ ip₁.toDInode := by
  have hti : (it ip.inum).type ≠ 0 := by rw [hip]; exact ht
  split at h
  · rename_i hz
    obtain ⟨⟨d₂, y⟩, hb, he⟩ := Option.map_eq_some_iff.mp h
    cases he
    have hs := hinv.balloc hlay hb
    have hy := (hinv.allocInd hlay hip hi ht (eq_of_beq hz) hb).2
    have hy32 : (UInt32.ofNat y).toNat = y :=
      toNat_ofNat_of_lt (by have := hlay.size_lt; have := hs.inData.2; omega)
    have h₁ := hinv.balloc_extends hlay hi hti hb
    rw [hip] at h₁
    exact h₁.trans (extends_setInd (eq_of_beq hz) hy (by rw [hy32]; exact hs.zeroed))
  · cases h
    exact Extends.refl _ _

/-- The second half of `bmap`, on entry `j` of the indirect block `a`. -/
theorem OwnInv.bmapEntry_extends (hinv : OwnInv sb nmeta d it) {a : UInt32}
    (ha : ip.addrs indIdx = a) (ha0 : a ≠ 0) (j : Fin NINDIRECT) {ip' : Inode} {x : UInt32}
    (h : (if entryAt (d a.toNat) j == 0 then
        (Fs.balloc sb d).map fun p =>
          (Function.update p.1 a.toNat (setLE (p.1 a.toNat) (4 * j) 4 p.2), ip, UInt32.ofNat p.2)
      else some (d, ip, UInt32.ofNat (entryAt (d a.toNat) j))) = some (d', ip', x)) :
    Extends d ip.toDInode d' ip'.toDInode ∧ slotBlock d' ip'.toDInode (.entry j) = x.toNat := by
  have hti : (it ip.inum).type ≠ 0 := by rw [hip]; exact ht
  have hai : (it ip.inum).addrs indIdx ≠ 0 := by rw [hip, ha]; exact ha0
  split at h
  · rename_i hz
    obtain ⟨⟨d₁, y⟩, hb, he⟩ := Option.map_eq_some_iff.mp h
    cases he
    -- `balloc` keeps the indirect block, so the entry is still empty
    have hkeep : d₁ a.toNat = d a.toNat := by
      have := (hinv.balloc_keeps hlay hb (refs_ind hi hti hai)).2
      rwa [hip, ha] at this
    have hslot : ∀ s, slotBlock d₁ ip.toDInode s = slotBlock d ip.toDInode s :=
      slotBlock_congr_ind fun _ => by rw [ha, hkeep]
    have h₁ := hinv.balloc_extends hlay hi hti hb
    rw [hip] at h₁
    have hdata : ∀ s, s ≠ .ind → slotBlock d₁ ip.toDInode s ≠ a.toNat := by
      intro s hs
      have := hinv.data_ne_ind hi hti hai hs
      rwa [hip, ha, ← hslot] at this
    refine ⟨h₁.trans (extends_setEntry ha ha0 j (by rw [hkeep]; exact eq_of_beq hz) hdata y), ?_⟩
    simp only [slotBlock, ha, if_neg ha0, Function.update_self, entryAt_setLE _ j.isLt, if_pos]
    exact (UInt32.toNat_ofNat ..).symm
  · cases h
    refine ⟨Extends.refl _ _, ?_⟩
    rw [slotBlock, ha, if_neg ha0, toNat_ofNat_of_lt (entryAt_lt _ _)]

/-- `bmap` extends the file and maps block `bn` to the block it returns. -/
theorem OwnInv.bmap_extends (hinv : OwnInv sb nmeta d it) {bn : Nat} {ip' : Inode} {x : UInt32}
    (h : Fs.bmap sb d ip bn = some (d', ip', x)) :
    Extends d ip.toDInode d' ip'.toDInode ∧ fileBlock d' ip'.toDInode bn = x.toNat := by
  have hti : (it ip.inum).type ≠ 0 := by rw [hip]; exact ht
  unfold Fs.bmap at h
  dsimp only at h
  split at h
  · rename_i hbn
    have hslot : slotOf bn = some (.direct ⟨bn, hbn⟩) := by simp [slotOf, hbn]
    split at h
    · rename_i hz
      obtain ⟨⟨d₁, y⟩, hb, he⟩ := Option.map_eq_some_iff.mp h
      cases he
      have h₁ := hinv.balloc_extends hlay hi hti hb
      rw [hip] at h₁
      refine ⟨h₁.trans (extends_setDirect (k := ⟨bn, hbn⟩) (eq_of_beq hz) _), ?_⟩
      simp [fileBlock, hslot, slotBlock, Fin.castSucc_mk]
    · cases h
      refine ⟨Extends.refl _ _, ?_⟩
      simp [fileBlock, hslot, slotBlock, Fin.castSucc_mk]
  · split at h
    · rename_i hbn hbn'
      have hslot : slotOf bn = some (.entry ⟨bn - NDIRECT, hbn'⟩) := by
        simp [slotOf, hbn, hbn']
      split at h
      · cases h
      · rename_i d₁ ip₁ a hl
        have h₁ := hinv.loadInd_extends hlay hip hi ht hl
        obtain ⟨hg, ha, ha0⟩ := hinv.loadInd hlay hip hi ht hl
        -- the second half works on the inode the first half left in the table
        have hip₁ : Function.update it ip.inum ip₁.toDInode ip₁.inum = ip₁.toDInode := by
          rw [hg.inum_eq, Function.update_self]
        have ht₁ : ip₁.type ≠ 0 := by
          rw [hg.type_eq]
          exact ht
        obtain ⟨h₂, hx⟩ := hg.inv.bmapEntry_extends hlay hip₁ (hg.inum_eq ▸ hi) ht₁ ha ha0
          ⟨bn - NDIRECT, hbn'⟩ h
        refine ⟨h₁.trans h₂, ?_⟩
        simp only [fileBlock, hslot, hx]
    · cases h

end Bmap

/-- The inode a run of `Grows` steps has reached, in the table of that run. -/
theorem Grows.table_type {ip ip₁ : Inode} {d₁ : Disk Log.Block} (ht : ip.type ≠ 0)
    (hg : Grows sb nmeta d it ip d₁ ip₁) :
    (Function.update it ip.inum ip₁.toDInode ip.inum).type ≠ 0 := by
  rw [Function.update_self, hg.type_eq]
  exact ht

/-- `bmap` on the inode a run of `Grows` steps has reached extends the file. -/
theorem Grows.bmap_extends {ip ip₁ : Inode} {d₁ : Disk Log.Block}
    (hg : Grows sb nmeta d it ip d₁ ip₁) (hlay : DiskLayout sb nmeta) (hi : ip.inum < sb.ninodes)
    (ht : ip.type ≠ 0) {bn : Nat} {d₂ : Disk Log.Block} {ip₂ : Inode} {x : UInt32}
    (h : Fs.bmap sb d₁ ip₁ bn = some (d₂, ip₂, x)) :
    Extends d₁ ip₁.toDInode d₂ ip₂.toDInode ∧ fileBlock d₂ ip₂.toDInode bn = x.toNat := by
  have hip₁ : Function.update it ip.inum ip₁.toDInode ip₁.inum = ip₁.toDInode := by
    rw [hg.inum_eq, Function.update_self]
  have ht₁ : ip₁.type ≠ 0 := by
    rw [hg.type_eq]
    exact ht
  exact hg.inv.bmap_extends hlay hip₁ (hg.inum_eq ▸ hi) ht₁ h

section Steps

variable {ip ip₁ : Inode} {d₁ : Disk Log.Block} (hi : ip.inum < sb.ninodes) (ht : ip.type ≠ 0)
include hi ht

/-- A block the inode reached refers to from a data slot is not its
indirect block. -/
theorem Grows.ind_ne (hg : Grows sb nmeta d it ip d₁ ip₁) {x : Nat} {s : Slot} (hs : s ≠ .ind)
    (hr : Refs sb d₁ (Function.update it ip.inum ip₁.toDInode) x ip.inum s) :
    ip₁.addrs indIdx ≠ 0 → (ip₁.addrs indIdx).toNat ≠ x := by
  intro ha he
  have hind := refs_ind (d := d₁) hi (hg.table_type ht)
    (by rw [Function.update_self]; exact ha)
  rw [Function.update_self, he] at hind
  exact hs (hg.inv.unique hr hind).2

/-- Distinct blocks of the file the inode reached are distinct blocks. -/
theorem Grows.fileBlock_inj (hg : Grows sb nmeta d it ip d₁ ip₁) {bn bn' : Nat}
    (h0 : fileBlock d₁ ip₁.toDInode bn ≠ 0)
    (he : fileBlock d₁ ip₁.toDInode bn = fileBlock d₁ ip₁.toDInode bn') : bn = bn' := by
  exact hg.inv.fileBlock_inj hi (hg.table_type ht) (by rw [Function.update_self]; exact h0)
    (by rw [Function.update_self]; exact he)

/-- The file's blocks lie in the data area. -/
theorem Grows.fileBlock_data (hg : Grows sb nmeta d it ip d₁ ip₁) {bn : Nat}
    (h0 : fileBlock d₁ ip₁.toDInode bn ≠ 0) : nmeta ≤ fileBlock d₁ ip₁.toDInode bn := by
  obtain ⟨s, -, hsb⟩ := fileBlock_slot h0
  have hr := slot_refs (d := d₁) hi (hg.table_type ht)
    (s := s) (by rw [Function.update_self, hsb]; exact h0)
  rw [Function.update_self, hsb] at hr
  exact (hg.inv.inData hr).1

end Steps

end Fs
end Xv6
