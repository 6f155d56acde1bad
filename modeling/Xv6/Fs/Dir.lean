import Xv6.Fs.Contents
import Xv6.Kernel.String
import Xv6.Support.Records

/-!
# Directories

A directory is a file of `struct dirent`s: a `ushort` inode number, `0` in
a free entry, and `DIRSIZ` bytes of name.  `dirlookup` and `dirlink`
(`kernel/fs.c`) read it entry by entry with `readi` into the kernel's `de`
and write one entry with `writei` from it; `sys_unlink` frees an entry by
writing zeros over it.

The model threads the disk and the inode through every `readi`, and reads
the entry `readi` copied into `de` from the contents of the file it read.
On a directory with no holes and made of whole entries, `dirlookup` is
`lookup` over the contents (`dirlookup_eq`), and `dirlink` of a name not
found splices the new entry in at the first free entry or at the end.
Over the contents, as long as no two entries in use hold one name
(`Distinct`), a link makes the name found and an unlink makes it not found,
and neither changes what another name finds.
-/

namespace Xv6
namespace Fs

open Records

/-! ## The model -/

/-- `sizeof(struct dirent)`. -/
def direntSize : Nat := 2 + DIRSIZ

/-- The entry `readi` copies into `de` from offset `off`. -/
def direntAt (data : List UInt8) (off : Nat) : List UInt8 := recordAt direntSize data off

/-- `de.inum`, little-endian. -/
def direntInum (e : List UInt8) : Nat := (e.getD 0 0).toNat + 256 * (e.getD 1 0).toNat

/-- `de.name`. -/
def direntName (e : List UInt8) : List UInt8 := e.drop 2

/-- The entry `dirlink` writes, `strncpy(de.name, name, DIRSIZ); de.inum = inum;`:
the `uint` inode number goes into a `ushort`. -/
def direntBytes (name : List UInt8) (inum : Nat) : List UInt8 :=
  [UInt8.ofNat inum, UInt8.ofNat (inum / 256)] ++ strncpy name DIRSIZ

/-- The entry `sys_unlink` writes over the one it frees, `memset(&de, 0, sizeof(de))`. -/
def direntZero : List UInt8 := List.replicate direntSize 0

/-- The offsets `for(off = 0; off < dp->size; off += sizeof(de))` visits. -/
def direntOffs (size : Nat) : List Nat := slots direntSize size

/-- `namecmp(s, t)` -/
def namecmp (s t : List UInt8) : Int := strncmp s t DIRSIZ

/-- `either_copyout` into the kernel's `de`: a copy to kernel memory never
fails. -/
def toKernel : Nat → List UInt8 → Bool := fun _ _ => true

/-- `either_copyin` from the kernel's `de`, which holds the entry `e`. -/
def fromKernel (e : List UInt8) : Nat → Nat → Option (List UInt8) :=
  fun a m => some ((e.drop a).take m)

/-- The loop of `dirlookup` over the offsets `offs`: `none` is a panic,
and the entry found is its offset and inode number. -/
def dirlookupLoop (sb : SuperBlock) (name : List UInt8) :
    List Nat → Disk Log.Block × Inode → Option (Option (Nat × Nat) × Disk Log.Block × Inode)
  | [], (d, dp) => some (none, d, dp)
  | off :: offs, (d, dp) =>
      match readi sb d dp toKernel 0 (UInt32.ofNat off) (UInt32.ofNat direntSize) with
      | none => none
      | some (d, dp, r) =>
          -- "dirlookup read"
          if r ≠ direntSize then none
          else
            let de := direntAt (contents d dp.toDInode) off
            if direntInum de = 0 then dirlookupLoop sb name offs (d, dp)
            else if namecmp name (direntName de) = 0 then some (some (off, direntInum de), d, dp)
            else dirlookupLoop sb name offs (d, dp)

theorem dirlookupLoop_cons (sb : SuperBlock) (name : List UInt8) (off : Nat) (offs : List Nat)
    (d : Disk Log.Block) (dp : Inode) :
    dirlookupLoop sb name (off :: offs) (d, dp) =
      match readi sb d dp toKernel 0 (UInt32.ofNat off) (UInt32.ofNat direntSize) with
      | none => none
      | some (d, dp, r) =>
          if r ≠ direntSize then none
          else
            let de := direntAt (contents d dp.toDInode) off
            if direntInum de = 0 then dirlookupLoop sb name offs (d, dp)
            else if namecmp name (direntName de) = 0 then some (some (off, direntInum de), d, dp)
            else dirlookupLoop sb name offs (d, dp) := rfl

/-- `dirlookup(dp, name, poff)`: `*poff` and the number of the inode `iget`
returns. -/
def dirlookup (sb : SuperBlock) (d : Disk Log.Block) (dp : Inode) (name : List UInt8) :
    Option (Option (Nat × Nat) × Disk Log.Block × Inode) :=
  if dp.type ≠ T_DIR then none
  else dirlookupLoop sb name (direntOffs dp.size.toNat) (d, dp)

/-- The loop of `dirlink` looking for a free entry: its offset, or `none`
when the loop runs to the end. -/
def dirlinkLoop (sb : SuperBlock) :
    List Nat → Disk Log.Block × Inode → Option (Option Nat × Disk Log.Block × Inode)
  | [], (d, dp) => some (none, d, dp)
  | off :: offs, (d, dp) =>
      match readi sb d dp toKernel 0 (UInt32.ofNat off) (UInt32.ofNat direntSize) with
      | none => none
      | some (d, dp, r) =>
          -- "dirlink read"
          if r ≠ direntSize then none
          else if direntInum (direntAt (contents d dp.toDInode) off) = 0 then some (some off, d, dp)
          else dirlinkLoop sb offs (d, dp)

theorem dirlinkLoop_cons (sb : SuperBlock) (off : Nat) (offs : List Nat) (d : Disk Log.Block)
    (dp : Inode) :
    dirlinkLoop sb (off :: offs) (d, dp) =
      match readi sb d dp toKernel 0 (UInt32.ofNat off) (UInt32.ofNat direntSize) with
      | none => none
      | some (d, dp, r) =>
          if r ≠ direntSize then none
          else if direntInum (direntAt (contents d dp.toDInode) off) = 0 then some (some off, d, dp)
          else dirlinkLoop sb offs (d, dp) := rfl

/-- Where the loop of `dirlink` leaves `off` when it finds no free entry:
the first multiple of `sizeof(de)` not below the size. -/
def direntEnd (size : Nat) : Nat := direntSize * ((size + direntSize - 1) / direntSize)

/-- `dirlink(dp, name, inum)`; `none` is a panic. -/
def dirlink (sb : SuperBlock) (d : Disk Log.Block) (dp : Inode) (name : List UInt8)
    (inum : Nat) : Option (Disk Log.Block × Inode × Int) :=
  match dirlookup sb d dp name with
  | none => none
  | some (some _, d, dp) => some (d, dp, -1)
  | some (none, d, dp) =>
      match dirlinkLoop sb (direntOffs dp.size.toNat) (d, dp) with
      | none => none
      | some (slot, d, dp) =>
          let off := slot.getD (direntEnd dp.size.toNat)
          match writei sb d dp (fromKernel (direntBytes name inum)) 0 (UInt32.ofNat off)
              (UInt32.ofNat direntSize) with
          | none => none
          | some (d, dp, r) => if r ≠ direntSize then none else some (d, dp, 0)

/-- The write of `sys_unlink` freeing the entry at `off`; "unlink: writei"
unless it writes the whole entry. -/
def unlinkEntry (sb : SuperBlock) (d : Disk Log.Block) (dp : Inode) (off : Nat) :
    Option (Disk Log.Block × Inode) :=
  match writei sb d dp (fromKernel direntZero) 0 (UInt32.ofNat off) (UInt32.ofNat direntSize) with
  | none => none
  | some (d, dp, r) => if r ≠ direntSize then none else some (d, dp)

theorem direntSize_eq : direntSize = 16 := rfl

/-! ## Names -/

/-- A name as `namecmp` compares it: its first `DIRSIZ` bytes before a `0`. -/
def nameKey (s : List UInt8) : List UInt8 := (cstr s).take DIRSIZ

theorem namecmp_eq_zero_iff (s t : List UInt8) : namecmp s t = 0 ↔ nameKey s = nameKey t :=
  strncmp_eq_zero_iff s t DIRSIZ

/-- A stored entry reads back its inode number as a `ushort`. -/
theorem direntInum_direntBytes (name : List UInt8) (inum : Nat) :
    direntInum (direntBytes name inum) = inum % 2 ^ 16 := by
  delta direntInum direntBytes
  simp only [List.cons_append, List.nil_append, List.getD_cons_zero,
    List.getD_cons_succ, UInt8.toNat_ofNat']
  omega

/-- A stored entry holds the name as `namecmp` compares it. -/
theorem nameKey_direntBytes (name : List UInt8) (inum : Nat) :
    nameKey (direntName (direntBytes name inum)) = nameKey name := by
  delta nameKey direntName direntBytes
  simp [cstr_strncpy]

@[simp] theorem length_direntBytes (name : List UInt8) (inum : Nat) :
    (direntBytes name inum).length = direntSize := by
  delta direntBytes direntSize
  simp only [List.length_append, List.length_cons, List.length_nil, length_strncpy]

theorem direntInum_direntZero : direntInum direntZero = 0 := rfl

/-! ## Lookup over the contents -/

/-- What the loop of `dirlookup` makes of the entry at `off`. -/
def entryMatch (data name : List UInt8) (off : Nat) : Option (Nat × Nat) :=
  let de := direntAt data off
  if direntInum de = 0 then none
  else if namecmp name (direntName de) = 0 then some (off, direntInum de) else none

/-- `dirlookup` over the contents of the directory. -/
def lookup (data name : List UInt8) : Option (Nat × Nat) :=
  (direntOffs data.length).findSome? (entryMatch data name)

/-- The first free entry of the directory, the one `dirlink` fills. -/
def freeSlot (data : List UInt8) : Option Nat :=
  (direntOffs data.length).find? fun off => direntInum (direntAt data off) == 0

/-- The entry at `off` is in use and holds `name`. -/
def Names (data name : List UInt8) (off : Nat) : Prop :=
  off ∈ direntOffs data.length ∧ direntInum (direntAt data off) ≠ 0 ∧
    nameKey (direntName (direntAt data off)) = nameKey name

/-- No two entries in use hold one name. -/
def Distinct (data : List UInt8) : Prop :=
  ∀ name o₁ o₂, Names data name o₁ → Names data name o₂ → o₁ = o₂

variable {data data' name : List UInt8} {off : Nat}

theorem Names.rename {name' : List UInt8} (h : Names data name off)
    (hk : nameKey name = nameKey name') : Names data name' off :=
  ⟨h.1, h.2.1, h.2.2.trans hk⟩

theorem entryMatch_eq_some_iff {r : Nat × Nat} :
    entryMatch data name off = some r ↔
      (direntInum (direntAt data off) ≠ 0 ∧
        nameKey (direntName (direntAt data off)) = nameKey name) ∧
      r = (off, direntInum (direntAt data off)) := by
  delta entryMatch
  simp only [namecmp_eq_zero_iff]
  by_cases h0 : direntInum (direntAt data off) = 0
  · simp [h0]
  · by_cases hk : nameKey name = nameKey (direntName (direntAt data off))
    · simp [h0, hk, eq_comm]
    · simp [h0, hk, Ne.symm hk]

theorem lookup_eq_none_iff : lookup data name = none ↔ ∀ off, ¬Names data name off := by
  delta lookup
  rw [List.findSome?_eq_none_iff]
  constructor
  · rintro h off ⟨hmem, hn⟩
    have := h off hmem
    rw [Option.eq_none_iff_forall_not_mem] at this
    exact this _ (entryMatch_eq_some_iff.2 ⟨hn, rfl⟩)
  · intro h off hmem
    cases hm : entryMatch data name off with
    | none => rfl
    | some r => exact absurd ⟨hmem, (entryMatch_eq_some_iff.1 hm).1⟩ (h off)

/-- What `lookup` finds is an entry in use holding the name. -/
theorem names_of_lookup {r : Nat × Nat} (h : lookup data name = some r) :
    Names data name r.1 ∧ r.2 = direntInum (direntAt data r.1) := by
  obtain ⟨off, hmem, hm⟩ := List.exists_of_findSome?_eq_some h
  obtain ⟨hn, rfl⟩ := entryMatch_eq_some_iff.1 hm
  exact ⟨⟨hmem, hn⟩, rfl⟩

/-- With distinct names, `lookup` finds the one entry holding the name. -/
theorem lookup_of_names (hd : Distinct data) (h : Names data name off) :
    lookup data name = some (off, direntInum (direntAt data off)) := by
  cases hl : lookup data name with
  | none => exact absurd h (lookup_eq_none_iff.1 hl off)
  | some r =>
      obtain ⟨hr, hi⟩ := names_of_lookup hl
      obtain rfl := hd name _ _ hr h
      rw [← hi]

/-- Two directories with the same entries holding `name`, and the same
entries there, agree on `name` once the second has distinct names. -/
theorem lookup_congr (hd' : Distinct data')
    (hiff : ∀ off, Names data' name off ↔ Names data name off)
    (hat : ∀ off, Names data name off → direntAt data' off = direntAt data off) :
    lookup data' name = lookup data name := by
  cases hl : lookup data name with
  | none => exact lookup_eq_none_iff.2 fun off h => lookup_eq_none_iff.1 hl off ((hiff off).mp h)
  | some r =>
      obtain ⟨hr, hi⟩ := names_of_lookup hl
      rw [lookup_of_names hd' ((hiff _).mpr hr), hat _ hr, ← hi]

/-- The offset `dirlink` writes at: the first free entry, or else the end,
which is an entry's offset too. -/
theorem freeSlot_spec (hwhole : data.length % direntSize = 0) :
    let s := (freeSlot data).getD data.length
    ((s ∈ direntOffs data.length ∧ direntInum (direntAt data s) = 0) ∨ s = data.length) ∧
      s % direntSize = 0 ∧ s ≤ data.length ∧
      ∀ o ∈ direntOffs data.length, o < s → direntInum (direntAt data o) ≠ 0 := by
  intro s
  have hw : 0 < direntSize := by decide
  cases hf : freeSlot data with
  | none =>
      have hs : s = data.length := by simp only [s, hf, Option.getD_none]
      refine ⟨.inr hs, hs ▸ hwhole, hs.le, fun o ho _ => ?_⟩
      have := List.find?_eq_none.mp hf o ho
      simpa using this
  | some t =>
      have hs : s = t := by simp only [s, hf, Option.getD_some]
      obtain ⟨hp, -⟩ := List.find?_eq_some_iff_append.mp hf
      have hmem := List.mem_of_find?_eq_some hf
      have := (mem_slots hw).mp hmem
      refine ⟨.inl ⟨hs ▸ hmem, by simpa [hs] using hp⟩, hs ▸ this.1, by omega, fun o ho hlt => ?_⟩
      have := find?_slots_first hw hf ho (hs ▸ hlt)
      simpa using this

/-! ## One entry written -/

section Splice

variable {e : List UInt8}

-- one entry written at an entry's offset, within the directory or at its end
variable (he : e.length = direntSize) (hoff : off % direntSize = 0) (hle : off ≤ data.length)
include he hoff hle

theorem direntAt_splice {o : Nat} (ho : o % direntSize = 0) :
    direntAt (splice data off e) o = if o = off then e else direntAt data o := by
  split
  · rename_i h
    subst h
    delta direntAt
    rw [← he]
    exact recordAt_splice_self data e hle
  · rename_i h
    apply recordAt_splice_of_disjoint data e hle
    by_contra hc
    rw [not_or] at hc
    exact h (eq_of_mod_eq_zero ho hoff (by omega) (by omega))

theorem names_splice {o : Nat} :
    Names (splice data off e) name o ↔
      if o = off then direntInum e ≠ 0 ∧ nameKey (direntName e) = nameKey name
      else Names data name o := by
  have hw : 0 < direntSize := by decide
  delta Names direntOffs
  rw [mem_slots_splice data e hw he hoff hle]
  by_cases ho : o = off
  · subst ho
    rw [if_pos rfl, direntAt_splice he hoff hle hoff, if_pos rfl]
    simp
  · rw [if_neg ho]
    constructor
    · rintro ⟨hmem, hrest⟩
      have hmem' := hmem.resolve_right ho
      rw [direntAt_splice he hoff hle ((mem_slots hw).mp hmem').1, if_neg ho] at hrest
      exact ⟨hmem', hrest⟩
    · rintro ⟨hmem, hrest⟩
      rw [direntAt_splice he hoff hle ((mem_slots hw).mp hmem).1, if_neg ho]
      exact ⟨.inl hmem, hrest⟩

/-- Names stay distinct when the entry written holds none that another
entry in use holds. -/
theorem Distinct.splice (hd : Distinct data)
    (hnew : direntInum e ≠ 0 → ∀ o, o ≠ off → ¬Names data (direntName e) o) :
    Distinct (splice data off e) := by
  intro nm o₁ o₂ h₁ h₂
  rw [names_splice he hoff hle] at h₁ h₂
  by_cases e₁ : o₁ = off <;> by_cases e₂ : o₂ = off
  · rw [e₁, e₂]
  · rw [if_pos e₁] at h₁
    rw [if_neg e₂] at h₂
    exact absurd (h₂.rename h₁.2.symm) (hnew h₁.1 o₂ e₂)
  · rw [if_neg e₁] at h₁
    rw [if_pos e₂] at h₂
    exact absurd (h₁.rename h₂.2.symm) (hnew h₂.1 o₁ e₁)
  · rw [if_neg e₁] at h₁
    rw [if_neg e₂] at h₂
    exact hd nm o₁ o₂ h₁ h₂

/-- A name the entry written does not hold, and that the entry written
over did not hold, finds what it found. -/
theorem lookup_splice_of_not_names (hd' : Distinct (splice data off e))
    (hnew : ¬(direntInum e ≠ 0 ∧ nameKey (direntName e) = nameKey name))
    (hold : ¬Names data name off) :
    lookup (splice data off e) name = lookup data name := by
  apply lookup_congr hd'
  · intro o
    rw [names_splice he hoff hle]
    split
    · rename_i ho
      subst ho
      exact iff_of_false hnew hold
    · rfl
  · intro o h
    have ho : o ≠ off := fun h' => hold (h' ▸ h)
    rw [direntAt_splice he hoff hle ((mem_slots (by decide)).mp h.1).1, if_neg ho]

end Splice

/-- `dirlink` over the contents: the new entry at a free entry or the end
is the one the name finds, and every other name finds what it found. -/
theorem lookup_link (hd : Distinct data) (hwhole : data.length % direntSize = 0)
    (hnone : lookup data name = none) {inum : Nat} (hinum : inum % 2 ^ 16 ≠ 0) :
    let s := (freeSlot data).getD data.length
    let data' := splice data s (direntBytes name inum)
    lookup data' name = some (s, inum % 2 ^ 16) ∧ Distinct data' ∧
      ∀ name', nameKey name' ≠ nameKey name → lookup data' name' = lookup data name' := by
  intro s data'
  obtain ⟨hfree, hoff, hle, -⟩ := freeSlot_spec hwhole
  have he := length_direntBytes name inum
  have hnot : ∀ o, ¬Names data name o := lookup_eq_none_iff.1 hnone
  have hd' : Distinct data' := by
    refine Distinct.splice he hoff hle hd fun _ o _ h => hnot o (h.rename ?_)
    rw [nameKey_direntBytes]
  -- the entry written holds the name
  have hnew : Names data' name s := by
    rw [names_splice he hoff hle, if_pos rfl, direntInum_direntBytes, nameKey_direntBytes]
    exact ⟨hinum, rfl⟩
  -- and the slot held no name: it was free, or past the end
  have hfree' : ∀ nm, ¬Names data nm s := by
    rintro nm ⟨hmem, hne, -⟩
    rcases hfree with hf | hf
    · exact hne hf.2
    · delta direntOffs at hmem
      rw [mem_slots (by decide)] at hmem
      omega
  refine ⟨?_, hd', fun name' hk => ?_⟩
  · rw [lookup_of_names hd' hnew, direntAt_splice he hoff hle hoff, if_pos rfl,
      direntInum_direntBytes]
  · apply lookup_splice_of_not_names he hoff hle hd' _ (hfree' name')
    rw [nameKey_direntBytes]
    exact fun h => hk h.2.symm

/-- `sys_unlink`'s zeroing over the contents: the name found is found no
more, and every other name finds what it found. -/
theorem lookup_unlink (hd : Distinct data) {i : Nat} (h : lookup data name = some (off, i)) :
    let data' := splice data off direntZero
    lookup data' name = none ∧ Distinct data' ∧
      ∀ name', nameKey name' ≠ nameKey name → lookup data' name' = lookup data name' := by
  intro data'
  have hw : 0 < direntSize := by decide
  obtain ⟨hn, -⟩ := names_of_lookup h
  have hmem := (mem_slots hw).mp hn.1
  have he : direntZero.length = direntSize := List.length_replicate
  have hz : ¬(direntInum direntZero ≠ 0) := fun h => h direntInum_direntZero
  have hd' : Distinct data' :=
    Distinct.splice he hmem.1 hmem.2.le hd fun h => absurd h hz
  refine ⟨lookup_eq_none_iff.2 fun o ho => ?_, hd', fun name' hk => ?_⟩
  · -- only the entry zeroed held the name
    rw [names_splice he hmem.1 hmem.2.le] at ho
    split at ho
    · exact hz ho.1
    · rename_i hne
      exact hne (hd name _ _ ho hn)
  · exact lookup_splice_of_not_names he hmem.1 hmem.2.le hd' (fun h => hz h.1)
      fun h' => hk (h'.2.2.symm.trans hn.2.2)

/-! ## The directory file -/

section Inode

variable {sb : SuperBlock} {d : Disk Log.Block} {dp : Inode}

@[simp] theorem length_contents (d : Disk Log.Block) (din : DInode) :
    (contents d din).length = din.size.toNat := by
  delta contents
  simp

theorem direntEnd_of_whole {size : Nat} (h : size % direntSize = 0) : direntEnd size = size := by
  delta direntEnd
  rw [direntSize_eq] at h ⊢
  omega

/-- `readi` of a whole entry of a directory with no holes reads all of it
and changes nothing. -/
theorem readi_dirent (hholes : NoHoles d dp.toDInode dp.size.toNat)
    (hwhole : dp.size.toNat % direntSize = 0) (h : off ∈ direntOffs dp.size.toNat) :
    readi sb d dp toKernel 0 (UInt32.ofNat off) (UInt32.ofNat direntSize) =
      some (d, dp, (direntSize : Int)) := by
  have hend := add_le_of_mem_slots (by decide) hwhole h
  have hsz := dp.size.toNat_lt
  rw [readi_spec hholes, toNat_ofNat_of_lt (by omega), toNat_ofNat_of_lt (by decide),
    if_neg (by omega)]
  -- a copy into the kernel never fails
  delta toKernel
  simp only [implies_true, if_true, Option.some.injEq, Prod.mk.injEq, true_and]
  omega

variable (hholes : NoHoles d dp.toDInode dp.size.toNat) (hwhole : dp.size.toNat % direntSize = 0)
include hholes hwhole

theorem dirlookupLoop_eq (name : List UInt8) :
    ∀ offs : List Nat, (∀ o ∈ offs, o ∈ direntOffs dp.size.toNat) →
      dirlookupLoop sb name offs (d, dp) =
        some (offs.findSome? (entryMatch (contents d dp.toDInode) name), d, dp) := by
  intro offs
  induction offs with
  | nil => intro _; rfl
  | cons off offs ih =>
      intro h
      rw [dirlookupLoop_cons, readi_dirent hholes hwhole (h off List.mem_cons_self)]
      dsimp only
      rw [if_neg (not_not.mpr rfl), List.findSome?_cons,
        ih fun o ho => h o (List.mem_cons_of_mem _ ho)]
      delta entryMatch
      dsimp only
      split_ifs <;> rfl

/-- On a directory with no holes, made of whole entries, `dirlookup` is
`lookup` over its contents. -/
theorem dirlookup_eq (hdir : dp.type = T_DIR) (name : List UInt8) :
    dirlookup sb d dp name = some (lookup (contents d dp.toDInode) name, d, dp) := by
  delta dirlookup lookup
  rw [if_neg (not_not.mpr hdir), dirlookupLoop_eq hholes hwhole name _ fun _ h => h,
    length_contents]

theorem dirlinkLoop_eq :
    ∀ offs : List Nat, (∀ o ∈ offs, o ∈ direntOffs dp.size.toNat) →
      dirlinkLoop sb offs (d, dp) =
        some (offs.find? (fun o => direntInum (direntAt (contents d dp.toDInode) o) == 0), d, dp) := by
  intro offs
  induction offs with
  | nil => intro _; rfl
  | cons off offs ih =>
      intro h
      rw [dirlinkLoop_cons, readi_dirent hholes hwhole (h off List.mem_cons_self)]
      dsimp only
      rw [if_neg (not_not.mpr rfl), List.find?_cons, ih fun o ho => h o (List.mem_cons_of_mem _ ho)]
      by_cases h0 : direntInum (direntAt (contents d dp.toDInode) off) = 0
      · rw [if_pos h0, beq_iff_eq.mpr h0]
      · rw [if_neg h0, beq_eq_false_iff_ne.mpr h0]

theorem dirlink_of_found (hdir : dp.type = T_DIR) {name : List UInt8} {inum : Nat}
    {r : Nat × Nat} (h : lookup (contents d dp.toDInode) name = some r) :
    dirlink sb d dp name inum = some (d, dp, -1) := by
  delta dirlink
  rw [dirlookup_eq hholes hwhole hdir, h]

/-- `dirlink` of a name not found comes down to its write of the entry at
the first free entry or the end. -/
theorem dirlink_of_not_found (hdir : dp.type = T_DIR) {name : List UInt8} {inum : Nat}
    (h : lookup (contents d dp.toDInode) name = none) :
    dirlink sb d dp name inum =
      match writei sb d dp (fromKernel (direntBytes name inum)) 0
          (UInt32.ofNat ((freeSlot (contents d dp.toDInode)).getD dp.size.toNat))
          (UInt32.ofNat direntSize) with
      | none => none
      | some (d, dp, r) => if r ≠ direntSize then none else some (d, dp, 0) := by
  delta dirlink freeSlot
  rw [dirlookup_eq hholes hwhole hdir, h]
  dsimp only
  rw [dirlinkLoop_eq hholes hwhole _ fun _ h => h]
  dsimp only
  rw [direntEnd_of_whole hwhole, length_contents]

variable {nmeta : Nat} {it : Nat → DInode} (hlay : DiskLayout sb nmeta) (hinv : OwnInv sb nmeta d it)
  (hip : it dp.inum = dp.toDInode) (hi : dp.inum < sb.ninodes) (hdir : dp.type = T_DIR)
include hlay hinv hip hi hdir

/-- `dirlink` of a name not found: a panic when the directory is full or
no block is free, and otherwise the new entry spliced into the contents at
the first free entry or the end. -/
theorem dirlink_write {name : List UInt8} {inum : Nat}
    (h : lookup (contents d dp.toDInode) name = none) :
    let off := (freeSlot (contents d dp.toDInode)).getD dp.size.toNat
    (MAXFILE * BSIZE < off + direntSize ∧ dirlink sb d dp name inum = none) ∨
      (dirlink sb d dp name inum = none ∧
        writei sb d dp (fromKernel (direntBytes name inum)) 0 (UInt32.ofNat off)
          (UInt32.ofNat direntSize) = none ∧ ∃ d₁, balloc sb d₁ = none) ∨
      ∃ d' dp', dirlink sb d dp name inum = some (d', dp', 0) ∧
        off + direntSize ≤ MAXFILE * BSIZE ∧
        contents d' dp'.toDInode = splice (contents d dp.toDInode) off (direntBytes name inum) ∧
        dp'.size.toNat = max dp.size.toNat (off + direntSize) ∧
        NoHoles d' dp'.toDInode dp'.size.toNat ∧ Stores sb nmeta d it dp d' dp' := by
  intro off
  have ht : dp.type ≠ 0 := by rw [hdir]; decide
  obtain ⟨-, -, hle, -⟩ := freeSlot_spec
    (show (contents d dp.toDInode).length % direntSize = 0 by simpa using hwhole)
  rw [length_contents] at hle
  have hsz := dp.size.toNat_lt
  have hoff : (UInt32.ofNat off).toNat = off := toNat_ofNat_of_lt (by omega)
  have hn : (UInt32.ofNat direntSize).toNat = direntSize := toNat_ofNat_of_lt (by decide)
  rw [dirlink_of_not_found hholes hwhole hdir h]
  by_cases hmax : MAXFILE * BSIZE < off + direntSize
  · -- the directory is full: `writei` refuses, and `dirlink` panics
    refine .inl ⟨hmax, ?_⟩
    rw [writei_checks (.inr (.inr (by rw [hoff, hn]; exact hmax)))]
    rfl
  · have hcopy : ∀ c ∈ chunks (UInt32.ofNat off).toNat (UInt32.ofNat direntSize).toNat,
        fromKernel (direntBytes name inum) (0 + (c.1 - (UInt32.ofNat off).toNat)) c.2 =
          some (((direntBytes name inum).drop (c.1 - (UInt32.ofNat off).toNat)).take c.2) := by
      intro c _
      rw [Nat.zero_add]
      rfl
    rcases writei_spec hlay hi ht hinv hip hholes (by rw [hn]; exact length_direntBytes name inum)
      (by omega) (by omega) hcopy with ⟨hw, hb⟩ | ⟨d', dp', hw, hc, hs, hh, hst⟩
    · exact .inr (.inl ⟨by rw [hw], hw, hb⟩)
    · refine .inr (.inr ⟨d', dp', ?_, by omega, ?_, by rw [hs, hoff, hn], hh, hst⟩)
      · rw [hw, hn]
        rfl
      · rw [hc, hoff, hn, splice_eq, length_direntBytes]

/-- `sys_unlink`'s write over an entry of the directory never panics, and
splices zeros over the entry. -/
theorem unlinkEntry_spec (h : off ∈ direntOffs dp.size.toNat) :
    ∃ d' dp', unlinkEntry sb d dp off = some (d', dp') ∧
      contents d' dp'.toDInode = splice (contents d dp.toDInode) off direntZero ∧
      dp'.size = dp.size ∧ NoHoles d' dp'.toDInode dp'.size.toNat ∧
      Stores sb nmeta d it dp d' dp' := by
  have ht : dp.type ≠ 0 := by rw [hdir]; decide
  have hend := add_le_of_mem_slots (by decide) hwhole h
  have hsz := dp.size.toNat_lt
  have hoff : (UInt32.ofNat off).toNat = off := toNat_ofNat_of_lt (by omega)
  have hn : (UInt32.ofNat direntSize).toNat = direntSize := toNat_ofNat_of_lt (by decide)
  have hlen : direntZero.length = (UInt32.ofNat direntSize).toNat := by
    rw [hn]
    exact List.length_replicate
  have hcopy : ∀ c ∈ chunks (UInt32.ofNat off).toNat (UInt32.ofNat direntSize).toNat,
      fromKernel direntZero (0 + (c.1 - (UInt32.ofNat off).toNat)) c.2 =
        some ((direntZero.drop (c.1 - (UInt32.ofNat off).toNat)).take c.2) := by
    intro c _
    rw [Nat.zero_add]
    rfl
  have hmax := hholes.le_maxfile
  rcases writei_spec hlay hi ht hinv hip hholes hlen (by omega) (by omega) hcopy
    with ⟨hw, -⟩ | ⟨d', dp', hw, hc, hs, hh, hst⟩
  · exact absurd hw (writei_ne_none_of_within hlay hi ht hinv hip hholes hlen
      (by rw [hoff, hn]; exact hend) hcopy)
  · refine ⟨d', dp', ?_, ?_, ?_, hh, hst⟩
    · delta unlinkEntry
      rw [hw, hn]
      rfl
    · rw [hc, hoff, hn, splice_eq, show direntZero.length = direntSize from List.length_replicate]
    · apply UInt32.toNat_inj.mp
      rw [hs, hoff, hn]
      omega

end Inode

/-! ## Lookup and link agree -/

/-- The blocks of a disk laid out as `fullSb` says, with blocks `0` to `3`
marked in use and every other block free and zeroed. -/
def freeDisk : Disk Log.Block := fun b i => if b = 3 ∧ i.val = 0 then 15 else 0

/-- Inode 1, an empty directory. -/
def emptyDir : Inode := ⟨⟨T_DIR, 0, 0, 1, 0, fun _ => 0⟩, 1⟩

theorem ownInv_freeDisk : OwnInv fullSb 4 freeDisk (fun _ => emptyDir.toDInode) :=
  ownInv_of_empty (fun _ _ => rfl) (by decide)

theorem noHoles_emptyDir : NoHoles freeDisk emptyDir.toDInode emptyDir.size.toNat :=
  fun _ h => absurd h (Nat.not_lt_zero _)

end Fs
end Xv6
