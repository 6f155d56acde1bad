import Xv6.Fs.FileMap

/-!
# File contents as a byte string

The contents of a file are its `size` bytes read through its block map:
`contents`.  `readi` and `writei` run over the passes of `chunks`, which cut
a request at block boundaries and cover each byte of it once (`chunks_cover`).

On a file whose blocks below its size are all allocated (`NoHoles`),
`readi` maps every block it reads without allocating, and hands `copyout`
the file's bytes pass by pass (`readi_spec`).  On such a file of a disk
that keeps the ownership invariant, `writei` either panics in `balloc` or,
when every copy from the caller succeeds, splices the caller's bytes into
the contents and leaves no hole (`writei_spec`).
-/

namespace Xv6
namespace Fs

open Bytes Bitmap

/-! ## The passes of the loops -/

theorem chunks_zero (off : Nat) : chunks off 0 = [] := by
  rw [chunks, dif_pos rfl]

theorem chunks_of_ne_zero (off : Nat) {n : Nat} (hn : n ≠ 0) :
    chunks off n = (off, min n (BSIZE - off % BSIZE)) ::
      chunks (off + min n (BSIZE - off % BSIZE)) (n - min n (BSIZE - off % BSIZE)) := by
  rw [chunks, dif_neg hn]

/-- Each pass lies within the request and within one block. -/
theorem mem_chunks {off n : Nat} {c : Nat × Nat} (h : c ∈ chunks off n) :
    off ≤ c.1 ∧ c.1 + c.2 ≤ off + n ∧ 0 < c.2 ∧ c.1 % BSIZE + c.2 ≤ BSIZE := by
  fun_induction chunks off n with
  | case1 off => simp at h
  | case2 off n hn m hm ih =>
      rcases List.mem_cons.mp h with rfl | h
      · dsimp only [m]
        omega
      · have := ih h
        omega

/-- The passes cover the request, each byte once, in order. -/
theorem chunks_cover (off n : Nat) :
    (chunks off n).flatMap (fun c => List.range' c.1 c.2) = List.range' off n := by
  fun_induction chunks off n with
  | case1 off => rfl
  | case2 off n hn m hm ih =>
      rw [List.flatMap_cons, ih]
      dsimp only
      rw [List.range'_append_1]
      congr 1
      omega

/-- A pass over a request below `MAXFILE * BSIZE` maps a block in range:
`bmap`'s "out of range" panic is unreachable. -/
theorem chunks_in_range {off n : Nat} (hn : off + n ≤ MAXFILE * BSIZE) {c : Nat × Nat}
    (h : c ∈ chunks off n) : c.1 / BSIZE < MAXFILE := by
  have := mem_chunks h
  rw [Nat.div_lt_iff_lt_mul (by decide)]
  omega

/-- The bytes of a pass, read from its block, are the file's. -/
theorem getBytes_fileBlock (d : Disk Log.Block) (din : DInode) {o m : Nat}
    (h : o % BSIZE + m ≤ BSIZE) :
    getBytes (d (fileBlock d din (o / BSIZE))) (o % BSIZE) m =
      (List.range' o m).map (fileByte d din) := by
  apply List.ext_getElem (by simp [getBytes])
  intro i hi _
  simp only [getBytes, List.length_map, List.length_range] at hi
  rw [BSIZE_eq] at h
  have hdiv : (o + i) / 1024 = o / 1024 := by omega
  have hmod : (o + i) % 1024 = o % 1024 + i := by omega
  simp [getBytes, fileByte, hdiv, hmod]

/-! ## Contents -/

/-- The contents of the file: its `size` bytes. -/
def contents (d : Disk Log.Block) (din : DInode) : List UInt8 :=
  (List.range din.size.toNat).map (fileByte d din)

/-- No block of the file below `len` is missing: `bmap` allocates none of
them. -/
def NoHoles (d : Disk Log.Block) (din : DInode) (len : Nat) : Prop :=
  ∀ bn, bn * BSIZE < len → fileBlock d din bn ≠ 0

theorem NoHoles.mapped {d : Disk Log.Block} {din : DInode} {len : Nat} (h : NoHoles d din len)
    {k : Nat} (hk : k < len) : fileBlock d din (k / BSIZE) ≠ 0 :=
  h _ (lt_of_le_of_lt (Nat.div_mul_le_self k BSIZE) hk)

/-- A file with no holes has at most `MAXFILE` blocks: past them no slot
maps a block. -/
theorem NoHoles.le_maxfile {d : Disk Log.Block} {din : DInode} {len : Nat} (h : NoHoles d din len) :
    len ≤ MAXFILE * BSIZE := by
  by_contra hgt
  apply h MAXFILE (by omega)
  have hnone : slotOf MAXFILE = none := by
    unfold slotOf
    rw [dif_neg (by decide), dif_neg (by decide)]
  simp only [fileBlock, hnone]

/-- A slice of the contents, read byte by byte. -/
theorem contents_slice (d : Disk Log.Block) (din : DInode) {o m : Nat}
    (h : o + m ≤ din.size.toNat) :
    ((contents d din).drop o).take m = (List.range' o m).map (fileByte d din) := by
  apply List.ext_getElem (by simp [contents]; omega)
  intro i hi _
  simp only [contents, List.length_take, List.length_drop, List.length_map, List.length_range]
    at hi
  simp [contents, List.getElem_take, List.getElem_drop]

/-! ## `readi` -/

variable {sb : SuperBlock} {d : Disk Log.Block}

/-- The first check of `readi` and `writei`, `off > ip->size || off + n < off`,
in `uint` arithmetic. -/
theorem offCheck_iff {size off n : UInt32} :
    (off > size || off + n < off) = true ↔ size.toNat < off.toNat ∨ 2 ^ 32 ≤ off.toNat + n.toNat := by
  have hoff := off.toNat_lt
  have hn := n.toNat_lt
  simp only [Bool.or_eq_true, decide_eq_true_eq, gt_iff_lt, UInt32.lt_iff_toNat_lt,
    UInt32.toNat_add]
  omega

/-- The loop of `readi` over mapped bytes changes nothing and hands
`copyout` the file's bytes of each pass, at the offset of the pass within
the request. -/
theorem readLoop_mapped {copyout : Nat → List UInt8 → Bool} {dst : Nat} {ip : Inode}
    (off o n : Nat) :
    ∀ tot, o = off + tot → (∀ k, o ≤ k → k < o + n → fileBlock d ip.toDInode (k / BSIZE) ≠ 0) →
      readLoop sb copyout dst (chunks o n) (d, ip, tot) =
        some (d, ip, if ∀ c ∈ chunks o n,
            copyout (dst + (c.1 - off)) ((List.range' c.1 c.2).map (fileByte d ip.toDInode))
          then ((tot + n : Nat) : Int) else -1) := by
  fun_induction chunks o n with
  | case1 o =>
      intro tot _ _
      simp [readLoop]
  | case2 o n hn m hm ih =>
      intro tot ho hmap
      have hpass : o % BSIZE + m ≤ BSIZE := by dsimp only [m]; omega
      have hx : bmap sb d ip (o / BSIZE) = _ := bmap_of_mapped (hmap o le_rfl (by omega))
      have hrest := ih (tot + m) (by omega) fun k hk hk' => hmap k (by omega) (by omega)
      rw [readLoop, hx]
      dsimp only
      rw [toNat_ofNat_of_lt (fileBlock_lt _ _ _), getBytes_fileBlock _ _ hpass]
      have hdst : dst + (o - off) = dst + tot := by omega
      simp only [List.forall_mem_cons, hdst]
      by_cases h₀ : copyout (dst + tot) ((List.range' o m).map (fileByte d ip.toDInode)) = true
      · rw [if_pos h₀, hrest]
        simp only [h₀, true_and, Option.some.injEq, Prod.mk.injEq, true_and]
        split <;> simp only [Int.natCast_inj]
        omega
      · simp [h₀]

/-- `readi` on a file with no holes: it returns `0` at a failed check, and
otherwise maps without allocating and copies out, pass by pass, the bytes
of the contents from `off` up to `off + n` or the end of the file, returning
their number when every copy succeeds and `-1` when one fails. -/
theorem readi_spec {copyout : Nat → List UInt8 → Bool} {dst : Nat} {ip : Inode} {off n : UInt32}
    (hholes : NoHoles d ip.toDInode ip.size.toNat) :
    readi sb d ip copyout dst off n =
      some (d, ip,
        if ip.size.toNat < off.toNat ∨ 2 ^ 32 ≤ off.toNat + n.toNat then 0
        else if ∀ c ∈ chunks off.toNat (min (off.toNat + n.toNat) ip.size.toNat - off.toNat),
            copyout (dst + (c.1 - off.toNat)) (((contents d ip.toDInode).drop c.1).take c.2)
          then ((min (off.toNat + n.toNat) ip.size.toNat - off.toNat : Nat) : Int) else -1) := by
  unfold readi
  have hoff := off.toNat_lt
  have hn := n.toNat_lt
  by_cases hc : ip.size.toNat < off.toNat ∨ 2 ^ 32 ≤ off.toNat + n.toNat
  · rw [if_pos (offCheck_iff.2 hc), if_pos hc]
  · rw [if_neg (by rwa [offCheck_iff]), if_neg hc]
    have hlen : (if off + n > ip.size then ip.size - off else n).toNat =
        min (off.toNat + n.toNat) ip.size.toNat - off.toNat := by
      split
      · rename_i hgt
        simp only [gt_iff_lt, UInt32.lt_iff_toNat_lt, UInt32.toNat_add] at hgt
        rw [UInt32.toNat_sub_of_le _ _ (UInt32.le_iff_toNat_le.mpr (by omega))]
        omega
      · rename_i hgt
        simp only [gt_iff_lt, UInt32.lt_iff_toNat_lt, UInt32.toNat_add] at hgt
        omega
    dsimp only
    have hmap : ∀ k, off.toNat ≤ k →
        k < off.toNat + (min (off.toNat + n.toNat) ip.size.toNat - off.toNat) →
          fileBlock d ip.toDInode (k / BSIZE) ≠ 0 :=
      fun k _ hk => hholes.mapped (by omega)
    rw [hlen, readLoop_mapped off.toNat off.toNat _ 0 (Nat.add_zero _).symm hmap, Nat.zero_add]
    -- each pass's bytes are a slice of the contents
    have hcond : ∀ c ∈ chunks off.toNat (min (off.toNat + n.toNat) ip.size.toNat - off.toNat),
        (List.range' c.1 c.2).map (fileByte d ip.toDInode) =
          ((contents d ip.toDInode).drop c.1).take c.2 := by
      intro c hc'
      have := mem_chunks hc'
      rw [contents_slice _ _ (by omega)]
    simp only [Option.some.injEq, Prod.mk.injEq, true_and]
    congr 1
    exact propext (forall₂_congr fun c hc' => by rw [hcond c hc'])

/-! ## `writei` -/

/-- Bytes `[t, t + m)` of a list, read at `i < m`. -/
theorem getD_take_drop {α : Type} (l : List α) (z : α) {t m i : Nat} (hi : i < m) :
    ((l.drop t).take m).getD i z = l.getD (t + i) z := by
  simp [List.getD_eq_getElem?_getD, hi, List.getElem?_drop]

/-- A list read position by position, with `b` spliced in at `off`. -/
theorem splice_map_range {α : Type} (f : Nat → α) (b : List α) (z : α) {S off : Nat}
    (hoff : off ≤ S) :
    ((List.range S).map f).take off ++ b ++ ((List.range S).map f).drop (off + b.length) =
      (List.range (max S (off + b.length))).map fun k =>
        if off ≤ k ∧ k < off + b.length then b.getD (k - off) z else f k := by
  apply List.ext_getElem
  · simp only [List.length_append, List.length_take, List.length_drop, List.length_map,
      List.length_range]
    omega
  · intro k h₁ h₂
    simp only [List.length_map, List.length_range] at h₂
    rw [List.getElem_map, List.getElem_range]
    by_cases hk : k < off
    · rw [List.getElem_append_left (by simp; omega), List.getElem_append_left (by simp; omega),
        if_neg (by omega)]
      simp
    · by_cases hk' : k < off + b.length
      · rw [List.getElem_append_left (by simp; omega), List.getElem_append_right (by simp; omega),
          if_pos ⟨by omega, hk'⟩]
        simp only [List.length_take, List.length_map, List.length_range,
          show min off S = off by omega]
        rw [List.getD_eq_getElem _ _ (by omega)]
      · rw [List.getElem_append_right (by simp; omega), if_neg (by omega)]
        simp only [List.length_append, List.length_take, List.length_map, List.length_range,
          List.getElem_drop, List.getElem_map, List.getElem_range]
        congr 1
        omega

section Write

variable {nmeta : Nat} {it : Nat → DInode} {ip : Inode}

/-- What the loop of `writei` keeps once its passes have written the first
`t` of `bytes` at `off`: the ownership steps, no hole below the old size or
below what was written, and the bytes written in place of the old ones. -/
structure WriteInv (sb : SuperBlock) (nmeta : Nat) (d : Disk Log.Block) (it : Nat → DInode)
    (ip : Inode) (off : Nat) (bytes : List UInt8) (t : Nat) (d₁ : Disk Log.Block)
    (ip₁ : Inode) : Prop where
  grows : Grows sb nmeta d it ip d₁ ip₁
  mapped : ∀ k < max ip.size.toNat (off + t), fileBlock d₁ ip₁.toDInode (k / BSIZE) ≠ 0
  spliced : ∀ k < max ip.size.toNat (off + t), fileByte d₁ ip₁.toDInode k =
    if off ≤ k ∧ k < off + t then bytes.getD (k - off) 0 else fileByte d ip.toDInode k

theorem writeInv_start (hinv : OwnInv sb nmeta d it) (hip : it ip.inum = ip.toDInode) {off : Nat}
    (hoff : off ≤ ip.size.toNat) (hholes : NoHoles d ip.toDInode ip.size.toNat)
    (bytes : List UInt8) : WriteInv sb nmeta d it ip off bytes 0 d ip where
  grows := Grows.refl hinv hip
  mapped _ hk := hholes.mapped (by omega)
  spliced _ _ := by rw [if_neg (by omega)]

/-- The loop of `writei` panics only where `bmap` does. -/
theorem writeLoop_eq_none {copyin : Nat → Nat → Option (List UInt8)} {src : Nat}
    (cs : List (Nat × Nat)) :
    ∀ st, writeLoop sb copyin src cs st = none →
      ∃ c ∈ cs, ∃ d₁ ip₁, bmap sb d₁ ip₁ (c.1 / BSIZE) = none := by
  induction cs with
  | nil => intro st h; cases h
  | cons c cs ih =>
      intro st h
      obtain ⟨d₁, ip₁, tot⟩ := st
      obtain ⟨o, m⟩ := c
      simp only [writeLoop] at h
      split at h
      · rename_i hb
        exact ⟨(o, m), List.mem_cons_self, d₁, ip₁, hb⟩
      · split at h
        · cases h
        · obtain ⟨c', hc', h'⟩ := ih _ h
          exact ⟨c', List.mem_cons_of_mem _ hc', h'⟩

/-- `writei` returns `-1` and changes nothing at a failed check. -/
theorem writei_checks {copyin : Nat → Nat → Option (List UInt8)} {src : Nat} {off n : UInt32}
    (h : ip.size.toNat < off.toNat ∨ 2 ^ 32 ≤ off.toNat + n.toNat ∨
      MAXFILE * BSIZE < off.toNat + n.toNat) :
    writei sb d ip copyin src off n = some (d, ip, -1) := by
  unfold writei
  by_cases h₁ : ip.size.toNat < off.toNat ∨ 2 ^ 32 ≤ off.toNat + n.toNat
  · rw [if_pos (offCheck_iff.2 h₁)]
  · rw [if_neg (by rwa [offCheck_iff]), if_pos]
    rw [UInt32.toNat_add, Nat.mod_eq_of_lt (by omega)]
    omega

variable (hlay : DiskLayout sb nmeta) (hi : ip.inum < sb.ninodes) (ht : ip.type ≠ 0)
include hlay hi ht

/-- One pass of the loop: `bmap`, then the pass's bytes into the block it
returned. -/
theorem WriteInv.pass {off t o m : Nat} {bytes : List UInt8} {d₁ d₂ : Disk Log.Block}
    {ip₁ ip₂ : Inode} {x : UInt32} (hw : WriteInv sb nmeta d it ip off bytes t d₁ ip₁)
    (ho : o = off + t) (hpass : o % BSIZE + m ≤ BSIZE) (hlen : t + m ≤ bytes.length)
    (hb : bmap sb d₁ ip₁ (o / BSIZE) = some (d₂, ip₂, x)) :
    WriteInv sb nmeta d it ip off bytes (t + m)
      (Function.update d₂ x.toNat (setBytes (d₂ x.toNat) (o % BSIZE) ((bytes.drop t).take m)))
      ip₂ := by
  obtain ⟨hg₂, s, hs, hr⟩ := hw.grows.bmap hlay hi ht hb
  obtain ⟨hext, hx⟩ := hw.grows.bmap_extends hlay hi ht hb
  have hx0 : x.toNat ≠ 0 := hr.2.2.1
  have hind := hg₂.ind_ne hi ht hs hr
  have hcb : ((bytes.drop t).take m).length = m := by simp; omega
  -- the bytes of the pass lie in the block of `o`
  have hsame : ∀ k, o ≤ k → k < o + m →
      k / BSIZE = o / BSIZE ∧ k % BSIZE = o % BSIZE + (k - o) := by
    intro k hk hk'
    rw [BSIZE_eq] at hpass ⊢
    omega
  refine ⟨hg₂.writeData hlay hs hr _, fun k hk => ?_, fun k hk => ?_⟩
  · rw [fileBlock_update _ hind]
    by_cases hk' : k < max ip.size.toNat o
    · rw [hext.fileBlock (hw.mapped k (by omega))]
      exact hw.mapped k (by omega)
    · rw [(hsame k (by omega) (by omega)).1, hx]
      exact hx0
  · rw [fileByte_update _ hind]
    by_cases hin : o ≤ k ∧ k < o + m
    · -- a byte of the pass: the caller's
      obtain ⟨hdiv, hmod⟩ := hsame k hin.1 hin.2
      have hfit : o % BSIZE + (k - o) < BSIZE := by omega
      rw [hdiv, hx, if_pos rfl, hmod, byte_setBytes, hcb,
        if_pos ⟨by omega, by omega, hfit⟩, if_pos ⟨by omega, by omega⟩,
        Nat.add_sub_cancel_left, getD_take_drop _ _ (by omega)]
      congr 1
      omega
    · -- any other byte: as it was, and another block unless the pass's
      have hkeep : (if fileBlock d₂ ip₂.toDInode (k / BSIZE) = x.toNat then
            byte (setBytes (d₂ x.toNat) (o % BSIZE) ((bytes.drop t).take m)) (k % BSIZE)
          else fileByte d₂ ip₂.toDInode k) = fileByte d₂ ip₂.toDInode k := by
        split
        · rename_i hk₂
          have hbn : k / BSIZE = o / BSIZE :=
            hg₂.fileBlock_inj hi ht (by rw [hk₂]; exact hx0) (hk₂.trans hx.symm)
          have hout : ¬(o % BSIZE ≤ k % BSIZE ∧ k % BSIZE < o % BSIZE + m) := by
            rw [BSIZE_eq] at hbn ⊢
            omega
          rw [byte_setBytes, if_neg (fun h => hout ⟨h.1, hcb ▸ h.2.1⟩), fileByte, hk₂]
        · rfl
      have hcond : (off ≤ k ∧ k < off + (t + m)) ↔ (off ≤ k ∧ k < off + t) := by omega
      rw [hkeep, hext.fileByte (hw.mapped k (by omega)), hw.spliced k (by omega)]
      simp only [hcond]

/-- The loop of `writei`, when every copy from the caller succeeds, writes
all of `bytes`. -/
theorem WriteInv.loop {copyin : Nat → Nat → Option (List UInt8)} {src off : Nat}
    {bytes : List UInt8} (o n : Nat) :
    ∀ t d₁ ip₁, WriteInv sb nmeta d it ip off bytes t d₁ ip₁ → o = off + t →
      t + n ≤ bytes.length →
      (∀ c ∈ chunks o n,
        copyin (src + (c.1 - off)) c.2 = some ((bytes.drop (c.1 - off)).take c.2)) →
      ∀ r, writeLoop sb copyin src (chunks o n) (d₁, ip₁, t) = some r →
        r.2.2 = t + n ∧ WriteInv sb nmeta d it ip off bytes (t + n) r.1 r.2.1 := by
  fun_induction chunks o n with
  | case1 o =>
      intro t d₁ ip₁ hw _ _ _ r hr
      simp only [writeLoop, Option.some.injEq] at hr
      subst hr
      exact ⟨rfl, hw⟩
  | case2 o n hn m hm ih =>
      intro t d₁ ip₁ hw ho hlen hcopy r hr
      have hpass : o % BSIZE + m ≤ BSIZE := by dsimp only [m]; omega
      simp only [writeLoop] at hr
      split at hr
      · cases hr
      · rename_i d₂ ip₂ x hb
        have hc := hcopy (o, m) List.mem_cons_self
        simp only [show o - off = t by omega] at hc
        rw [hc] at hr
        dsimp only at hr
        have hw' := hw.pass hlay hi ht ho hpass (by dsimp only [m]; omega) hb
        obtain ⟨hr₁, hr₂⟩ := ih (t + m) _ _ hw' (by omega) (by dsimp only [m]; omega)
          (fun c hc' => hcopy c (List.mem_cons_of_mem _ hc')) r hr
        refine ⟨by rw [hr₁]; dsimp only [m]; omega, ?_⟩
        rw [show t + n = t + m + (n - m) by dsimp only [m]; omega]
        exact hr₂

/-- The loop of `writei` over bytes the file already holds allocates
nothing, so it never panics. -/
theorem WriteInv.loop_ne_none {copyin : Nat → Nat → Option (List UInt8)} {src off : Nat}
    {bytes : List UInt8} (o n : Nat) :
    ∀ t d₁ ip₁, WriteInv sb nmeta d it ip off bytes t d₁ ip₁ → o = off + t →
      t + n ≤ bytes.length → o + n ≤ ip.size.toNat →
      (∀ c ∈ chunks o n,
        copyin (src + (c.1 - off)) c.2 = some ((bytes.drop (c.1 - off)).take c.2)) →
      writeLoop sb copyin src (chunks o n) (d₁, ip₁, t) ≠ none := by
  fun_induction chunks o n with
  | case1 o =>
      intro t d₁ ip₁ _ _ _ _ _
      simp [writeLoop]
  | case2 o n hn m hm ih =>
      intro t d₁ ip₁ hw ho hlen hin hcopy
      have hpass : o % BSIZE + m ≤ BSIZE := by dsimp only [m]; omega
      -- the block of the pass is mapped already
      have hb : bmap sb d₁ ip₁ (o / BSIZE) = _ := bmap_of_mapped (hw.mapped o (by omega))
      have hc := hcopy (o, m) List.mem_cons_self
      simp only [show o - off = t by omega] at hc
      simp only [writeLoop, hb, hc]
      exact ih (t + m) _ _ (hw.pass hlay hi ht ho hpass (by dsimp only [m]; omega) hb)
        (by omega) (by dsimp only [m]; omega) (by dsimp only [m]; omega)
        (fun c hc' => hcopy c (List.mem_cons_of_mem _ hc'))

/-- Storing the inode moves no block of its file and changes none of its
bytes. -/
theorem Grows.fileByte_iupdate {d₁ : Disk Log.Block} {ip₁ ip₂ : Inode}
    (hg : Grows sb nmeta d it ip d₁ ip₁) (hnum : ip₂.inum = ip.inum) (had : ip₂.addrs = ip₁.addrs)
    {k : Nat} (hk : fileBlock d₁ ip₁.toDInode (k / BSIZE) ≠ 0) :
    fileBlock (Fs.iupdate sb d₁ ip₂) ip₂.toDInode (k / BSIZE) =
        fileBlock d₁ ip₁.toDInode (k / BSIZE) ∧
      fileByte (Fs.iupdate sb d₁ ip₂) ip₂.toDInode k = fileByte d₁ ip₁.toDInode k := by
  have hslot : ∀ s, slotBlock d₁ ip₂.toDInode s = slotBlock d₁ ip₁.toDInode s :=
    slotBlock_congr d₁ had
  have hz := hlay.iblock_lt _ hi
  -- the dinode's block is metadata; the file's blocks are data
  have hind : ip₂.addrs indIdx ≠ 0 → (ip₂.addrs indIdx).toNat ≠ IBLOCK ip₂.inum sb := by
    intro ha he
    have hr := refs_ind (d := d₁) hi (hg.table_type ht)
      (by rw [Function.update_self, ← had]; exact ha)
    rw [Function.update_self, ← had, he, hnum] at hr
    have := (hg.inv.inData hr).1
    omega
  have hdata := hg.fileBlock_data hi ht hk
  have hne : fileBlock d₁ ip₁.toDInode (k / BSIZE) ≠ IBLOCK ip₂.inum sb := by
    rw [hnum]
    omega
  unfold Fs.iupdate writeDinode
  rw [fileBlock_update _ hind, fileByte_update _ hind, fileBlock_congr hslot, if_neg hne]
  exact ⟨rfl, by rw [fileByte, fileByte, fileBlock_congr hslot]⟩

/-- `writei` on a file with no holes, with every check passed and every
copy from the caller succeeding: it panics only in `balloc`, out of free
blocks; otherwise it returns `n`, splices the caller's bytes into the
contents at `off`, sets the size to the larger of the old size and
`off + n`, leaves no hole, and stores the inode. -/
theorem writei_spec (hinv : OwnInv sb nmeta d it) (hip : it ip.inum = ip.toDInode)
    {copyin : Nat → Nat → Option (List UInt8)} {src : Nat} {off n : UInt32} {bytes : List UInt8}
    (hholes : NoHoles d ip.toDInode ip.size.toNat) (hlen : bytes.length = n.toNat)
    (hoff : off.toNat ≤ ip.size.toNat) (hmax : off.toNat + n.toNat ≤ MAXFILE * BSIZE)
    (hcopy : ∀ c ∈ chunks off.toNat n.toNat, copyin (src + (c.1 - off.toNat)) c.2 =
      some ((bytes.drop (c.1 - off.toNat)).take c.2)) :
    (writei sb d ip copyin src off n = none ∧ ∃ d₁, balloc sb d₁ = none) ∨
      ∃ d' ip', writei sb d ip copyin src off n = some (d', ip', ((n.toNat : Nat) : Int)) ∧
        contents d' ip'.toDInode = (contents d ip.toDInode).take off.toNat ++ bytes ++
          (contents d ip.toDInode).drop (off.toNat + n.toNat) ∧
        ip'.size.toNat = max ip.size.toNat (off.toNat + n.toNat) ∧
        NoHoles d' ip'.toDInode ip'.size.toNat ∧ Stores sb nmeta d it ip d' ip' := by
  have h32 : off.toNat + n.toNat < 2 ^ 32 := by
    rw [MAXFILE_eq, BSIZE_eq] at hmax
    omega
  unfold writei
  rw [if_neg (by rw [offCheck_iff]; omega),
    if_neg (by rw [UInt32.toNat_add, Nat.mod_eq_of_lt h32]; omega)]
  cases hl : writeLoop sb copyin src (chunks off.toNat n.toNat) (d, ip, 0) with
  | none =>
      -- a panic is `bmap`'s, and never its "out of range"
      refine .inl ⟨rfl, ?_⟩
      obtain ⟨c, hc, d₁, ip₁, hb⟩ := writeLoop_eq_none _ _ hl
      rcases bmap_eq_none hb with h | h
      · exact absurd (chunks_in_range hmax hc) (by omega)
      · exact h
  | some r =>
      obtain ⟨d₁, ip₁, tot⟩ := r
      obtain ⟨htot, hw⟩ := WriteInv.loop hlay hi ht off.toNat n.toNat 0 d ip
        (writeInv_start hinv hip hoff hholes bytes) (by simp) (by omega) hcopy _ hl
      dsimp only at htot hw
      subst htot
      rw [Nat.zero_add] at hw
      have hsize₁ : ip₁.size = ip.size := by
        have := congrArg DInode.size hw.grows.fields
        exact this
      dsimp only
      -- what is left holds of the inode stored, whichever size it got
      suffices key : ∀ ip' : Inode, ip'.inum = ip₁.inum → ip'.type = ip₁.type →
          ip'.addrs = ip₁.addrs → ip'.size.toNat = max ip.size.toNat (off.toNat + n.toNat) →
          contents (Fs.iupdate sb d₁ ip') ip'.toDInode = (contents d ip.toDInode).take off.toNat ++
              bytes ++ (contents d ip.toDInode).drop (off.toNat + n.toNat) ∧
            ip'.size.toNat = max ip.size.toNat (off.toNat + n.toNat) ∧
            NoHoles (Fs.iupdate sb d₁ ip') ip'.toDInode ip'.size.toNat ∧
            Stores sb nmeta d it ip (Fs.iupdate sb d₁ ip') ip' by
        refine .inr ⟨_, _, by rw [Nat.zero_add], key _ ?_ ?_ ?_ ?_⟩ <;> split <;> try rfl
        · rename_i hgt
          rw [hsize₁] at hgt
          rw [toNat_ofNat_of_lt h32]
          omega
        · rename_i hgt
          rw [hsize₁] at hgt ⊢
          omega
      intro ip' hnum hty had hsize
      have hiu := fun {k} (hk : k < max ip.size.toNat (off.toNat + n.toNat)) =>
        hw.grows.fileByte_iupdate hlay hi ht (hnum.trans hw.grows.inum_eq) had (hw.mapped k hk)
      refine ⟨?_, hsize, fun bn hbn => ?_, hw.grows.iupdate hlay hi hnum hty had⟩
      · -- the contents, byte by byte
        rw [contents, contents, hsize, ← hlen, splice_map_range _ _ _ hoff, hlen]
        apply List.map_congr_left
        intro k hk
        rw [(hiu (List.mem_range.mp hk)).2, hw.spliced k (List.mem_range.mp hk)]
      · rw [hsize] at hbn
        have h := hiu hbn
        rw [Nat.mul_div_cancel _ (by decide : 0 < BSIZE)] at h
        rw [h.1]
        have := hw.mapped _ hbn
        rwa [Nat.mul_div_cancel _ (by decide : 0 < BSIZE)] at this
/-- `writei` within the file's size never panics: every block it writes
is mapped already. -/
theorem writei_ne_none_of_within (hinv : OwnInv sb nmeta d it) (hip : it ip.inum = ip.toDInode)
    {copyin : Nat → Nat → Option (List UInt8)} {src : Nat} {off n : UInt32} {bytes : List UInt8}
    (hholes : NoHoles d ip.toDInode ip.size.toNat) (hlen : bytes.length = n.toNat)
    (hin : off.toNat + n.toNat ≤ ip.size.toNat)
    (hcopy : ∀ c ∈ chunks off.toNat n.toNat, copyin (src + (c.1 - off.toNat)) c.2 =
      some ((bytes.drop (c.1 - off.toNat)).take c.2)) :
    writei sb d ip copyin src off n ≠ none := by
  have hloop := WriteInv.loop_ne_none hlay hi ht off.toNat n.toNat 0 d ip
    (writeInv_start hinv hip (by omega) hholes bytes) (by simp) (by omega) hin hcopy
  unfold writei
  split
  · exact Option.some_ne_none _
  · split
    · exact Option.some_ne_none _
    · split
      · contradiction
      · exact Option.some_ne_none _

end Write

/-! ## The file as a byte string -/

/-- A disk of 100 blocks with its inodes in block 2 and its bitmap in
block 3, every bit of which is set: no block is free. -/
def fullSb : SuperBlock := ⟨0, 100, 96, 16, 0, 0, 2, 3⟩

/-- The blocks of that disk, every byte `0xff`. -/
def fullDisk : Disk Log.Block := fun _ _ => 255

/-- Inode 1, an empty file. -/
def emptyFile : Inode := ⟨⟨T_FILE, 0, 0, 1, 0, fun _ => 0⟩, 1⟩

theorem diskLayout_fullSb : DiskLayout fullSb 4 :=
  ⟨by decide, by decide, by decide, by decide, by decide, by decide⟩

/-- An inode table of files without blocks keeps the ownership invariant
once the metadata is marked in use. -/
theorem ownInv_of_empty {nmeta : Nat} {it : Nat → DInode} (hempty : ∀ i k, (it i).addrs k = 0)
    (hmeta : ∀ x < nmeta, used sb d x = true) : OwnInv sb nmeta d it := by
  have hnone : ∀ {x i s}, ¬Refs sb d it x i s := by
    rintro x i s ⟨-, -, hx, hs⟩
    cases s <;> simp [slotBlock, hempty] at hs <;> exact hx hs.symm
  exact ⟨fun h => absurd h hnone, fun h => absurd h hnone, fun h => absurd h hnone, hmeta⟩

/-- Inode 1, a file of two blocks that are both block 5 of the disk. -/
def sharedFile : Inode := ⟨⟨T_FILE, 0, 0, 1, 2048, fun k => if k.val < 2 then 5 else 0⟩, 1⟩

end Fs
end Xv6
