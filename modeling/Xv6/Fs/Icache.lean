import Xv6.Fs.Inode
import Xv6.Support.Procs

/-!
# The inode cache

`icache` of `kernel/fs.c`: `iget`, `idup`, `ilock`, `iunlock` and `iput`
over the `NINODE` entries of `icache.inode`, called by `N` kernel threads.
`icache.lock` makes each call one atomic step, except an `iput` that frees
its inode: it releases `icache.lock` while it truncates the inode and takes
it back to drop the reference, so it is three steps (`iput`, `free`,
`drop`) and other threads run between them.

A thread passes only entries it holds a reference to, as every caller does
(`ialloc`, `namex` and `dirlookup` get theirs from `iget`); `held i t`
counts the references to entry `i` that `iget` and `idup` handed to `t` and
`iput` has not taken back.  A thread that holds `ip->lock` may change its
inode and write it through with `iupdate` (`write`), and `ialloc`'s search
of the disk is a step of its own before its `iget`.  The disk is the one
device's; `ilock` reads the dinode from it.

The cache keeps `ref` equal to the references held (`RefInv.refs`) and no
two live entries with one `(dev, inum)` (`RefInv.unique`), across every
interleaving of these steps (`refInv_reachable`); so `iget` finds the entry
of its inode whenever there is one.
-/

namespace Xv6
namespace Fs
namespace Icache

variable {N : Nat}

/-- An entry of `icache.inode`: `struct inode`, with the thread holding its
sleep-lock. -/
structure CInode (N : Nat) extends Inode where
  dev : Nat
  ref : Int
  lock : Option (Fin N)
  valid : Bool

/-- An entry as `icache` starts: zeroed, its sleep-lock free. -/
def CInode.zero : CInode N := ⟨⟨DInode.fresh 0, 0⟩, 0, 0, none, false⟩

/-- `icache.inode`. -/
abbrev Cache (N : Nat) := Fin NINODE → CInode N

/-- What `iget`'s loop ends with: the cached entry of the inode, or the
first empty entry it passed (`empty`). -/
inductive Scan where
  | hit (i : Fin NINODE)
  | miss (empty : Option (Fin NINODE))
  deriving DecidableEq

/-- `iget`'s loop over the entries `is`, with the empty entry remembered so far. -/
def igetLoop (ic : Cache N) (dev inum : Nat) : List (Fin NINODE) → Option (Fin NINODE) → Scan
  | [], empty => .miss empty
  | i :: is, empty =>
      if 0 < (ic i).ref ∧ (ic i).dev = dev ∧ (ic i).inum = inum then .hit i
      else igetLoop ic dev inum is (if empty = none ∧ (ic i).ref = 0 then some i else empty)

/-- `iget(dev, inum)`: the entry of the inode, with one more reference. -/
def iget (ic : Cache N) (dev inum : Nat) : Except String (Fin NINODE × Cache N) :=
  match igetLoop ic dev inum (List.finRange NINODE) none with
  | .hit i => .ok (i, Function.update ic i { ic i with ref := (ic i).ref + 1 })
  | .miss none => .error "iget: no inodes"
  | .miss (some i) =>
      .ok (i, Function.update ic i { ic i with dev := dev, inum := inum, ref := 1, valid := false })

/-- `idup(ip)` -/
def idup (ic : Cache N) (i : Fin NINODE) : Cache N :=
  Function.update ic i { ic i with ref := (ic i).ref + 1 }

/-- `ilock(ip)` by thread `t`, reading the dinode from disk `d` if the entry
is not valid; `.ok none` when `acquiresleep` sleeps. -/
def ilock (sb : SuperBlock) (ic : Cache N) (d : Disk Log.Block) (t : Fin N) (i : Fin NINODE) :
    Except String (Option (Cache N)) :=
  let ip := ic i
  if ip.ref < 1 then .error "ilock"
  else if ip.lock.isSome then .ok none
  else
    let ip := { ip with lock := some t }
    if ip.valid then .ok (some (Function.update ic i ip))
    else
      let din := dinodeAt sb d ip.inum
      let ip := { ip with
        type := din.type, major := din.major, minor := din.minor, nlink := din.nlink,
        size := din.size, addrs := din.addrs, valid := true }
      if ip.type = 0 then .error "ilock: no type" else .ok (some (Function.update ic i ip))

/-- `iunlock(ip)` by thread `t`. -/
def iunlock (ic : Cache N) (t : Fin N) (i : Fin NINODE) : Except String (Cache N) :=
  let ip := ic i
  if ip.lock ≠ some t ∨ ip.ref < 1 then .error "iunlock"
  else .ok (Function.update ic i { ip with lock := none })

/-- `ip->ref--`. -/
def dropRef (ic : Cache N) (i : Fin NINODE) : Cache N :=
  Function.update ic i { ic i with ref := (ic i).ref - 1 }

/-- `iput(ip)` by thread `t` up to `release(&icache.lock)`: the last
reference to a valid inode with no links takes `ip->lock` and goes on to
free it (`true`); any other reference is dropped. -/
def iput (ic : Cache N) (t : Fin N) (i : Fin NINODE) : Except String (Cache N × Bool) :=
  let ip := ic i
  if ip.ref = 1 ∧ ip.valid = true ∧ ip.nlink = 0 then
    -- `acquiresleep` sleeping with `icache.lock` held panics in `sched`
    if ip.lock.isSome then .error "sched locks"
    else .ok (Function.update ic i { ip with lock := some t }, true)
  else .ok (dropRef ic i, false)

/-- The freeing `iput` with only `ip->lock` held: `itrunc`, the type
cleared and written, the entry invalid, `ip->lock` released. -/
def iputFree (sb : SuperBlock) (ic : Cache N) (d : Disk Log.Block) (i : Fin NINODE) :
    Option (Cache N × Disk Log.Block) := do
  let (d, ino) ← itrunc sb d (ic i).toInode
  let ino := { ino with type := 0 }
  pure (Function.update ic i { ic i with toInode := ino, valid := false, lock := none },
    Fs.iupdate sb d ino)

/-- Where a thread is in a freeing `iput` after it released `icache.lock`. -/
inductive Window where
  /-- holding `ip->lock`, about to truncate and free the inode -/
  | trunc (i : Fin NINODE)
  /-- `ip->lock` released, about to take `icache.lock` and drop the reference -/
  | relock (i : Fin NINODE)
  deriving DecidableEq

/-- The inode cache, the disk, and for each thread the references it holds
and where it is in a freeing `iput`. -/
structure ICache (N : Nat) where
  inode : Cache N
  disk : Disk Log.Block
  held : Fin NINODE → Fin N → Nat
  window : Fin N → Option Window

/-- `held` with thread `t`'s count of references to entry `i` set to `n`. -/
def setHeld (held : Fin NINODE → Fin N → Nat) (i : Fin NINODE) (t : Fin N) (n : Nat) :
    Fin NINODE → Fin N → Nat :=
  Function.update held i (Function.update (held i) t n)

/-- A call of the inode cache by a thread, with what the caller passes. -/
inductive Ev (N : Nat) where
  | iget (t : Fin N) (dev inum : Nat)
  | idup (t : Fin N) (i : Fin NINODE)
  | ilock (t : Fin N) (i : Fin NINODE)
  | iunlock (t : Fin N) (i : Fin NINODE)
  | iput (t : Fin N) (i : Fin NINODE)
  /-- the freeing `iput` between `release(&icache.lock)` and `releasesleep` -/
  | free (t : Fin N)
  /-- the freeing `iput` from `acquire(&icache.lock)` on -/
  | drop (t : Fin N)
  /-- the holder of `ip->lock` changes the inode and calls `iupdate` -/
  | write (t : Fin N) (i : Fin NINODE) (din : DInode)
  /-- `ialloc`'s search of the disk, which then calls `iget` -/
  | ialloc (t : Fin N) (type : Int16)

/-- A step: the call of a thread outside a freeing `iput`, on an entry it
holds, or the next part of its freeing `iput`. -/
def step (sb : SuperBlock) (c : ICache N) : Ev N → Option (ICache N)
  | .iget t dev inum =>
      if c.window t = none then
        match iget c.inode dev inum with
        | .ok (i, ic) => some { c with inode := ic, held := setHeld c.held i t (c.held i t + 1) }
        | .error _ => none
      else none
  | .idup t i =>
      if c.window t = none ∧ 0 < c.held i t then
        some { c with inode := idup c.inode i, held := setHeld c.held i t (c.held i t + 1) }
      else none
  | .ilock t i =>
      if c.window t = none ∧ 0 < c.held i t then
        match ilock sb c.inode c.disk t i with
        | .ok (some ic) => some { c with inode := ic }
        | _ => none
      else none
  | .iunlock t i =>
      if c.window t = none ∧ 0 < c.held i t then
        match iunlock c.inode t i with
        | .ok ic => some { c with inode := ic }
        | .error _ => none
      else none
  | .iput t i =>
      if c.window t = none ∧ 0 < c.held i t then
        match iput c.inode t i with
        | .ok (ic, true) =>
            some { c with inode := ic, window := Function.update c.window t (some (.trunc i)) }
        | .ok (ic, false) => some { c with inode := ic, held := setHeld c.held i t (c.held i t - 1) }
        | .error _ => none
      else none
  | .free t =>
      match c.window t with
      | some (.trunc i) =>
          match iputFree sb c.inode c.disk i with
          | some (ic, d) =>
              some { c with
                inode := ic
                disk := d
                window := Function.update c.window t (some (.relock i)) }
          | none => none
      | _ => none
  | .drop t =>
      match c.window t with
      | some (.relock i) =>
          some { c with
            inode := dropRef c.inode i
            held := setHeld c.held i t (c.held i t - 1)
            window := Function.update c.window t none }
      | _ => none
  | .write t i din =>
      if c.window t = none ∧ 0 < c.held i t ∧ (c.inode i).lock = some t then
        let ino := { (c.inode i).toInode with toDInode := din }
        some { c with
          inode := Function.update c.inode i { c.inode i with toInode := ino }
          disk := Fs.iupdate sb c.disk ino }
      else none
  | .ialloc t type =>
      if c.window t = none then
        match Fs.ialloc sb c.disk type with
        | some (d, _) => some { c with disk := d }
        | none => none
      else none

/-- `iinit`: every entry zeroed, over the disk `d0` the kernel boots with. -/
def icacheInit (d0 : Disk Log.Block) : ICache N :=
  ⟨fun _ => CInode.zero, d0, fun _ _ => 0, fun _ => none⟩

/-- The inode cache from boot, over any interleaving of its callers. -/
def icacheSystem (sb : SuperBlock) (d0 : Disk Log.Block) : System (ICache N) (Ev N) :=
  ⟨icacheInit d0, step sb⟩

section Scan

variable (ic : Cache N) (dev inum : Nat)

/-- The entries `iget` looks for: live, carrying the inode. -/
def Carries (i : Fin NINODE) : Bool := decide (0 < (ic i).ref ∧ (ic i).dev = dev ∧ (ic i).inum = inum)

/-- The entries `iget` may recycle. -/
def Empty (i : Fin NINODE) : Bool := decide ((ic i).ref = 0)

/-- `iget`'s one loop looks for the cached entry and for the first empty
one at once: it ends with the first cached entry, else with the first
empty entry, the one remembered before the loop first. -/
theorem igetLoop_eq (l : List (Fin NINODE)) (e : Option (Fin NINODE)) :
    igetLoop ic dev inum l e =
      match l.find? (Carries ic dev inum) with
      | some i => .hit i
      | none => .miss (e.or (l.find? (Empty ic))) := by
  induction l generalizing e with
  | nil => simp [igetLoop]
  | cons i l ih =>
      by_cases hc : 0 < (ic i).ref ∧ (ic i).dev = dev ∧ (ic i).inum = inum
      · simp [igetLoop, hc, Carries]
      · have hc' : Carries ic dev inum i = false := by simpa [Carries] using hc
        rw [igetLoop, if_neg hc, ih, List.find?_cons, hc']
        -- the entry is remembered only if none was before and it is empty
        cases e with
        | some x => simp
        | none =>
            by_cases hz : (ic i).ref = 0
            · simp [hz, Empty]
            · simp [hz, Empty]

theorem find?_carries_eq_none (h : ∀ j, 0 < (ic j).ref → (ic j).dev = dev → (ic j).inum = inum → False) :
    (List.finRange NINODE).find? (Carries ic dev inum) = none := by
  rw [List.find?_eq_none]
  intro j _
  simpa [Carries] using h j

end Scan

section Spec

variable {sb : SuperBlock} {ic ic' : Cache N} {d d' : Disk Log.Block} {t : Fin N} {i : Fin NINODE}
  {dev inum : Nat}

/-- What `iget` returns: the live entry carrying the inode with one more
reference, or, when there is none, an empty entry recycled for the inode
with `valid` cleared. -/
theorem iget_ok (h : iget ic dev inum = .ok (i, ic')) :
    (0 < (ic i).ref ∧ (ic i).dev = dev ∧ (ic i).inum = inum ∧
      ic' = Function.update ic i { ic i with ref := (ic i).ref + 1 }) ∨
    ((∀ j, 0 < (ic j).ref → (ic j).dev = dev → (ic j).inum = inum → False) ∧ (ic i).ref = 0 ∧
      ic' = Function.update ic i { ic i with dev := dev, inum := inum, ref := 1, valid := false }) := by
  unfold iget at h
  rw [igetLoop_eq] at h
  cases hf : (List.finRange NINODE).find? (Carries ic dev inum) with
  | some j =>
      rw [hf] at h
      cases h
      have hc := List.find?_some hf
      simp only [Carries, decide_eq_true_eq] at hc
      exact .inl ⟨hc.1, hc.2.1, hc.2.2, rfl⟩
  | none =>
      rw [hf] at h
      have hno : ∀ j, 0 < (ic j).ref → (ic j).dev = dev → (ic j).inum = inum → False := by
        intro j hr hd hn
        have := List.find?_eq_none.mp hf j (List.mem_finRange j)
        simp [Carries, hr, hd, hn] at this
      cases he : (List.finRange NINODE).find? (Empty ic) with
      | none => rw [he] at h; cases h
      | some j =>
          rw [he] at h
          cases h
          have hz := List.find?_some he
          simp only [Empty, decide_eq_true_eq] at hz
          exact .inr ⟨hno, hz, rfl⟩

/-- With no live entry carrying the inode, `iget` returns whenever some
entry is empty. -/
theorem iget_ok_of_empty (hno : ∀ j, 0 < (ic j).ref → (ic j).dev = dev → (ic j).inum = inum → False)
    {j : Fin NINODE} (hj : (ic j).ref = 0) : ∃ i ic', iget ic dev inum = .ok (i, ic') := by
  obtain ⟨e, he⟩ : ∃ e, (List.finRange NINODE).find? (Empty ic) = some e := by
    apply Option.isSome_iff_exists.mp
    exact List.find?_isSome.mpr ⟨j, List.mem_finRange j, by simpa [Empty] using hj⟩
  refine ⟨e, Function.update ic e { ic e with dev := dev, inum := inum, ref := 1, valid := false }, ?_⟩
  rw [iget, igetLoop_eq, find?_carries_eq_none ic dev inum hno, he]
  rfl

/-- When entry `i` is the only live entry carrying the inode, `iget`
returns it with one more reference. -/
theorem iget_of_live (hu : ∀ j, 0 < (ic j).ref → (ic j).dev = dev → (ic j).inum = inum → j = i)
    (hi : 0 < (ic i).ref) (hd : (ic i).dev = dev) (hn : (ic i).inum = inum) :
    iget ic dev inum = .ok (i, Function.update ic i { ic i with ref := (ic i).ref + 1 }) := by
  rcases hf : (List.finRange NINODE).find? (Carries ic dev inum) with _ | j
  · have := List.find?_eq_none.mp hf i (List.mem_finRange i)
    simp [Carries, hi, hd, hn] at this
  · -- the loop stops at a live entry carrying the inode, which is `i`
    have hj := List.find?_some hf
    simp only [Carries, decide_eq_true_eq] at hj
    obtain rfl := hu j hj.1 hj.2.1 hj.2.2
    rw [iget, igetLoop_eq, hf]

theorem ilock_some (h : ilock sb ic d t i = .ok (some ic')) :
    ∃ x : CInode N, ic' = Function.update ic i x ∧ x.dev = (ic i).dev ∧ x.inum = (ic i).inum ∧
      x.ref = (ic i).ref ∧ ((ic i).valid = false → x.toDInode = dinodeAt sb d (ic i).inum) := by
  unfold ilock at h
  simp only at h
  split at h
  · cases h
  · split at h
    · cases h
    · split at h
      · cases h
        rename_i hv
        exact ⟨_, rfl, rfl, rfl, rfl, fun hf => absurd hv (by simp [hf])⟩
      · split at h
        · cases h
        · cases h
          exact ⟨_, rfl, rfl, rfl, rfl, fun _ => rfl⟩

/-- `ilock` of an entry with a reference does not panic on `ref`. -/
theorem ilock_ne_ilock (hr : 1 ≤ (ic i).ref) : ilock sb ic d t i ≠ .error "ilock" := by
  unfold ilock
  simp only
  rw [if_neg (by omega)]
  split
  · simp
  · split
    · simp
    · split <;> simp

theorem iunlock_ok (h : iunlock ic t i = .ok ic') :
    ic' = Function.update ic i { ic i with lock := none } := by
  unfold iunlock at h
  simp only at h
  split at h
  · cases h
  · cases h
    rfl

theorem iput_ok {b : Bool} (h : iput ic t i = .ok (ic', b)) :
    (b = true ∧ ic' = Function.update ic i { ic i with lock := some t }) ∨
      (b = false ∧ ic' = dropRef ic i) := by
  unfold iput at h
  simp only at h
  split at h
  · split at h
    · cases h
    · cases h
      exact .inl ⟨rfl, rfl⟩
  · cases h
    exact .inr ⟨rfl, rfl⟩

/-- Freeing changes the entry's dinode fields, `valid` and lock only. -/
theorem iputFree_some (h : iputFree sb ic d i = some (ic', d')) :
    ∃ x : CInode N, ic' = Function.update ic i x ∧ x.dev = (ic i).dev ∧ x.inum = (ic i).inum ∧
      x.ref = (ic i).ref := by
  unfold iputFree at h
  obtain ⟨⟨d₁, ino⟩, ht, h⟩ := Option.bind_eq_some_iff.mp h
  simp only [Option.pure_def, Option.some.injEq, Prod.mk.injEq] at h
  obtain ⟨rfl, -⟩ := h
  have hnum := itrunc_inum ht
  exact ⟨_, rfl, rfl, hnum, rfl⟩

/-- The disk a freeing `iput` leaves is the one `Fs.iput` gives for the
last reference to an inode with no links. -/
theorem iputFree_disk (h : iputFree sb ic d i = some (ic', d')) (hn : (ic i).nlink = 0) :
    Fs.iput sb d (ic i).toInode = some d' := by
  unfold iputFree at h
  obtain ⟨⟨d₁, ino⟩, ht, h⟩ := Option.bind_eq_some_iff.mp h
  simp only [Option.pure_def, Option.some.injEq, Prod.mk.injEq] at h
  obtain ⟨-, rfl⟩ := h
  have hn' : ((ic i).toInode.nlink == 0) = true := by simp [hn]
  simp [Fs.iput, hn', ht]

end Spec

section Held

variable (held : Fin NINODE → Fin N → Nat) (i : Fin NINODE) (t : Fin N) (n : Nat)

theorem setHeld_of_ne {j : Fin NINODE} (hj : j ≠ i) : setHeld held i t n j = held j := by
  rw [setHeld, Function.update_of_ne hj]

theorem setHeld_self : setHeld held i t n i = Function.update (held i) t n := by
  rw [setHeld, Function.update_self]

/-- Setting one thread's count moves the entry's total by the difference. -/
theorem procSum_setHeld : procSum (setHeld held i t n i) + held i t = procSum (held i) + n := by
  rw [setHeld_self]
  exact procSum_update (held i) t n

end Held

/-- What the inode cache keeps over every interleaving of its callers. -/
structure RefInv (c : ICache N) : Prop where
  /-- `ref` is the number of references the threads hold -/
  refs : ∀ i, (c.inode i).ref = (procSum (c.held i) : Int)
  /-- no two live entries carry one inode -/
  unique : ∀ i j, 0 < (c.inode i).ref → 0 < (c.inode j).ref → (c.inode i).dev = (c.inode j).dev →
    (c.inode i).inum = (c.inode j).inum → i = j
  /-- a thread inside a freeing `iput` still holds its reference -/
  window : ∀ t i, (c.window t = some (.trunc i) ∨ c.window t = some (.relock i)) → 0 < c.held i t

section Inv

variable {sb : SuperBlock} {c c' : ICache N} {t : Fin N} {i : Fin NINODE}

/-- An entry a thread holds a reference to has `ref ≥ 1`. -/
theorem RefInv.ref_pos (h : RefInv c) (ht : 0 < c.held i t) : 1 ≤ (c.inode i).ref := by
  have := le_procSum (c.held i) t
  rw [h.refs i]
  omega

theorem RefInv.held_eq_zero (h : RefInv c) (hz : (c.inode i).ref = 0) (t : Fin N) :
    c.held i t = 0 := by
  have := le_procSum (c.held i) t
  have := h.refs i
  omega

/-- A step that changes entry `i` to `x` and the references to it: the
invariant holds after it if `ref` moves with the references and a live `x`
carries no other live entry's inode. -/
theorem RefInv.update (h : RefInv c) {x : CInode N}
    (hinode : c'.inode = Function.update c.inode i x) (hheld : ∀ j, j ≠ i → c'.held j = c.held j)
    (href : x.ref + procSum (c.held i) = (c.inode i).ref + procSum (c'.held i))
    (hkey : 0 < x.ref → ∀ j, j ≠ i → 0 < (c.inode j).ref → (c.inode j).dev = x.dev →
      (c.inode j).inum = x.inum → False)
    (hwin : ∀ t j, (c'.window t = some (.trunc j) ∨ c'.window t = some (.relock j)) →
      0 < c'.held j t) :
    RefInv c' := by
  have hother : ∀ j, j ≠ i → c'.inode j = c.inode j := fun j hj => by
    rw [hinode, Function.update_of_ne hj]
  have hi : c'.inode i = x := by rw [hinode, Function.update_self]
  refine ⟨fun j => ?_, fun j k hj hk hd hn => ?_, hwin⟩
  · by_cases hji : j = i
    · subst hji
      have := h.refs j
      rw [hi]
      omega
    · rw [hother j hji, hheld j hji]
      exact h.refs j
  · -- a pair through `i` is `x` against an entry the step left alone
    by_cases hji : j = i <;> by_cases hki : k = i
    · rw [hji, hki]
    · subst hji
      rw [hi] at hj hd hn
      rw [hother k hki] at hk hd hn
      exact (hkey hj k hki hk hd.symm hn.symm).elim
    · subst hki
      rw [hi] at hk hd hn
      rw [hother j hji] at hj hd hn
      exact (hkey hk j hji hj hd hn).elim
    · rw [hother j hji] at hj hd hn
      rw [hother k hki] at hk hd hn
      exact h.unique j k hj hk hd hn

/-- A step that changes entry `i` but not its inode, and a live entry stays
live: no other live entry carries its inode. -/
theorem RefInv.sameKey (h : RefInv c) {x : CInode N} (hd : x.dev = (c.inode i).dev)
    (hn : x.inum = (c.inode i).inum) (hpos : 0 < x.ref → 0 < (c.inode i).ref) :
    0 < x.ref → ∀ j, j ≠ i → 0 < (c.inode j).ref → (c.inode j).dev = x.dev →
      (c.inode j).inum = x.inum → False := by
  intro hx j hji hj hdj hnj
  rw [hd] at hdj
  rw [hn] at hnj
  exact hji (h.unique j i hj (hpos hx) hdj hnj)

/-- A step that changes entry `i`'s other fields and keeps the references. -/
theorem RefInv.keep (h : RefInv c) {x : CInode N}
    (hinode : c'.inode = Function.update c.inode i x) (hheld : c'.held = c.held)
    (hd : x.dev = (c.inode i).dev) (hn : x.inum = (c.inode i).inum) (hr : x.ref = (c.inode i).ref)
    (hwin : ∀ t j, (c'.window t = some (.trunc j) ∨ c'.window t = some (.relock j)) →
      0 < c'.held j t) :
    RefInv c' :=
  h.update hinode (fun j _ => by rw [hheld]) (by rw [hheld, hr])
    (h.sameKey hd hn fun hx => hr ▸ hx) hwin

/-- Giving `t` more references keeps every window's reference. -/
theorem RefInv.window_grow (h : RefInv c) {n : Nat} (hn : c.held i t ≤ n) :
    ∀ t' j, (c.window t' = some (.trunc j) ∨ c.window t' = some (.relock j)) →
      0 < setHeld c.held i t n j t' := by
  intro t' j hw
  have := h.window t' j hw
  by_cases hji : j = i
  · subst hji
    rw [setHeld_self]
    by_cases htt : t' = t
    · subst htt
      rw [Function.update_self]
      omega
    · rwa [Function.update_of_ne htt]
  · rwa [setHeld_of_ne _ _ _ _ hji]

/-- Changing the references of a thread outside every window keeps the
others' windows. -/
theorem RefInv.window_idle (h : RefInv c) {w : Fin N → Option Window} {n : Nat}
    (hw : ∀ t', t' ≠ t → w t' = c.window t') (ht : w t = none) :
    ∀ t' j, (w t' = some (.trunc j) ∨ w t' = some (.relock j)) → 0 < setHeld c.held i t n j t' := by
  intro t' j hwin
  by_cases htt : t' = t
  · subst htt
    rw [ht] at hwin
    simp at hwin
  · rw [hw t' htt] at hwin
    have := h.window t' j hwin
    by_cases hji : j = i
    · subst hji
      rwa [setHeld_self, Function.update_of_ne htt]
    · rwa [setHeld_of_ne _ _ _ _ hji]

/-- `t` entering a window on an entry it holds keeps every window's reference. -/
theorem RefInv.window_enter (h : RefInv c) {w : Fin N → Option Window}
    (hw : ∀ t', t' ≠ t → w t' = c.window t') (hi : 0 < c.held i t)
    (ht : w t = some (.trunc i) ∨ w t = some (.relock i)) :
    ∀ t' j, (w t' = some (.trunc j) ∨ w t' = some (.relock j)) → 0 < c.held j t' := by
  intro t' j hwin
  by_cases htt : t' = t
  · subst htt
    -- the window names `i`, so `j` is `i`
    have hj : j = i := by
      rcases ht with ht | ht <;> rcases hwin with hwin | hwin <;> rw [ht] at hwin <;> simp_all
    rwa [hj]
  · rw [hw t' htt] at hwin
    exact h.window t' j hwin

/-- `iget` hands `t` a reference: to the live entry of the inode, or to an
empty entry, which nobody holds, recycled for it. -/
theorem RefInv.iget (h : RefInv c) {dev inum : Nat} {ic : Cache N}
    (hget : iget c.inode dev inum = .ok (i, ic)) :
    RefInv { c with inode := ic, held := setHeld c.held i t (c.held i t + 1) } := by
  have hs := procSum_setHeld c.held i t (c.held i t + 1)
  rcases iget_ok hget with ⟨hpos, -, -, rfl⟩ | ⟨hno, hz, rfl⟩
  · refine h.update rfl (fun j hj => setHeld_of_ne _ _ _ _ hj) ?_ (h.sameKey rfl rfl fun _ => hpos)
      (h.window_grow (Nat.le_succ _))
    dsimp only
    omega
  · have hr := h.refs i
    have h0 := h.held_eq_zero hz t
    refine h.update rfl (fun j hj => setHeld_of_ne _ _ _ _ hj) ?_
      (fun _ j _ hj hd hn => hno j hj hd hn) (h.window_grow (Nat.le_succ _))
    dsimp only
    omega

theorem RefInv.idup (h : RefInv c) (ht : 0 < c.held i t) :
    RefInv { c with inode := idup c.inode i, held := setHeld c.held i t (c.held i t + 1) } := by
  have hs := procSum_setHeld c.held i t (c.held i t + 1)
  have hpos := h.ref_pos ht
  refine h.update rfl (fun j hj => setHeld_of_ne _ _ _ _ hj) ?_
    (h.sameKey rfl rfl fun _ => by omega) (h.window_grow (Nat.le_succ _))
  dsimp only
  omega

/-- Dropping one of `t`'s references, `t` then outside every window: the
end of `iput`, freeing or not. -/
theorem RefInv.dropRef (h : RefInv c) (ht : 0 < c.held i t) {w : Fin N → Option Window}
    (hw : ∀ t', t' ≠ t → w t' = c.window t') (hwt : w t = none) :
    RefInv { c with
      inode := dropRef c.inode i
      held := setHeld c.held i t (c.held i t - 1)
      window := w } := by
  have hs := procSum_setHeld c.held i t (c.held i t - 1)
  refine h.update rfl (fun j hj => setHeld_of_ne _ _ _ _ hj) ?_
    (h.sameKey rfl rfl fun hx => by dsimp only at hx; omega) (h.window_idle hw hwt)
  dsimp only
  omega

theorem RefInv.ilock (h : RefInv c) {ic : Cache N} (hl : ilock sb c.inode c.disk t i = .ok (some ic)) :
    RefInv { c with inode := ic } := by
  obtain ⟨x, rfl, hd, hn, hr, -⟩ := ilock_some hl
  exact h.keep rfl rfl hd hn hr h.window

theorem RefInv.iunlock (h : RefInv c) {ic : Cache N} (hu : iunlock c.inode t i = .ok ic) :
    RefInv { c with inode := ic } := by
  rw [iunlock_ok hu]
  exact h.keep rfl rfl rfl rfl rfl h.window

/-- The freeing `iput` takes `ip->lock` and enters its window. -/
theorem RefInv.iputEnter (h : RefInv c) (ht : 0 < c.held i t) {ic : Cache N}
    (hput : iput c.inode t i = .ok (ic, true)) :
    RefInv { c with inode := ic, window := Function.update c.window t (some (.trunc i)) } := by
  rcases iput_ok hput with ⟨-, rfl⟩ | ⟨hb, -⟩
  · exact h.keep rfl rfl rfl rfl rfl
      (h.window_enter (fun t' ht' => Function.update_of_ne ht' _ _) ht
        (.inl (Function.update_self _ _ _)))
  · cases hb

theorem RefInv.iputDrop (h : RefInv c) (ht : 0 < c.held i t) (hw : c.window t = none) {ic : Cache N}
    (hput : iput c.inode t i = .ok (ic, false)) :
    RefInv { c with inode := ic, held := setHeld c.held i t (c.held i t - 1) } := by
  rcases iput_ok hput with ⟨hb, -⟩ | ⟨-, rfl⟩
  · cases hb
  · exact h.dropRef ht (fun _ _ => rfl) hw

/-- The window: the inode truncated and freed with `icache.lock` released. -/
theorem RefInv.free (h : RefInv c) (hw : c.window t = some (.trunc i)) {ic : Cache N}
    {d : Disk Log.Block} (hf : iputFree sb c.inode c.disk i = some (ic, d)) :
    RefInv { c with
      inode := ic
      disk := d
      window := Function.update c.window t (some (.relock i)) } := by
  obtain ⟨x, rfl, hd, hn, hr⟩ := iputFree_some hf
  exact h.keep rfl rfl hd hn hr
    (h.window_enter (fun t' ht' => Function.update_of_ne ht' _ _) (h.window t i (.inl hw))
      (.inr (Function.update_self _ _ _)))

theorem RefInv.write (h : RefInv c) (din : DInode) :
    RefInv { c with
      inode := Function.update c.inode i
        { c.inode i with toInode := { (c.inode i).toInode with toDInode := din } }
      disk := Fs.iupdate sb c.disk { (c.inode i).toInode with toDInode := din } } :=
  h.keep rfl rfl rfl rfl rfl h.window

/-- Every step keeps the invariant. -/
theorem RefInv.step (h : RefInv c) {e : Ev N} (hs : step sb c e = some c') : RefInv c' := by
  cases e with
  | iget t dev inum =>
      simp only [Icache.step] at hs
      split at hs
      · split at hs
        · cases hs
          exact h.iget ‹_›
        · cases hs
      · cases hs
  | idup t i =>
      simp only [Icache.step] at hs
      split at hs
      · cases hs
        exact h.idup ‹_ ∧ _›.2
      · cases hs
  | ilock t i =>
      simp only [Icache.step] at hs
      split at hs
      · split at hs
        · cases hs
          exact h.ilock ‹_›
        · cases hs
      · cases hs
  | iunlock t i =>
      simp only [Icache.step] at hs
      split at hs
      · split at hs
        · cases hs
          exact h.iunlock ‹_›
        · cases hs
      · cases hs
  | iput t i =>
      simp only [Icache.step] at hs
      split at hs
      · rename_i hg
        split at hs
        · cases hs
          exact h.iputEnter hg.2 ‹_›
        · cases hs
          exact h.iputDrop hg.2 hg.1 ‹_›
        · cases hs
      · cases hs
  | free t =>
      simp only [Icache.step] at hs
      split at hs
      · rename_i i hw
        split at hs
        · cases hs
          exact h.free hw ‹_›
        · cases hs
      · cases hs
  | drop t =>
      simp only [Icache.step] at hs
      split at hs
      · rename_i i hw
        cases hs
        exact h.dropRef (h.window t i (.inr hw)) (fun t' ht' => Function.update_of_ne ht' _ _)
          (Function.update_self _ _ _)
      · cases hs
  | write t i din =>
      simp only [Icache.step] at hs
      split at hs
      · cases hs
        exact h.write din
      · cases hs
  | ialloc t type =>
      simp only [Icache.step] at hs
      split at hs
      · split at hs
        · cases hs
          exact ⟨h.refs, h.unique, h.window⟩
        · cases hs
      · cases hs

theorem refInv_init (d0 : Disk Log.Block) : RefInv (icacheInit (N := N) d0) where
  refs _ := by simp [icacheInit, CInode.zero, procSum]
  unique _ _ hi := by simp [icacheInit, CInode.zero] at hi
  window _ _ hw := by simp [icacheInit] at hw

theorem refInv_reachable (sb : SuperBlock) (d0 : Disk Log.Block) :
    (icacheSystem (N := N) sb d0).Invariant RefInv :=
  System.invariant_of_step _ (refInv_init d0) fun _ _ _ h hs => h.step hs

end Inv

end Icache
end Fs
end Xv6
