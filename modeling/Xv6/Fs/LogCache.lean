import Xv6.Fs.Bio
import Xv6.Fs.LogCrash
import Xv6.Support.System

/-!
# Logged blocks in the buffer cache

`kernel/log.c` over `kernel/bio.c`: the log keeps the blocks of the open
transaction in the buffer cache, pinned by `log_write`, until `commit`
has copied them to the log (`write_log`), committed (`write_head`) and
installed them (`install_trans(0)`), which unpins them one by one.  At boot
`recover_from_log` reads the header from disk and installs what it names
with `install_trans(1)`, which pins and unpins nothing.

The model interleaves the log's steps with any number of `bread`s and
`brelse`s of other code, and with the file-system calls' writes: a change
to a buffer the caller holds followed by `log_write`.  Each loop pass of
`write_log` and `install_trans` is one step; `begin_op` and `end_op` are
abstracted to the phase `trans`, in which writes may happen and a commit
may start.  Two ghost fields record the buffers handed out by `bread` and
not yet released (`refs`), and the contents each block had at its last
`log_write` (`logged`).

The blocks still to be installed are `pending`: the whole header during a
transaction and while it is written to the log, the part `install_trans`
has not reached during the install, and none during recovery.  Each pending
block is held by exactly one buffer, valid, whose reference count exceeds
its `bread` references by the one pin, and whose contents are those last
logged (`pending_pinned`); `write_log` and `install_trans` copy exactly
those contents (`writeLogTail_logged`, `installTail_logged`).  The stronger
statement, for every block of the header in every state, fails during the
install and during recovery (`unpinned_while_logged`).
-/

namespace Xv6
namespace LogCache

open Bio Disk

/-- Where the log is. -/
inductive Phase
  /-- before `initlog` -/
  | boot
  /-- `install_trans(1)` has installed `t` blocks -/
  | recovering (t : Nat)
  /-- a transaction is open; file-system calls write and `log_write` -/
  | trans
  /-- `write_log` has copied `t` blocks -/
  | writing (t : Nat)
  /-- `install_trans(0)` has installed `t` blocks -/
  | installing (t : Nat)
  deriving DecidableEq, Repr

/-- Whether other code may `bread` and `brelse`: after `initlog`. -/
def Phase.running : Phase → Bool
  | .boot | .recovering _ => false
  | _ => true

/-- The buffer cache, the disk, and the in-memory `log.lh.block[0..n)`. -/
structure State (n : Nat) where
  bc : BCache n Log.Block
  disk : Disk Log.Block
  lh : List UInt32
  phase : Phase
  /-- the buffers `bread` handed out and nobody has released yet -/
  refs : List (Fin n)
  /-- each block's contents at its last `log_write` -/
  logged : UInt32 → Log.Block

variable {n : Nat}

/-- The blocks of the header not yet installed. -/
def pending (s : State n) : List UInt32 :=
  match s.phase with
  | .trans | .writing _ => s.lh
  | .installing t => s.lh.drop t
  | .boot | .recovering _ => []

def State.setPhase (p : Phase) (s : State n) : State n := { s with phase := p }

/-! ## The buffer operations, with the ghost references -/

/-- `bread(log.dev, blockno)`. -/
def State.bread (s : State n) (blockno : UInt32) : Option (State n × Fin n) :=
  match Bio.bread s.bc s.disk ROOTDEV blockno with
  | none => none
  | some (c, i) => some ({ s with bc := c, refs := i :: s.refs }, i)

/-- `brelse(b)`. -/
def State.brelse (s : State n) (i : Fin n) : State n :=
  { s with bc := Bio.brelse s.bc i, refs := s.refs.erase i }

/-- New contents for a buffer, then `bwrite`: the code always writes a
buffer through right after changing it in `log.c`. -/
def State.store (s : State n) (i : Fin n) (d : Log.Block) : State n :=
  let c := setData s.bc i d
  { s with bc := c, disk := bwrite c i s.disk }

variable (start size : Nat)

/-- `read_head()`. -/
def readHead (s : State n) : Option (State n) :=
  match s.bread (UInt32.ofNat start) with
  | none => none
  | some (s, buf) =>
      some ({ s with lh := (Log.readHead (s.bc.buf buf).data).block }.brelse buf)

/-- `write_head()`: the in-memory header into the header block, written
through. -/
def writeHead (s : State n) : Option (State n) :=
  match s.bread (UInt32.ofNat start) with
  | none => none
  | some (s, buf) => some ((s.store buf (Log.setHead (s.bc.buf buf).data ⟨s.lh⟩)).brelse buf)

/-- One pass of `write_log`'s loop: log block `tail` gets the cached
contents of block `b = log.lh.block[tail]`. -/
def writeLogTail (s : State n) (tail : Nat) (b : UInt32) : Option (State n) :=
  match s.bread (UInt32.ofNat (start + tail + 1)) with
  | none => none
  | some (s, toBuf) =>
      match s.bread b with
      | none => none
      | some (s, fromBuf) =>
          some (((s.store toBuf (s.bc.buf fromBuf).data).brelse fromBuf).brelse toBuf)

/-- One pass of `install_trans(recovering)`'s loop: block `b =
log.lh.block[tail]` gets the contents of log block `tail`, and is unpinned
unless recovering. -/
def installTail (recovering : Bool) (s : State n) (tail : Nat) (b : UInt32) : Option (State n) :=
  match s.bread (UInt32.ofNat (start + tail + 1)) with
  | none => none
  | some (s, lbuf) =>
      match s.bread b with
      | none => none
      | some (s, dbuf) =>
          let s := s.store dbuf (s.bc.buf lbuf).data
          let s := if recovering then s else { s with bc := bunpin s.bc dbuf }
          some ((s.brelse lbuf).brelse dbuf)

/-- `log_write(b)`: the "too big a transaction" panic, then absorption:
a block already in the header keeps its slot, a new one is pinned and
appended. -/
def logWrite (s : State n) (i : Fin n) : Option (State n) :=
  if s.lh.length ≥ LOGSIZE ∨ s.lh.length ≥ size - 1 then none
  else if (s.bc.buf i).blockno ∈ s.lh then some s
  else some { s with bc := bpin s.bc i, lh := s.lh ++ [(s.bc.buf i).blockno] }

/-! ## The system -/

/-- The atomic steps. -/
inductive Ev (n : Nat)
  /-- `initlog`: `read_head` -/
  | initlog
  /-- a pass of `install_trans(1)` -/
  | recoverTail
  /-- the end of `recover_from_log`: `log.lh.n = 0; write_head()` -/
  | recoverDone
  /-- `bread` by any code -/
  | bread (blockno : UInt32)
  /-- `brelse` of a buffer `bread` handed out -/
  | brelse (i : Fin n)
  /-- a file-system call changes a buffer it holds, then `log_write` -/
  | write (i : Fin n) (d : Log.Block)
  /-- `end_op` of the last operation calls `commit` -/
  | commit
  /-- a pass of `write_log` -/
  | writeLogTail
  /-- `write_head`, the commit point -/
  | writeHead
  /-- a pass of `install_trans(0)` -/
  | installTail
  /-- the end of `commit`: `log.lh.n = 0; write_head()` -/
  | commitDone

/-- Membership in a list of buffer indices is decided through this named
proof, so that `step` carries no anonymous one. -/
theorem lawfulBEq_fin (n : Nat) : LawfulBEq (Fin n) := inferInstance

attribute [local instance] lawfulBEq_fin

/-- One step. The file system never logs a block of the log area, so a
write of such a block is not an event. -/
def step (s : State n) : Ev n → Option (State n)
  | .initlog =>
      if s.phase = .boot then (readHead start s).map (State.setPhase (.recovering 0)) else none
  | .recoverTail =>
      match s.phase with
      | .recovering t =>
          match s.lh[t]? with
          | some b => (installTail start true s t b).map (State.setPhase (.recovering (t + 1)))
          | none => none
      | _ => none
  | .recoverDone =>
      match s.phase with
      | .recovering t =>
          if t = s.lh.length then
            (writeHead start { s with lh := [] }).map (State.setPhase .trans)
          else none
      | _ => none
  | .bread b => if s.phase.running then (s.bread b).map Prod.fst else none
  | .brelse i => if s.phase.running ∧ i ∈ s.refs then some (s.brelse i) else none
  | .write i d =>
      if s.phase = .trans ∧ i ∈ s.refs ∧ ¬ Log.InLog start size (s.bc.buf i).blockno.toNat then
        logWrite size { s with bc := setData s.bc i d,
                               logged := Function.update s.logged (s.bc.buf i).blockno d } i
      else none
  | .commit =>
      if s.phase = .trans then
        if s.lh = [] then some s else some (s.setPhase (.writing 0))
      else none
  | .writeLogTail =>
      match s.phase with
      | .writing t =>
          match s.lh[t]? with
          | some b => (writeLogTail start s t b).map (State.setPhase (.writing (t + 1)))
          | none => none
      | _ => none
  | .writeHead =>
      match s.phase with
      | .writing t =>
          if t = s.lh.length then (writeHead start s).map (State.setPhase (.installing 0))
          else none
      | _ => none
  | .installTail =>
      match s.phase with
      | .installing t =>
          match s.lh[t]? with
          | some b => (installTail start false s t b).map (State.setPhase (.installing (t + 1)))
          | none => none
      | _ => none
  | .commitDone =>
      match s.phase with
      | .installing t =>
          if t = s.lh.length then
            (writeHead start { s with lh := [] }).map (State.setPhase .trans)
          else none
      | _ => none

/-- A zeroed block. -/
def zeroBlock : Log.Block := fun _ => 0

/-- Boot on disk `d`: `binit`, an empty in-memory header. -/
def State.init (d : Disk Log.Block) : State NBUF :=
  ⟨binit zeroBlock, d, [], .boot, [], fun _ => zeroBlock⟩

/-- The log and the buffer cache from boot on disk `d`. -/
def cacheSystem (d : Disk Log.Block) : System (State NBUF) (Ev NBUF) :=
  ⟨State.init d, step start size⟩

section Fields

variable (s : State n) (i : Fin n) (d : Log.Block) (p : Phase)

@[simp] theorem State.brelse_lh : (s.brelse i).lh = s.lh := rfl
@[simp] theorem State.brelse_phase : (s.brelse i).phase = s.phase := rfl
@[simp] theorem State.brelse_logged : (s.brelse i).logged = s.logged := rfl
@[simp] theorem State.brelse_disk : (s.brelse i).disk = s.disk := rfl
@[simp] theorem State.brelse_refs : (s.brelse i).refs = s.refs.erase i := rfl
@[simp] theorem State.store_lh : (s.store i d).lh = s.lh := rfl
@[simp] theorem State.store_phase : (s.store i d).phase = s.phase := rfl
@[simp] theorem State.store_logged : (s.store i d).logged = s.logged := rfl
@[simp] theorem State.store_refs : (s.store i d).refs = s.refs := rfl
@[simp] theorem State.setPhase_phase : (s.setPhase p).phase = p := rfl
@[simp] theorem State.setPhase_lh : (s.setPhase p).lh = s.lh := rfl
@[simp] theorem State.setPhase_disk : (s.setPhase p).disk = s.disk := rfl
@[simp] theorem State.setPhase_logged : (s.setPhase p).logged = s.logged := rfl

@[simp] theorem State.store_dev (k : Fin n) : ((s.store i d).bc.buf k).dev = (s.bc.buf k).dev := by
  simp only [State.store, setData, modify_buf]
  split <;> simp_all

@[simp] theorem State.store_blockno (k : Fin n) :
    ((s.store i d).bc.buf k).blockno = (s.bc.buf k).blockno := by
  simp only [State.store, setData, modify_buf]
  split <;> simp_all

theorem State.store_disk :
    (s.store i d).disk = Function.update s.disk (s.bc.buf i).blockno.toNat d := by
  simp only [State.store, bwrite, setData, modify_buf_self]

end Fields

/-! ## The cache side of the invariant

Stated for any list `P` of blocks that must stay cached: the lemmas for the
buffer operations do not care where the log is. -/

section Cache

variable {s : State n} {P : List UInt32}

/-- Buffer `i` holds a block of `P`, so it carries a pin. -/
abbrev PinnedIn (s : State n) (P : List UInt32) (i : Fin n) : Prop :=
  (s.bc.buf i).dev = ROOTDEV ∧ (s.bc.buf i).blockno ∈ P

/-- The buffer cache with the blocks `P` pinned: every buffer is on the
list; no block of the disk is in two buffers; a buffer someone holds is
valid; a buffer's references are its holders and its pin; each block of
`P` is cached with its logged contents; any other valid buffer holds what
the disk holds. -/
structure CacheInv (s : State n) (P : List UInt32) : Prop where
  lru_mem : ∀ i, i ∈ s.bc.lru
  unique : ∀ i j, (s.bc.buf i).dev = ROOTDEV → (s.bc.buf j).dev = ROOTDEV →
    (s.bc.buf i).blockno = (s.bc.buf j).blockno → i = j
  held : ∀ i ∈ s.refs, (s.bc.buf i).valid ∧ (s.bc.buf i).dev = ROOTDEV
  refcnt_eq : ∀ i, (s.bc.buf i).refcnt = s.refs.count i + if PinnedIn s P i then 1 else 0
  cached : ∀ b ∈ P, ∃ i, (s.bc.buf i).dev = ROOTDEV ∧ (s.bc.buf i).blockno = b ∧
    (s.bc.buf i).valid ∧ (s.bc.buf i).data = s.logged b
  coherent : ∀ i, (s.bc.buf i).valid → (s.bc.buf i).dev = ROOTDEV →
    (s.bc.buf i).blockno ∉ P → (s.bc.buf i).data = s.disk (s.bc.buf i).blockno.toNat

theorem State.bread_eq {s s' : State n} {b : UInt32} {i : Fin n} (h : s.bread b = some (s', i)) :
    ∃ c, Bio.bread s.bc s.disk ROOTDEV b = some (c, i) ∧
      s' = { s with bc := c, refs := i :: s.refs } := by
  unfold State.bread at h
  split at h
  · cases h
  · rename_i c j hb
    simp only [Option.some.injEq, Prod.mk.injEq] at h
    obtain ⟨rfl, rfl⟩ := h
    exact ⟨c, hb, rfl⟩

/-- A `bread` changes one buffer, and the log's fields not at all. -/
theorem State.bread_frame {s s' : State n} {b : UInt32} {i : Fin n}
    (h : s.bread b = some (s', i)) :
    (∀ k, k ≠ i → s'.bc.buf k = s.bc.buf k) ∧ s'.refs = i :: s.refs ∧ s'.lh = s.lh ∧
      s'.phase = s.phase ∧ s'.disk = s.disk ∧ s'.logged = s.logged := by
  obtain ⟨c, hb, rfl⟩ := State.bread_eq h
  exact ⟨(bread_spec hb).buf_of_ne, rfl, rfl, rfl, rfl, rfl⟩

/-- The one buffer of a block of `P`. -/
theorem CacheInv.buf_of_mem (hi : CacheInv s P) {b : UInt32} (hb : b ∈ P) {i : Fin n}
    (hdev : (s.bc.buf i).dev = ROOTDEV) (hno : (s.bc.buf i).blockno = b) :
    (s.bc.buf i).valid ∧ (s.bc.buf i).data = s.logged b := by
  obtain ⟨k, hk, hkb, hkv, hkd⟩ := hi.cached b hb
  obtain rfl := hi.unique i k hdev hk (hno.trans hkb.symm)
  exact ⟨hkv, hkd⟩

theorem CacheInv.refcnt_pos (hi : CacheInv s P) {i : Fin n} (hp : PinnedIn s P i) :
    0 < (s.bc.buf i).refcnt := by
  rw [hi.refcnt_eq i, if_pos hp]
  omega

/-- After a `bread` of any block, the invariant holds with the new holder,
and the buffer holds the block: its logged contents if it is in `P`, else
the disk's. -/
theorem CacheInv.bread (hi : CacheInv s P) {b : UInt32} {s' : State n} {i : Fin n}
    (h : s.bread b = some (s', i)) :
    CacheInv s' P ∧ (s'.bc.buf i).dev = ROOTDEV ∧ (s'.bc.buf i).blockno = b ∧
      (s'.bc.buf i).valid ∧ (s'.bc.buf i).data = if b ∈ P then s.logged b else s.disk b.toNat := by
  obtain ⟨c, hb, rfl⟩ := State.bread_eq h
  have sp := bread_spec hb
  have hnew := sp.buf_eq
  -- no other buffer held the block before
  have hother : ∀ k, k ≠ i → (s.bc.buf k).dev = ROOTDEV → (s.bc.buf k).blockno = b → False := by
    intro k hk hkd hkb
    rcases sp.hit_or_free with hhit | ⟨_, hnone⟩
    · simp only [Buf.holds, Bool.and_eq_true, beq_iff_eq] at hhit
      exact hk (hi.unique k i hkd hhit.1 (hkb.trans hhit.2.symm))
    · have := hnone k (hi.lru_mem k)
      simp [Buf.holds, hkd, hkb] at this
  -- a recycled buffer carried no pin, and its new block is not in `P`
  have hfree : (s.bc.buf i).holds ROOTDEV b = false → ¬ PinnedIn s P i ∧ b ∉ P ∧
      s.refs.count i = 0 := by
    intro hh
    rcases sp.hit_or_free with hhit | ⟨hz, hnone⟩
    · rw [hhit] at hh
      cases hh
    · have hr := hi.refcnt_eq i
      refine ⟨fun hp => by have := hi.refcnt_pos hp; omega, fun hbP => ?_, by split at hr <;> omega⟩
      obtain ⟨k, hk, hkb, -, -⟩ := hi.cached b hbP
      have := hnone k (hi.lru_mem k)
      simp [Buf.holds, hk, hkb] at this
  have hnewi : (c.buf i).dev = ROOTDEV ∧ (c.buf i).blockno = b ∧ (c.buf i).valid = true := by
    rw [hnew]
    exact ⟨rfl, rfl, rfl⟩
  have hpin' : PinnedIn { s with bc := c, refs := i :: s.refs } P i ↔ b ∈ P := by
    simp [PinnedIn, hnewi.1, hnewi.2.1]
  -- the block's contents as the buffer now has them
  have hdata : (c.buf i).data = if b ∈ P then s.logged b else s.disk b.toNat := by
    rw [hnew]
    dsimp only
    by_cases hh : (s.bc.buf i).holds ROOTDEV b
    · have hd : (s.bc.buf i).dev = ROOTDEV ∧ (s.bc.buf i).blockno = b := by
        simpa [Buf.holds] using hh
      by_cases hv : (s.bc.buf i).valid
      · rw [if_pos (by rw [hv, hh]; rfl)]
        by_cases hbP : b ∈ P
        · rw [if_pos hbP]
          exact (hi.buf_of_mem hbP hd.1 hd.2).2
        · rw [if_neg hbP, ← hd.2]
          exact hi.coherent i hv hd.1 (hd.2 ▸ hbP)
      · rw [if_neg (by rw [Bool.not_eq_true] at hv; rw [hv, Bool.false_and]; exact Bool.false_ne_true)]
        by_cases hbP : b ∈ P
        · exact absurd (hi.buf_of_mem hbP hd.1 hd.2).1 hv
        · rw [if_neg hbP]
    · obtain ⟨-, hbP, -⟩ := hfree (by simpa using hh)
      rw [if_neg (by rw [Bool.not_eq_true] at hh; rw [hh, Bool.and_false]; exact Bool.false_ne_true),
        if_neg hbP]
  refine ⟨⟨fun k => ?_, fun j k hj hk hjk => ?_, fun j hj => ?_, fun j => ?_, fun b' hb' => ?_,
    fun j hv hd hnot => ?_⟩, hnewi.1, hnewi.2.1, hnewi.2.2, hdata⟩
  · -- lru_mem
    show k ∈ c.lru
    rw [sp.lru_eq]
    exact hi.lru_mem k
  · -- unique
    change (c.buf j).dev = ROOTDEV at hj
    change (c.buf k).dev = ROOTDEV at hk
    change (c.buf j).blockno = (c.buf k).blockno at hjk
    by_cases hji : j = i <;> by_cases hki : k = i
    · rw [hji, hki]
    · subst hji
      rw [sp.buf_of_ne k hki] at hk hjk
      exact (hother k hki hk (hjk.symm.trans hnewi.2.1)).elim
    · subst hki
      rw [sp.buf_of_ne j hji] at hj hjk
      exact (hother j hji hj (hjk.trans hnewi.2.1)).elim
    · rw [sp.buf_of_ne j hji] at hj hjk
      rw [sp.buf_of_ne k hki] at hk hjk
      exact hi.unique j k hj hk hjk
  · -- held
    show (c.buf j).valid ∧ (c.buf j).dev = ROOTDEV
    by_cases hji : j = i
    · subst hji
      exact ⟨hnewi.2.2, hnewi.1⟩
    · rw [sp.buf_of_ne j hji]
      exact hi.held j (List.mem_of_ne_of_mem hji hj)
  · -- refcnt_eq: the holder is counted, and a pin stays a pin
    by_cases hji : j = i
    · subst hji
      rw [if_congr hpin' rfl rfl]
      show (c.buf j).refcnt = (j :: s.refs).count j + _
      rw [hnew, List.count_cons_self]
      dsimp only
      have hr := hi.refcnt_eq j
      by_cases hh : (s.bc.buf j).holds ROOTDEV b
      · have hd : (s.bc.buf j).dev = ROOTDEV ∧ (s.bc.buf j).blockno = b := by
          simpa [Buf.holds] using hh
        have hpin : PinnedIn s P j ↔ b ∈ P := by simp [PinnedIn, hd.1, hd.2]
        rw [if_congr hpin rfl rfl] at hr
        omega
      · obtain ⟨hnp, hbP, hc0⟩ := hfree (by simpa using hh)
        rw [if_neg hnp] at hr
        rw [if_neg hbP]
        omega
    · have hpin : PinnedIn { s with bc := c, refs := i :: s.refs } P j ↔ PinnedIn s P j := by
        simp only [PinnedIn, sp.buf_of_ne j hji]
      rw [if_congr hpin rfl rfl]
      show (c.buf j).refcnt = (i :: s.refs).count j + _
      rw [sp.buf_of_ne j hji, List.count_cons_of_ne (Ne.symm hji)]
      exact hi.refcnt_eq j
  · -- cached: the block's buffer was not the recycled one
    obtain ⟨k, hk, hkb, hkv, hkd⟩ := hi.cached b' hb'
    by_cases hki : k = i
    · subst hki
      have hh : (s.bc.buf k).holds ROOTDEV b = true := by
        by_contra hh
        exact (hfree (by simpa using hh)).1 ⟨hk, hkb ▸ hb'⟩
      have hd : (s.bc.buf k).blockno = b := by simp [Buf.holds] at hh; exact hh.2
      refine ⟨k, hnewi.1, hnewi.2.1.trans (hd.symm.trans hkb), hnewi.2.2, ?_⟩
      show (c.buf k).data = s.logged b'
      rw [hdata, if_pos (hd ▸ hkb ▸ hb'), ← hd, hkb]
    · exact ⟨k, by rw [← sp.buf_of_ne k hki] at hk hkb hkv hkd; exact ⟨hk, hkb, hkv, hkd⟩⟩
  · -- coherent
    change (c.buf j).valid at hv
    change (c.buf j).dev = ROOTDEV at hd
    change (c.buf j).blockno ∉ P at hnot
    show (c.buf j).data = s.disk (c.buf j).blockno.toNat
    by_cases hji : j = i
    · subst hji
      rw [hnewi.2.1] at hnot ⊢
      rw [hdata, if_neg hnot]
    · rw [sp.buf_of_ne j hji] at hv hd hnot ⊢
      exact hi.coherent j hv hd hnot

theorem brelse_buf_eq (c : BCache n Log.Block) (i k : Fin n) :
    (Bio.brelse c i).buf k =
      if k = i then { c.buf i with refcnt := (c.buf i).refcnt - 1 } else c.buf k := by
  rw [brelse_buf]
  split
  · subst k
    exact modify_buf_self ..
  · exact modify_buf_of_ne _ _ _ _ (by assumption)

/-- A `bread` recycles no buffer that someone holds or that carries a pin:
such a buffer keeps its block and its contents. -/
theorem CacheInv.bread_keeps (hi : CacheInv s P) {b : UInt32} {s' : State n} {i : Fin n}
    (h : s.bread b = some (s', i)) {k : Fin n} (hk : k ∈ s.refs ∨ PinnedIn s P k) :
    (s'.bc.buf k).dev = (s.bc.buf k).dev ∧ (s'.bc.buf k).blockno = (s.bc.buf k).blockno ∧
      (s'.bc.buf k).data = (s.bc.buf k).data := by
  obtain ⟨c, hb, rfl⟩ := State.bread_eq h
  have sp := bread_spec hb
  by_cases hki : k = i
  · subst hki
    -- the buffer has a reference, so `bget` found it rather than recycled it
    have hpos : 0 < (s.bc.buf k).refcnt := by
      rcases hk with hk | hk
      · have := List.count_pos_iff.mpr hk
        have := hi.refcnt_eq k
        omega
      · exact hi.refcnt_pos hk
    have hv : (s.bc.buf k).valid := by
      rcases hk with hk | ⟨hd, hP⟩
      · exact (hi.held k hk).1
      · exact (hi.buf_of_mem hP hd rfl).1
    rcases sp.hit_or_free with hhit | ⟨hz, -⟩
    · have hd : (s.bc.buf k).dev = ROOTDEV ∧ (s.bc.buf k).blockno = b := by
        simpa [Buf.holds] using hhit
      show (c.buf k).dev = _ ∧ (c.buf k).blockno = _ ∧ (c.buf k).data = _
      rw [sp.buf_eq, if_pos (by rw [hv, hhit]; rfl)]
      exact ⟨hd.1.symm, hd.2.symm, rfl⟩
    · omega
  · show (c.buf k).dev = _ ∧ (c.buf k).blockno = _ ∧ (c.buf k).data = _
    rw [sp.buf_of_ne k hki]
    exact ⟨rfl, rfl, rfl⟩

/-- `brelse` of a held buffer: one holder less, nothing else changes. -/
theorem CacheInv.brelse (hi : CacheInv s P) {i : Fin n} (hr : i ∈ s.refs) :
    CacheInv (s.brelse i) P := by
  have hsame : ∀ k, ((Bio.brelse s.bc i).buf k).dev = (s.bc.buf k).dev ∧
      ((Bio.brelse s.bc i).buf k).blockno = (s.bc.buf k).blockno ∧
      ((Bio.brelse s.bc i).buf k).valid = (s.bc.buf k).valid ∧
      ((Bio.brelse s.bc i).buf k).data = (s.bc.buf k).data := by
    intro k
    rw [brelse_buf_eq]
    split
    · subst k
      exact ⟨rfl, rfl, rfl, rfl⟩
    · exact ⟨rfl, rfl, rfl, rfl⟩
  have hpin : ∀ k, PinnedIn (s.brelse i) P k ↔ PinnedIn s P k := by
    intro k
    simp only [PinnedIn, State.brelse, (hsame k).1, (hsame k).2.1]
  refine ⟨fun k => ?_, fun j k hj hk hjk => ?_, fun j hj => ?_, fun k => ?_, fun b hb => ?_,
    fun k hv hd hnot => ?_⟩
  · exact (mem_brelse_lru s.bc i k (hi.lru_mem i)).mpr (hi.lru_mem k)
  · simp only [State.brelse, (hsame j).1, (hsame k).1, (hsame j).2.1, (hsame k).2.1] at hj hk hjk
    exact hi.unique j k hj hk hjk
  · simp only [State.brelse, (hsame j).1, (hsame j).2.2.1]
    exact hi.held j (List.mem_of_mem_erase hj)
  · -- the released reference is the holder's
    rw [if_congr (hpin k) rfl rfl]
    have hr' := hi.refcnt_eq k
    simp only [State.brelse, brelse_buf_eq]
    by_cases hki : k = i
    · subst hki
      have hpos := List.count_pos_iff.mpr hr
      rw [if_pos rfl, List.count_erase_self]
      dsimp only
      omega
    · rw [if_neg hki, List.count_erase_of_ne hki]
      exact hr'
  · obtain ⟨k, hk, hkb, hkv, hkd⟩ := hi.cached b hb
    exact ⟨k, (hsame k).1.trans hk, (hsame k).2.1.trans hkb, (hsame k).2.2.1.trans hkv,
      (hsame k).2.2.2.trans hkd⟩
  · simp only [State.brelse, (hsame k).1, (hsame k).2.1, (hsame k).2.2.1, (hsame k).2.2.2]
      at hv hd hnot ⊢
    exact hi.coherent k hv hd hnot

/-- New contents for a buffer, written through: a block of `P` must
get its logged contents. -/
theorem CacheInv.store (hi : CacheInv s P) {i : Fin n} {d : Log.Block}
    (hd : (s.bc.buf i).dev = ROOTDEV)
    (hP : (s.bc.buf i).blockno ∈ P → d = s.logged (s.bc.buf i).blockno) :
    CacheInv (s.store i d) P := by
  have hbuf : ∀ k, (setData s.bc i d).buf k =
      if k = i then { s.bc.buf i with data := d } else s.bc.buf k := by
    intro k
    split
    · subst k
      exact modify_buf_self ..
    · exact modify_buf_of_ne _ _ _ _ (by assumption)
  have hsame : ∀ k, ((setData s.bc i d).buf k).dev = (s.bc.buf k).dev ∧
      ((setData s.bc i d).buf k).blockno = (s.bc.buf k).blockno ∧
      ((setData s.bc i d).buf k).valid = (s.bc.buf k).valid ∧
      ((setData s.bc i d).buf k).refcnt = (s.bc.buf k).refcnt := by
    intro k
    rw [hbuf]
    split
    · subst k
      exact ⟨rfl, rfl, rfl, rfl⟩
    · exact ⟨rfl, rfl, rfl, rfl⟩
  -- the disk now holds `d` at the buffer's block and nothing else changed
  have hdisk : (s.store i d).disk =
      Function.update s.disk (s.bc.buf i).blockno.toNat d := by
    show Function.update s.disk ((setData s.bc i d).buf i).blockno.toNat
      ((setData s.bc i d).buf i).data = _
    rw [(hsame i).2.1, hbuf i, if_pos rfl]
  have hpin : ∀ k, PinnedIn (s.store i d) P k ↔ PinnedIn s P k := by
    intro k
    simp only [PinnedIn, State.store, (hsame k).1, (hsame k).2.1]
  refine ⟨fun k => hi.lru_mem k, fun j k hj hk hjk => ?_, fun j hj => ?_, fun k => ?_,
    fun b hb => ?_, fun k hkv hkd hnot => ?_⟩
  · simp only [State.store, (hsame j).1, (hsame k).1, (hsame j).2.1, (hsame k).2.1] at hj hk hjk
    exact hi.unique j k hj hk hjk
  · simp only [State.store, (hsame j).1, (hsame j).2.2.1]
    exact hi.held j hj
  · rw [if_congr (hpin k) rfl rfl]
    simp only [State.store, (hsame k).2.2.2]
    exact hi.refcnt_eq k
  · obtain ⟨k, hk, hkb, hkv, hkd⟩ := hi.cached b hb
    refine ⟨k, (hsame k).1.trans hk, (hsame k).2.1.trans hkb, (hsame k).2.2.1.trans hkv, ?_⟩
    show ((setData s.bc i d).buf k).data = s.logged b
    rw [hbuf]
    split
    · subst k
      rw [← hkb]
      exact hP (hkb ▸ hb)
    · exact hkd
  · simp only [State.store, (hsame k).1, (hsame k).2.1, (hsame k).2.2.1] at hkv hkd hnot
    rw [hdisk]
    show ((setData s.bc i d).buf k).data =
      Function.update s.disk (s.bc.buf i).blockno.toNat d ((setData s.bc i d).buf k).blockno.toNat
    rw [(hsame k).2.1, hbuf]
    split
    · subst k
      simp
    · rename_i hki
      -- another buffer holds another block, whose disk contents stay
      have hne : (s.bc.buf k).blockno.toNat ≠ (s.bc.buf i).blockno.toNat := fun h =>
        hki (hi.unique k i hkd hd (UInt32.toNat_inj.mp h))
      rw [Function.update_of_ne hne]
      exact hi.coherent k hkv hkd hnot

/-- `bunpin` of the buffer of the next block to install, once the disk
holds its contents: the block leaves `P`. -/
theorem CacheInv.unpin {b : UInt32} (hi : CacheInv s (b :: P)) (hb : b ∉ P) {i : Fin n}
    (hd : (s.bc.buf i).dev = ROOTDEV) (hno : (s.bc.buf i).blockno = b)
    (hdisk : (s.bc.buf i).data = s.disk b.toNat) :
    CacheInv { s with bc := bunpin s.bc i } P := by
  have hbuf : ∀ k, (bunpin s.bc i).buf k =
      if k = i then { s.bc.buf i with refcnt := (s.bc.buf i).refcnt - 1 } else s.bc.buf k :=
    fun k => modify_buf ..
  have hsame : ∀ k, ((bunpin s.bc i).buf k).dev = (s.bc.buf k).dev ∧
      ((bunpin s.bc i).buf k).blockno = (s.bc.buf k).blockno ∧
      ((bunpin s.bc i).buf k).valid = (s.bc.buf k).valid ∧
      ((bunpin s.bc i).buf k).data = (s.bc.buf k).data := by
    intro k
    rw [hbuf]
    split
    · subst k
      exact ⟨rfl, rfl, rfl, rfl⟩
    · exact ⟨rfl, rfl, rfl, rfl⟩
  -- any other buffer of the device holds a block other than `b`
  have hother : ∀ k, k ≠ i → (s.bc.buf k).dev = ROOTDEV → (s.bc.buf k).blockno ≠ b :=
    fun k hki hk hkb => hki (hi.unique k i hk hd (hkb.trans hno.symm))
  refine ⟨fun k => hi.lru_mem k, fun j k hj hk hjk => ?_, fun j hj => ?_, fun k => ?_,
    fun b' hb' => ?_, fun k hkv hkd hnot => ?_⟩
  · simp only [(hsame j).1, (hsame k).1, (hsame j).2.1, (hsame k).2.1] at hj hk hjk
    exact hi.unique j k hj hk hjk
  · simp only [(hsame j).1, (hsame j).2.2.1]
    exact hi.held j hj
  · have hr := hi.refcnt_eq k
    simp only [PinnedIn, (hsame k).1, (hsame k).2.1, List.mem_cons] at hr ⊢
    show ((bunpin s.bc i).buf k).refcnt = _
    rw [hbuf]
    by_cases hki : k = i
    · -- the pin goes with the block
      subst hki
      rw [if_pos rfl]
      dsimp only
      rw [if_pos ⟨hd, .inl hno⟩] at hr
      rw [if_neg (fun h => hb (hno ▸ h.2))]
      omega
    · rw [if_neg hki]
      by_cases hkd : (s.bc.buf k).dev = ROOTDEV
      · have := hother k hki hkd
        simp only [hkd, this, false_or, true_and] at hr ⊢
        exact hr
      · simp only [hkd, false_and, if_false] at hr ⊢
        exact hr
  · obtain ⟨k, hk, hkb, hkv, hkd⟩ := hi.cached b' (List.mem_cons_of_mem _ hb')
    exact ⟨k, (hsame k).1.trans hk, (hsame k).2.1.trans hkb, (hsame k).2.2.1.trans hkv,
      (hsame k).2.2.2.trans hkd⟩
  · simp only [(hsame k).1, (hsame k).2.1, (hsame k).2.2.1, (hsame k).2.2.2] at hkv hkd hnot ⊢
    by_cases hki : k = i
    · subst hki
      rw [hno]
      exact hdisk
    · exact hi.coherent k hkv hkd fun h =>
        (List.mem_cons.mp h).elim (hother k hki hkd) hnot

/-- A file-system call changes a buffer it holds whose block is already in
`P`, and `log_write` absorbs it. -/
theorem CacheInv.write_absorbed (hi : CacheInv s P) {i : Fin n} (hr : i ∈ s.refs) {d : Log.Block}
    (hin : (s.bc.buf i).blockno ∈ P) :
    CacheInv { s with bc := setData s.bc i d,
                      logged := Function.update s.logged (s.bc.buf i).blockno d } P := by
  have hbuf : ∀ k, (setData s.bc i d).buf k =
      if k = i then { s.bc.buf i with data := d } else s.bc.buf k :=
    fun k => modify_buf ..
  have hsame : ∀ k, ((setData s.bc i d).buf k).dev = (s.bc.buf k).dev ∧
      ((setData s.bc i d).buf k).blockno = (s.bc.buf k).blockno ∧
      ((setData s.bc i d).buf k).valid = (s.bc.buf k).valid ∧
      ((setData s.bc i d).buf k).refcnt = (s.bc.buf k).refcnt := by
    intro k
    rw [hbuf]
    split
    · subst k
      exact ⟨rfl, rfl, rfl, rfl⟩
    · exact ⟨rfl, rfl, rfl, rfl⟩
  obtain ⟨hv, hd⟩ := hi.held i hr
  refine ⟨fun k => hi.lru_mem k, fun j k hj hk hjk => ?_, fun j hj => ?_, fun k => ?_,
    fun b' hb' => ?_, fun k hkv hkd hnot => ?_⟩
  · simp only [(hsame j).1, (hsame k).1, (hsame j).2.1, (hsame k).2.1] at hj hk hjk
    exact hi.unique j k hj hk hjk
  · simp only [(hsame j).1, (hsame j).2.2.1]
    exact hi.held j hj
  · simp only [PinnedIn, (hsame k).1, (hsame k).2.1, (hsame k).2.2.2]
    exact hi.refcnt_eq k
  · obtain ⟨k, hk, hkb, hkv, hkd⟩ := hi.cached b' hb'
    refine ⟨k, (hsame k).1.trans hk, (hsame k).2.1.trans hkb, (hsame k).2.2.1.trans hkv, ?_⟩
    show ((setData s.bc i d).buf k).data = Function.update s.logged (s.bc.buf i).blockno d b'
    rw [hbuf]
    by_cases hki : k = i
    · subst hki
      rw [if_pos rfl, ← hkb, Function.update_self]
    · -- the block's buffer is another one, so the block is another one
      have hne : b' ≠ (s.bc.buf i).blockno := fun h =>
        hki (hi.unique k i hk hd (hkb.trans h))
      rw [if_neg hki, Function.update_of_ne hne]
      exact hkd
  · simp only [(hsame k).1, (hsame k).2.1, (hsame k).2.2.1] at hkv hkd hnot
    show ((setData s.bc i d).buf k).data = s.disk ((setData s.bc i d).buf k).blockno.toNat
    rw [(hsame k).2.1, hbuf, if_neg (fun (h : k = i) => hnot (h ▸ hin))]
    exact hi.coherent k hkv hkd hnot

/-- A file-system call changes a buffer it holds whose block is not in
`P`, and `log_write` pins it and appends the block. -/
theorem CacheInv.write_new (hi : CacheInv s P) {i : Fin n} (hr : i ∈ s.refs) {d : Log.Block}
    (hnot : (s.bc.buf i).blockno ∉ P) :
    CacheInv { s with bc := bpin (setData s.bc i d) i,
                      logged := Function.update s.logged (s.bc.buf i).blockno d }
      (P ++ [(s.bc.buf i).blockno]) := by
  have hbuf : ∀ k, (bpin (setData s.bc i d) i).buf k =
      if k = i then { s.bc.buf i with data := d, refcnt := (s.bc.buf i).refcnt + 1 }
      else s.bc.buf k := by
    intro k
    rw [bpin, modify_buf, setData, modify_buf_self]
    split
    · rfl
    · exact modify_buf_of_ne _ _ _ _ (by assumption)
  have hsame : ∀ k, ((bpin (setData s.bc i d) i).buf k).dev = (s.bc.buf k).dev ∧
      ((bpin (setData s.bc i d) i).buf k).blockno = (s.bc.buf k).blockno ∧
      ((bpin (setData s.bc i d) i).buf k).valid = (s.bc.buf k).valid := by
    intro k
    rw [hbuf]
    split
    · subst k
      exact ⟨rfl, rfl, rfl⟩
    · exact ⟨rfl, rfl, rfl⟩
  obtain ⟨hv, hd⟩ := hi.held i hr
  have hother : ∀ k, k ≠ i → (s.bc.buf k).dev = ROOTDEV →
      (s.bc.buf k).blockno ≠ (s.bc.buf i).blockno :=
    fun k hki hk hkb => hki (hi.unique k i hk hd hkb)
  refine ⟨fun k => hi.lru_mem k, fun j k hj hk hjk => ?_, fun j hj => ?_, fun k => ?_,
    fun b' hb' => ?_, fun k hkv hkd hnot' => ?_⟩
  · simp only [(hsame j).1, (hsame k).1, (hsame j).2.1, (hsame k).2.1] at hj hk hjk
    exact hi.unique j k hj hk hjk
  · simp only [(hsame j).1, (hsame j).2.2]
    exact hi.held j hj
  · have hr' := hi.refcnt_eq k
    simp only [PinnedIn, (hsame k).1, (hsame k).2.1, List.mem_append, List.mem_singleton]
      at hr' ⊢
    show ((bpin (setData s.bc i d) i).buf k).refcnt = _
    rw [hbuf]
    by_cases hki : k = i
    · -- the one new pin
      subst hki
      rw [if_pos rfl, if_pos ⟨hd, .inr rfl⟩]
      rw [if_neg (fun h => hnot h.2)] at hr'
      dsimp only
      omega
    · rw [if_neg hki]
      by_cases hkd : (s.bc.buf k).dev = ROOTDEV
      · simp only [hkd, hother k hki hkd, or_false, true_and] at hr' ⊢
        exact hr'
      · simp only [hkd, false_and, if_false] at hr' ⊢
        exact hr'
  · show ∃ k, ((bpin (setData s.bc i d) i).buf k).dev = ROOTDEV ∧ _
    rcases List.mem_append.mp hb' with hb' | hb'
    · obtain ⟨k, hk, hkb, hkv, hkd⟩ := hi.cached b' hb'
      have hki : k ≠ i := fun h => hnot (h ▸ hkb ▸ hb')
      refine ⟨k, (hsame k).1.trans hk, (hsame k).2.1.trans hkb, (hsame k).2.2.trans hkv, ?_⟩
      show ((bpin (setData s.bc i d) i).buf k).data = Function.update s.logged _ d b'
      rw [hbuf, if_neg hki, Function.update_of_ne (hkb ▸ hother k hki hk)]
      exact hkd
    · -- the new block is cached in the written buffer
      obtain rfl := List.mem_singleton.mp hb'
      refine ⟨i, (hsame i).1.trans hd, (hsame i).2.1, (hsame i).2.2.trans hv, ?_⟩
      show ((bpin (setData s.bc i d) i).buf i).data = _
      rw [hbuf, if_pos rfl]
      exact (Function.update_self (s.bc.buf i).blockno d s.logged).symm
  · simp only [(hsame k).1, (hsame k).2.1, (hsame k).2.2, List.mem_append, not_or] at hkv hkd hnot'
    show ((bpin (setData s.bc i d) i).buf k).data =
      s.disk ((bpin (setData s.bc i d) i).buf k).blockno.toNat
    rw [(hsame k).2.1, hbuf, if_neg (fun (h : k = i) => hnot'.2 (List.mem_singleton.mpr (h ▸ rfl)))]
    exact hi.coherent k hkv hkd hnot'.1

/-- The invariant does not read the header or the phase. -/
theorem CacheInv.with_log (hi : CacheInv s P) (l : List UInt32) (p : Phase) :
    CacheInv { s with lh := l, phase := p } P :=
  ⟨hi.lru_mem, hi.unique, hi.held, hi.refcnt_eq, hi.cached, hi.coherent⟩

end Cache

theorem mem_erase_pair {α : Type} [DecidableEq α] (a b : α) (r : List α) :
    a ∈ (a :: b :: r).erase b := by
  by_cases hab : a = b
  · subst hab
    simp
  · rw [List.erase_cons_tail (by simpa using hab)]
    exact List.mem_cons_self ..

/-! ## The passes of the log over the cache

Each pass `bread`s its buffers, copies, writes through and releases; the
invariant holds for the blocks `P` that stay pinned across it. -/

section Passes

variable {s s' : State n} {P : List UInt32}

theorem CacheInv.readHead (hi : CacheInv s P)
    (h : LogCache.readHead start s = some s') :
    CacheInv s' P ∧ s'.phase = s.phase ∧ s'.disk = s.disk ∧ s'.logged = s.logged := by
  unfold LogCache.readHead at h
  split at h
  · cases h
  · rename_i s₁ i hb
    simp only [Option.some.injEq] at h
    subst h
    obtain ⟨hi₁, -⟩ := hi.bread hb
    obtain ⟨-, hr, -, hph, hd, hl⟩ := State.bread_frame hb
    refine ⟨?_, hph, hd, hl⟩
    exact (hi₁.with_log _ s₁.phase).brelse (by rw [hr]; exact List.mem_cons_self ..)

theorem CacheInv.writeHead (hi : CacheInv s P) (hP : UInt32.ofNat start ∉ P)
    (h : LogCache.writeHead start s = some s') :
    CacheInv s' P ∧ s'.lh = s.lh ∧ s'.phase = s.phase ∧ s'.logged = s.logged ∧
      ∀ x, x ≠ (UInt32.ofNat start).toNat → s'.disk x = s.disk x := by
  unfold LogCache.writeHead at h
  split at h
  · cases h
  · rename_i s₁ i hb
    simp only [Option.some.injEq] at h
    subst h
    obtain ⟨hi₁, hdev, hno, -, -⟩ := hi.bread hb
    obtain ⟨-, hr, hlh, hph, hd, hl⟩ := State.bread_frame hb
    refine ⟨(hi₁.store hdev fun h => (hP (hno ▸ h)).elim).brelse (by simp [hr]),
      by simp [hlh], by simp [hph], by simp [hl], fun x hx => ?_⟩
    rw [State.brelse_disk, State.store_disk, hno, hd]
    exact Function.update_of_ne hx _ _

/-- A pass of `write_log` copies the logged contents of the block to its
log block. -/
theorem CacheInv.writeLogTail {t : Nat} {b : UInt32} (hi : CacheInv s P)
    (hlog : UInt32.ofNat (start + t + 1) ∉ P) (hb : b ∈ P)
    (h : LogCache.writeLogTail start s t b = some s') :
    CacheInv s' P ∧ s'.lh = s.lh ∧ s'.phase = s.phase ∧ s'.logged = s.logged ∧
      s'.disk = Function.update s.disk (UInt32.ofNat (start + t + 1)).toNat (s.logged b) := by
  unfold LogCache.writeLogTail at h
  split at h
  · cases h
  · rename_i s₁ toBuf h₁
    split at h
    · cases h
    · rename_i s₂ fromBuf h₂
      simp only [Option.some.injEq] at h
      subst h
      obtain ⟨hi₁, hdev₁, hno₁, -, -⟩ := hi.bread h₁
      obtain ⟨-, hr₁, hlh₁, hph₁, hd₁, hl₁⟩ := State.bread_frame h₁
      obtain ⟨hi₂, -, -, -, hdata₂⟩ := hi₁.bread h₂
      obtain ⟨-, hr₂, hlh₂, hph₂, hd₂, hl₂⟩ := State.bread_frame h₂
      -- the log block's buffer is held, so the second `bread` keeps it
      obtain ⟨hdev₂, hno₂, -⟩ := hi₁.bread_keeps h₂ (.inl (by rw [hr₁]; exact List.mem_cons_self ..))
      have hto : (s₂.bc.buf toBuf).dev = ROOTDEV ∧
          (s₂.bc.buf toBuf).blockno = UInt32.ofNat (start + t + 1) :=
        ⟨hdev₂.trans hdev₁, hno₂.trans hno₁⟩
      have hfrom : (s₂.bc.buf fromBuf).data = s.logged b := by
        rw [hdata₂, if_pos hb, hl₁]
      refine ⟨((hi₂.store hto.1 fun h => (hlog (hto.2 ▸ h)).elim).brelse
          (by simp [hr₂])).brelse (by simp [hr₂, hr₁]),
        by simp [hlh₂, hlh₁], by simp [hph₂, hph₁], by simp [hl₂, hl₁], ?_⟩
      rw [State.brelse_disk, State.brelse_disk, State.store_disk, hto.2, hfrom, hd₂, hd₁]

/-- A pass of `install_trans(0)` copies the logged contents of the block
home, from its log block, and unpins it. -/
theorem CacheInv.installTail {t : Nat} {b : UInt32} (hi : CacheInv s (b :: P)) (hbP : b ∉ P)
    (hlog : UInt32.ofNat (start + t + 1) ∉ b :: P)
    (hlb : s.disk (UInt32.ofNat (start + t + 1)).toNat = s.logged b)
    (h : LogCache.installTail start false s t b = some s') :
    CacheInv s' P ∧ s'.lh = s.lh ∧ s'.phase = s.phase ∧ s'.logged = s.logged ∧
      s'.disk = Function.update s.disk b.toNat (s.logged b) := by
  unfold LogCache.installTail at h
  split at h
  · cases h
  · rename_i s₁ lbuf h₁
    split at h
    · cases h
    · rename_i s₂ dbuf h₂
      simp only [Bool.false_eq_true, if_false, Option.some.injEq] at h
      subst h
      obtain ⟨hi₁, hdev₁, hno₁, -, hdata₁⟩ := hi.bread h₁
      obtain ⟨-, hr₁, hlh₁, hph₁, hd₁, hl₁⟩ := State.bread_frame h₁
      obtain ⟨hi₂, hdev₂, hno₂, -, hdata₂⟩ := hi₁.bread h₂
      obtain ⟨-, hr₂, hlh₂, hph₂, hd₂, hl₂⟩ := State.bread_frame h₂
      obtain ⟨-, -, hkeep⟩ := hi₁.bread_keeps h₂ (.inl (by rw [hr₁]; exact List.mem_cons_self ..))
      -- the log block holds the logged contents, which the home buffer gets
      have hl : (s₂.bc.buf lbuf).data = s.logged b := by
        rw [hkeep, hdata₁, if_neg hlog, hlb]
      have hd : (s₂.bc.buf dbuf).data = s.logged b := by
        rw [hdata₂, if_pos (List.mem_cons_self ..), hl₁]
      have hi₃ := hi₂.store hdev₂ (d := (s₂.bc.buf lbuf).data) fun _ => by rw [hl, hno₂, hl₂, hl₁]
      have hdisk₃ : (s₂.store dbuf (s₂.bc.buf lbuf).data).disk =
          Function.update s.disk b.toNat (s.logged b) := by
        rw [State.store_disk, hno₂, hl, hd₂, hd₁]
      -- now the disk holds the block's contents, so its pin can go
      have hi₄ := hi₃.unpin hbP (i := dbuf) (by rw [State.store_dev]; exact hdev₂)
        (by rw [State.store_blockno]; exact hno₂) (by
        rw [hdisk₃, Function.update_self]
        show ((setData s₂.bc dbuf _).buf dbuf).data = _
        rw [setData, modify_buf_self, hl])
      refine ⟨(hi₄.brelse (by simp [hr₂, hr₁])).brelse ?_, by simp [hlh₂, hlh₁],
        by simp [hph₂, hph₁], by simp [hl₂, hl₁], hdisk₃⟩
      show dbuf ∈ (s₂.refs).erase lbuf
      rw [hr₂, hr₁]
      exact mem_erase_pair ..

/-- A pass of `install_trans(1)`, when nothing is pinned. -/
theorem CacheInv.recoverTail {t : Nat} {b : UInt32} (hi : CacheInv s [])
    (h : LogCache.installTail start true s t b = some s') :
    CacheInv s' [] ∧ s'.lh = s.lh ∧ s'.phase = s.phase ∧ s'.logged = s.logged := by
  unfold LogCache.installTail at h
  split at h
  · cases h
  · rename_i s₁ lbuf h₁
    split at h
    · cases h
    · rename_i s₂ dbuf h₂
      simp only [if_true, Option.some.injEq] at h
      subst h
      obtain ⟨hi₁, -⟩ := hi.bread h₁
      obtain ⟨-, hr₁, hlh₁, hph₁, -, hl₁⟩ := State.bread_frame h₁
      obtain ⟨hi₂, hdev₂, -⟩ := hi₁.bread h₂
      obtain ⟨-, hr₂, hlh₂, hph₂, -, hl₂⟩ := State.bread_frame h₂
      refine ⟨((hi₂.store hdev₂ fun h => absurd h List.not_mem_nil).brelse
          (by simp [hr₂, hr₁])).brelse ?_, by simp [hlh₂, hlh₁], by simp [hph₂, hph₁],
        by simp [hl₂, hl₁]⟩
      show dbuf ∈ (s₂.refs).erase lbuf
      rw [hr₂, hr₁]
      exact mem_erase_pair ..

end Passes

/-! ## The log side of the invariant -/

/-- How many blocks `write_log` has copied to the log. -/
def written (s : State n) : Nat :=
  match s.phase with
  | .writing t => t
  | .installing _ => s.lh.length
  | _ => 0

/-- How many blocks `install_trans(0)` has installed. -/
def installed (s : State n) : Nat :=
  match s.phase with
  | .installing t => t
  | _ => 0

/-- The header fits the log and names each block once, and the disk holds
the logged contents of each block copied to the log and each block
installed. -/
structure LogInv (s : State n) : Prop where
  fits : s.phase.running → Log.HeaderFits start size ⟨s.lh⟩
  nodup : s.phase.running → s.lh.Nodup
  logBlocks : ∀ k (hk : k < s.lh.length), k < written s →
    s.disk (start + k + 1) = s.logged s.lh[k]
  homeBlocks : ∀ k (hk : k < s.lh.length), k < installed s →
    s.disk s.lh[k].toNat = s.logged s.lh[k]

/-- The invariant: the cache with the pending blocks pinned, and the log. -/
structure Inv (s : State n) : Prop where
  cache : CacheInv s (pending s)
  log : LogInv start size s

section LogSide

variable {start size} {s s' : State n}

theorem pending_congr (hl : s'.lh = s.lh) (hp : s'.phase = s.phase) : pending s' = pending s := by
  unfold pending
  rw [hl, hp]

theorem LogInv.congr (hi : LogInv start size s) (hl : s'.lh = s.lh) (hp : s'.phase = s.phase)
    (hd : s'.disk = s.disk) (hg : s'.logged = s.logged) : LogInv start size s' := by
  obtain ⟨hf, hn, hlog, hhome⟩ := hi
  have hw : written s' = written s := by unfold written; rw [hl, hp]
  have hin : installed s' = installed s := by unfold installed; rw [hp]
  refine ⟨fun hr => ?_, fun hr => ?_, fun k hk hkw => ?_, fun k hk hki => ?_⟩
  · rw [hl]
    exact hf (hp ▸ hr)
  · rw [hl]
    exact hn (hp ▸ hr)
  · simp only [hd, hg, hl] at hk ⊢
    exact hlog k hk (hw ▸ hkw)
  · simp only [hd, hg, hl] at hk ⊢
    exact hhome k hk (hin ▸ hki)

/-- Before anything is copied to the log, only the header is constrained. -/
theorem LogInv.of_start (hf : s.phase.running → Log.HeaderFits start size ⟨s.lh⟩)
    (hn : s.phase.running → s.lh.Nodup) (hw : written s = 0) (hin : installed s = 0) :
    LogInv start size s :=
  ⟨hf, hn, fun _ _ hk => absurd hk (by omega), fun _ _ hk => absurd hk (by omega)⟩

/-- Outside a transaction and a commit nothing is asked of the log. -/
theorem LogInv.of_recovering {t : Nat} (hp : s.phase = .recovering t) : LogInv start size s := by
  have hw : written s = 0 := by unfold written; rw [hp]
  have hin : installed s = 0 := by unfold installed; rw [hp]
  refine ⟨fun hr => ?_, fun hr => ?_, fun k _ hk => ?_, fun k _ hk => ?_⟩
  · simp [hp, Phase.running] at hr
  · simp [hp, Phase.running] at hr
  · omega
  · omega

/-- An empty transaction. -/
theorem LogInv.of_empty (hsize : 0 < size) (hl : s.lh = []) :
    LogInv start size s := by
  refine ⟨fun _ => ?_, fun _ => by simp [hl], fun k hk _ => ?_, fun k hk _ => ?_⟩
  · rw [hl]
    exact Log.HeaderFits.empty hsize
  · simp [hl] at hk
  · simp [hl] at hk

theorem mem_pending {b : UInt32} (h : b ∈ pending s) : s.phase.running ∧ b ∈ s.lh := by
  unfold pending at h
  split at h
  · simp_all [Phase.running]
  · simp_all [Phase.running]
  · rename_i t hp
    exact ⟨by simp [hp, Phase.running], List.mem_of_mem_drop h⟩
  · simp at h
  · simp at h

variable (hlay : start + size ≤ 2 ^ 32)
include hlay

/-- Block numbers of the log area are below `2 ^ 32`. -/
theorem toNat_ofNat_log {x : Nat} (hx : x < start + size) : (UInt32.ofNat x).toNat = x :=
  UInt32.toNat_ofNat_of_lt' (by rw [UInt32.size]; omega)

/-- The header names no block of the log area. -/
theorem ofNat_not_mem {l : List UInt32} (hf : Log.HeaderFits start size ⟨l⟩) {x : Nat}
    (hx₁ : start ≤ x) (hx₂ : x < start + size) : UInt32.ofNat x ∉ l := by
  intro hm
  have := hf.home_out _ hm
  rw [toNat_ofNat_log hlay hx₂] at this
  exact this ⟨hx₁, hx₂⟩

end LogSide

/-! ## Every step keeps the invariant -/

section Steps

variable {start size} {s s' : State n}

theorem Inv.initlog (hi : Inv start size s) (h : step start size s .initlog = some s') :
    Inv start size s' := by
  rw [LogCache.step] at h
  split at h
  · rename_i hp
    obtain ⟨s₁, h₁, rfl⟩ := Option.map_eq_some_iff.mp h
    have hP : pending s = [] := by unfold pending; rw [hp]
    obtain ⟨hc, -⟩ := (hP ▸ hi.cache).readHead start h₁
    exact ⟨hc.with_log s₁.lh _, LogInv.of_recovering rfl⟩
  · cases h

theorem Inv.recoverTail (hi : Inv start size s) (h : step start size s .recoverTail = some s') :
    Inv start size s' := by
  rw [LogCache.step] at h
  split at h
  · rename_i t hp
    split at h
    · rename_i b hb
      obtain ⟨s₁, h₁, rfl⟩ := Option.map_eq_some_iff.mp h
      have hP : pending s = [] := by unfold pending; rw [hp]
      obtain ⟨hc, -⟩ := (hP ▸ hi.cache).recoverTail start h₁
      exact ⟨hc.with_log s₁.lh _, LogInv.of_recovering rfl⟩
    · cases h
  · cases h

/-- The end of a recovery or a commit: the header is cleared and written,
and a new transaction begins. -/
theorem Inv.clear (hsize : 0 < size) {s₁ : State n} (hc : CacheInv s [])
    (h : LogCache.writeHead start { s with lh := [] } = some s₁) :
    Inv start size (s₁.setPhase .trans) := by
  obtain ⟨hc₁, hl, -⟩ := (hc.with_log [] s.phase).writeHead start List.not_mem_nil h
  have hP : pending (s₁.setPhase .trans) = [] := by
    simp only [pending, State.setPhase_phase, State.setPhase_lh, hl]
  exact ⟨hP ▸ hc₁.with_log s₁.lh _, LogInv.of_empty hsize hl⟩

theorem Inv.recoverDone (hsize : 0 < size) (hi : Inv start size s)
    (h : step start size s .recoverDone = some s') : Inv start size s' := by
  rw [LogCache.step] at h
  split at h
  · rename_i t hp
    split at h
    · obtain ⟨s₁, h₁, rfl⟩ := Option.map_eq_some_iff.mp h
      have hP : pending s = [] := by unfold pending; rw [hp]
      exact Inv.clear hsize (hP ▸ hi.cache) h₁
    · cases h
  · cases h

theorem Inv.bread (hi : Inv start size s) {b : UInt32} (h : step start size s (.bread b) = some s') :
    Inv start size s' := by
  rw [LogCache.step] at h
  split at h
  · obtain ⟨⟨s₁, i⟩, h₁, rfl⟩ := Option.map_eq_some_iff.mp h
    obtain ⟨-, -, hl, hp, hd, hg⟩ := State.bread_frame h₁
    exact ⟨(pending_congr hl hp).symm ▸ (hi.cache.bread h₁).1, hi.log.congr hl hp hd hg⟩
  · cases h

theorem Inv.brelse (hi : Inv start size s) {i : Fin n}
    (h : step start size s (.brelse i) = some s') : Inv start size s' := by
  rw [LogCache.step] at h
  split at h
  · rename_i hc
    cases h
    exact ⟨hi.cache.brelse hc.2, hi.log.congr rfl rfl rfl rfl⟩
  · cases h

/-- A write by a file-system call: the block's contents are logged, and the
block is pinned and appended unless the transaction has it already. -/
theorem Inv.write (hi : Inv start size s) {i : Fin n} {d : Log.Block}
    (h : step start size s (.write i d) = some s') : Inv start size s' := by
  rw [LogCache.step] at h
  split at h
  · rename_i hguard
    obtain ⟨hp, hr, hout⟩ := hguard
    have hP : pending s = s.lh := by unfold pending; rw [hp]
    have hrun : s.phase.running := by simp [hp, Phase.running]
    have hbi : ((setData s.bc i d).buf i).blockno = (s.bc.buf i).blockno := by
      simp [setData]
    unfold logWrite at h
    split at h
    · cases h
    · rename_i hsz
      split at h
      · -- absorbed: the block is in the transaction already
        rename_i hin
        cases h
        have hc := hi.cache.write_absorbed hr (d := d) (by rw [hP, ← hbi]; exact hin)
        refine ⟨hc, LogInv.of_start (fun _ => hi.log.fits hrun)
          (fun _ => hi.log.nodup hrun) (by simp [written, hp]) (by simp [installed, hp])⟩
      · -- a new block: pinned and appended
        rename_i hin
        cases h
        have hc := (hP ▸ hi.cache).write_new hr (d := d) (hbi ▸ hin)
        have hf := hi.log.fits hrun
        refine ⟨?_, LogInv.of_start (fun _ => ⟨?_, ?_, fun b hb => ?_⟩) (fun _ => ?_)
          (by simp [written, hp]) (by simp [installed, hp])⟩
        · simp only [pending, hp, hbi]
          exact hc.with_log _ _
        · simp only [Log.LogHeader.n, List.length_append, List.length_singleton] at hsz ⊢
          omega
        · simp only [Log.LogHeader.n, List.length_append, List.length_singleton] at hsz ⊢
          omega
        · rcases List.mem_append.mp hb with hb | hb
          · exact hf.home_out b hb
          · rw [List.mem_singleton.mp hb, hbi]
            exact hout
        · exact List.nodup_append.mpr ⟨hi.log.nodup hrun, List.nodup_singleton _,
            fun a ha b hb => by rw [List.mem_singleton.mp hb]; exact fun h => hin (h ▸ ha)⟩
  · cases h

theorem Inv.commit (hi : Inv start size s) (h : step start size s .commit = some s') :
    Inv start size s' := by
  rw [LogCache.step] at h
  split at h
  · rename_i hp
    have hrun : s.phase.running := by simp [hp, Phase.running]
    split at h
    · cases h
      exact hi
    · cases h
      have hP : pending (s.setPhase (.writing 0)) = pending s := by
        simp only [pending, hp, State.setPhase_phase, State.setPhase_lh]
      exact ⟨hP ▸ hi.cache.with_log s.lh _, LogInv.of_start (fun _ => hi.log.fits hrun)
        (fun _ => hi.log.nodup hrun) rfl rfl⟩
  · cases h

section Commit

variable (hlay : start + size ≤ 2 ^ 32)
include hlay

/-- What a pass of `write_log` does under the invariant: block [t] of the
header goes, with its logged contents, to log block [start + t + 1], which
no pending block is. -/
theorem Inv.writeLogTail_spec {t : Nat} {s₁ : State n} (hi : Inv start size s)
    (hp : s.phase = .writing t) (ht : t < s.lh.length)
    (h : LogCache.writeLogTail start s t s.lh[t] = some s₁) :
    CacheInv s₁ s.lh ∧ s₁.lh = s.lh ∧ s₁.logged = s.logged ∧
      s₁.disk = Function.update s.disk (start + t + 1) (s.logged s.lh[t]) := by
  have hrun : s.phase.running := by simp [hp, Phase.running]
  have hf := hi.log.fits hrun
  have hsz : s.lh.length < size := hf.n_lt
  have hP : pending s = s.lh := by unfold pending; rw [hp]
  have hlog := ofNat_not_mem hlay hf (x := start + t + 1) (by omega) (by omega)
  obtain ⟨hc, hl, -, hg, hd⟩ := (hP ▸ hi.cache).writeLogTail start hlog (List.getElem_mem ht) h
  rw [toNat_ofNat_log hlay (by omega)] at hd
  exact ⟨hc, hl, hg, hd⟩

/-- What a pass of `install_trans(0)` does under the invariant: block [t]
of the header is pending no more, and its logged contents, read back from
its log block, reach its home. -/
theorem Inv.installTail_spec {t : Nat} {s₁ : State n} (hi : Inv start size s)
    (hp : s.phase = .installing t) (ht : t < s.lh.length)
    (h : LogCache.installTail start false s t s.lh[t] = some s₁) :
    CacheInv s₁ (s.lh.drop (t + 1)) ∧ s₁.lh = s.lh ∧ s₁.logged = s.logged ∧
      s₁.disk = Function.update s.disk s.lh[t].toNat (s.logged s.lh[t]) := by
  have hrun : s.phase.running := by simp [hp, Phase.running]
  have hf := hi.log.fits hrun
  have hsz : s.lh.length < size := hf.n_lt
  have hdrop : s.lh.drop t = s.lh[t] :: s.lh.drop (t + 1) := List.drop_eq_getElem_cons ht
  have hP : pending s = s.lh[t] :: s.lh.drop (t + 1) := by simp only [pending, hp, hdrop]
  -- the header names each block once, so the installed one is pending no more
  have hbP : s.lh[t] ∉ s.lh.drop (t + 1) := by
    have hnd := (hi.log.nodup hrun).sublist (List.drop_sublist t s.lh)
    rw [hdrop] at hnd
    exact (List.nodup_cons.mp hnd).1
  have hlog : UInt32.ofNat (start + t + 1) ∉ s.lh[t] :: s.lh.drop (t + 1) := by
    rw [← hdrop]
    exact fun hm => ofNat_not_mem hlay hf (by omega) (by omega) (List.mem_of_mem_drop hm)
  have hlb : s.disk (UInt32.ofNat (start + t + 1)).toNat = s.logged s.lh[t] := by
    rw [toNat_ofNat_log hlay (by omega)]
    exact hi.log.logBlocks t ht (by simp [written, hp]; exact ht)
  obtain ⟨hc, hl, -, hg, hd⟩ := (hP ▸ hi.cache).installTail start hbP hlog hlb h
  exact ⟨hc, hl, hg, hd⟩

theorem Inv.writeLogTail (hi : Inv start size s)
    (h : step start size s .writeLogTail = some s') : Inv start size s' := by
  rw [LogCache.step] at h
  split at h
  · rename_i t hp
    split at h
    · rename_i b hb
      obtain ⟨s₁, h₁, rfl⟩ := Option.map_eq_some_iff.mp h
      obtain ⟨ht, rfl⟩ := List.getElem?_eq_some_iff.mp hb
      obtain ⟨hc, hl, hg, hd⟩ := hi.writeLogTail_spec hlay hp ht h₁
      have hrun : s.phase.running := by simp [hp, Phase.running]
      have hw : written s = t := by simp [written, hp]
      refine ⟨?_, ⟨fun _ => hl ▸ hi.log.fits hrun, fun _ => hl ▸ hi.log.nodup hrun,
        fun k hk hkw => ?_, fun k _ hki => absurd hki (by simp [installed])⟩⟩
      · simp only [pending, State.setPhase_phase, State.setPhase_lh, hl]
        exact hc.with_log _ _
      · -- the log blocks before [t] stay, and [t] now holds its block
        have hkw' : k < t + 1 := hkw
        simp only [State.setPhase_disk, State.setPhase_logged, State.setPhase_lh, hl, hg, hd]
        rcases Nat.lt_succ_iff_lt_or_eq.mp hkw' with hkt | rfl
        · rw [Function.update_of_ne (by omega)]
          exact hi.log.logBlocks k _ (hw ▸ hkt)
        · rw [Function.update_self]
    · cases h
  · cases h

/-- The commit point: the header block, which no pending block is, is
written once every block is in the log. -/
theorem Inv.writeHead (hi : Inv start size s)
    (h : step start size s .writeHead = some s') : Inv start size s' := by
  rw [LogCache.step] at h
  split at h
  · rename_i t hp
    split at h
    · rename_i htl
      obtain ⟨s₁, h₁, rfl⟩ := Option.map_eq_some_iff.mp h
      have hrun : s.phase.running := by simp [hp, Phase.running]
      have hf := hi.log.fits hrun
      have hsz : s.lh.length < size := hf.n_lt
      have hP : pending s = s.lh := by unfold pending; rw [hp]
      have hst := ofNat_not_mem hlay hf (x := start) le_rfl (by omega)
      obtain ⟨hc, hl, -, hg, hd⟩ := (hP ▸ hi.cache).writeHead start hst h₁
      have hw : written s = s.lh.length := by simp [written, hp, htl]
      refine ⟨?_, ⟨fun _ => hl ▸ hf, fun _ => hl ▸ hi.log.nodup hrun, fun k hk hkw => ?_,
        fun k _ hki => absurd hki (by simp [installed])⟩⟩
      · simp only [pending, State.setPhase_phase, State.setPhase_lh, hl, List.drop_zero]
        exact hc.with_log _ _
      · have hk' : k < s.lh.length := hl ▸ hk
        simp only [State.setPhase_disk, State.setPhase_logged, State.setPhase_lh, hl, hg]
        rw [hd _ (by rw [toNat_ofNat_log hlay (by omega)]; omega)]
        exact hi.log.logBlocks k hk' (hw ▸ hk')
    · cases h
  · cases h

theorem Inv.installTail (hi : Inv start size s)
    (h : step start size s .installTail = some s') : Inv start size s' := by
  rw [LogCache.step] at h
  split at h
  · rename_i t hp
    split at h
    · rename_i b hb
      obtain ⟨s₁, h₁, rfl⟩ := Option.map_eq_some_iff.mp h
      obtain ⟨ht, rfl⟩ := List.getElem?_eq_some_iff.mp hb
      obtain ⟨hc, hl, hg, hd⟩ := hi.installTail_spec hlay hp ht h₁
      have hrun : s.phase.running := by simp [hp, Phase.running]
      have hf := hi.log.fits hrun
      have hsz : s.lh.length < size := hf.n_lt
      have hn := hi.log.nodup hrun
      have hin : installed s = t := by simp [installed, hp]
      refine ⟨?_, ⟨fun _ => hl ▸ hf, fun _ => hl ▸ hn, fun k hk hkw => ?_, fun k hk hki => ?_⟩⟩
      · simp only [pending, State.setPhase_phase, State.setPhase_lh, hl]
        exact hc.with_log _ _
      · -- a home block lies outside the log, so the log blocks stay
        have hk' : k < s.lh.length := hl ▸ hk
        simp only [State.setPhase_disk, State.setPhase_logged, State.setPhase_lh, hl, hg, hd]
        rw [Function.update_of_ne]
        · exact hi.log.logBlocks k hk' (by simp [written, hp]; exact hk')
        · intro he
          exact hf.home_out _ (List.getElem_mem ht) (by rw [← he]; exact ⟨by omega, by omega⟩)
      · -- the homes before [t] stay, as the header names each block once
        have hk' : k < s.lh.length := hl ▸ hk
        have hki' : k < t + 1 := hki
        simp only [State.setPhase_disk, State.setPhase_logged, State.setPhase_lh, hl, hg, hd]
        rcases Nat.lt_succ_iff_lt_or_eq.mp hki' with hkt | rfl
        · have hne : s.lh[k] ≠ s.lh[t] := fun he => by
            have := (hn.getElem_inj_iff).mp he
            omega
          rw [Function.update_of_ne (fun he => hne (UInt32.toNat_inj.mp he))]
          exact hi.log.homeBlocks k hk' (hin ▸ hkt)
        · rw [Function.update_self]
    · cases h
  · cases h

end Commit

theorem Inv.commitDone (hsize : 0 < size) (hi : Inv start size s)
    (h : step start size s .commitDone = some s') : Inv start size s' := by
  rw [LogCache.step] at h
  split at h
  · rename_i t hp
    split at h
    · rename_i htl
      obtain ⟨s₁, h₁, rfl⟩ := Option.map_eq_some_iff.mp h
      have hP : pending s = [] := by simp only [pending, hp, htl, List.drop_length]
      exact Inv.clear hsize (hP ▸ hi.cache) h₁
    · cases h
  · cases h

theorem Inv.of_step (hsize : 0 < size) (hlay : start + size ≤ 2 ^ 32) (hi : Inv start size s)
    {e : Ev n} (h : LogCache.step start size s e = some s') : Inv start size s' := by
  cases e with
  | initlog => exact hi.initlog h
  | recoverTail => exact hi.recoverTail h
  | recoverDone => exact hi.recoverDone hsize h
  | bread b => exact hi.bread h
  | brelse i => exact hi.brelse h
  | write i d => exact hi.write h
  | commit => exact hi.commit h
  | writeLogTail => exact hi.writeLogTail hlay h
  | writeHead => exact hi.writeHead hlay h
  | installTail => exact hi.installTail hlay h
  | commitDone => exact hi.commitDone hsize h

end Steps

/-- At boot no buffer holds a block of the file-system device, and nothing
is pending. -/
theorem Inv.init {start size : Nat} (d : Disk Log.Block) : Inv start size (State.init d) := by
  have hdev : ∀ i, ((State.init d).bc.buf i).dev ≠ ROOTDEV := fun _ => by
    simp [State.init, binit, ROOTDEV]
  refine ⟨⟨fun i => ?_, fun i _ hi _ _ => absurd hi (hdev i), fun _ hi => (by cases hi),
    fun i => ?_, fun _ hb => (by cases hb), fun _ hv _ _ => (by simp [State.init, binit] at hv)⟩,
    LogInv.of_start (fun h => (by cases h)) (fun h => (by cases h)) rfl rfl⟩
  · exact List.mem_reverse.mpr (List.mem_finRange i)
  · simp only [State.init, binit, pending, PinnedIn, List.not_mem_nil, and_false, if_false]
    rfl

theorem inv_reachable {start size : Nat} (hsize : 0 < size) (hlay : start + size ≤ 2 ^ 32)
    (d : Disk Log.Block) : (cacheSystem start size d).Invariant (Inv start size) :=
  System.invariant_of_step _ (Inv.init d) fun _ _ _ hi h => hi.of_step hsize hlay h

/-! ## Pending blocks stay pinned -/

/-- In every reachable state, each pending block (from the first
`log_write` of it in a transaction until `install_trans(0)` installs it) is
in exactly one buffer, which holds its logged contents and has one reference
more than its holders; `bget` hands that buffer out for no other block; and
the passes of `write_log` and `install_trans(0)` copy the logged contents. -/
theorem pending_blocks_pinned {start size : Nat} (hsize : 0 < size)
    (hlay : start + size ≤ 2 ^ 32) (d : Disk Log.Block) {s : State NBUF}
    (hs : (cacheSystem start size d).Reachable s) :
    (∀ b ∈ pending s, ∃ i, (s.bc.buf i).dev = ROOTDEV ∧ (s.bc.buf i).blockno = b ∧
        (s.bc.buf i).valid ∧ (s.bc.buf i).data = s.logged b ∧
        (s.bc.buf i).refcnt = s.refs.count i + 1 ∧
        ∀ j, (s.bc.buf j).dev = ROOTDEV → (s.bc.buf j).blockno = b → j = i) ∧
    (∀ i dev b c', bget s.bc dev b = some (c', i) → (s.bc.buf i).dev = ROOTDEV →
        (s.bc.buf i).blockno ∈ pending s → (s.bc.buf i).holds dev b) ∧
    (∀ t b s', s.phase = .writing t → s.lh[t]? = some b →
        LogCache.writeLogTail start s t b = some s' → s'.disk (start + t + 1) = s.logged b) ∧
    (∀ t b s', s.phase = .installing t → s.lh[t]? = some b →
        LogCache.installTail start false s t b = some s' → s'.disk b.toNat = s.logged b) := by
  have hi := inv_reachable hsize hlay d s hs
  refine ⟨fun b hb => ?_, fun i dev b c' hg hd hb => ?_, fun t b s' hp hb h => ?_,
    fun t b s' hp hb h => ?_⟩
  · obtain ⟨i, hd, hno, hv, hdat⟩ := hi.cache.cached b hb
    refine ⟨i, hd, hno, hv, hdat, ?_, fun j hj hjb => hi.cache.unique j i hj hd (hjb.trans hno.symm)⟩
    rw [hi.cache.refcnt_eq i, if_pos ⟨hd, hno ▸ hb⟩]
  · -- a pinned buffer has a reference, so it is never the free one recycled
    rcases bget_hit_or_free hg with hh | h0
    · exact hh
    · exact absurd h0 (Nat.ne_of_gt (hi.cache.refcnt_pos ⟨hd, hb⟩))
  · obtain ⟨ht, rfl⟩ := List.getElem?_eq_some_iff.mp hb
    obtain ⟨-, -, -, hdisk⟩ := hi.writeLogTail_spec hlay hp ht h
    rw [hdisk, Function.update_self]
  · obtain ⟨ht, rfl⟩ := List.getElem?_eq_some_iff.mp hb
    obtain ⟨-, -, -, hdisk⟩ := hi.installTail_spec hlay hp ht h
    rw [hdisk, Function.update_self]

/-- A block of ones, written by the traces below. -/
def onesBlock : Log.Block := fun _ => 1

/-- Boot on a blank disk, then one transaction that writes block 100. -/
def oneWrite : List (Ev NBUF) :=
  [.initlog, .recoverDone, .bread 100, .write ⟨1, by decide⟩ onesBlock]

theorem pending_blocks_pinned_oneWrite :
    ∃ s, (cacheSystem 2 30 fun _ => zeroBlock).Reachable s ∧ (100 : UInt32) ∈ pending s ∧
      ∃ i, (s.bc.buf i).dev = ROOTDEV ∧ (s.bc.buf i).blockno = 100 ∧
        (s.bc.buf i).valid ∧ (s.bc.buf i).data = s.logged 100 ∧
        (s.bc.buf i).refcnt = s.refs.count i + 1 ∧
        ∀ j, (s.bc.buf j).dev = ROOTDEV → (s.bc.buf j).blockno = 100 → j = i := by
  have hrun : ((cacheSystem 2 30 fun _ => zeroBlock).run oneWrite).any
      (fun s => decide ((100 : UInt32) ∈ pending s)) := by decide +kernel
  obtain ⟨s, hs, hmem⟩ := (Option.any_eq_true _ _).mp hrun
  have hr := System.run_reachable _ hs
  exact ⟨s, hr, of_decide_eq_true hmem,
    (pending_blocks_pinned (by decide) (by decide) _ hr).1 100 (of_decide_eq_true hmem)⟩

/-- The commit of a transaction of blocks 100 and 101 on a blank disk,
stopped after `install_trans(0)` has installed block 100. -/
def installedOne : List (Ev NBUF) :=
  [.initlog, .recoverDone, .bread 100, .write ⟨1, by decide⟩ onesBlock, .brelse ⟨1, by decide⟩,
    .bread 101, .write ⟨2, by decide⟩ onesBlock, .brelse ⟨2, by decide⟩, .commit, .writeLogTail,
    .writeLogTail, .writeHead, .installTail]

/-- Once `install_trans(0)` has unpinned a block, the header still names it
and a buffer still holds it, but nobody holds that buffer and it has no
reference left: the next `bget` of another block may recycle it. -/
theorem unpinned_while_logged :
    ∃ s, (cacheSystem 2 30 fun _ => zeroBlock).Reachable s ∧ (100 : UInt32) ∈ s.lh ∧
      s.refs = [] ∧ (∃ i, (s.bc.buf i).dev = ROOTDEV ∧ (s.bc.buf i).blockno = 100) ∧
      ∀ i, (s.bc.buf i).dev = ROOTDEV → (s.bc.buf i).blockno = 100 → (s.bc.buf i).refcnt = 0 := by
  have hrun : ((cacheSystem 2 30 fun _ => zeroBlock).run installedOne).any
      (fun s => decide ((100 : UInt32) ∈ s.lh ∧ s.refs = [] ∧
        (∃ i, (s.bc.buf i).dev = ROOTDEV ∧ (s.bc.buf i).blockno = 100) ∧
        ∀ i, (s.bc.buf i).dev = ROOTDEV → (s.bc.buf i).blockno = 100 →
          (s.bc.buf i).refcnt = 0)) := by
    decide +kernel
  obtain ⟨s, hs, hfacts⟩ := (Option.any_eq_true _ _).mp hrun
  exact ⟨s, System.run_reachable _ hs, of_decide_eq_true hfacts⟩

end LogCache
end Xv6
