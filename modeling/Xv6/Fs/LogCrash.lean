import Mathlib
import Xv6.Fs.LogDisk

/-!
# Crash atomicity of the write-ahead log

A crash may cut `commit` after any of its block writes, and the recovery run
at the next boot may itself be cut and restarted any number of times.  This
module proves that the home blocks of the transaction then hold either all
their old contents or all their committed contents, the second exactly when
the crash came after `commit`'s first `write_head`, and that nothing outside
the log area and the transaction's blocks changes.

The argument has three parts: recovery, however often restarted, ends where
one complete run ends (`Recovers.eq_run`), because `install_trans` reads
only log blocks and writes only home blocks; the header block is the single
commit point, since each crash state of `commit` carries either the empty
header or the transaction's header; and replaying the transaction's header
copies the cached contents that `write_log` put in the log.
-/

namespace Xv6
namespace Log

open Bytes Disk

/-- Block `a` lies in the log area `[start, start + size)`. -/
def InLog (start size a : Nat) : Prop := start ≤ a ∧ a < start + size

instance (start size a : Nat) : Decidable (InLog start size a) :=
  inferInstanceAs (Decidable (_ ∧ _))

/-- A header that can be committed and replayed: it fits in the header block
and its log blocks in the log area (the "too big a transaction" check of
`log_write` keeps `n` below both `LOGSIZE` and `log.size`), and its home
blocks lie outside the log area, as the file system's blocks do. -/
structure HeaderFits (start size : Nat) (lh : LogHeader) : Prop where
  n_le : lh.n ≤ LOGSIZE
  n_lt : lh.n < size
  home_out : ∀ b ∈ lh.block, ¬ InLog start size b.toNat

variable {start size : Nat} {lh : LogHeader} {cache : Nat → Block}

theorem HeaderFits.empty (hs : 0 < size) : HeaderFits start size .empty :=
  ⟨by simp, by simpa using hs, by simp [LogHeader.empty]⟩

@[simp] theorem installTrans_empty : installTrans start .empty = [] := rfl

theorem HeaderFits.start_inLog (hf : HeaderFits start size lh) :
    InLog start size start :=
  ⟨le_rfl, by have := hf.n_lt; omega⟩

/-! ## The three kinds of writes -/

theorem mem_writeLog {w : Write Block} (hw : w ∈ writeLog start lh cache) :
    ∃ tail, ∃ ht : tail < lh.block.length,
      w.addr = start + tail + 1 ∧ ∀ d, w.data d = cache (lh.block[tail]).toNat := by
  obtain ⟨tail, ht, rfl⟩ := List.mem_mapIdx.mp hw
  exact ⟨tail, ht, rfl, fun _ => rfl⟩

theorem mem_installTrans {w : Write Block} (hw : w ∈ installTrans start lh) :
    ∃ tail, ∃ ht : tail < lh.block.length,
      w.addr = (lh.block[tail]).toNat ∧ ∀ d, w.data d = d (start + tail + 1) := by
  obtain ⟨tail, ht, rfl⟩ := List.mem_mapIdx.mp hw
  exact ⟨tail, ht, rfl, fun _ => rfl⟩

theorem writeLog_inLog (hf : HeaderFits start size lh) :
    ∀ w ∈ writeLog start lh cache, InLog start size w.addr ∧ w.addr ≠ start := by
  intro w hw
  obtain ⟨tail, ht, haddr, -⟩ := mem_writeLog hw
  have := hf.n_lt
  simp only [LogHeader.n] at this
  refine ⟨⟨by omega, by omega⟩, by omega⟩

theorem installTrans_addrs :
    (installTrans start lh).map Write.addr = lh.block.map UInt32.toNat := by
  apply List.ext_getElem (by simp [installTrans])
  intro i h₁ h₂
  simp [installTrans]

/-- `install_trans` reads only the log area and writes only outside it. -/
theorem installTrans_readsOnly (hf : HeaderFits start size lh) :
    ReadsOnly (InLog start size) (installTrans start lh) := by
  intro w hw
  obtain ⟨tail, ht, haddr, hdata⟩ := mem_installTrans hw
  refine ⟨haddr ▸ hf.home_out _ (List.getElem_mem ht), ?_⟩
  intro d₁ d₂ hagree
  have := hf.n_lt
  simp only [LogHeader.n] at this
  rw [hdata, hdata]
  exact hagree _ ⟨by omega, by omega⟩

/-- Installing a header whose log blocks hold `v` of their home blocks puts
`v` into every home block. -/
theorem runWrites_installTrans (hf : HeaderFits start size lh) {d : Disk Block}
    {v : Nat → Block}
    (hlog : ∀ tail (ht : tail < lh.block.length),
      d (start + tail + 1) = v (lh.block[tail]).toNat) (x : Nat) :
    runWrites (installTrans start lh) d x =
      if x ∈ lh.block.map UInt32.toNat then v x else d x := by
  rw [runWrites_apply_of_target (installTrans_readsOnly hf), installTrans_addrs]
  intro w hw
  obtain ⟨tail, ht, haddr, hdata⟩ := mem_installTrans hw
  rw [hdata, haddr, hlog tail ht]

/-- After `write_log`, log block `tail` holds the cached contents of home
block `block[tail]`. -/
theorem runWrites_writeLog_log (d : Disk Block) (tail : Nat)
    (ht : tail < lh.block.length) :
    runWrites (writeLog start lh cache) d (start + tail + 1) =
      cache (lh.block[tail]).toNat := by
  have hread : ReadsOnly (fun _ => False) (writeLog start lh cache) := by
    intro w hw
    obtain ⟨_, _, -, hdata⟩ := mem_writeLog hw
    exact ⟨id, fun d₁ d₂ _ => by rw [hdata, hdata]⟩
  have htarget : ∀ w ∈ writeLog start lh cache, w.data d =
      cache (lh.block.getD (w.addr - (start + 1)) 0).toNat := by
    intro w hw
    obtain ⟨tail', ht', haddr, hdata⟩ := mem_writeLog hw
    rw [hdata, haddr, show start + tail' + 1 - (start + 1) = tail' by omega]
    simp [ht']
  rw [@runWrites_apply_of_target _ _ _ hread d
    (fun a => cache (lh.block.getD (a - (start + 1)) 0).toNat) htarget, if_pos]
  · simp [show start + tail + 1 - (start + 1) = tail by omega, ht]
  · exact List.mem_map.mpr ⟨_, List.mem_mapIdx.mpr ⟨tail, ht, rfl⟩, rfl⟩

/-! ## Recovery -/

/-- **Recovery is restartable.** A recovery that crashes and is restarted any
number of times ends where one complete run of `recover_from_log` ends. -/
theorem Recovers.eq_run {d d' : Disk Block}
    (hf : HeaderFits start size (readHead (d start))) (h : Recovers start d d') :
    d' = runWrites (recoverFromLog start d) d := by
  induction h with
  | run d => rfl
  | crash d k _ ih =>
      have hread := installTrans_readsOnly hf
      by_cases hk : k ≤ (installTrans start (readHead (d start))).length
      · -- the crash came during `install_trans`: the header is still there
        rw [recoverFromLog, List.take_append_of_le_length hk] at ih
        have hstart : runWrites ((installTrans start (readHead (d start))).take k) d start =
            d start :=
          ReadsOnly.runWrites_src (fun w hw => hread w (List.mem_of_mem_take hw)) d
            hf.start_inLog
        rw [ih (by rwa [hstart]), recoverFromLog, recoverFromLog, hstart,
          runWrites_append, runWrites_append, runWrites_take_restart hread]
      · -- the crash came after the last write: the run was complete
        rw [List.take_of_length_le (by simp [recoverFromLog]; omega)] at ih
        have hhead : (runWrites (recoverFromLog start d) d) start =
            setHead (runWrites (installTrans start (readHead (d start))) d start) .empty := by
          simp [recoverFromLog, runWrites_append, writeHead, Write.apply]
        have hclean : readHead ((runWrites (recoverFromLog start d) d) start) = .empty := by
          rw [hhead, readHead_setHead _ _ (by simp)]
        have hs : 0 < size := by have := hf.n_lt; omega
        rw [ih (by rw [hclean]; exact HeaderFits.empty hs), recoverFromLog, hclean]
        funext x
        by_cases hx : x = start
        · subst hx
          simp [writeHead, Write.apply, hhead]
        · simp [writeHead, Write.apply, hx]

/-- A completed recovery leaves the on-disk log empty. -/
theorem Recovers.clean {d d' : Disk Block}
    (hf : HeaderFits start size (readHead (d start))) (h : Recovers start d d') :
    readHead (d' start) = .empty := by
  rw [h.eq_run hf]
  simp only [recoverFromLog, runWrites_append, runWrites_cons, runWrites_nil,
    writeHead, Write.apply, Function.update_self]
  exact readHead_setHead _ _ (by simp)

/-- Outside the log area, a completed recovery is `install_trans` of the
header it read. -/
theorem recoverFromLog_outside {d : Disk Block} (x : Nat) (hx : ¬ InLog start size x)
    (hf : HeaderFits start size (readHead (d start))) :
    runWrites (recoverFromLog start d) d x =
      runWrites (installTrans start (readHead (d start))) d x := by
  have hne : x ≠ start := fun h => hx (h ▸ hf.start_inLog)
  simp [recoverFromLog, runWrites_append, writeHead, Write.apply, hne]

/-! ## Commit -/

theorem writeLog_length : (writeLog start lh cache).length = lh.n := by
  simp [writeLog, LogHeader.n]

theorem installTrans_length : (installTrans start lh).length = lh.n := by
  simp [installTrans, LogHeader.n]

/-- A crash while the log is written keeps a prefix of `write_log`. -/
theorem commit_take_of_le (hn : 0 < lh.n) {k : Nat} (hk : k ≤ lh.n) :
    (commit start lh cache).take k = (writeLog start lh cache).take k := by
  rw [commit, if_pos hn, List.take_append_of_le_length (by rw [writeLog_length]; exact hk)]

/-- A crash after the first `write_head` keeps the whole log and header and a
prefix of the rest. -/
theorem commit_take_of_lt (hn : 0 < lh.n) {k : Nat} (hk : lh.n < k) :
    (commit start lh cache).take k = writeLog start lh cache ++ writeHead start lh ::
      (installTrans start lh ++ [writeHead start .empty]).take (k - lh.n - 1) := by
  rw [commit, if_pos hn, List.take_append, List.take_of_length_le (by rw [writeLog_length]; omega),
    writeLog_length, show k - lh.n = (k - lh.n - 1) + 1 by omega, List.take_succ_cons,
    Nat.add_sub_cancel]

/-- At the commit point log block `tail` holds the cached contents of home
block `block[tail]`. -/
theorem committed_log (d : Disk Block) (tail : Nat) (ht : tail < lh.block.length) :
    runWrites (writeLog start lh cache ++ [writeHead start lh]) d (start + tail + 1) =
      cache (lh.block[tail]).toNat := by
  have hne : start + tail + 1 ≠ start := by omega
  simp [runWrites_append, writeHead, Write.apply, hne, runWrites_writeLog_log d tail ht]

section Committed

variable (hf : HeaderFits start size lh) (d : Disk Block)
include hf

/-- At the commit point the header block holds the transaction's header. -/
theorem committed_start :
    runWrites (writeLog start lh cache ++ [writeHead start lh]) d start =
      setHead (d start) lh := by
  have hlog : start ∉ (writeLog start lh cache).map Write.addr := by
    intro hmem
    obtain ⟨w, hw, haddr⟩ := List.mem_map.mp hmem
    exact (writeLog_inLog hf w hw).2 haddr
  simp [runWrites_append, writeHead, Write.apply, runWrites_of_not_mem hlog]

/-- Up to the commit point nothing outside the log area is written. -/
theorem committed_outside (x : Nat) (hx : ¬ InLog start size x) :
    runWrites (writeLog start lh cache ++ [writeHead start lh]) d x = d x := by
  have hne : x ≠ start := fun h => hx (h ▸ hf.start_inLog)
  have hlog : x ∉ (writeLog start lh cache).map Write.addr := by
    intro hmem
    obtain ⟨w, hw, rfl⟩ := List.mem_map.mp hmem
    exact hx (writeLog_inLog hf w hw).1
  simp [runWrites_append, writeHead, Write.apply, hne, runWrites_of_not_mem hlog]

/-- Installing from the commit point puts the cached contents into every
home block and leaves the rest of the disk outside the log area alone. -/
theorem committed_installed (x : Nat) (hx : ¬ InLog start size x) :
    runWrites (installTrans start lh)
        (runWrites (writeLog start lh cache ++ [writeHead start lh]) d) x =
      if x ∈ lh.block.map UInt32.toNat then cache x else d x := by
  rw [runWrites_installTrans hf (committed_log d), committed_outside hf d x hx]

end Committed

/-- Outside the log area, what a crash at `k` and any recovery leave: the
committed contents in the home blocks once the first `write_head` is done,
and the old contents everywhere else. -/
theorem commit_crash_outside {d d' : Disk Block}
    (hclean : readHead (d start) = .empty) (hf : HeaderFits start size lh) (k : Nat)
    (hrec : Recovers start (runWrites ((commit start lh cache).take k) d) d')
    (x : Nat) (hx : ¬ InLog start size x) :
    d' x = if lh.n < k ∧ x ∈ lh.block.map UInt32.toNat then cache x else d x := by
  have hs : 0 < size := by have := hf.n_lt; omega
  by_cases hn : 0 < lh.n
  · by_cases hk : k ≤ lh.n
    · -- cut while the log was written: the header still records an empty log
      rw [commit_take_of_le hn hk] at hrec
      have hlog : start ∉ ((writeLog start lh cache).take k).map Write.addr := by
        intro hmem
        obtain ⟨w, hw, haddr⟩ := List.mem_map.mp hmem
        exact (writeLog_inLog hf w (List.mem_of_mem_take hw)).2 haddr
      have hhead : readHead (runWrites ((writeLog start lh cache).take k) d start) =
          .empty := by
        rw [runWrites_of_not_mem hlog, hclean]
      have hout : x ∉ ((writeLog start lh cache).take k).map Write.addr := by
        intro hmem
        obtain ⟨w, hw, rfl⟩ := List.mem_map.mp hmem
        exact hx (writeLog_inLog hf w (List.mem_of_mem_take hw)).1
      rw [hrec.eq_run (by rw [hhead]; exact HeaderFits.empty hs),
        recoverFromLog_outside x hx (by rw [hhead]; exact HeaderFits.empty hs), hhead,
        installTrans_empty, runWrites_nil, runWrites_of_not_mem hout, if_neg (by omega)]
    · -- cut after the commit point
      have hlt : lh.n < k := by omega
      rw [commit_take_of_lt hn hlt, runWrites_append, runWrites_cons] at hrec
      rw [if_congr (and_iff_right hlt) rfl rfl, ← committed_installed hf d x hx]
      have hE : (writeHead start lh).apply (runWrites (writeLog start lh cache) d) =
          runWrites (writeLog start lh cache ++ [writeHead start lh]) d := by
        simp [runWrites_append]
      have hEstart : runWrites (writeLog start lh cache ++ [writeHead start lh]) d start =
          setHead (d start) lh := committed_start hf d
      have hread := installTrans_readsOnly hf
      rw [hE] at hrec
      generalize runWrites (writeLog start lh cache ++ [writeHead start lh]) d = E
        at hrec hEstart ⊢
      by_cases hj : k - lh.n - 1 ≤ (installTrans start lh).length
      · -- cut during `install_trans`: recovery replays the transaction
        rw [List.take_append_of_le_length hj] at hrec
        have hDstart : runWrites ((installTrans start lh).take (k - lh.n - 1)) E start =
            E start :=
          ReadsOnly.runWrites_src (fun w hw => hread w (List.mem_of_mem_take hw)) E
            hf.start_inLog
        have hhead : readHead (runWrites ((installTrans start lh).take (k - lh.n - 1)) E
            start) = lh := by
          rw [hDstart, hEstart, readHead_setHead _ _ hf.n_le]
        rw [hrec.eq_run (by rw [hhead]; exact hf),
          recoverFromLog_outside x hx (by rw [hhead]; exact hf), hhead,
          runWrites_take_restart hread]
      · -- cut after the log was erased: the transaction is installed
        have hlen : (installTrans start lh ++ [writeHead start .empty]).length ≤
            k - lh.n - 1 := by
          rw [List.length_append, List.length_singleton]
          omega
        rw [List.take_of_length_le hlen] at hrec
        have hhead : readHead (runWrites (installTrans start lh ++
            [writeHead start .empty]) E start) = .empty := by
          simp only [runWrites_append, runWrites_cons, runWrites_nil, writeHead, Write.apply,
            Function.update_self]
          exact readHead_setHead _ _ (by simp)
        have hne : x ≠ start := fun h => hx (h ▸ hf.start_inLog)
        rw [hrec.eq_run (by rw [hhead]; exact HeaderFits.empty hs),
          recoverFromLog_outside x hx (by rw [hhead]; exact HeaderFits.empty hs), hhead,
          installTrans_empty, runWrites_nil]
        simp [runWrites_append, writeHead, Write.apply, hne]
  · -- an empty transaction writes nothing
    have hnil : lh.block = [] := List.eq_nil_of_length_eq_zero (by
      simp only [LogHeader.n] at hn; omega)
    rw [commit, if_neg hn, List.take_nil, runWrites_nil] at hrec
    rw [hrec.eq_run (by rw [hclean]; exact HeaderFits.empty hs),
      recoverFromLog_outside x hx (by rw [hclean]; exact HeaderFits.empty hs), hclean,
      installTrans_empty, runWrites_nil, hnil]
    simp

/-- **Crash atomicity of `commit`.** Let the on-disk log be empty when
`commit` begins (as `recover_from_log` and every `commit` leave it), and let
the transaction fit.  Cut `commit` after any number `k` of its block writes
and run recovery, crashing and restarting it any number of times.  Then no
block outside the log area and the transaction changes, and the home blocks
of the transaction hold all their committed (cached) contents if the crash
came after the first `write_head` (the `n + 1`-st write) and all their old
contents otherwise. -/
theorem commit_crash_atomic {d d' : Disk Block}
    (hclean : readHead (d start) = .empty) (hf : HeaderFits start size lh) (k : Nat)
    (hrec : Recovers start (runWrites ((commit start lh cache).take k) d) d') :
    (∀ x, ¬ InLog start size x → x ∉ lh.block.map UInt32.toNat → d' x = d x) ∧
      ∀ b ∈ lh.block, d' b.toNat = if lh.n < k then cache b.toNat else d b.toNat := by
  refine ⟨fun x hx hhome => ?_, fun b hb => ?_⟩
  · rw [commit_crash_outside hclean hf k hrec x hx, if_neg (fun h => hhome h.2)]
  · have hmem : b.toNat ∈ lh.block.map UInt32.toNat := List.mem_map_of_mem hb
    rw [commit_crash_outside hclean hf k hrec b.toNat (hf.home_out b hb)]
    by_cases hk : lh.n < k
    · rw [if_pos ⟨hk, hmem⟩, if_pos hk]
    · rw [if_neg (fun h => hk h.1), if_neg hk]

/-- A one-block transaction on a zeroed disk, cut right after the first
`write_head` and recovered once: the home block holds the cached contents. -/
theorem commit_crash_atomic_oneBlock :
    readHead ((fun _ _ => 0 : Disk Block) 2) = .empty ∧ HeaderFits 2 30 ⟨[40]⟩ ∧
      ((∀ x, ¬ InLog 2 30 x → x ∉ [(40 : UInt32)].map UInt32.toNat →
          runWrites (recoverFromLog 2 (runWrites ((commit 2 ⟨[40]⟩ fun _ _ => 7).take 2)
            fun _ _ => 0))
            (runWrites ((commit 2 ⟨[40]⟩ fun _ _ => 7).take 2) fun _ _ => 0) x = 0) ∧
        ∀ b ∈ [(40 : UInt32)],
          runWrites (recoverFromLog 2 (runWrites ((commit 2 ⟨[40]⟩ fun _ _ => 7).take 2)
            fun _ _ => 0))
            (runWrites ((commit 2 ⟨[40]⟩ fun _ _ => 7).take 2) fun _ _ => 0) b.toNat =
          if LogHeader.n ⟨[40]⟩ < 2 then (fun _ _ => 7 : Nat → Block) b.toNat else 0) := by
  have hclean : readHead ((fun _ _ => 0 : Disk Block) 2) = .empty := by decide
  have hfits : HeaderFits 2 30 ⟨[40]⟩ :=
    ⟨by decide, by decide, by simp [InLog]⟩
  -- the disk is given: left open, it is solved against `readHead` unfolded
  exact ⟨hclean, hfits,
    commit_crash_atomic (d := fun _ _ => 0) hclean hfits 2 (Recovers.run _)⟩

end Log
end Xv6
