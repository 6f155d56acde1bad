import Xv6.Fs.LogCommit

/-!
# Log space reservation

`begin_op` admits an operation only if the transaction, with `MAXOPBLOCKS`
blocks reserved for every operation in progress, fits in `LOGSIZE` blocks.
When every operation logs at most `MAXOPBLOCKS` distinct blocks, the
accounting is sound: the logged blocks and the unused reservations never
exceed `LOGSIZE` (`spaceInv_reachable`).

But `log_write` panics as soon as `log.lh.n >= log.size - 1`, and `mkfs`
makes the log `nlog = LOGSIZE` blocks long, header included, so only
`LOGSIZE - 1` blocks are usable.  Three operations that each log
`MAXOPBLOCKS` distinct blocks all pass `begin_op`'s test on an empty log,
and the last of their `LOGSIZE` writes panics (`logSpace_tooBig`).
-/

namespace Xv6
namespace Log

variable {N : Nat}

/-- The callers' promise: a `log_write` either repeats a block the current
operation has already logged or is among its first `MAXOPBLOCKS` distinct
blocks. -/
def WithinBudget (s : LogState N) : Ev N → Prop
  | .logWrite p b => b ∈ s.opBlocks p ∨ (s.opBlocks p).length < MAXOPBLOCKS
  | _ => True

instance (s : LogState N) (e : Ev N) : Decidable (WithinBudget s e) := by
  cases e <;> unfold WithinBudget <;> infer_instance

/-- The protocol restricted to callers that keep their budget. -/
def budgetSystem (N size : Nat) : System (LogState N) (Ev N) :=
  ⟨LogState.init N, fun s e => if WithinBudget s e then step size s e else none⟩

/-- The blocks process `q` has reserved and not yet used. -/
def reserveOf (s : LogState N) (q : Fin N) : Nat :=
  if s.pc q = .inOp then MAXOPBLOCKS - (s.opBlocks q).length else 0

/-- The blocks reserved by operations in progress and not yet used. -/
def reserve (s : LogState N) : Nat := procSum (reserveOf s)

/-- The reservation invariant. -/
structure SpaceInv (s : LogState N) : Prop where
  commit : CommitInv s
  fits : s.lh.length + reserve s ≤ LOGSIZE
  op_le : ∀ q, s.pc q = .inOp → (s.opBlocks q).length ≤ MAXOPBLOCKS
  op_logged : ∀ q, s.pc q = .inOp → ∀ b ∈ s.opBlocks q, b ∈ s.lh

theorem reserveOf_of_ne {s : LogState N} {q : Fin N} (hq : s.pc q ≠ .inOp) :
    reserveOf s q = 0 := by
  simp [reserveOf, hq]

theorem reserve_congr {s s' : LogState N} (h : ∀ q, reserveOf s' q = reserveOf s q) :
    reserve s' = reserve s :=
  procSum_congr h

/-- Changing only process `p` changes the reservation by the change of its
term. -/
theorem reserve_update (s s' : LogState N) (p : Fin N)
    (hq : ∀ q, q ≠ p → s'.pc q = s.pc q ∧ s'.opBlocks q = s.opBlocks q) :
    reserve s' + reserveOf s p = reserve s + reserveOf s' p := by
  have h := procSum_update (reserveOf s) p (reserveOf s' p)
  have heq : Function.update (reserveOf s) p (reserveOf s' p) = reserveOf s' := by
    funext q
    by_cases hqp : q = p
    · subst hqp
      rw [Function.update_self]
    · rw [Function.update_of_ne hqp]
      simp [reserveOf, (hq q hqp).1, (hq q hqp).2]
  rw [heq] at h
  exact h

/-- Each reservation is at most `MAXOPBLOCKS`. -/
theorem reserve_le (s : LogState N) :
    reserve s ≤ MAXOPBLOCKS * countWhere s.pc (· = Pc.inOp) := by
  apply procSum_le_mul
  intro q
  unfold reserveOf
  split <;> simp_all

theorem spaceInv_init : SpaceInv (LogState.init N) where
  commit := commitInv_init
  fits := by
    have h : reserve (LogState.init N) = 0 :=
      procSum_eq_zero.2 fun q => reserveOf_of_ne (by simp [LogState.init])
    rw [h]
    simp [LogState.init]
  op_le := by simp [LogState.init]
  op_logged := by simp [LogState.init]

theorem absorb_length (l : List UInt32) (b : UInt32) :
    (absorb l b).length = l.length + if b ∈ l then 0 else 1 := by
  unfold absorb
  split <;> simp

theorem mem_absorb {l : List UInt32} {b c : UInt32} :
    c ∈ absorb l b ↔ c ∈ l ∨ c = b := by
  unfold absorb
  split
  · rename_i hb
    constructor
    · exact .inl
    · rintro (h | rfl)
      · exact h
      · exact hb
  · simp

section Steps

variable {s : LogState N} {p : Fin N}

/-- A step that takes process `p` out of its operation (or keeps it out of
one) and changes neither the transaction nor any operation's blocks frees
`p`'s reservation and keeps the reservation invariant. -/
theorem SpaceInv.of_leave (hs : SpaceInv s) {s' : LogState N} (hc : CommitInv s') {a : Pc}
    (ha : a ≠ .inOp) (hpc : s'.pc = Function.update s.pc p a)
    (hblocks : s'.opBlocks = s.opBlocks) (hlh : s'.lh = s.lh) : SpaceInv s' := by
  have hstay : ∀ q, s'.pc q = .inOp → q ≠ p ∧ s.pc q = .inOp := by
    intro q hq
    rw [hpc] at hq
    by_cases hqp : q = p
    · subst hqp
      simp [ha] at hq
    · exact ⟨hqp, by simpa [Function.update_of_ne hqp] using hq⟩
  have hres := reserve_update s s' p fun q hq => by
    simp [hpc, hblocks, Function.update_of_ne hq]
  have hnew : reserveOf s' p = 0 := reserveOf_of_ne (by simp [hpc, ha])
  refine ⟨hc, ?_, ?_, ?_⟩
  · have := hs.fits
    rw [hlh]
    omega
  · intro q hq
    rw [hblocks]
    exact hs.op_le q (hstay q hq).2
  · intro q hq
    rw [hblocks, hlh]
    exact hs.op_logged q (hstay q hq).2

/-- While a commit runs no operation is in progress, so nothing is
reserved. -/
theorem SpaceInv.of_committing {s' : LogState N} (hc : CommitInv s')
    (h : s'.committing = true) (hlh : s'.lh.length ≤ LOGSIZE) : SpaceInv s' := by
  have hno := hc.no_op_while_committing h
  have hres : reserve s' = 0 := procSum_eq_zero.2 fun q => reserveOf_of_ne (hno q)
  refine ⟨hc, by omega, ?_, ?_⟩
  · intro q hq
    exact absurd hq (hno q)
  · intro q hq
    exact absurd hq (hno q)

/-- A state that differs only in its panic keeps the reservation
invariant. -/
theorem SpaceInv.with_panic (hs : SpaceInv s) {x : Option Panic}
    (hc : CommitInv { s with panic := x }) : SpaceInv { s with panic := x } :=
  { hs with commit := hc }

theorem SpaceInv.beginOp (hs : SpaceInv s) (hp : s.pc p = .idle ∨ s.pc p = .sleeping) :
    SpaceInv (beginOp s p) := by
  have hc := hs.commit.beginOp hp
  have hpc : s.pc p ≠ .inOp := by rcases hp with h | h <;> simp [h]
  unfold Log.beginOp at hc ⊢
  split
  · rename_i h₁
    rw [if_pos h₁] at hc
    exact hs.of_leave hc (by simp) rfl rfl rfl
  rename_i h₁
  rw [if_neg h₁] at hc
  split
  · rename_i h₂
    rw [if_pos h₂] at hc
    exact hs.of_leave hc (by simp) rfl rfl rfl
  rename_i h₂
  rw [if_neg h₂] at hc
  -- the operation joins with a full reservation and an empty block set
  have hr := reserve_update s (joinOp s p) p fun q hq => by
    simp [joinOp, Function.update_of_ne hq]
  have hold : reserveOf s p = 0 := reserveOf_of_ne hpc
  have hnew : reserveOf (joinOp s p) p = MAXOPBLOCKS := by
    simp [reserveOf, joinOp]
  have hle := reserve_le s
  have hout := hs.commit.outstanding_eq
  refine ⟨hc, ?_, ?_, ?_⟩
  · show s.lh.length + reserve (joinOp s p) ≤ LOGSIZE
    rw [hout] at h₂
    rw [MAXOPBLOCKS_eq, LOGSIZE_eq] at *
    omega
  · intro q hq
    by_cases hqp : q = p
    · subst hqp
      simp [joinOp]
    · simp only [joinOp, Function.update_of_ne hqp] at hq ⊢
      exact hs.op_le q hq
  · intro q hq
    by_cases hqp : q = p
    · subst hqp
      simp [joinOp]
    · simp only [joinOp, Function.update_of_ne hqp] at hq ⊢
      exact hs.op_logged q hq

/-- `log_write` of a block within the operation's budget: a new block of
the operation takes one block of its reservation, and grows the
transaction by at most one. -/
theorem SpaceInv.recordWrite {b : UInt32} (hs : SpaceInv s)
    (hc : CommitInv (recordWrite s p b)) (hp : s.pc p = .inOp)
    (hb : b ∈ s.opBlocks p ∨ (s.opBlocks p).length < MAXOPBLOCKS) :
    SpaceInv (recordWrite s p b) := by
  have hlogged := hs.op_logged p hp
  -- `inc` is what the write adds to the operation's blocks
  obtain ⟨inc, hinc⟩ : ∃ inc, inc = if b ∈ s.opBlocks p then 0 else 1 := ⟨_, rfl⟩
  have hop : (absorb (s.opBlocks p) b).length = (s.opBlocks p).length + inc :=
    hinc ▸ absorb_length _ _
  have hlen : (absorb s.lh b).length ≤ s.lh.length + inc := by
    rw [absorb_length]
    by_cases hbp : b ∈ s.opBlocks p
    · simp [hinc, hbp, hlogged b hbp]
    · simp only [hinc, hbp, if_false]
      split <;> omega
  have hle : (s.opBlocks p).length + inc ≤ MAXOPBLOCKS := by
    by_cases hbp : b ∈ s.opBlocks p
    · simp only [hinc, hbp, if_true, Nat.add_zero]
      exact hs.op_le p hp
    · simp only [hinc, hbp, if_false]
      exact hb.resolve_left hbp
  have hr := reserve_update s (Log.recordWrite s p b) p fun q hq => by
    simp [Log.recordWrite, Function.update_of_ne hq]
  have hold : reserveOf s p = MAXOPBLOCKS - (s.opBlocks p).length := by
    simp [reserveOf, hp]
  have hnew : reserveOf (Log.recordWrite s p b) p =
      MAXOPBLOCKS - ((s.opBlocks p).length + inc) := by
    simp [reserveOf, Log.recordWrite, hp, hop]
  refine ⟨hc, ?_, ?_, ?_⟩
  · have := hs.fits
    show (absorb s.lh b).length + reserve (Log.recordWrite s p b) ≤ LOGSIZE
    omega
  · intro q hq
    by_cases hqp : q = p
    · subst hqp
      simpa [Log.recordWrite, hop] using hle
    · simp only [Log.recordWrite, Function.update_of_ne hqp] at hq ⊢
      exact hs.op_le q hq
  · intro q hq c hcq
    simp only [Log.recordWrite] at hq hcq ⊢
    rw [mem_absorb]
    by_cases hqp : q = p
    · subst hqp
      rcases mem_absorb.1 (by simpa using hcq) with hcq | rfl
      · exact .inl (hlogged c hcq)
      · exact .inr rfl
    · rw [Function.update_of_ne hqp] at hcq
      exact .inl (hs.op_logged q hq c hcq)

theorem SpaceInv.logWrite (hs : SpaceInv s) {size : Nat} (hp : s.pc p = .inOp) {b : UInt32}
    (hb : b ∈ s.opBlocks p ∨ (s.opBlocks p).length < MAXOPBLOCKS) :
    SpaceInv (logWrite size s p b) := by
  have hc : CommitInv (Log.logWrite size s p b) := hs.commit.logWrite hp b
  unfold Log.logWrite at hc ⊢
  split
  · rename_i h₁
    rw [if_pos h₁] at hc
    exact hs.with_panic hc
  rename_i h₁
  rw [if_neg h₁] at hc
  split
  · rename_i h₂
    rw [if_pos h₂] at hc
    exact hs.with_panic hc
  rename_i h₂
  rw [if_neg h₂] at hc
  exact hs.recordWrite hc hp hb

theorem SpaceInv.endOp (hs : SpaceInv s) (hp : s.pc p = .inOp) :
    SpaceInv (endOp s p) := by
  have hc := hs.commit.endOp hp
  unfold Log.endOp at hc ⊢
  split
  · rename_i h₁
    exact absurd hp (hs.commit.no_op_while_committing h₁ p)
  rename_i h₁
  rw [if_neg h₁] at hc
  split
  · rename_i h₂
    rw [if_pos h₂] at hc
    exact hs.of_leave hc (by simp) rfl rfl rfl
  · rename_i h₂
    rw [if_neg h₂] at hc
    exact hs.of_leave hc (by simp) rfl rfl rfl

theorem SpaceInv.commitStep (hs : SpaceInv s) (hp : s.pc p = .committing) :
    SpaceInv (commitStep s p) := by
  have hc := hs.commit.commitStep hp
  have hcom : s.committing = true := hs.commit.committing_iff.mpr ⟨p, .inl hp⟩
  exact SpaceInv.of_committing hc hcom (by simp [Log.commitStep])

theorem SpaceInv.finishCommit (hs : SpaceInv s) (hp : s.pc p = .finishing) :
    SpaceInv (finishCommit s p) :=
  hs.of_leave (hs.commit.finishCommit hp) (by simp) rfl rfl rfl

end Steps

/-- Every step a caller within budget takes keeps the reservation
invariant. -/
theorem SpaceInv.step {size : Nat} {s s' : LogState N} {e : Ev N} (hs : SpaceInv s)
    (hb : WithinBudget s e) (h : step size s e = some s') : SpaceInv s' := by
  cases e with
  | beginOp p =>
      simp only [Log.step] at h
      split at h
      · rename_i hg
        cases h
        exact hs.beginOp hg.2
      · cases h
  | logWrite p b =>
      simp only [Log.step] at h
      split at h
      · rename_i hg
        cases h
        exact hs.logWrite hg.2 hb
      · cases h
  | endOp p =>
      simp only [Log.step] at h
      split at h
      · rename_i hg
        cases h
        exact hs.endOp hg.2
      · cases h
  | commit p =>
      simp only [Log.step] at h
      split at h
      · rename_i hg
        cases h
        exact hs.commitStep hg.2
      · cases h
  | finishCommit p =>
      simp only [Log.step] at h
      split at h
      · rename_i hg
        cases h
        exact hs.finishCommit hg.2
      · cases h

theorem spaceInv_reachable {size : Nat} : (budgetSystem N size).Invariant SpaceInv := by
  refine System.invariant_of_step (budgetSystem N size) spaceInv_init ?_
  intro s e s' hs h
  simp only [budgetSystem] at h
  split at h
  · rename_i hb
    exact hs.step hb h
  · cases h

/-- When callers keep their budget the transaction never exceeds
`LOGSIZE` blocks. -/
theorem lh_length_le {size : Nat} {s : LogState N} (hr : (budgetSystem N size).Reachable s) :
    s.lh.length ≤ LOGSIZE := by
  have := (spaceInv_reachable s hr).fits
  omega

/-- An operation that has reserved a block it has not used finds the
transaction below `LOGSIZE` blocks: the `LOGSIZE` half of `log_write`'s
test never fires on a new block. -/
theorem lh_length_lt_of_reserved {size : Nat} {s : LogState N} {p : Fin N}
    (hr : (budgetSystem N size).Reachable s) (hp : s.pc p = .inOp)
    (hlen : (s.opBlocks p).length < MAXOPBLOCKS) : s.lh.length < LOGSIZE := by
  have hfits := (spaceInv_reachable s hr).fits
  have hp' : 0 < reserveOf s p := by
    simp only [reserveOf, hp, if_true]
    omega
  have := le_procSum (reserveOf s) p
  unfold reserve at hfits
  omega

/-- `k` operations run at once, each logging `MAXOPBLOCKS` distinct blocks
of its own: all processes pass `begin_op` on the empty log, then process `q`
logs blocks `100 * (q + 1) + i` for `i < MAXOPBLOCKS`. -/
def fullOps (k : Nat) : List (Ev k) :=
  (List.finRange k).map .beginOp ++
    (List.finRange k).flatMap fun q =>
      (List.range MAXOPBLOCKS).map fun i => .logWrite q (UInt32.ofNat (100 * (q.val + 1) + i))

/-- With the log of `nlog` blocks that `mkfs` makes, three operations within
their budget are admitted together, and the last of their `LOGSIZE` writes
finds `log.lh.n = LOGSIZE - 1 = log.size - 1` and panics with "too big a
transaction". -/
theorem logSpace_tooBig :
    ((budgetSystem 3 nlog).run (fullOps 3).dropLast).map (·.lh.length) = some 29 ∧
      ((budgetSystem 3 nlog).run (fullOps 3)).map LogState.panic = some (some .tooBig) := by
  decide

end Log
end Xv6
