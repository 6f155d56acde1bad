import Xv6.Fs.LogOp

/-!
# Group commit never commits an unfinished operation

The invariant of the `begin_op`/`end_op` protocol over every interleaving:
`log.outstanding` counts the processes inside an operation, `log.committing`
is set exactly while one process runs the commit, and no process is inside
an operation meanwhile.  From it: `end_op` never panics on
`log.committing`, `log_write` never finds itself outside a transaction,
`log.outstanding` never goes negative, and when `commit()` starts every
logged block was logged by an operation that has already ended.
-/

namespace Xv6
namespace Log

variable {N : Nat}

/-- Process `p` is running or finishing the commit. -/
def Committer (pc : Fin N → Pc) (p : Fin N) : Prop :=
  pc p = .committing ∨ pc p = .finishing

/-- The invariant of the group-commit protocol. -/
structure CommitInv (s : LogState N) : Prop where
  outstanding_eq : s.outstanding = countWhere s.pc (· = Pc.inOp)
  committing_iff : s.committing = true ↔ ∃ p, Committer s.pc p
  committer_unique : ∀ p q, Committer s.pc p → Committer s.pc q → p = q
  no_op_while_committing : s.committing = true → ∀ p, s.pc p ≠ .inOp
  panic_tooBig : s.panic = none ∨ s.panic = some .tooBig
  writers_le : ∀ x ∈ s.writers, x.2.2 ≤ s.opCount x.2.1
  lh_logged : ∀ b ∈ s.lh, ∃ op, (b, op) ∈ s.writers

theorem commitInv_init : CommitInv (LogState.init N) where
  outstanding_eq := by
    have h : countWhere (LogState.init N).pc (· = Pc.inOp) = 0 :=
      countWhere_eq_zero.2 fun q => by simp [LogState.init]
    rw [h]
    rfl
  committing_iff := by simp [LogState.init, Committer]
  committer_unique := by simp [LogState.init, Committer]
  no_op_while_committing := by simp [LogState.init]
  panic_tooBig := by simp [LogState.init]
  writers_le := by simp [LogState.init]
  lh_logged := by simp [LogState.init]

/-- The count of processes inside an operation after process `p` moves from
a state outside to a state outside. -/
theorem countWhere_inOp_update_out {pc : Fin N → Pc} {p : Fin N} {a : Pc}
    (hp : pc p ≠ .inOp) (ha : a ≠ .inOp) :
    countWhere (Function.update pc p a) (· = Pc.inOp) = countWhere pc (· = Pc.inOp) := by
  have h := countWhere_update pc (· = Pc.inOp) p a
  simp only [hp, ha, if_false] at h
  omega

theorem committer_update_of_ne {pc : Fin N → Pc} {p q : Fin N} {a : Pc} (hq : q ≠ p) :
    Committer (Function.update pc p a) q ↔ Committer pc q := by
  simp [Committer, Function.update_of_ne hq]

section Steps

variable {s : LogState N} {p : Fin N}

/-- Moving a process between two states outside the commit and outside an
operation keeps the invariant's process part. -/
theorem CommitInv.move_out (hs : CommitInv s) {a : Pc}
    (hp : s.pc p = .idle ∨ s.pc p = .sleeping) (ha : a = .idle ∨ a = .sleeping) :
    CommitInv (s.setPc p a) := by
  have hpc : s.pc p ≠ .inOp := by rcases hp with h | h <;> simp [h]
  have hac : a ≠ .inOp := by rcases ha with h | h <;> simp [h]
  have hnot : ∀ q, Committer (Function.update s.pc p a) q ↔ Committer s.pc q := by
    intro q
    by_cases hq : q = p
    · subst hq
      rcases hp with h | h <;> rcases ha with h' | h' <;> simp [Committer, h, h']
    · exact committer_update_of_ne hq
  refine ⟨?_, ?_, ?_, ?_, hs.panic_tooBig, hs.writers_le, hs.lh_logged⟩
  · simp only [setPc_outstanding, setPc_pc]
    rw [countWhere_inOp_update_out hpc hac]
    exact hs.outstanding_eq
  · simp only [setPc_committing, setPc_pc, hnot]
    exact hs.committing_iff
  · intro q r hq hr
    exact hs.committer_unique q r ((hnot q).mp hq) ((hnot r).mp hr)
  · intro hc q
    by_cases hq : q = p
    · subst hq
      simpa using hac
    · simpa [Function.update_of_ne hq] using hs.no_op_while_committing hc q

theorem CommitInv.beginOp (hs : CommitInv s)
    (hp : s.pc p = .idle ∨ s.pc p = .sleeping) : CommitInv (beginOp s p) := by
  unfold Log.beginOp
  split
  · exact hs.move_out hp (.inr rfl)
  split
  · exact hs.move_out hp (.inr rfl)
  rename_i hc _
  unfold joinOp
  have hpc : s.pc p ≠ .inOp := by rcases hp with h | h <;> simp [h]
  have hcount := countWhere_update s.pc (· = Pc.inOp) p .inOp
  simp only [hpc, if_false, if_true] at hcount
  have hnot : ∀ q, ¬ Committer s.pc q := fun q hq =>
    hc (hs.committing_iff.mpr ⟨q, hq⟩)
  refine ⟨?_, ?_, ?_, ?_, hs.panic_tooBig, ?_, hs.lh_logged⟩
  · simp only
    rw [hs.outstanding_eq]
    omega
  · simp only [hc, Bool.false_eq_true, false_iff, not_exists]
    intro q hq
    by_cases hqp : q = p
    · subst hqp
      simp [Committer] at hq
    · exact hnot q ((committer_update_of_ne hqp).mp hq)
  · intro q r hq
    by_cases hqp : q = p
    · subst hqp
      simp [Committer] at hq
    · exact absurd ((committer_update_of_ne hqp).mp hq) (hnot q)
  · simp [hc]
  · intro x hx
    have := hs.writers_le x hx
    by_cases hxp : x.2.1 = p
    · simp only [hxp, Function.update_self]
      rw [hxp] at this
      omega
    · simpa [Function.update_of_ne hxp] using this

theorem CommitInv.logWrite (hs : CommitInv s) {size : Nat} (hp : s.pc p = .inOp)
    (b : UInt32) : CommitInv (logWrite size s p b) := by
  have hpos : 0 < countWhere s.pc (· = Pc.inOp) := countWhere_pos hp
  unfold Log.logWrite
  split
  · exact { hs with panic_tooBig := .inr rfl }
  split
  · rename_i hlt
    rw [hs.outstanding_eq] at hlt
    omega
  unfold recordWrite
  refine { hs with writers_le := ?_, lh_logged := ?_ }
  · intro x hx
    rcases List.mem_append.mp hx with hx | hx
    · exact hs.writers_le x hx
    · simp only [List.mem_singleton] at hx
      subst hx
      exact le_rfl
  · intro c hc
    unfold absorb at hc
    split at hc
    · obtain ⟨op, hop⟩ := hs.lh_logged c hc
      exact ⟨op, List.mem_append_left _ hop⟩
    · rcases List.mem_append.mp hc with hc | hc
      · obtain ⟨op, hop⟩ := hs.lh_logged c hc
        exact ⟨op, List.mem_append_left _ hop⟩
      · simp only [List.mem_singleton] at hc
        subst hc
        exact ⟨(p, s.opCount p), by simp⟩

theorem CommitInv.endOp (hs : CommitInv s) (hp : s.pc p = .inOp) :
    CommitInv (endOp s p) := by
  have hcount := countWhere_update s.pc (· = Pc.inOp) p
  unfold Log.endOp LogState.setPc
  split
  · rename_i hc
    exact absurd hp (hs.no_op_while_committing hc p)
  rename_i hc
  have hnot : ∀ q, ¬ Committer s.pc q := fun q hq =>
    hc (hs.committing_iff.mpr ⟨q, hq⟩)
  split
  · rename_i hzero
    have h := hcount .committing
    simp only [hp, if_true, reduceCtorEq, if_false] at h
    have hnone : countWhere (Function.update s.pc p .committing) (· = Pc.inOp) = 0 := by
      rw [hs.outstanding_eq] at hzero
      omega
    refine ⟨?_, ?_, ?_, ?_, hs.panic_tooBig, hs.writers_le, hs.lh_logged⟩
    · simp only
      rw [hnone]
      rfl
    · simp only [true_iff]
      exact ⟨p, by simp [Committer]⟩
    · intro q r hq hr
      have key : ∀ t, Committer (Function.update s.pc p .committing) t → t = p := by
        intro t ht
        by_contra htp
        exact hnot t ((committer_update_of_ne htp).mp ht)
      rw [key q hq, key r hr]
    · intro _ q
      have := countWhere_eq_zero.1 hnone q
      simpa using this
  · have h := hcount .idle
    simp only [hp, if_true, reduceCtorEq, if_false] at h
    refine ⟨?_, ?_, ?_, ?_, hs.panic_tooBig, hs.writers_le, hs.lh_logged⟩
    · simp only
      rw [hs.outstanding_eq]
      omega
    · simp only [hc, Bool.false_eq_true, false_iff, not_exists]
      intro q hq
      by_cases hqp : q = p
      · subst hqp
        simp [Committer] at hq
      · exact hnot q ((committer_update_of_ne hqp).mp hq)
    · intro q r hq
      by_cases hqp : q = p
      · subst hqp
        simp [Committer] at hq
      · exact absurd ((committer_update_of_ne hqp).mp hq) (hnot q)
    · simp [hc]

theorem CommitInv.commitStep (hs : CommitInv s) (hp : s.pc p = .committing) :
    CommitInv (commitStep s p) := by
  have hcp : Committer s.pc p := .inl hp
  have hmove : ∀ q, Committer (Function.update s.pc p .finishing) q ↔ Committer s.pc q := by
    intro q
    by_cases hq : q = p
    · subst hq
      simp [Committer, hp]
    · exact committer_update_of_ne hq
  have hc : s.committing = true := hs.committing_iff.mpr ⟨p, hcp⟩
  unfold Log.commitStep LogState.setPc
  refine ⟨?_, ?_, ?_, ?_, hs.panic_tooBig, by simp, by simp⟩
  · simp only
    rw [countWhere_inOp_update_out (by simp [hp]) (by simp)]
    exact hs.outstanding_eq
  · simp only [hmove]
    exact hs.committing_iff
  · intro q r hq hr
    exact hs.committer_unique q r ((hmove q).mp hq) ((hmove r).mp hr)
  · intro _ q
    by_cases hq : q = p
    · subst hq
      simp
    · simpa [Function.update_of_ne hq] using hs.no_op_while_committing hc q

theorem CommitInv.finishCommit (hs : CommitInv s) (hp : s.pc p = .finishing) :
    CommitInv (finishCommit s p) := by
  have hcp : Committer s.pc p := .inr hp
  have hnone : ∀ q, ¬ Committer (Function.update s.pc p .idle) q := by
    intro q hq
    by_cases hqp : q = p
    · subst hqp
      simp [Committer] at hq
    · exact hqp (hs.committer_unique q p ((committer_update_of_ne hqp).mp hq) hcp)
  unfold Log.finishCommit LogState.setPc
  refine ⟨?_, ?_, ?_, ?_, hs.panic_tooBig, hs.writers_le, hs.lh_logged⟩
  · simp only
    rw [countWhere_inOp_update_out (by simp [hp]) (by simp)]
    exact hs.outstanding_eq
  · simp only [Bool.false_eq_true, false_iff, not_exists]
    exact hnone
  · intro q _ hq
    exact absurd hq (hnone q)
  · simp

end Steps

/-- Every step keeps the invariant. -/
theorem CommitInv.step {size : Nat} {s s' : LogState N} {e : Ev N} (hs : CommitInv s)
    (h : step size s e = some s') : CommitInv s' := by
  obtain ⟨-, ⟨p, hp, rfl⟩ | ⟨p, b, hp, rfl⟩ | ⟨p, hp, rfl⟩ | ⟨p, hp, rfl⟩ | ⟨p, hp, rfl⟩⟩ :=
    step_cases h
  · exact hs.beginOp hp
  · exact hs.logWrite hp b
  · exact hs.endOp hp
  · exact hs.commitStep hp
  · exact hs.finishCommit hp

theorem commitInv_reachable {size : Nat} :
    (logSystem N size).Invariant CommitInv :=
  System.invariant_of_step _ commitInv_init fun _ _ _ hs h => hs.step h

/-- A `begin_op` pass that returns found `log.committing` clear. -/
theorem beginOp_returns {s : LogState N} {p : Fin N} (h : (beginOp s p).pc p = .inOp) :
    s.committing = false := by
  unfold Log.beginOp at h
  split at h
  · simp at h
  · rename_i hc
    simpa using hc

/-- **Group commit is safe.** In every state reached by any interleaving of
`begin_op`, `log_write` and `end_op` of any number of processes:
`log.outstanding` is not negative; neither the "log.committing" panic of
`end_op` nor the "outside of trans" panic of `log_write` has happened; a
process about to run `commit()` finds `log.outstanding == 0` and
`log.committing == 1`, and every block of the transaction was logged by an
operation that has called `end_op`; and no `begin_op` returns while
`log.committing` is set. -/
theorem group_commit_safe {size : Nat} {s : LogState N}
    (hr : (logSystem N size).Reachable s) :
    0 ≤ s.outstanding ∧ s.panic ≠ some .committing ∧ s.panic ≠ some .outsideTrans ∧
      (∀ p, s.pc p = .committing → s.outstanding = 0 ∧ s.committing = true ∧
        ∀ b ∈ s.lh, ∃ op, (b, op) ∈ s.writers ∧ OpEnded s op) ∧
      ∀ p s', step size s (.beginOp p) = some s' → s'.pc p = .inOp →
        s.committing = false := by
  have hs := commitInv_reachable s hr
  refine ⟨?_, ?_, ?_, ?_, ?_⟩
  · rw [hs.outstanding_eq]
    omega
  · rcases hs.panic_tooBig with h | h <;> simp [h]
  · rcases hs.panic_tooBig with h | h <;> simp [h]
  · intro p hp
    have hc : s.committing = true := hs.committing_iff.mpr ⟨p, .inl hp⟩
    have hnoop := hs.no_op_while_committing hc
    have hzero : countWhere s.pc (· = Pc.inOp) = 0 :=
      countWhere_eq_zero.2 hnoop
    refine ⟨by rw [hs.outstanding_eq, hzero]; rfl, hc, ?_⟩
    intro b hb
    obtain ⟨op, hop⟩ := hs.lh_logged b hb
    refine ⟨op, hop, ?_⟩
    rcases Nat.lt_or_eq_of_le (hs.writers_le _ hop) with hlt | heq
    · exact .inl hlt
    · exact .inr ⟨heq, hnoop op.1⟩
  · intro p s' hstep hpc
    simp only [step] at hstep
    split at hstep
    · cases hstep
      exact beginOp_returns hpc
    · cases hstep

/-- One process that begins an operation, logs block 5 and ends it reaches
the commit with the block logged by its ended operation. -/
theorem group_commit_safe_oneOp :
    (logSystem 1 nlog).Reachable (endOp (logWrite nlog (beginOp (LogState.init 1) 0) 0 5) 0) ∧
      0 ≤ (endOp (logWrite nlog (beginOp (LogState.init 1) 0) 0 5) 0).outstanding ∧
      (endOp (logWrite nlog (beginOp (LogState.init 1) 0) 0 5) 0).pc 0 = .committing ∧
      ∀ b ∈ (endOp (logWrite nlog (beginOp (LogState.init 1) 0) 0 5) 0).lh,
        ∃ op, (b, op) ∈ (endOp (logWrite nlog (beginOp (LogState.init 1) 0) 0 5) 0).writers ∧
          OpEnded (endOp (logWrite nlog (beginOp (LogState.init 1) 0) 0 5) 0) op := by
  have h₁ : (logSystem 1 nlog).step (LogState.init 1) (.beginOp 0) =
      some (beginOp (LogState.init 1) 0) := rfl
  have h₂ : (logSystem 1 nlog).step (beginOp (LogState.init 1) 0) (.logWrite 0 5) =
      some (logWrite nlog (beginOp (LogState.init 1) 0) 0 5) := rfl
  have h₃ : (logSystem 1 nlog).step (logWrite nlog (beginOp (LogState.init 1) 0) 0 5)
      (.endOp 0) = some (endOp (logWrite nlog (beginOp (LogState.init 1) 0) 0 5) 0) := rfl
  have hr : (logSystem 1 nlog).Reachable
      (endOp (logWrite nlog (beginOp (LogState.init 1) 0) 0 5) 0) :=
    .step (.step (.step .init h₁) h₂) h₃
  have hpc : (endOp (logWrite nlog (beginOp (LogState.init 1) 0) 0 5) 0).pc 0 =
      .committing := by decide
  obtain ⟨hout, -, -, hcommit, -⟩ := group_commit_safe hr
  exact ⟨hr, hout, hpc, (hcommit 0 hpc).2.2⟩

end Log
end Xv6
