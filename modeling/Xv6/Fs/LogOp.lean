import Xv6.Fs.Param
import Xv6.Support.Procs
import Xv6.Support.System

/-!
# Group commit: `begin_op`, `log_write` and `end_op`

The in-memory side of `kernel/log.c` as a transition system over `N`
processes.  Every step is one critical section of the code (each runs under
`log.lock`, apart from `log_write`'s checks, which read the counters first
and are taken here together with the rest of `log_write`), and `commit()`,
which runs without the lock while `log.committing` is set.

A process's program counter says where it is in the protocol.  A process
inside an operation may call `log_write` and `end_op`; a process outside
one may call `begin_op`, which either returns or sleeps and tries again
later (a sleeping process may retry at any time, so a `wakeup` is never
needed for safety).  The code's `panic`s stop the machine: the step that
reaches one records it, and no step follows.

Besides the fields of `struct log`, the state keeps ghost fields that the
code does not have: how many operations each process has begun, the blocks
its current operation has logged, and which operation logged each entry of
the current transaction.
-/

namespace Xv6
namespace Log

/-- Where a process is in the `begin_op`/`end_op` protocol. -/
inductive Pc
  /-- not inside a file-system operation -/
  | idle
  /-- asleep in `begin_op`'s loop -/
  | sleeping
  /-- `begin_op` has returned and `end_op` is not yet called -/
  | inOp
  /-- `end_op` set `log.committing` and runs `commit()` -/
  | committing
  /-- `commit()` has returned and `end_op` will clear `log.committing` -/
  | finishing
  deriving DecidableEq, Repr

/-- The `panic`s of `log_write` and `end_op`. -/
inductive Panic
  /-- "too big a transaction" -/
  | tooBig
  /-- "log_write outside of trans" -/
  | outsideTrans
  /-- "log.committing" -/
  | committing
  deriving DecidableEq, Repr

/-- An operation: the process running it and its number among that
process's operations, counted from 1. -/
abbrev OpId (N : Nat) := Fin N × Nat

/-- `struct log` as `begin_op`, `log_write` and `end_op` use it, with the
program counters of the processes and the ghost fields. -/
structure LogState (N : Nat) where
  outstanding : Int
  committing : Bool
  /-- `log.lh.block[0..log.lh.n)` -/
  lh : List UInt32
  pc : Fin N → Pc
  panic : Option Panic
  /-- ghost: the number of operations each process has begun -/
  opCount : Fin N → Nat
  /-- ghost: the distinct blocks the current operation of each process has
  logged -/
  opBlocks : Fin N → List UInt32
  /-- ghost: every `log_write` of the current transaction, with its operation -/
  writers : List (UInt32 × OpId N)

/-- One atomic step of one process. -/
inductive Ev (N : Nat)
  /-- one pass of `begin_op`'s loop under `log.lock` -/
  | beginOp (p : Fin N)
  /-- `log_write` of a buffer holding block `b` -/
  | logWrite (p : Fin N) (b : UInt32)
  /-- `end_op`'s first critical section -/
  | endOp (p : Fin N)
  /-- `commit()` -/
  | commit (p : Fin N)
  /-- `end_op`'s second critical section, after `commit()` -/
  | finishCommit (p : Fin N)
  deriving DecidableEq, Repr

variable {N : Nat}

/-- The log after `initlog`: recovery has emptied it. -/
def LogState.init (N : Nat) : LogState N :=
  { outstanding := 0, committing := false, lh := [], pc := fun _ => .idle,
    panic := none, opCount := fun _ => 0, opBlocks := fun _ => [], writers := [] }

/-- Process `p` moves to program point `a`. -/
def LogState.setPc (s : LogState N) (p : Fin N) (a : Pc) : LogState N :=
  { s with pc := Function.update s.pc p a }

/-- `log_write`'s absorption loop: a block already in the transaction keeps
its slot, a new one is appended and increments `log.lh.n`. -/
def absorb (lh : List UInt32) (b : UInt32) : List UInt32 :=
  if b ∈ lh then lh else lh ++ [b]

/-- `begin_op` leaves its loop: `log.outstanding += 1`, and the ghost fields
start a new operation of `p`. -/
def joinOp (s : LogState N) (p : Fin N) : LogState N :=
  { s with outstanding := s.outstanding + 1, pc := Function.update s.pc p .inOp,
           opCount := Function.update s.opCount p (s.opCount p + 1),
           opBlocks := Function.update s.opBlocks p [] }

/-- One pass of `begin_op`'s loop: sleep while a commit is running or while
this operation's reservation might exhaust the log, else join. -/
def beginOp (s : LogState N) (p : Fin N) : LogState N :=
  if s.committing then s.setPc p .sleeping
  else if (s.lh.length : Int) + (s.outstanding + 1) * MAXOPBLOCKS > LOGSIZE then
    s.setPc p .sleeping
  else joinOp s p

/-- The absorption loop and the append of `log_write`, with the ghost
bookkeeping of the writing operation. -/
def recordWrite (s : LogState N) (p : Fin N) (b : UInt32) : LogState N :=
  { s with lh := absorb s.lh b,
           opBlocks := Function.update s.opBlocks p (absorb (s.opBlocks p) b),
           writers := s.writers ++ [(b, (p, s.opCount p))] }

/-- `log_write` by process `p` of block `b`, in a log of `size` blocks. -/
def logWrite (size : Nat) (s : LogState N) (p : Fin N) (b : UInt32) : LogState N :=
  if (s.lh.length : Int) ≥ LOGSIZE ∨ (s.lh.length : Int) ≥ (size : Int) - 1 then
    { s with panic := some .tooBig }
  else if s.outstanding < 1 then
    { s with panic := some .outsideTrans }
  else recordWrite s p b

/-- `end_op`'s first critical section: leave the operation, and become the
committer if it was the last one. -/
def endOp (s : LogState N) (p : Fin N) : LogState N :=
  if s.committing then
    { s with outstanding := s.outstanding - 1, panic := some .committing }
  else if s.outstanding - 1 = 0 then
    { s.setPc p .committing with outstanding := 0, committing := true }
  else
    { s.setPc p .idle with outstanding := s.outstanding - 1 }

/-- `commit()` as the in-memory log sees it: the transaction is written and
installed (the disk side is `Log.commit`), and `log.lh.n = 0`. -/
def commitStep (s : LogState N) (p : Fin N) : LogState N :=
  { s.setPc p .finishing with lh := [], writers := [] }

/-- `end_op`'s second critical section: clear `log.committing`. -/
def finishCommit (s : LogState N) (p : Fin N) : LogState N :=
  { s.setPc p .idle with committing := false }

/-- The step of the system over `N` processes and a log of `size` blocks:
a process runs the code its program counter is at, until a panic. -/
def step (size : Nat) (s : LogState N) : Ev N → Option (LogState N)
  | .beginOp p =>
      if s.panic = none ∧ (s.pc p = .idle ∨ s.pc p = .sleeping) then some (beginOp s p)
      else none
  | .logWrite p b =>
      if s.panic = none ∧ s.pc p = .inOp then some (logWrite size s p b) else none
  | .endOp p =>
      if s.panic = none ∧ s.pc p = .inOp then some (endOp s p) else none
  | .commit p =>
      if s.panic = none ∧ s.pc p = .committing then some (commitStep s p) else none
  | .finishCommit p =>
      if s.panic = none ∧ s.pc p = .finishing then some (finishCommit s p) else none

/-- The group-commit protocol over `N` processes and a log of `size`
blocks. -/
def logSystem (N size : Nat) : System (LogState N) (Ev N) :=
  ⟨LogState.init N, step size⟩

/-- Operation `op` has called `end_op`: it is an earlier operation of its
process, or its process's latest one and that process is no longer inside
it. -/
def OpEnded (s : LogState N) (op : OpId N) : Prop :=
  op.2 < s.opCount op.1 ∨ (op.2 = s.opCount op.1 ∧ s.pc op.1 ≠ .inOp)

section Fields

variable (s : LogState N) (p : Fin N) (a : Pc)

@[simp] theorem setPc_pc : (s.setPc p a).pc = Function.update s.pc p a := rfl
@[simp] theorem setPc_outstanding : (s.setPc p a).outstanding = s.outstanding := rfl
@[simp] theorem setPc_committing : (s.setPc p a).committing = s.committing := rfl
@[simp] theorem setPc_lh : (s.setPc p a).lh = s.lh := rfl
@[simp] theorem setPc_panic : (s.setPc p a).panic = s.panic := rfl
@[simp] theorem setPc_opCount : (s.setPc p a).opCount = s.opCount := rfl
@[simp] theorem setPc_opBlocks : (s.setPc p a).opBlocks = s.opBlocks := rfl
@[simp] theorem setPc_writers : (s.setPc p a).writers = s.writers := rfl

end Fields

/-- Every enabled step, with its guard. -/
theorem step_cases {size : Nat} {s s' : LogState N} {e : Ev N}
    (h : step size s e = some s') :
    s.panic = none ∧
      ((∃ p, (s.pc p = .idle ∨ s.pc p = .sleeping) ∧ s' = beginOp s p) ∨
        (∃ p b, s.pc p = .inOp ∧ s' = logWrite size s p b) ∨
        (∃ p, s.pc p = .inOp ∧ s' = endOp s p) ∨
        (∃ p, s.pc p = .committing ∧ s' = commitStep s p) ∨
        (∃ p, s.pc p = .finishing ∧ s' = finishCommit s p)) := by
  cases e with
  | beginOp p =>
      simp only [step] at h
      split at h
      · rename_i hg
        cases h
        exact ⟨hg.1, .inl ⟨p, hg.2, rfl⟩⟩
      · cases h
  | logWrite p b =>
      simp only [step] at h
      split at h
      · rename_i hg
        cases h
        exact ⟨hg.1, .inr (.inl ⟨p, b, hg.2, rfl⟩)⟩
      · cases h
  | endOp p =>
      simp only [step] at h
      split at h
      · rename_i hg
        cases h
        exact ⟨hg.1, .inr (.inr (.inl ⟨p, hg.2, rfl⟩))⟩
      · cases h
  | commit p =>
      simp only [step] at h
      split at h
      · rename_i hg
        cases h
        exact ⟨hg.1, .inr (.inr (.inr (.inl ⟨p, hg.2, rfl⟩)))⟩
      · cases h
  | finishCommit p =>
      simp only [step] at h
      split at h
      · rename_i hg
        cases h
        exact ⟨hg.1, .inr (.inr (.inr (.inr ⟨p, hg.2, rfl⟩)))⟩
      · cases h

end Log
end Xv6
