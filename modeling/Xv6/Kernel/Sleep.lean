import Xv6.Kernel.Proc
import Xv6.Support.System

/-!
# Sleep and wakeup

`sleep` and `wakeup` of `kernel/proc.c` over `N` processes, with `acquire`
and `release` of `kernel/spinlock.c`, in the pattern the kernel uses them
in: a condition `cond` guarded by a spinlock `lk`, a sleeper running
`acquire(lk); while(!cond) sleep(chan, lk); cond = 0; release(lk)` and a
waker running `acquire(lk); cond = 1; wakeup(chan); release(lk)`, as
`piperead` and `pipewrite` do with `pi->lock`.  `lk` is no process's
`p->lock`, so `sleep` takes its `lk != &p->lock` branches.

Each process is at a `Pc` of this code, and each `acquire` and `release` is
a step of its own; an `acquire` is enabled only while the lock is free, and
a `release` of a lock the process does not hold panics (the step is not
enabled).  Three stretches that run under `p->lock` are one step each:
`wakeup` looking at `proc[i]` (take its lock, wake it if it sleeps on
`chan`, release), `sleep` setting `p->chan` and `p->state` and calling
`sched`, after which `scheduler` releases `p->lock`, and `scheduler` taking
`p->lock` to run a `RUNNABLE` process, which resumes in `sched` holding it.
Nothing reads or writes `p->state` or `p->chan` without `p->lock`, so no
other step can fall inside them.  `yield` and the other callers of `sched`
leave `p->chan` alone and are not modelled.

`sleep` takes `p->lock` before it releases `lk`, and `wakeup` takes
`p->lock` to look at `p`; so a sleeper that tested `cond` under `lk` is, until
it sleeps, out of reach of a `wakeup` that starts after it, and a `wakeup`
running when `cond` is set has not yet passed any process about to sleep
or asleep (`Inv.covered`).  No wakeup is lost (`no_lost_wakeup`): whenever
no `wakeup` is running, no process sleeps while `cond` holds.  Along the
way no step panics: every `release` and `sched` finds the locks it checks
held (`next_enabled`).
-/

namespace Xv6
namespace Sleep

open Kernel

/-- Where a process is in the code of the pattern. -/
inductive Pc where
  /-- outside the pattern, holding neither lock -/
  | idle
  /-- holding `lk`, about to test `cond` -/
  | check
  /-- in `sleep`, about to `acquire(&p->lock)` -/
  | lockSelf
  /-- in `sleep`, holding `p->lock` and `lk`, about to `release(lk)` -/
  | releaseLk
  /-- in `sleep`, holding `p->lock`: `p->chan = chan; p->state = SLEEPING; sched()` -/
  | toSleep
  /-- in `sched`, off the CPU -/
  | inSched
  /-- back from `sched`, holding `p->lock`: `p->chan = 0; release(&p->lock)` -/
  | tidy
  /-- in `sleep`, about to `acquire(lk)` again -/
  | reacquire
  /-- holding `lk`, about to set `cond` -/
  | setCond
  /-- in `wakeup`, holding `lk`, at `proc[i]` -/
  | waking (i : Nat)
  deriving DecidableEq, Repr

/-- The places where a process holds `lk`. -/
def Pc.holdsLk : Pc → Bool
  | .check | .lockSelf | .releaseLk | .setCond | .waking _ => true
  | _ => false

/-- The places where a process holds its own `p->lock`. -/
def Pc.holdsSelf : Pc → Bool
  | .releaseLk | .toSleep | .tidy => true
  | _ => false

/-- The processes, the two kinds of lock, and the condition. -/
structure St (N : Nat) where
  pc : Fin N → Pc
  /-- `p->state` -/
  state : Fin N → ProcState
  /-- `p->chan == chan` -/
  chan : Fin N → Bool
  /-- `proc[p].lock.locked` -/
  locked : Fin N → Bool
  /-- the process holding `lk` -/
  lk : Option (Fin N)
  cond : Bool

/-- Every process outside the pattern and running, both locks free. -/
def St.init (N : Nat) (cond : Bool) : St N :=
  ⟨fun _ => .idle, fun _ => .running, fun _ => false, fun _ => false, none, cond⟩

/-- The atomic steps: a process starting the pattern as a sleeper or as a
waker (its `acquire(lk)`), taking its next step, or being run by the
scheduler. -/
inductive Ev (N : Nat) where
  | wait (p : Fin N)
  | signal (p : Fin N)
  | next (p : Fin N)
  | resume (p : Fin N)
  deriving DecidableEq, Repr

variable {N : Nat}

/-- `acquire(lk)` by `p`, which goes on at `pc`. -/
def St.acquireLk (s : St N) (p : Fin N) (pc : Pc) : Option (St N) :=
  if s.lk = none then some { s with lk := some p, pc := Function.update s.pc p pc } else none

/-- `release(lk)` by `p`, which goes on at `pc`; it panics unless `p` holds
`lk`. -/
def St.releaseLk (s : St N) (p : Fin N) (pc : Pc) : Option (St N) :=
  if s.lk = some p then some { s with lk := none, pc := Function.update s.pc p pc } else none

/-- One look of `wakeup` at `proc[q]`, under `proc[q].lock`. -/
def St.visit (s : St N) (q : Fin N) : St N :=
  if s.state q = .sleeping ∧ s.chan q = true then
    { s with state := Function.update s.state q .runnable }
  else s

@[simp] theorem St.visit_pc (s : St N) (q : Fin N) : (s.visit q).pc = s.pc := by
  unfold St.visit
  split_ifs <;> rfl

@[simp] theorem St.visit_chan (s : St N) (q : Fin N) : (s.visit q).chan = s.chan := by
  unfold St.visit
  split_ifs <;> rfl

@[simp] theorem St.visit_locked (s : St N) (q : Fin N) : (s.visit q).locked = s.locked := by
  unfold St.visit
  split_ifs <;> rfl

@[simp] theorem St.visit_lk (s : St N) (q : Fin N) : (s.visit q).lk = s.lk := by
  unfold St.visit
  split_ifs <;> rfl

@[simp] theorem St.visit_cond (s : St N) (q : Fin N) : (s.visit q).cond = s.cond := by
  unfold St.visit
  split_ifs <;> rfl

theorem St.visit_state (s : St N) (q r : Fin N) :
    (s.visit q).state r =
      if r = q ∧ s.state q = .sleeping ∧ s.chan q = true then .runnable else s.state r := by
  unfold St.visit
  by_cases hr : r = q
  · subst hr
    split_ifs <;> simp_all
  · split_ifs <;> simp_all

/-- The next step of `p` at its place in the code. -/
def St.next (s : St N) (p : Fin N) : Option (St N) :=
  match s.pc p with
  | .idle => none
  | .check =>
    -- the loop test; a sleeper that finds `cond` consumes it
    if s.cond then ({ s with cond := false }).releaseLk p .idle
    else some { s with pc := Function.update s.pc p .lockSelf }
  | .lockSelf =>
    if s.locked p then none
    else
      some { s with
        locked := Function.update s.locked p true
        pc := Function.update s.pc p .releaseLk }
  | .releaseLk => s.releaseLk p .toSleep
  | .toSleep =>
    -- `sched` checks that `p->lock` is held and `lk` is not; the scheduler
    -- releases `p->lock` once `p` is off the CPU
    if s.locked p ∧ s.lk ≠ some p then
      some { s with
        chan := Function.update s.chan p true
        state := Function.update s.state p .sleeping
        locked := Function.update s.locked p false
        pc := Function.update s.pc p .inSched }
    else none
  | .inSched => none
  | .tidy =>
    if s.locked p then
      some { s with
        chan := Function.update s.chan p false
        locked := Function.update s.locked p false
        pc := Function.update s.pc p .reacquire }
    else none
  | .reacquire => s.acquireLk p .check
  | .setCond => some { s with cond := true, pc := Function.update s.pc p (.waking 0) }
  | .waking i =>
    if h : i < N then
      if s.locked ⟨i, h⟩ then none
      else some { s.visit ⟨i, h⟩ with pc := Function.update s.pc p (.waking (i + 1)) }
    else s.releaseLk p .idle

/-- One step. -/
def step (s : St N) : Ev N → Option (St N)
  | .wait p => if s.pc p = .idle then s.acquireLk p .check else none
  | .signal p => if s.pc p = .idle then s.acquireLk p .setCond else none
  | .next p => s.next p
  | .resume p =>
    if s.pc p = .inSched ∧ s.state p = .runnable ∧ s.locked p = false then
      some { s with
        pc := Function.update s.pc p .tidy
        state := Function.update s.state p .running
        locked := Function.update s.locked p true }
    else none

/-- The pattern from `St.init` on. -/
def sleepSystem (N : Nat) (cond : Bool) : System (St N) (Ev N) := ⟨St.init N cond, step⟩

/-! ## The invariant -/

section Inv

variable {s s' : St N} {p : Fin N}

/-- What a process's own fields say about its place in the code: it holds
`p->lock` where the code does, it runs unless it is in `sched`, and it is in
`sched` only on `chan`. -/
structure Own (s : St N) (p : Fin N) : Prop where
  locked_eq : s.locked p = (s.pc p).holdsSelf
  running : s.pc p ≠ .inSched → s.state p = .running
  chan : s.pc p = .inSched → s.chan p = true

/-- `p` is about to sleep, or sleeps and has not been woken. -/
def Sleepy (s : St N) (p : Fin N) : Prop :=
  s.pc p = .toSleep ∨ (s.pc p = .inSched ∧ s.state p = .sleeping)

/-- While `cond` holds, every process about to sleep or asleep lies ahead of
a running `wakeup`. -/
def Covered (s : St N) : Prop :=
  ∀ p, Sleepy s p → s.cond = true → ∃ q i, s.pc q = .waking i ∧ i ≤ p.val

/-- The invariant of the pattern. -/
structure Inv (s : St N) : Prop where
  own : ∀ p, Own s p
  lk_iff : ∀ p, s.lk = some p ↔ (s.pc p).holdsLk = true
  checked : ∀ p, s.pc p = .lockSelf ∨ s.pc p = .releaseLk → s.cond = false
  covered : Covered s

theorem Inv.holder_unique (h : Inv s) {p q : Fin N} (hp : (s.pc p).holdsLk = true)
    (hq : (s.pc q).holdsLk = true) : p = q := by
  have h₁ := (h.lk_iff p).mpr hp
  have h₂ := (h.lk_iff q).mpr hq
  rw [h₁] at h₂
  exact Option.some.inj h₂

theorem Own.of_eq (h : Own s p) (hpc : s'.pc p = s.pc p) (hst : s'.state p = s.state p)
    (hch : s'.chan p = s.chan p) (hlo : s'.locked p = s.locked p) : Own s' p := by
  obtain ⟨h₁, h₂, h₃⟩ := h
  exact ⟨by rw [hlo, hpc, h₁], by rw [hpc, hst]; exact h₂, by rw [hpc, hch]; exact h₃⟩

/-- `s'` differs from `s` at most in the fields of `p`, in `lk` and in
`cond`. -/
def Frame (p : Fin N) (s s' : St N) : Prop :=
  ∀ q, q ≠ p → s'.pc q = s.pc q ∧ s'.state q = s.state q ∧ s'.chan q = s.chan q ∧
    s'.locked q = s.locked q

theorem lk_iff_of_frame (h : ∀ q, s.lk = some q ↔ (s.pc q).holdsLk = true)
    (hpc : ∀ q, q ≠ p → s'.pc q = s.pc q) (hp : s'.lk = some p ↔ (s'.pc p).holdsLk = true)
    (hlk : ∀ q, q ≠ p → (s'.lk = some q ↔ s.lk = some q)) :
    ∀ q, s'.lk = some q ↔ (s'.pc q).holdsLk = true := by
  intro q
  by_cases hq : q = p
  · subst hq
    exact hp
  · rw [hlk q hq, hpc q hq]
    exact h q

theorem Sleepy.of_frame (hf : Frame p s s') {r : Fin N} (hrp : r ≠ p) (hr : Sleepy s' r) :
    Sleepy s r := by
  obtain ⟨hpc, hst, -⟩ := hf r hrp
  unfold Sleepy at hr ⊢
  rwa [hpc, hst] at hr

/-- A step of `p` alone keeps a `wakeup` ahead of every sleeper when it
neither moves a `wakeup` nor sets `cond` nor sends `p` to sleep with `cond`
set. -/
theorem covered_of_frame (h : Covered s) (hf : Frame p s s')
    (hcond : s'.cond = true → s.cond = true) (hwas : ∀ i, s.pc p ≠ .waking i)
    (hsl : Sleepy s' p → s'.cond = true → Sleepy s p) : Covered s' := by
  intro r hr hc
  have hr₀ : Sleepy s r := by
    by_cases hrp : r = p
    · subst hrp
      exact hsl hr hc
    · exact hr.of_frame hf hrp
  obtain ⟨q, i, hq, hi⟩ := h r hr₀ (hcond hc)
  have hqp : q ≠ p := by
    rintro rfl
    exact hwas i hq
  exact ⟨q, i, (hf q hqp).1.trans hq, hi⟩

/-- A step of `p` alone keeps the invariant when it keeps `p`'s own fields,
`lk` and `cond` in line. -/
theorem Inv.of_frame (h : Inv s) (hf : Frame p s s') (hown : Own s' p)
    (hlk : s'.lk = some p ↔ (s'.pc p).holdsLk = true)
    (hlk' : ∀ q, q ≠ p → (s'.lk = some q ↔ s.lk = some q))
    (hchk : s'.pc p = .lockSelf ∨ s'.pc p = .releaseLk → s'.cond = false)
    (hchk' : ∀ q, q ≠ p → s.pc q = .lockSelf ∨ s.pc q = .releaseLk → s'.cond = false)
    (hcov : Covered s') : Inv s' where
  own q := by
    by_cases hq : q = p
    · subst hq
      exact hown
    · obtain ⟨h₁, h₂, h₃, h₄⟩ := hf q hq
      exact (h.own q).of_eq h₁ h₂ h₃ h₄
  lk_iff := lk_iff_of_frame h.lk_iff (fun q hq => (hf q hq).1) hlk hlk'
  checked q hq := by
    by_cases hqp : q = p
    · subst hqp
      exact hchk hq
    · rw [(hf q hqp).1] at hq
      exact hchk' q hqp hq
  covered := hcov

/-- `Inv.of_frame` for a step that leaves every `wakeup` where it is and
sets no `cond`. -/
theorem Inv.of_frame_still (h : Inv s) (hf : Frame p s s') (hown : Own s' p)
    (hlk : s'.lk = some p ↔ (s'.pc p).holdsLk = true)
    (hlk' : ∀ q, q ≠ p → (s'.lk = some q ↔ s.lk = some q))
    (hchk : s'.pc p = .lockSelf ∨ s'.pc p = .releaseLk → s'.cond = false)
    (hcond : s'.cond = true → s.cond = true) (hwas : ∀ i, s.pc p ≠ .waking i)
    (hsl : Sleepy s' p → s'.cond = true → Sleepy s p) : Inv s' := by
  refine h.of_frame hf hown hlk hlk' hchk (fun q _ hq => ?_)
    (covered_of_frame h.covered hf hcond hwas hsl)
  cases hc : s'.cond
  · rfl
  · exact absurd (hcond hc) (by rw [h.checked q hq]; decide)

end Inv

/-! ## Each step keeps the invariant -/

section Steps

variable {s s' : St N} {p : Fin N}

/-- `acquire(lk)` from outside the pattern or at the end of `sleep`. -/
theorem Inv.acquireLk (h : Inv s) {pc : Pc} (hs : s.acquireLk p pc = some s')
    (hfrom : s.pc p = .idle ∨ s.pc p = .reacquire) (hto : pc = .check ∨ pc = .setCond) :
    Inv s' := by
  unfold St.acquireLk at hs
  split_ifs at hs with hnone
  cases hs
  have hfree : (s.pc p).holdsSelf = false ∧ s.pc p ≠ .inSched ∧ ∀ i, s.pc p ≠ .waking i := by
    rcases hfrom with hp | hp <;> simp [hp, Pc.holdsSelf]
  have hto' : pc.holdsLk = true ∧ pc.holdsSelf = false ∧ pc ≠ .inSched ∧ pc ≠ .lockSelf ∧
      pc ≠ .releaseLk ∧ pc ≠ .toSleep := by
    rcases hto with rfl | rfl <;> decide
  refine h.of_frame_still (p := p) (fun q hq => by simp [Function.update_of_ne hq])
    ⟨?_, fun _ => (h.own p).running hfree.2.1, ?_⟩ (by simp [hto'.1])
    (fun q hq => by simp [hnone, Ne.symm hq]) (by simp [hto'.2.2.2.1, hto'.2.2.2.2.1]) id
    hfree.2.2 (by simp [Sleepy, hto'.2.2.1, hto'.2.2.2.2.2])
  · simp [(h.own p).locked_eq, hfree.1, hto'.2.1]
  · simp [hto'.2.2.1]

/-- `release(lk)`, going on outside the pattern or in `sleep` towards
`sched`. -/
theorem Inv.releaseLk (h : Inv s) {pc : Pc} (hs : s.releaseLk p pc = some s')
    (hfrom : s.pc p = .check ∨ s.pc p = .releaseLk) (hto : pc = .idle ∨ pc = .toSleep)
    (hself : (s.pc p).holdsSelf = pc.holdsSelf) (hcond : s.cond = true → pc = .idle) :
    Inv s' := by
  unfold St.releaseLk at hs
  split_ifs at hs with hheld
  cases hs
  have hfrom' : s.pc p ≠ .inSched ∧ ∀ i, s.pc p ≠ .waking i := by
    rcases hfrom with hp | hp <;> simp [hp]
  have hto' : pc.holdsLk = false ∧ pc ≠ .inSched ∧ pc ≠ .lockSelf ∧ pc ≠ .releaseLk := by
    rcases hto with rfl | rfl <;> decide
  refine h.of_frame_still (p := p) (fun q hq => by simp [Function.update_of_ne hq])
    ⟨?_, fun _ => (h.own p).running hfrom'.1, ?_⟩ (by simp [hto'.1])
    (fun q hq => by simp [hheld, Ne.symm hq]) (by simp [hto'.2.2.1, hto'.2.2.2]) id hfrom'.2 ?_
  · simp [(h.own p).locked_eq, hself]
  · simp [hto'.2.1]
  · intro _ hc
    obtain rfl := hcond hc
    simp [Sleepy] at *

/-- A sleeper that finds `cond` set consumes it. -/
theorem Inv.clearCond (h : Inv s) : Inv { s with cond := false } where
  own q := (h.own q).of_eq rfl rfl rfl rfl
  lk_iff := h.lk_iff
  checked _ _ := rfl
  covered _ _ hc := absurd hc Bool.false_ne_true

/-- `while(!cond)` finds `cond` clear: `sleep` starts. -/
theorem Inv.check_false (h : Inv s) (hpc : s.pc p = .check) (hc : s.cond = false) :
    Inv { s with pc := Function.update s.pc p .lockSelf } := by
  refine h.of_frame_still (p := p) (fun q hq => by simp [Function.update_of_ne hq])
    ⟨?_, fun _ => (h.own p).running (by simp [hpc]), fun hp => by simp at hp⟩ ?_
    (fun _ _ => Iff.rfl) (fun _ => hc) id (by simp [hpc]) (by simp [Sleepy])
  · simp [(h.own p).locked_eq, hpc, Pc.holdsSelf]
  · simp [h.lk_iff p, hpc, Pc.holdsLk]

/-- `acquire(&p->lock)` in `sleep`. -/
theorem Inv.lockSelf (h : Inv s) (hpc : s.pc p = .lockSelf) :
    Inv { s with
      locked := Function.update s.locked p true
      pc := Function.update s.pc p .releaseLk } := by
  refine h.of_frame_still (p := p) (fun q hq => by simp [Function.update_of_ne hq])
    ⟨by simp [Pc.holdsSelf], fun _ => (h.own p).running (by simp [hpc]),
      fun hp => by simp at hp⟩ ?_ (fun _ _ => Iff.rfl) (fun _ => h.checked p (Or.inl hpc)) id
    (by simp [hpc]) (by simp [Sleepy])
  simp [h.lk_iff p, hpc, Pc.holdsLk]

/-- `p->chan = chan; p->state = SLEEPING; sched()`, after which the scheduler
releases `p->lock`. -/
theorem Inv.toSleep (h : Inv s) (hpc : s.pc p = .toSleep) :
    Inv { s with
      chan := Function.update s.chan p true
      state := Function.update s.state p .sleeping
      locked := Function.update s.locked p false
      pc := Function.update s.pc p .inSched } := by
  refine h.of_frame_still (p := p) (fun q hq => by simp [Function.update_of_ne hq])
    ⟨by simp [Pc.holdsSelf], fun hp => by simp at hp, fun _ => by simp⟩ ?_
    (fun _ _ => Iff.rfl) (fun hp => by simp at hp) id (by simp [hpc]) fun _ _ => Or.inl hpc
  simp [h.lk_iff p, hpc, Pc.holdsLk]

/-- Back from `sched`: `p->chan = 0; release(&p->lock)`. -/
theorem Inv.tidy (h : Inv s) (hpc : s.pc p = .tidy) :
    Inv { s with
      chan := Function.update s.chan p false
      locked := Function.update s.locked p false
      pc := Function.update s.pc p .reacquire } := by
  refine h.of_frame_still (p := p) (fun q hq => by simp [Function.update_of_ne hq])
    ⟨by simp [Pc.holdsSelf], fun _ => (h.own p).running (by simp [hpc]),
      fun hp => by simp at hp⟩ ?_ (fun _ _ => Iff.rfl) (fun hp => by simp at hp) id
    (by simp [hpc]) (by simp [Sleepy])
  simp [h.lk_iff p, hpc, Pc.holdsLk]

/-- The scheduler runs a woken sleeper, which comes back from `sched`
holding `p->lock`. -/
theorem Inv.resume (h : Inv s) (hpc : s.pc p = .inSched) :
    Inv { s with
      pc := Function.update s.pc p .tidy
      state := Function.update s.state p .running
      locked := Function.update s.locked p true } := by
  refine h.of_frame_still (p := p) (fun q hq => by simp [Function.update_of_ne hq])
    ⟨by simp [Pc.holdsSelf], fun _ => by simp, fun hp => by simp at hp⟩ ?_
    (fun _ _ => Iff.rfl) (fun hp => by simp at hp) id (by simp [hpc]) (by simp [Sleepy])
  simp [h.lk_iff p, hpc, Pc.holdsLk]

/-- `cond = 1` under `lk`: `wakeup` starts at `proc[0]`. -/
theorem Inv.setCond (h : Inv s) (hpc : s.pc p = .setCond) :
    Inv { s with cond := true, pc := Function.update s.pc p (.waking 0) } := by
  refine h.of_frame (p := p) (fun q hq => by simp [Function.update_of_ne hq])
    ⟨?_, fun _ => (h.own p).running (by simp [hpc]), fun hp => by simp at hp⟩ ?_
    (fun _ _ => Iff.rfl) (fun hp => by simp at hp) (fun q hqp hq => ?_)
    (fun _ _ _ => ⟨p, 0, by simp, Nat.zero_le _⟩)
  · simp [(h.own p).locked_eq, hpc, Pc.holdsSelf]
  · simp [h.lk_iff p, hpc, Pc.holdsLk]
  · -- a sleeper testing `cond` holds `lk`, which the waker holds
    refine absurd (h.holder_unique (p := q) (q := p) ?_ (by simp [hpc, Pc.holdsLk])) hqp
    rcases hq with hq | hq <;> simp [hq, Pc.holdsLk]

/-- `wakeup` at `proc[i]`: only a sleeping process turns runnable. -/
theorem Own.visit {r : Fin N} (h : Own s r) (q : Fin N) : Own (s.visit q) r := by
  refine ⟨by simpa using h.locked_eq, fun hr => ?_, by simpa using h.chan⟩
  rw [St.visit_pc] at hr
  rw [St.visit_state]
  split_ifs with hw
  · obtain ⟨rfl, hsl, -⟩ := hw
    exact absurd (h.running hr) (by rw [hsl]; decide)
  · exact h.running hr

/-- `wakeup` looks at `proc[i]` under `proc[i].lock`.  A process about to
sleep holds its own lock, so `wakeup` cannot look at it; one asleep on
`chan` is woken: either way `proc[i]` is no longer left behind. -/
theorem Inv.visit (h : Inv s) {i : Nat} (hpc : s.pc p = .waking i) (hi : i < N)
    (hlo : s.locked ⟨i, hi⟩ = false) :
    Inv { s.visit ⟨i, hi⟩ with pc := Function.update s.pc p (.waking (i + 1)) } where
  own q := by
    by_cases hq : q = p
    · subst hq
      refine ⟨?_, fun _ => ((h.own q).visit _).running (by simp [hpc]), fun hp => by simp at hp⟩
      simp [(h.own q).locked_eq, hpc, Pc.holdsSelf]
    · exact ((h.own q).visit _).of_eq (by simp [Function.update_of_ne hq]) rfl rfl rfl
  lk_iff := lk_iff_of_frame (p := p) h.lk_iff (fun q hq => by simp [Function.update_of_ne hq])
    (by simp [h.lk_iff p, hpc, Pc.holdsLk]) (fun q _ => by simp)
  checked q hq := by
    have hqp : q ≠ p := by
      rintro rfl
      simp at hq
    simp only [St.visit_cond]
    exact h.checked q (by simpa [Function.update_of_ne hqp] using hq)
  covered r hr hc := by
    have hrp : r ≠ p := by
      rintro rfl
      simp [Sleepy] at hr
    change Function.update s.pc p (.waking (i + 1)) r = .toSleep ∨
      (Function.update s.pc p (.waking (i + 1)) r = .inSched ∧
        (s.visit ⟨i, hi⟩).state r = .sleeping) at hr
    rw [Function.update_of_ne hrp] at hr
    rw [St.visit_cond] at hc
    by_cases hri : r = ⟨i, hi⟩
    · subst hri
      exfalso
      rcases hr with hr | ⟨hr, hst⟩
      · -- about to sleep, so holding `proc[i].lock`
        have hlocked := (h.own ⟨i, hi⟩).locked_eq
        rw [hr, hlo] at hlocked
        exact Bool.false_ne_true hlocked
      · -- asleep on `chan`, so woken now
        have hchan := (h.own ⟨i, hi⟩).chan hr
        rw [St.visit_state] at hst
        split_ifs at hst with hw
        exact hw ⟨rfl, hst, hchan⟩
    · have hst : (s.visit ⟨i, hi⟩).state r = s.state r := by
        rw [St.visit_state, if_neg (fun hw => hri hw.1)]
      rw [hst] at hr
      obtain ⟨q, j, hq, hj⟩ := h.covered r hr hc
      obtain rfl := h.holder_unique (by rw [hq]; rfl) (by rw [hpc]; rfl)
      rw [hpc, Pc.waking.injEq] at hq
      subst hq
      have hne : r.val ≠ i := fun he => hri (Fin.ext he)
      exact ⟨q, i + 1, by simp, by omega⟩

/-- `wakeup` has passed every process and `release(lk)`. -/
theorem Inv.wakeupDone (h : Inv s) {i : Nat} (hpc : s.pc p = .waking i) (hi : N ≤ i)
    (hs : s.releaseLk p .idle = some s') : Inv s' := by
  unfold St.releaseLk at hs
  split_ifs at hs with hheld
  cases hs
  -- the `wakeup` is past every process, so none sleeps while `cond` holds
  have hnone : ∀ r, Sleepy s r → s.cond = true → False := by
    intro r hr hc
    obtain ⟨q, j, hq, hj⟩ := h.covered r hr hc
    obtain rfl := h.holder_unique (by rw [hq]; rfl) (by rw [hpc]; rfl)
    rw [hpc, Pc.waking.injEq] at hq
    have := r.isLt
    omega
  have hf : Frame p s { s with lk := none, pc := Function.update s.pc p .idle } :=
    fun q hq => by simp [Function.update_of_ne hq]
  refine h.of_frame hf ⟨?_, fun _ => (h.own p).running (by simp [hpc]), fun hp => by simp at hp⟩
    (by simp [Pc.holdsLk]) (fun q hq => by simp [hheld, Ne.symm hq]) (fun hp => by simp at hp)
    (fun q _ hq => h.checked q hq) (fun r hr hc => ?_)
  · simp [(h.own p).locked_eq, hpc, Pc.holdsSelf]
  · have hrp : r ≠ p := by
      rintro rfl
      simp [Sleepy] at hr
    exact (hnone r (hr.of_frame hf hrp) hc).elim

/-- Every next step of a process keeps the invariant. -/
theorem Inv.next (h : Inv s) (hs : s.next p = some s') : Inv s' := by
  unfold St.next at hs
  cases hpc : s.pc p with
  | idle => simp [hpc] at hs
  | check =>
    simp only [hpc] at hs
    split_ifs at hs with hc
    · exact h.clearCond.releaseLk hs (Or.inl hpc) (Or.inl rfl) (by rw [hpc]; rfl) fun _ => rfl
    · cases hs
      exact h.check_false hpc (by simpa using hc)
  | lockSelf =>
    simp only [hpc] at hs
    split_ifs at hs
    cases hs
    exact h.lockSelf hpc
  | releaseLk =>
    simp only [hpc] at hs
    exact h.releaseLk hs (Or.inr hpc) (Or.inr rfl) (by rw [hpc]; rfl)
      fun hc => absurd (h.checked p (Or.inr hpc)) (by rw [hc]; decide)
  | toSleep =>
    simp only [hpc] at hs
    split_ifs at hs
    cases hs
    exact h.toSleep hpc
  | inSched => simp [hpc] at hs
  | tidy =>
    simp only [hpc] at hs
    split_ifs at hs
    cases hs
    exact h.tidy hpc
  | reacquire =>
    simp only [hpc] at hs
    exact h.acquireLk hs (Or.inr hpc) (Or.inl rfl)
  | setCond =>
    simp only [hpc] at hs
    cases hs
    exact h.setCond hpc
  | waking i =>
    simp only [hpc] at hs
    split_ifs at hs with hi hlo
    · cases hs
      exact h.visit hpc hi (by simpa using hlo)
    · exact h.wakeupDone hpc (Nat.le_of_not_lt hi) hs

/-- Every step keeps the invariant. -/
theorem Inv.step (h : Inv s) {e : Ev N} (hs : step s e = some s') : Inv s' := by
  cases e with
  | wait p =>
    simp only [Sleep.step] at hs
    split_ifs at hs with hpc
    exact h.acquireLk hs (Or.inl hpc) (Or.inl rfl)
  | signal p =>
    simp only [Sleep.step] at hs
    split_ifs at hs with hpc
    exact h.acquireLk hs (Or.inl hpc) (Or.inr rfl)
  | next p => exact h.next hs
  | resume p =>
    simp only [Sleep.step] at hs
    split_ifs at hs with hg
    cases hs
    exact h.resume hg.1

end Steps

theorem inv_init (cond : Bool) : Inv (St.init N cond) where
  own _ := ⟨rfl, fun _ => rfl, fun h => Pc.noConfusion h⟩
  lk_iff _ := by simp [St.init, Pc.holdsLk]
  checked _ h := by simp [St.init] at h
  covered _ h := by simp [Sleepy, St.init] at h

theorem inv_reachable (cond : Bool) : (sleepSystem N cond).Invariant Inv :=
  (sleepSystem N cond).invariant_of_step (inv_init cond) fun _ _ _ h hs => h.step hs



/-! ## Safety over every interleaving -/

section Safety

variable {cond : Bool} {s : St N}

/-- No wakeup is lost: in every reachable state, a process asleep while
`cond` holds lies ahead of a running `wakeup`, which has yet to look at it.
So once every `wakeup` is done, no process sleeps while `cond` holds. -/
theorem no_lost_wakeup (hs : (sleepSystem N cond).Reachable s) (p : Fin N)
    (hp : s.state p = .sleeping) (hc : s.cond = true) :
    ∃ q i, s.pc q = .waking i ∧ i ≤ p.val := by
  have h := inv_reachable cond s hs
  -- only a process in `sched` is not running
  have hpc : s.pc p = .inSched := by
    by_contra hne
    exact absurd ((h.own p).running hne) (by rw [hp]; decide)
  exact h.covered p (Or.inr ⟨hpc, hp⟩) hc

/-- A sleeper asleep on `chan` while a waker runs `wakeup` at `proc[0]`:
`cond` is set, and the waker has yet to look at the sleeper. -/
theorem no_lost_wakeup_asleep :
    ∃ s, (sleepSystem 2 false).Reachable s ∧ s.state 0 = .sleeping ∧ s.cond = true ∧
      ∃ q i, s.pc q = .waking i ∧ i ≤ (0 : Fin 2).val := by
  obtain ⟨s, hs, hst, hc⟩ := (sleepSystem 2 false).exists_reachable_of_run
    (P := fun s => s.state 0 = .sleeping ∧ s.cond = true)
    [.wait 0, .next 0, .next 0, .next 0, .next 0, .signal 1, .next 1] (by decide)
  exact ⟨s, hs, hst, hc, no_lost_wakeup hs 0 hst hc⟩

/-- `p` spins in an `acquire` of a lock that another process holds: `lk` at
the end of `sleep`, or `proc[i].lock` in `wakeup`. -/
def Spinning (s : St N) (p : Fin N) : Prop :=
  (s.pc p = .reacquire ∧ s.lk ≠ none) ∨
    ∃ i, ∃ hi : i < N, s.pc p = .waking i ∧ s.locked ⟨i, hi⟩ = true

/-- Nothing in `sleep` or `wakeup` panics: in every reachable state a process
in the pattern and on a CPU can take its next step unless it spins on a
lock another process holds.  Every `release` finds its lock held, `sched`
finds `p->lock` held and `lk` released, and the `acquire(&p->lock)` of
`sleep` never finds the lock taken. -/
theorem next_enabled (hs : (sleepSystem N cond).Reachable s) {p : Fin N}
    (hidle : s.pc p ≠ .idle) (hsched : s.pc p ≠ .inSched) (hspin : ¬Spinning s p) :
    (s.next p).isSome := by
  have h := inv_reachable cond s hs
  have hlk := h.lk_iff p
  have hlo := (h.own p).locked_eq
  unfold St.next
  cases hpc : s.pc p with
  | idle => exact absurd hpc hidle
  | inSched => exact absurd hpc hsched
  | check =>
    rw [hpc] at hlk
    cases s.cond <;> simp [St.releaseLk, hlk.mpr rfl]
  | lockSelf =>
    rw [hpc] at hlo
    simp [hlo, Pc.holdsSelf]
  | releaseLk =>
    rw [hpc] at hlk
    simp [St.releaseLk, hlk.mpr rfl]
  | toSleep =>
    rw [hpc] at hlk hlo
    simp [hlo, Pc.holdsSelf, show s.lk ≠ some p from fun he => by simpa [Pc.holdsLk] using hlk.mp he]
  | tidy =>
    rw [hpc] at hlo
    simp [hlo, Pc.holdsSelf]
  | reacquire =>
    have hfree : s.lk = none := by
      by_contra hne
      exact hspin (Or.inl ⟨hpc, hne⟩)
    simp [St.acquireLk, hfree]
  | setCond => rfl
  | waking i =>
    rw [hpc] at hlk
    by_cases hi : i < N
    · have hfree : s.locked ⟨i, hi⟩ = false := by
        by_contra hne
        exact hspin (Or.inr ⟨i, hi, hpc, by simpa using hne⟩)
      simp [hi, hfree]
    · simp [hi, St.releaseLk, hlk.mpr rfl]

/-- The sleeper, having taken `lk`, about to test `cond`. -/
theorem next_enabled_check :
    ∃ s, (sleepSystem 2 false).Reachable s ∧ s.pc 0 = .check ∧ (s.next 0).isSome := by
  obtain ⟨s, hs, hpc⟩ := (sleepSystem 2 false).exists_reachable_of_run
    (P := fun s => s.pc 0 = .check) [.wait 0] (by decide)
  refine ⟨s, hs, hpc, next_enabled hs (by rw [hpc]; decide) (by rw [hpc]; decide) ?_⟩
  rintro (⟨h, -⟩ | ⟨i, hi, h, -⟩) <;> rw [hpc] at h <;> cases h

/-- At most one process holds `lk`. -/
theorem lk_exclusive (hs : (sleepSystem N cond).Reachable s) {p q : Fin N}
    (hp : (s.pc p).holdsLk = true) (hq : (s.pc q).holdsLk = true) : p = q :=
  (inv_reachable cond s hs).holder_unique hp hq

end Safety

end Sleep
end Xv6
