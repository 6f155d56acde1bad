import Mathlib.Data.List.Basic

/-!
# Interrupt-disable nesting

`push_off` and `pop_off` of `kernel/spinlock.c` on one CPU: `noff` counts
the `push_off`s not undone, and `intena` holds whether interrupts were on
before the outermost one, so that the last `pop_off` turns them back on.
`acquire` and `release` call them; `sched` (`kernel/proc.c`) saves
`intena` before `swtch` and writes it back after, on whatever CPU the
thread resumes; `intr_on` and `intr_off` are also called directly (the
scheduler loop, `usertrap`, `usertrapret`, a trap's entry and return).

A run is a list of these events on one CPU.  On every run in which each
`pop_off` undoes an earlier `push_off` and `intr_on` comes only when none is
in force (`Admissible`), `noff` counts the `push_off`s not undone,
interrupts are off while it is positive, and `pop_off` never panics
(`run_admissible`).  Between an outermost `push_off` and the `pop_off` that
undoes it, with no `sched` resuming a thread in between, `intena` holds what
that `push_off` saw, and the last `pop_off` restores it (`run_nested`).  A
thread resuming in `sched` puts its own `intena` in place, which is what the
CPU then restores.
-/

namespace Xv6
namespace Spinlock

/-- What `push_off` and `pop_off` keep in `struct cpu`, and the CPU's
interrupt-enable bit (`SSTATUS_SIE`). -/
structure Cpu where
  noff : Nat
  intena : Bool
  intr : Bool
  deriving DecidableEq, Repr

/-- `push_off()` -/
def pushOff (c : Cpu) : Cpu :=
  let old := c.intr
  let c := { c with intr := false }
  let c := if c.noff = 0 then { c with intena := old } else c
  { c with noff := c.noff + 1 }

/-- `pop_off()`, its panics as errors. -/
def popOff (c : Cpu) : Except String Cpu :=
  if c.intr then .error "pop_off - interruptible"
  else if c.noff < 1 then .error "pop_off"
  else
    let c := { c with noff := c.noff - 1 }
    if c.noff = 0 ∧ c.intena = true then .ok { c with intr := true } else .ok c

/-- What a CPU does to `noff`, `intena` and the interrupt-enable bit. -/
inductive Ev where
  /-- `push_off()`, also from `acquire` -/
  | pushOff
  /-- `pop_off()`, also from `release` -/
  | popOff
  /-- `intr_on()` outside `pop_off`, and a trap's return to a kernel that
  had interrupts on -/
  | intrOn
  /-- `intr_off()` outside `push_off`, and a trap's entry -/
  | intrOff
  /-- `mycpu()->intena = intena` in `sched`, once `swtch` resumes the
  thread that saved `intena` on this CPU -/
  | switchIn (intena : Bool)
  deriving DecidableEq

def step (c : Cpu) : Ev → Except String Cpu
  | .pushOff => .ok (pushOff c)
  | .popOff => popOff c
  | .intrOn => .ok { c with intr := true }
  | .intrOff => .ok { c with intr := false }
  | .switchIn v => .ok { c with intena := v }

def run (c : Cpu) : List Ev → Except String Cpu
  | [] => .ok c
  | e :: es => (step c e).bind fun c => run c es

theorem run_cons (c : Cpu) (e : Ev) (es : List Ev) :
    run c (e :: es) = (step c e).bind fun c => run c es := rfl

/-! ## Admissible runs -/

/-- A run from `d` `push_off`s in force in which every `pop_off` undoes an
earlier `push_off` and `intr_on` comes only when none is in force. -/
def Admissible : Nat → List Ev → Prop
  | _, [] => True
  | d, .pushOff :: es => Admissible (d + 1) es
  | d, .popOff :: es => 0 < d ∧ Admissible (d - 1) es
  | d, .intrOn :: es => d = 0 ∧ Admissible d es
  | d, .intrOff :: es => Admissible d es
  | d, .switchIn _ :: es => Admissible d es

/-- The `push_off`s of a run. -/
def pushes (es : List Ev) : Nat := es.count .pushOff

/-- The `pop_off`s of a run. -/
def pops (es : List Ev) : Nat := es.count .popOff

/-- A run inside an outermost `push_off`, from `d` of them in force, that
never undoes the outermost one and in which no thread resumes through
`sched`. -/
def Inside : Nat → List Ev → Prop
  | _, [] => True
  | d, .pushOff :: es => Inside (d + 1) es
  | d, .popOff :: es => 1 < d ∧ Inside (d - 1) es
  | _, .intrOn :: _ => False
  | d, .intrOff :: es => Inside d es
  | _, .switchIn _ :: _ => False

@[simp] theorem pushes_nil : pushes [] = 0 := rfl

@[simp] theorem pops_nil : pops [] = 0 := rfl

@[simp] theorem pushes_cons (e : Ev) (es : List Ev) :
    pushes (e :: es) = pushes es + if e = .pushOff then 1 else 0 := by
  delta pushes
  simp [List.count_cons]

@[simp] theorem pops_cons (e : Ev) (es : List Ev) :
    pops (e :: es) = pops es + if e = .popOff then 1 else 0 := by
  delta pops
  simp [List.count_cons]

/-! ## One step -/

@[simp] theorem pushOff_noff (c : Cpu) : (pushOff c).noff = c.noff + 1 := by
  delta pushOff
  by_cases h : c.noff = 0 <;> simp [h]

@[simp] theorem pushOff_intr (c : Cpu) : (pushOff c).intr = false := by
  delta pushOff
  by_cases h : c.noff = 0 <;> simp [h]

/-- Only the outermost `push_off` records what it saw. -/
theorem pushOff_intena (c : Cpu) :
    (pushOff c).intena = if c.noff = 0 then c.intr else c.intena := by
  delta pushOff
  by_cases h : c.noff = 0 <;> simp [h]

/-- With interrupts off and a `push_off` in force, `pop_off` does not panic;
it turns interrupts on when it undoes the last `push_off` and that one saw
them on. -/
theorem popOff_eq (c : Cpu) (hi : c.intr = false) (hn : 0 < c.noff) :
    popOff c = .ok { c with noff := c.noff - 1, intr := decide (c.noff = 1) && c.intena } := by
  delta popOff
  rw [if_neg (by simp [hi]), if_neg (by omega)]
  by_cases h1 : c.noff = 1 <;> cases c.intena <;> simp [h1, hi]
  omega

theorem run_append (c : Cpu) (es₁ es₂ : List Ev) :
    run c (es₁ ++ es₂) = (run c es₁).bind fun c => run c es₂ := by
  induction es₁ generalizing c with
  | nil => rfl
  | cons e es₁ ih =>
      simp only [List.cons_append, run_cons]
      cases step c e with
      | error _ => rfl
      | ok c₁ => exact ih c₁

/-! ## Every admissible run -/

/-- One step of an admissible run keeps `noff` equal to the `push_off`s in
force and interrupts off while it is positive; the run lemma is its
induction. -/
theorem run_admissible (c : Cpu) (d : Nat) (es : List Ev) (hn : c.noff = d)
    (hi : 0 < d → c.intr = false) (h : Admissible d es) :
    ∃ c', run c es = .ok c' ∧ c'.noff + pops es = d + pushes es ∧
      (0 < c'.noff → c'.intr = false) := by
  induction es generalizing c d with
  | nil => exact ⟨c, rfl, by simp [hn], hn ▸ hi⟩
  | cons e es ih =>
      cases e with
      | pushOff =>
          obtain ⟨c', hr, hc, hc'⟩ := ih (pushOff c) (d + 1) (by simp [hn]) (fun _ => pushOff_intr c) h
          exact ⟨c', hr, by simp at hc ⊢; omega, hc'⟩
      | popOff =>
          obtain ⟨hd, h⟩ := h
          have hstep := popOff_eq c (hi hd) (by omega)
          obtain ⟨c', hr, hc, hc'⟩ :=
            ih { c with noff := c.noff - 1, intr := decide (c.noff = 1) && c.intena } (d - 1)
              (by simp [hn]) (by intro h; simp; omega) h
          refine ⟨c', ?_, by simp at hc ⊢; omega, hc'⟩
          show (popOff c).bind (fun c => run c es) = _
          rw [hstep]
          exact hr
      | intrOn =>
          obtain ⟨rfl, h⟩ := h
          obtain ⟨c', hr, hc, hc'⟩ := ih { c with intr := true } 0 hn (by omega) h
          exact ⟨c', hr, by simp at hc ⊢; omega, hc'⟩
      | intrOff =>
          obtain ⟨c', hr, hc, hc'⟩ := ih { c with intr := false } d hn (fun _ => rfl) h
          exact ⟨c', hr, by simp at hc ⊢; omega, hc'⟩
      | switchIn v =>
          obtain ⟨c', hr, hc, hc'⟩ := ih { c with intena := v } d hn hi h
          exact ⟨c', hr, by simp at hc ⊢; omega, hc'⟩

/-! ## Inside one outermost `push_off` -/

/-- Inside the outermost `push_off`, with no thread resuming, nothing
writes `intena`: only an outermost `push_off` and `sched` do. -/
theorem run_inside (c : Cpu) (d : Nat) (es : List Ev) (hn : c.noff = d) (hd : 0 < d)
    (hi : c.intr = false) (h : Inside d es) :
    ∃ c', run c es = .ok c' ∧ c'.noff + pops es = d + pushes es ∧ 0 < c'.noff ∧
      c'.intena = c.intena ∧ c'.intr = false := by
  induction es generalizing c d with
  | nil => exact ⟨c, rfl, by simp [hn], hn ▸ hd, rfl, hi⟩
  | cons e es ih =>
      cases e with
      | pushOff =>
          -- an inner `push_off`: `noff` is positive, so `intena` stays
          have hena : (pushOff c).intena = c.intena := by
            rw [pushOff_intena, if_neg (by omega)]
          obtain ⟨c', hr, hc, hpos, he, hc'⟩ :=
            ih (pushOff c) (d + 1) (by simp [hn]) (by omega) (pushOff_intr c) h
          exact ⟨c', hr, by simp at hc ⊢; omega, hpos, he.trans hena, hc'⟩
      | popOff =>
          -- an inner `pop_off`: `noff` stays positive, so interrupts stay off
          obtain ⟨hd, h⟩ := h
          have hstep := popOff_eq c hi (by omega)
          obtain ⟨c', hr, hc, hpos, he, hc'⟩ :=
            ih { c with noff := c.noff - 1, intr := decide (c.noff = 1) && c.intena } (d - 1)
              (by simp [hn]) (by omega) (by simp; omega) h
          refine ⟨c', ?_, by simp at hc ⊢; omega, hpos, he, hc'⟩
          show (popOff c).bind (fun c => run c es) = _
          rw [hstep]
          exact hr
      | intrOn => exact h.elim
      | intrOff =>
          obtain ⟨c', hr, hc, hpos, he, hc'⟩ := ih { c with intr := false } d hn hd rfl h
          exact ⟨c', hr, by simp at hc ⊢; omega, hpos, he, hc'⟩
      | switchIn v => exact h.elim

/-- The outermost `push_off` records the interrupt state it saw, nothing
inside it changes that record, and the `pop_off` that undoes it puts
interrupts back as they were. -/
theorem run_outermost (c : Cpu) (es : List Ev) (hn : c.noff = 0) (h : Inside 1 es) :
    (∃ c', run c (.pushOff :: es) = .ok c' ∧ c'.intena = c.intr) ∧
      (pushes es = pops es →
        ∃ c', run c (.pushOff :: es ++ [.popOff]) = .ok c' ∧ c'.noff = 0 ∧ c'.intr = c.intr) := by
  obtain ⟨c', hr, hc, hpos, he, hi⟩ :=
    run_inside (pushOff c) 1 es (by simp [hn]) Nat.one_pos (pushOff_intr c) h
  have hena : c'.intena = c.intr := by rw [he, pushOff_intena, if_pos hn]
  refine ⟨⟨c', hr, hena⟩, fun hbal => ?_⟩
  -- the last `pop_off` finds only the outermost `push_off` in force
  have h1 : c'.noff = 1 := by omega
  refine ⟨{ c' with noff := 0, intr := c.intr }, ?_, rfl, rfl⟩
  have hrun : run c (.pushOff :: es) = .ok c' := hr
  rw [List.cons_append, ← List.cons_append, run_append, hrun]
  show (popOff c').bind (fun c => run c []) = _
  rw [popOff_eq c' hi hpos, h1, hena]
  rfl

/-! ## The nesting law -/

/-- On every run from a CPU with no `push_off` in force in which each
`pop_off` undoes an earlier `push_off` and `intr_on` comes only when none is
in force, `pop_off` never panics, `noff` counts the `push_off`s not undone and
interrupts are off while it is positive.  Inside an outermost `push_off` in
which no thread resumes through `sched`, `intena` is what that `push_off`
saw, and the `pop_off` that undoes it puts interrupts back as they were. -/
theorem interrupt_nesting_matched :
    (∀ (c : Cpu) (es : List Ev), c.noff = 0 → Admissible 0 es →
      ∃ c', run c es = .ok c' ∧ c'.noff = pushes es - pops es ∧
        (0 < c'.noff → c'.intr = false)) ∧
    (∀ (c : Cpu) (es : List Ev), c.noff = 0 → Inside 1 es →
      (∃ c', run c (.pushOff :: es) = .ok c' ∧ c'.intena = c.intr) ∧
      (pushes es = pops es →
        ∃ c', run c (.pushOff :: es ++ [.popOff]) = .ok c' ∧ c'.noff = 0 ∧ c'.intr = c.intr)) := by
  refine ⟨fun c es hn h => ?_, fun c es hn h => run_outermost c es hn h⟩
  obtain ⟨c', hr, hc, hi⟩ := run_admissible c 0 es hn (by omega) h
  exact ⟨c', hr, by omega, hi⟩

/-- The scheduler turns interrupts on and takes a process's lock; the process
resumes in `sched`, writes back the `intena` it saved when it gave up the CPU
with interrupts off (from `yield` in `kerneltrap`), and releases the lock:
interrupts were on before the outermost `push_off` and stay off after the
`pop_off` that undoes it. -/
theorem sched_intena_counterexample :
    Admissible 0 [.intrOn, .pushOff, .switchIn false, .popOff] ∧
      run ⟨0, false, false⟩ [.intrOn] = .ok ⟨0, false, true⟩ ∧
      run ⟨0, false, false⟩ [.intrOn, .pushOff, .switchIn false, .popOff] =
        .ok ⟨0, false, false⟩ :=
  -- the run is admissible: no `push_off` is in force at `intr_on`, one is at `pop_off`
  ⟨show 0 = 0 ∧ 0 < 1 ∧ True from ⟨rfl, Nat.one_pos, trivial⟩, rfl, rfl⟩

end Spinlock
end Xv6
