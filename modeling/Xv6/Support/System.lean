import Mathlib.Logic.Relation

/-!
# Guarded transition systems

A concurrent component of the kernel is modelled as a state type, a type of
events (one per atomic step a CPU or a device can take, with the
nondeterministic choices of the step as event arguments), an initial state,
and a guarded step function: `step s e = none` when the event is not enabled
in `s` (a lock that is held, a loop that has already exited, a panic).

Being a function, the step can replay a concrete interleaving by evaluation,
so a counterexample trace is checked by `decide`; being total on events, it
gives one induction principle for every invariant over all interleavings.
-/

namespace Xv6

/-- A property that every pass of a loop in `Option` keeps holds when the
loop ends. -/
theorem foldlM_inv {α β : Type} {f : α → β → Option α} (P : α → Prop)
    (hf : ∀ a b a', P a → f a b = some a' → P a') :
    ∀ (l : List β) {a a' : α}, P a → l.foldlM f a = some a' → P a' := by
  intro l
  induction l with
  | nil =>
      intro a a' ha h
      rw [List.foldlM_nil, Option.pure_def, Option.some.injEq] at h
      exact h ▸ ha
  | cons b l ih =>
      intro a a' ha h
      rw [List.foldlM_cons] at h
      cases hb : f a b with
      | none => rw [hb] at h; cases h
      | some a₁ =>
          rw [hb, Option.bind_eq_bind, Option.bind_some] at h
          exact ih (hf a b a₁ ha hb) h

/-- What a call that may panic ends with: `P` of what it returns, or `Q`
when it panics. -/
def Outcome {ε α : Type} (P : α → Prop) (Q : Prop) : Except ε α → Prop
  | .ok a => P a
  | .error _ => Q

section Outcome

variable {ε α : Type} {P P' : α → Prop} {Q Q' : Prop} {x : Except ε α}

@[simp] theorem outcome_ok (a : α) : Outcome P Q (.ok a : Except ε α) ↔ P a := Iff.rfl

@[simp] theorem outcome_error (e : ε) : Outcome P Q (.error e : Except ε α) ↔ Q := Iff.rfl

theorem Outcome.mono (h : Outcome P Q x) (hP : ∀ a, P a → P' a) (hQ : Q → Q') :
    Outcome P' Q' x := by
  cases x with
  | error e => exact hQ h
  | ok a => exact hP a h

theorem outcome_of_error {e : ε} (hQ : Q) : Outcome P Q (.error e : Except ε α) := hQ

theorem outcome_map {β : Type} (f : α → β) {P : β → Prop} (x : Except ε α) :
    Outcome P Q (x.map f) ↔ Outcome (fun a => P (f a)) Q x := by
  cases x <;> rfl

/-- A step taken through `Except.toOption` is a call that returned. -/
theorem ok_of_toOption {a : α} (h : x.toOption = some a) : x = .ok a := by
  cases x with
  | error e => cases h
  | ok b => cases h; rfl

/-- A call after one that returned `a` runs on `a`. -/
theorem except_ok_bind {β : Type} (a : α) (f : α → Except ε β) : (Except.ok a >>= f) = f a := rfl

/-- What a call returns satisfies `P`. -/
theorem Outcome.of_ok (h : Outcome P Q x) {a : α} (hx : x = .ok a) : P a := by
  subst hx
  exact h

/-- A call that cannot panic returns. -/
theorem Outcome.exists_ok (h : Outcome P Q x) (hQ : ¬ Q) : ∃ a, x = .ok a ∧ P a := by
  cases x with
  | error e => exact absurd h hQ
  | ok a => exact ⟨a, rfl, h⟩

end Outcome

/-- A transition system with an initial state and a guarded step function. -/
structure System (S Ev : Type) where
  init : S
  step : S → Ev → Option S

namespace System

variable {S Ev : Type} (sys : System S Ev)

/-- Replay the events `evs` from `s`, stopping at the first disabled one. -/
def runFrom (s : S) (evs : List Ev) : Option S :=
  evs.foldlM sys.step s

/-- Replay the events `evs` from the initial state. -/
def run (evs : List Ev) : Option S :=
  sys.runFrom sys.init evs

/-- The states some interleaving of enabled events reaches. -/
inductive Reachable : S → Prop
  | init : Reachable sys.init
  | step {s s' : S} {e : Ev} :
      Reachable s → sys.step s e = some s' → Reachable s'

/-- A property of every reachable state. -/
def Invariant (P : S → Prop) : Prop :=
  ∀ s, sys.Reachable s → P s

@[simp] theorem runFrom_nil (s : S) : sys.runFrom s [] = some s := rfl

theorem runFrom_cons (s : S) (e : Ev) (evs : List Ev) :
    sys.runFrom s (e :: evs) = (sys.step s e).bind (sys.runFrom · evs) := by
  simp only [runFrom, List.foldlM_cons]
  rfl

/-- The induction rule for invariants: it holds initially and every enabled
event preserves it. -/
theorem invariant_of_step {P : S → Prop}
    (hinit : P sys.init)
    (hstep : ∀ s e s', P s → sys.step s e = some s' → P s') :
    sys.Invariant P := by
  intro s hs
  induction hs with
  | init => exact hinit
  | step _ hse ih => exact hstep _ _ _ ih hse

/-- An inductive invariant `I` that implies `P` makes `P` invariant; the
step may assume that the source state is reachable. -/
theorem invariant_of_inductive {P I : S → Prop}
    (hinit : I sys.init)
    (hstep : ∀ s e s', sys.Reachable s → I s → sys.step s e = some s' → I s')
    (himp : ∀ s, I s → P s) :
    sys.Invariant P := by
  intro s hs
  apply himp
  induction hs with
  | init => exact hinit
  | step hr hse ih => exact hstep _ _ _ hr ih hse

/-- Replay from a reachable state stays among the reachable states. -/
theorem runFrom_reachable {s : S} (hs : sys.Reachable s) :
    ∀ (evs : List Ev) {s' : S}, sys.runFrom s evs = some s' →
      sys.Reachable s' := fun evs =>
  foldlM_inv sys.Reachable (fun _ _ _ h hse => Reachable.step h hse) evs hs

/-- The end state of a replayed interleaving is reachable. -/
theorem run_reachable {evs : List Ev} {s : S} (h : sys.run evs = some s) :
    sys.Reachable s :=
  sys.runFrom_reachable Reachable.init evs h

/-- A replayed interleaving whose end state is checked to satisfy `P`
reaches a state satisfying `P`: the form in which a trace found by
evaluation is a reachability fact. -/
theorem exists_reachable_of_run {P : S → Prop} [DecidablePred P] (evs : List Ev)
    (h : (sys.run evs).map (fun s => decide (P s)) = some true) :
    ∃ s, sys.Reachable s ∧ P s := by
  cases hs : sys.run evs with
  | none =>
      rw [hs] at h
      cases h
  | some s =>
      rw [hs, Option.map_some, Option.some.injEq, decide_eq_true_eq] at h
      exact ⟨s, sys.run_reachable hs, h⟩

end System

end Xv6
