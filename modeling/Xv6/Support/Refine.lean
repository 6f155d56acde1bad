import Mathlib.Logic.Basic

/-!
# Lock-step refinement of loops that may panic

A concrete loop refines an abstract one when, started from related states,
every pass of the concrete body fails exactly when the abstract pass does,
and otherwise ends in related states.  The relation carries the invariant of
the concrete states as well as the abstraction; the error texts of the two
sides need not agree.
-/

namespace Xv6

/-- Both computations fail, or both return, with related results. -/
def ExceptRel {ε ε' σ τ : Type} (V : σ → τ → Prop) : Except ε σ → Except ε' τ → Prop
  | .ok s, .ok t => V s t
  | .error _, .error _ => True
  | _, _ => False

section

variable {ε ε' σ τ σ' τ' α : Type} {V : σ → τ → Prop}

@[simp] theorem exceptRel_ok_ok (s : σ) (t : τ) :
    @ExceptRel ε ε' σ τ V (.ok s) (.ok t) ↔ V s t := Iff.rfl

@[simp] theorem exceptRel_error_error (e : ε) (e' : ε') :
    @ExceptRel ε ε' σ τ V (.error e) (.error e') := trivial

@[simp] theorem not_exceptRel_ok_error (s : σ) (e' : ε') :
    ¬@ExceptRel ε ε' σ τ V (.ok s) (.error e') := id

@[simp] theorem not_exceptRel_error_ok (e : ε) (t : τ) :
    ¬@ExceptRel ε ε' σ τ V (.error e) (.ok t) := id

/-- Related computations followed by bodies that keep the relation. -/
theorem ExceptRel.bind {W : σ' → τ' → Prop} {x : Except ε σ} {y : Except ε' τ}
    (h : ExceptRel V x y) {f : σ → Except ε σ'} {g : τ → Except ε' τ'}
    (hfg : ∀ s t, V s t → ExceptRel W (f s) (g t)) : ExceptRel W (x >>= f) (y >>= g) := by
  cases x with
  | error e =>
    cases y with
    | error e' => trivial
    | ok t => exact absurd h id
  | ok s =>
    cases y with
    | error e' => exact absurd h id
    | ok t => exact hfg s t h

theorem ExceptRel.mono {W : σ → τ → Prop} {x : Except ε σ} {y : Except ε' τ}
    (h : ExceptRel V x y) (hVW : ∀ s t, V s t → W s t) : ExceptRel W x y := by
  cases x <;> cases y
  · trivial
  · exact absurd h id
  · exact absurd h id
  · exact hVW _ _ h

/-- A fact of every result the concrete side returns joins the relation. -/
theorem ExceptRel.and_ok {P : σ → Prop} {x : Except ε σ} {y : Except ε' τ}
    (h : ExceptRel V x y) (hP : ∀ s, x = .ok s → P s) :
    ExceptRel (fun s t => V s t ∧ P s) x y := by
  cases x with
  | error e => cases y <;> trivial
  | ok s =>
    cases y with
    | error e' => exact absurd h id
    | ok t => exact ⟨h, hP s rfl⟩

/-- Computations that fail together, and otherwise return related results,
are related. -/
theorem exceptRel_of_cases {x : Except ε σ} {y : Except ε' τ}
    (herr : ∀ e', y = .error e' → ∃ e, x = .error e)
    (hok : ∀ t, y = .ok t → ∃ s, x = .ok s ∧ V s t) : ExceptRel V x y := by
  cases y with
  | error e' =>
    obtain ⟨e, rfl⟩ := herr e' rfl
    trivial
  | ok t =>
    obtain ⟨s, rfl, h⟩ := hok t rfl
    exact h

/-- `ExceptRel.bind` with the bodies related case by case. -/
theorem ExceptRel.bind_of_cases {W : σ' → τ' → Prop} {x : Except ε σ} {y : Except ε' τ}
    (h : ExceptRel V x y) {f : σ → Except ε σ'} {g : τ → Except ε' τ'}
    (hfg : ∀ s t, V s t → (∀ e', g t = .error e' → ∃ e, f s = .error e) ∧
      ∀ t', g t = .ok t' → ∃ s', f s = .ok s' ∧ W s' t') :
    ExceptRel W (x >>= f) (y >>= g) :=
  h.bind fun s t hV => exceptRel_of_cases (hfg s t hV).1 (hfg s t hV).2

/-- An abstract computation that returns is matched by a concrete one that
returns. -/
theorem ExceptRel.exists_ok {x : Except ε σ} {y : Except ε' τ} (h : ExceptRel V x y) {t : τ}
    (hy : y = .ok t) : ∃ s, x = .ok s ∧ V s t := by
  subst hy
  cases x with
  | error e => exact absurd h id
  | ok s => exact ⟨s, rfl, h⟩

/-- A concrete computation that returns is matched by an abstract one that
returns. -/
theorem ExceptRel.of_ok_left {x : Except ε σ} {y : Except ε' τ} (h : ExceptRel V x y) {s : σ}
    (hx : x = .ok s) : ∃ t, y = .ok t ∧ V s t := by
  subst hx
  cases y with
  | error e' => exact absurd h id
  | ok t => exact ⟨t, rfl, h⟩

/-- A fact that every pass of a loop keeps holds of what the loop returns. -/
theorem foldlM_except_inv {f : σ → α → Except ε σ} (P : σ → Prop) (xs : List α)
    (hstep : ∀ s x s', x ∈ xs → P s → f s x = .ok s' → P s') {s s' : σ} (hs : P s)
    (h : xs.foldlM f s = .ok s') : P s' := by
  induction xs generalizing s with
  | nil =>
    cases h
    exact hs
  | cons x xs ih =>
    rw [List.foldlM_cons] at h
    cases hx : f s x with
    | error e =>
      rw [hx] at h
      cases h
    | ok s₁ =>
      rw [hx] at h
      exact ih (fun s y s' hy => hstep s y s' (List.mem_cons_of_mem x hy))
        (hstep s x s₁ List.mem_cons_self hs hx) h

/-- A loop refines another when each pass over the same element does. -/
theorem foldlM_exceptRel {f : σ → α → Except ε σ} {g : τ → α → Except ε' τ} (xs : List α)
    (hbody : ∀ s t, ∀ x ∈ xs, V s t → ExceptRel V (f s x) (g t x)) {s : σ} {t : τ}
    (hV : V s t) : ExceptRel V (xs.foldlM f s) (xs.foldlM g t) := by
  induction xs generalizing s t with
  | nil => exact hV
  | cons x xs ih =>
    rw [List.foldlM_cons, List.foldlM_cons]
    refine (hbody s t x List.mem_cons_self hV).bind fun s' t' hV' => ?_
    exact ih (fun s t y hy => hbody s t y (List.mem_cons_of_mem x hy)) hV'

end

end Xv6
