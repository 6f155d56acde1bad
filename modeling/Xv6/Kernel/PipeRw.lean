import Xv6.Support.CircBuf
import Xv6.Support.System
import Mathlib.Data.List.Infix

/-!
# Reading and writing a pipe

`pipewrite` and `piperead` of `kernel/pipe.c` move bytes through the
`PIPESIZE` bytes of `data`, indexed by the `uint` counters `nwrite` and
`nread`, which wrap at `2 ^ 32`.  Each runs under `pi->lock` and gives it up
only to sleep: `pipewrite` when the buffer is full, `piperead` before it
copies anything while the buffer is empty and the write end open.  A stretch
of either between taking the lock and giving it up is one atomic step here,
and a sleeping `pipewrite` resumes with the number `i` of bytes it wrote
before; any interleaving of such steps with `pipeclose` is a run of
`pipeSystem`.

Each loop also returns, as a ghost output the C code does not keep, the
bytes it moved in or out of `data`, in order.  The buffer holds the
`window` of the counters from `nread` (`contents`), and the invariant
`PipeInv` says that the bytes stored so far are those removed followed by
the contents, with at most `PIPESIZE` of them.
-/

namespace Xv6
namespace PipeRw

open CircBuf

/-- `PIPESIZE` -/
def PIPESIZE : Nat := 512

instance : NeZero PIPESIZE := ⟨by decide⟩

theorem pipesize_dvd : PIPESIZE ∣ 2 ^ 32 := ⟨2 ^ 23, by decide⟩

/-- `struct pipe`, without its lock. -/
structure Pipe where
  data : Fin PIPESIZE → UInt8
  nread : UInt32
  nwrite : UInt32
  readopen : Bool
  writeopen : Bool

/-- The pipe `pipealloc` sets up in a page `kalloc` filled with `5`s. -/
def pipealloc : Pipe := ⟨fun _ => 5, 0, 0, true, true⟩

/-- `pi->data[pi->nwrite++ % PIPESIZE] = ch`. -/
def Pipe.store (pi : Pipe) (ch : UInt8) : Pipe :=
  { pi with
    data := Function.update pi.data (slot PIPESIZE pi.nwrite) ch
    nwrite := pi.nwrite + 1 }

/-- How a stretch of `pipewrite`'s loop under the lock ends. -/
inductive WriteStop where
  /-- `sleep(&pi->nwrite, &pi->lock)` on a full buffer -/
  | sleep
  /-- `return` -/
  | ret (r : Int)

/-- The loop of `pipewrite` from `i` bytes written, for at most `fuel` more
passes: the pipe, `i`, how the stretch ends, and the bytes stored so far
(`out`, a ghost the C code does not keep).  `copyin j` is the byte at
`addr + j`, `none` when the copy fails, and `killed j` is `pr->killed` as
the pass at `i = j` reads it. -/
def pipewriteLoop (copyin : Nat → Option UInt8) (killed : Nat → Bool) :
    Nat → Pipe → Nat → List UInt8 → Pipe × Nat × WriteStop × List UInt8
  | 0, pi, i, out => (pi, i, .ret i, out)
  | fuel + 1, pi, i, out =>
      if pi.readopen = false ∨ killed i = true then (pi, i, .ret (-1), out)
      else if pi.nwrite = pi.nread + UInt32.ofNat PIPESIZE then (pi, i, .sleep, out)
      else
        match copyin i with
        | none => (pi, i, .ret i, out)
        | some ch => pipewriteLoop copyin killed fuel (pi.store ch) (i + 1) (out ++ [ch])

/-- A stretch of `pipewrite(pi, addr, n)` from `i` bytes written, with the
bytes it stores. -/
def pipewrite (pi : Pipe) (copyin : Nat → Option UInt8) (killed : Nat → Bool) (n : Int)
    (i : Nat) : Pipe × Nat × WriteStop × List UInt8 :=
  pipewriteLoop copyin killed (n.toNat - i) pi i []

/-- The copy loop of `piperead` from `i` bytes copied, for at most `fuel`
more passes: the pipe, `i`, and the bytes taken out of `data` so far
(`out`, a ghost).  `copyout j ch` says whether the copy of `ch` to
`addr + j` succeeds; the byte of a failed copy is taken out all the same. -/
def pipereadLoop (copyout : Nat → UInt8 → Bool) :
    Nat → Pipe → Nat → List UInt8 → Pipe × Nat × List UInt8
  | 0, pi, i, out => (pi, i, out)
  | fuel + 1, pi, i, out =>
      if pi.nread = pi.nwrite then (pi, i, out)
      else
        let ch := pi.data (slot PIPESIZE pi.nread)
        let pi := { pi with nread := pi.nread + 1 }
        if copyout i ch = true then pipereadLoop copyout fuel pi (i + 1) (out ++ [ch])
        else (pi, i, out ++ [ch])

/-- `piperead(pi, addr, n)` once it holds the lock; `none` while it sleeps
for a byte. -/
def piperead (pi : Pipe) (copyout : Nat → UInt8 → Bool) (killed : Bool) (n : Int) :
    Option (Pipe × Int × List UInt8) :=
  if pi.nread = pi.nwrite ∧ pi.writeopen = true then
    if killed then some (pi, -1, []) else none
  else
    let (pi', i, out) := pipereadLoop copyout n.toNat pi 0 []
    some (pi', i, out)

/-- `pipeclose(pi, writable)`, up to the `kfree` of a pipe with both ends
closed. -/
def pipeclose (pi : Pipe) (writable : Bool) : Pipe :=
  if writable then { pi with writeopen := false } else { pi with readopen := false }

/-- The bytes in the buffer, oldest first. -/
def contents (pi : Pipe) : List UInt8 := window pi.data pi.nread (count pi.nread pi.nwrite)

/-! ## One byte in, one byte out -/

section Bytes

variable {pi : Pipe}

@[simp] theorem length_contents (pi : Pipe) : (contents pi).length = count pi.nread pi.nwrite := by
  simp [contents]

theorem full_iff : pi.nwrite = pi.nread + UInt32.ofNat PIPESIZE ↔ count pi.nread pi.nwrite = PIPESIZE :=
  eq_add_iff_count (by decide)

/-- The slot `pipewrite` stores into holds no unread byte unless the buffer
is full. -/
theorem store_slot_free (h : count pi.nread pi.nwrite < PIPESIZE) {j : Nat}
    (hj : j < count pi.nread pi.nwrite) :
    slot PIPESIZE (pi.nread + UInt32.ofNat j) ≠ slot PIPESIZE pi.nwrite := by
  have hw : pi.nwrite = pi.nread + UInt32.ofNat (count pi.nread pi.nwrite) :=
    (eq_add_iff_count (count_lt _ _)).mpr rfl
  rw [hw]
  exact slot_add_ne pipesize_dvd _ hj h

/-- A byte stored into a buffer that is not full goes after the others. -/
theorem store_contents (h : count pi.nread pi.nwrite < PIPESIZE) (ch : UInt8) :
    count (pi.store ch).nread (pi.store ch).nwrite = count pi.nread pi.nwrite + 1 ∧
      contents (pi.store ch) = contents pi ++ [ch] := by
  have hc : count pi.nread (pi.nwrite + 1) = count pi.nread pi.nwrite + 1 :=
    count_add_one (by have : PIPESIZE < 2 ^ 32 := by decide
                      omega)
  have hw : pi.nwrite = pi.nread + UInt32.ofNat (count pi.nread pi.nwrite) :=
    (eq_add_iff_count (count_lt _ _)).mpr rfl
  have hslot : slot PIPESIZE pi.nwrite =
      slot PIPESIZE (pi.nread + UInt32.ofNat (count pi.nread pi.nwrite)) := by
    rw [← hw]
  refine ⟨hc, ?_⟩
  simp only [contents, Pipe.store, hc]
  rw [hslot, window_push pipesize_dvd _ _ h]

/-- Taking the first byte out of a buffer that is not empty. -/
theorem take_contents (h : pi.nread ≠ pi.nwrite) :
    contents pi = pi.data (slot PIPESIZE pi.nread) :: contents { pi with nread := pi.nread + 1 } := by
  simp only [contents, ← count_add_one_left h, window_succ_left]

end Bytes

/-! ## The loops -/

/-- A stretch of `pipewrite` appends the bytes it stores to the contents,
and never fills the buffer past `PIPESIZE`. -/
theorem pipewriteLoop_spec (copyin : Nat → Option UInt8) (killed : Nat → Bool) :
    ∀ fuel pi i out, count pi.nread pi.nwrite ≤ PIPESIZE →
      ∀ {pi' i' stop out'}, pipewriteLoop copyin killed fuel pi i out = (pi', i', stop, out') →
        ∃ new, out' = out ++ new ∧ count pi'.nread pi'.nwrite ≤ PIPESIZE ∧
          contents pi' = contents pi ++ new := by
  intro fuel
  induction fuel with
  | zero =>
      intro pi i out h pi' i' stop out' hr
      simp only [pipewriteLoop, Prod.mk.injEq] at hr
      obtain ⟨rfl, -, -, rfl⟩ := hr
      exact ⟨[], by simp, h, by simp⟩
  | succ fuel ih =>
      intro pi i out h pi' i' stop out' hr
      simp only [pipewriteLoop] at hr
      split_ifs at hr with hstop hfull
      · simp only [Prod.mk.injEq] at hr
        obtain ⟨rfl, -, -, rfl⟩ := hr
        exact ⟨[], by simp, h, by simp⟩
      · simp only [Prod.mk.injEq] at hr
        obtain ⟨rfl, -, -, rfl⟩ := hr
        exact ⟨[], by simp, h, by simp⟩
      · have hlt : count pi.nread pi.nwrite < PIPESIZE :=
          lt_of_le_of_ne h fun he => hfull (full_iff.2 he)
        cases hc : copyin i with
        | none =>
            rw [hc] at hr
            simp only [Prod.mk.injEq] at hr
            obtain ⟨rfl, -, -, rfl⟩ := hr
            exact ⟨[], by simp, h, by simp⟩
        | some ch =>
            rw [hc] at hr
            obtain ⟨hcount, hcont⟩ := store_contents hlt ch
            obtain ⟨new, rfl, h₁, h₂⟩ := ih (pi.store ch) (i + 1) (out ++ [ch]) (by omega) hr
            exact ⟨ch :: new, by simp, h₁, by rw [h₂, hcont]; simp⟩

/-- The copy loop of `piperead` takes bytes off the front of the contents;
it counts exactly those it copied out, and at most the last one it took
was lost to a failed copy. -/
theorem pipereadLoop_spec (copyout : Nat → UInt8 → Bool) :
    ∀ fuel pi i out {pi' i' out'}, pipereadLoop copyout fuel pi i out = (pi', i', out') →
      ∃ new, out' = out ++ new ∧ contents pi = new ++ contents pi' ∧ i ≤ i' ∧
        (∀ j, i ≤ j → j < i' → copyout j (new.getD (j - i) 0) = true) ∧
        (new.length = i' - i ∨
          new.length = i' - i + 1 ∧ copyout i' (new.getD (i' - i) 0) = false) := by
  intro fuel
  induction fuel with
  | zero =>
      intro pi i out pi' i' out' hr
      simp only [pipereadLoop, Prod.mk.injEq] at hr
      obtain ⟨rfl, rfl, rfl⟩ := hr
      exact ⟨[], by simp, by simp, le_rfl, fun j hj hj' => by omega, .inl (by simp)⟩
  | succ fuel ih =>
      intro pi i out pi' i' out' hr
      simp only [pipereadLoop] at hr
      split_ifs at hr with hempty hcopy
      · simp only [Prod.mk.injEq] at hr
        obtain ⟨rfl, rfl, rfl⟩ := hr
        exact ⟨[], by simp, by simp, le_rfl, fun j hj hj' => by omega, .inl (by simp)⟩
      · obtain ⟨new, rfl, h₁, h₂, h₃, h₄⟩ := ih _ (i + 1) _ hr
        refine ⟨pi.data (slot PIPESIZE pi.nread) :: new, by simp,
          by rw [take_contents hempty, h₁]; rfl, by omega, fun j hj hj' => ?_, ?_⟩
        · rcases Nat.eq_or_lt_of_le hj with rfl | hj
          · simpa using hcopy
          · rw [show j - i = (j - (i + 1)) + 1 by omega]
            simpa using h₃ j hj hj'
        · rcases h₄ with h | ⟨h, hf⟩
          · exact .inl (by simp; omega)
          · refine .inr ⟨by simp; omega, ?_⟩
            rw [show i' - i = (i' - (i + 1)) + 1 by omega]
            simpa using hf
      · simp only [Prod.mk.injEq] at hr
        obtain ⟨rfl, rfl, rfl⟩ := hr
        exact ⟨[pi.data (slot PIPESIZE pi.nread)], rfl, by rw [take_contents hempty]; rfl, le_rfl,
          fun j hj hj' => by omega, .inr ⟨by simp, by simpa using hcopy⟩⟩

/-- When every copy succeeds, the copy loop takes out the first `fuel`
bytes, or all of them, and counts them all. -/
theorem pipereadLoop_all (copyout : Nat → UInt8 → Bool) (hok : ∀ j ch, copyout j ch = true) :
    ∀ fuel pi i out {pi' i' out'}, pipereadLoop copyout fuel pi i out = (pi', i', out') →
      ∃ new, out' = out ++ new ∧ new = (contents pi).take fuel ∧ i' = i + new.length := by
  intro fuel
  induction fuel with
  | zero =>
      intro pi i out pi' i' out' hr
      simp only [pipereadLoop, Prod.mk.injEq] at hr
      obtain ⟨rfl, rfl, rfl⟩ := hr
      exact ⟨[], by simp, by simp, by simp⟩
  | succ fuel ih =>
      intro pi i out pi' i' out' hr
      simp only [pipereadLoop, hok, if_true] at hr
      split_ifs at hr with hempty
      · simp only [Prod.mk.injEq] at hr
        obtain ⟨rfl, rfl, rfl⟩ := hr
        have : count pi.nread pi.nwrite = 0 := count_eq_zero.2 hempty
        exact ⟨[], by simp, by simp [contents, this], by simp⟩
      · obtain ⟨new, rfl, h₁, h₂⟩ := ih _ (i + 1) _ hr
        refine ⟨pi.data (slot PIPESIZE pi.nread) :: new, by simp, ?_, by simp; omega⟩
        rw [take_contents hempty, h₁]
        rfl

/-! ## Any interleaving -/

/-- The atomic steps on one pipe: a stretch of a `pipewrite` call that has
written `i` bytes, a `piperead` call that holds the lock, and the close of
one end. -/
inductive PipeEv where
  | write (copyin : Nat → Option UInt8) (killed : Nat → Bool) (n : Int) (i : Nat)
  | read (copyout : Nat → UInt8 → Bool) (killed : Bool) (n : Int)
  | close (writable : Bool)

/-- A pipe with (ghost) every byte stored into it and every byte taken out,
in order. -/
structure PipeSt where
  pi : Pipe
  stored : List UInt8
  removed : List UInt8

/-- One step; a `piperead` that must sleep is not enabled. -/
def pipeStep (s : PipeSt) : PipeEv → Option PipeSt
  | .write copyin killed n i =>
      let r := pipewrite s.pi copyin killed n i
      some { s with pi := r.1, stored := s.stored ++ r.2.2.2 }
  | .read copyout killed n =>
      (piperead s.pi copyout killed n).map fun r =>
        { s with pi := r.1, removed := s.removed ++ r.2.2 }
  | .close writable => some { s with pi := pipeclose s.pi writable }

/-- A pipe from `pipealloc` on. -/
def pipeSystem : System PipeSt PipeEv := ⟨⟨pipealloc, [], []⟩, pipeStep⟩

/-- At most `PIPESIZE` bytes are in the buffer, and the bytes stored are
those taken out followed by those still in it. -/
def PipeInv (s : PipeSt) : Prop :=
  count s.pi.nread s.pi.nwrite ≤ PIPESIZE ∧ s.stored = s.removed ++ contents s.pi

theorem PipeInv.step {s s' : PipeSt} {e : PipeEv} (h : PipeInv s) (hs : pipeStep s e = some s') :
    PipeInv s' := by
  obtain ⟨hc, hfifo⟩ := h
  cases e with
  | write copyin killed n i =>
      obtain ⟨new, hnew, h₁, h₂⟩ := pipewriteLoop_spec copyin killed (n.toNat - i) s.pi i [] hc
        (Prod.ext rfl rfl)
      simp only [pipeStep, Option.some.injEq] at hs
      subst hs
      refine ⟨h₁, ?_⟩
      simp only [pipewrite, hnew, h₂, hfifo, List.nil_append, List.append_assoc]
  | read copyout killed n =>
      simp only [pipeStep, piperead] at hs
      split_ifs at hs with hwait hk
      · simp only [Option.map_some, Option.some.injEq] at hs
        subst hs
        exact ⟨hc, by simp [hfifo]⟩
      · simp at hs
      · rcases hl : pipereadLoop copyout n.toNat s.pi 0 [] with ⟨pi₁, i₁, out₁⟩
        obtain ⟨new, hnew, h₁, -⟩ := pipereadLoop_spec copyout n.toNat s.pi 0 [] hl
        rw [hl] at hs
        simp only [Option.map_some, Option.some.injEq] at hs
        subst hs
        have hlen := congrArg List.length h₁
        simp only [length_contents, List.length_append] at hlen
        refine ⟨show count pi₁.nread pi₁.nwrite ≤ PIPESIZE by omega, ?_⟩
        simp only [hnew, hfifo, h₁, List.nil_append, List.append_assoc]
  | close writable =>
      simp only [pipeStep, Option.some.injEq] at hs
      subst hs
      unfold pipeclose
      split <;> exact ⟨hc, hfifo⟩

theorem pipeInv_reachable : pipeSystem.Invariant PipeInv :=
  pipeSystem.invariant_of_step ⟨by simp [pipeSystem, pipealloc],
    by simp [pipeSystem, pipealloc, contents]⟩ fun _ _ _ h hs => h.step hs

end PipeRw
end Xv6
