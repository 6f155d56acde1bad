import Xv6.Kernel.File

/-!
# The process table

`proc[]` of `kernel/proc.c`, with the fields that the process tree and the
open files use: each slot's state, parent, pid, `killed`, exit status and
open files `ofile`.  `fork`, `exit`, `wait` and `kill` are atomic steps
here, as each runs under the locks it holds; the loops of `fork` and `exit`
over `ofile` are `dupFiles` and `closeFiles`.

What a process's memory is (page table, trapframe, size) is not modelled.
Where `allocproc` or `uvmcopy` can fail for lack of memory, which of them
failed is an argument of `fork` (`ForkMem`); where `wait`'s `copyout` can
fail, whether it did is an argument of `wait`.
-/

namespace Xv6
namespace Kernel

/-- `NPROC` -/
def NPROC : Nat := 64

/-- `NOFILE` -/
def NOFILE : Nat := 16

/-- `enum procstate` -/
inductive ProcState where
  | unused
  | sleeping
  | runnable
  | running
  | zombie
  deriving DecidableEq, Repr

/-- `p->ofile`: each descriptor's file, `none` for a null pointer. -/
abbrev OFile := Fin NOFILE → Option (Fin NFILE)

/-- `struct proc`, the fields the process tree and the open files use. -/
structure Proc where
  state : ProcState
  parent : Option (Fin NPROC)
  pid : Nat
  killed : Bool
  xstate : Int
  ofile : OFile

/-- The kernel: the file table and its pages, `proc[]` and `nextpid`. -/
structure Sys where
  k : KState
  proc : Fin NPROC → Proc
  nextpid : Nat

/-- `initproc`: `userinit` takes the first slot of the empty table. -/
def initproc : Fin NPROC := ⟨0, by decide⟩

/-- A slot that is neither `UNUSED` nor `ZOMBIE`: a process that can make
system calls. -/
def Proc.Alive (pr : Proc) : Prop := pr.state ≠ .unused ∧ pr.state ≠ .zombie

instance (pr : Proc) : Decidable pr.Alive := inferInstanceAs (Decidable (_ ∧ _))

/-- A slot of `proc[]` at boot: all zero, so `UNUSED`. -/
def Proc.zero : Proc := ⟨.unused, none, 0, false, 0, fun _ => none⟩

namespace Sys

/-- Replace slot `p` of `proc[]`. -/
def setProc (s : Sys) (p : Fin NPROC) (pr : Proc) : Sys :=
  { s with proc := Function.update s.proc p pr }

/-- `p->ofile[fd] = o`. -/
def setOfile (s : Sys) (p : Fin NPROC) (fd : Fin NOFILE) (o : Option (Fin NFILE)) : Sys :=
  s.setProc p { s.proc p with ofile := Function.update (s.proc p).ofile fd o }

@[simp] theorem setProc_k (s : Sys) (p : Fin NPROC) (pr : Proc) : (s.setProc p pr).k = s.k := rfl

@[simp] theorem setProc_nextpid (s : Sys) (p : Fin NPROC) (pr : Proc) :
    (s.setProc p pr).nextpid = s.nextpid := rfl

@[simp] theorem setProc_proc (s : Sys) (p : Fin NPROC) (pr : Proc) :
    (s.setProc p pr).proc = Function.update s.proc p pr := rfl

@[simp] theorem setOfile_k (s : Sys) (p : Fin NPROC) (fd : Fin NOFILE) (o : Option (Fin NFILE)) :
    (s.setOfile p fd o).k = s.k := rfl

@[simp] theorem setOfile_nextpid (s : Sys) (p : Fin NPROC) (fd : Fin NOFILE)
    (o : Option (Fin NFILE)) : (s.setOfile p fd o).nextpid = s.nextpid := rfl

@[simp] theorem setOfile_state (s : Sys) (p : Fin NPROC) (fd : Fin NOFILE) (o : Option (Fin NFILE))
    (q : Fin NPROC) : ((s.setOfile p fd o).proc q).state = (s.proc q).state := by
  by_cases hq : q = p
  · subst hq
    simp [setOfile]
  · simp [setOfile, hq]

theorem setOfile_ofile (s : Sys) (p : Fin NPROC) (fd : Fin NOFILE) (o : Option (Fin NFILE))
    (q : Fin NPROC) : ((s.setOfile p fd o).proc q).ofile =
      if q = p then Function.update (s.proc p).ofile fd o else (s.proc q).ofile := by
  by_cases hq : q = p
  · subst hq
    simp [setOfile]
  · simp [setOfile, hq]

/-- A second write to a descriptor overwrites the first. -/
theorem setOfile_setOfile_self (s : Sys) (p : Fin NPROC) (fd : Fin NOFILE)
    (o o' : Option (Fin NFILE)) : (s.setOfile p fd o).setOfile p fd o' = s.setOfile p fd o' := by
  simp [setOfile, setProc]

theorem setOfile_comm (s : Sys) (p : Fin NPROC) {fd fd' : Fin NOFILE} (h : fd ≠ fd')
    (o o' : Option (Fin NFILE)) :
    (s.setOfile p fd o).setOfile p fd' o' = (s.setOfile p fd' o').setOfile p fd o := by
  simp [setOfile, setProc, Function.update_comm h]

/-- Writing what a descriptor already holds changes nothing. -/
theorem setOfile_of_eq (s : Sys) (p : Fin NPROC) (fd : Fin NOFILE) {o : Option (Fin NFILE)}
    (h : (s.proc p).ofile fd = o) : s.setOfile p fd o = s := by
  subst h
  simp [setOfile, setProc]

end Sys

/-- `userinit()`: the first process, in the first slot, with pid `1`. -/
def userinit (k : KState) : Sys :=
  { k
    proc := Function.update (fun _ => Proc.zero) initproc
      { Proc.zero with pid := 1, state := .runnable }
    nextpid := 2 }

/-- `freeproc(p)`: the slot is `UNUSED` again.  `ofile` is left as it is:
`exit` emptied it. -/
def freeproc (pr : Proc) : Proc :=
  { pr with pid := 0, parent := none, killed := false, xstate := 0, state := .unused }

/-- The scan of `allocproc()`: the first `UNUSED` slot, which gets the next
pid.  The slot stays `UNUSED` until `fork` is done with it. -/
def allocproc (s : Sys) : Option (Fin NPROC × Sys) :=
  match (List.finRange NPROC).find? fun p => (s.proc p).state == .unused with
  | none => none
  | some p => some (p, { s.setProc p { s.proc p with pid := s.nextpid } with nextpid := s.nextpid + 1 })

/-- Which allocation of `fork` runs out of memory, if any: the trapframe or
the page table in `allocproc`, or the copy of the user memory. -/
inductive ForkMem where
  | noTrapframe
  | noPagetable
  | noCopy
  | ok
  deriving DecidableEq, Repr

/-- The loop of `fork` over the descriptors `is`:
`if(p->ofile[i]) np->ofile[i] = filedup(p->ofile[i])`. -/
def dupFiles (k : KState) (pof nof : OFile) : List (Fin NOFILE) → Except String (KState × OFile)
  | [] => .ok (k, nof)
  | i :: is =>
      match pof i with
      | none => dupFiles k pof nof is
      | some f =>
          match filedup k.ftable f with
          | .error e => .error e
          | .ok ft => dupFiles { k with ftable := ft } pof (Function.update nof i (some f)) is

/-- `fork()` by process `p`: the child's pid, or `-1`. -/
def fork (s : Sys) (p : Fin NPROC) (mem : ForkMem) : Except String (Sys × Int) :=
  match allocproc s with
  | none => .ok (s, -1)
  | some (np, s) =>
      match mem with
      -- `allocproc` returns `0` with the pid already taken
      | .noTrapframe => .ok (s, -1)
      | .noPagetable | .noCopy => .ok (s.setProc np (freeproc (s.proc np)), -1)
      | .ok =>
          match dupFiles s.k (s.proc p).ofile (s.proc np).ofile (List.finRange NOFILE) with
          | .error e => .error e
          | .ok (k, of) =>
              .ok ({ s with k }.setProc np
                { s.proc np with parent := some p, ofile := of, state := .runnable }, (s.proc np).pid)

/-- The loop of `exit` over the descriptors `fds`:
`if(p->ofile[fd]){ fileclose(p->ofile[fd]); p->ofile[fd] = 0; }`. -/
def closeFiles (k : KState) (of : OFile) : List (Fin NOFILE) → Except String (KState × OFile)
  | [] => .ok (k, of)
  | fd :: fds =>
      match of fd with
      | none => closeFiles k of fds
      | some f =>
          match k.fileclose f with
          | .error e => .error e
          | .ok k => closeFiles k (Function.update of fd none) fds

/-- `reparent(p)`: `p`'s children go to `initproc`. -/
def reparent (s : Sys) (p : Fin NPROC) : Sys :=
  { s with proc := fun q =>
      if (s.proc q).parent = some p then { s.proc q with parent := some initproc } else s.proc q }

/-- `exit(status)` by process `p`: close its files, give its children to
`initproc`, and become a `ZOMBIE`. -/
def exit (s : Sys) (p : Fin NPROC) (status : Int) : Except String Sys :=
  if p = initproc then .error "init exiting"
  else
    match closeFiles s.k (s.proc p).ofile (List.finRange NOFILE) with
    | .error e => .error e
    | .ok (k, of) =>
        let s := reparent ({ s with k }.setProc p { s.proc p with ofile := of }) p
        .ok (s.setProc p { s.proc p with xstate := status, state := .zombie })

/-- `wait(addr)` by process `p`: the pid of the first `ZOMBIE` child, which
is freed, or `-1`; `none` when `p` has to sleep for a child to exit.
`copyOk` says whether the `copyout` of the exit status to `addr` succeeds. -/
def wait (s : Sys) (p : Fin NPROC) (addr : Nat) (copyOk : Bool) : Option (Sys × Int) :=
  let kids := (List.finRange NPROC).filter fun np => (s.proc np).parent == some p
  match kids.find? fun np => (s.proc np).state == .zombie with
  | some np =>
      if addr ≠ 0 ∧ copyOk = false then some (s, -1)
      else some (s.setProc np (freeproc (s.proc np)), ((s.proc np).pid : Int))
  | none => if kids = [] ∨ (s.proc p).killed = true then some (s, -1) else none

/-- `kill(pid)`: mark the first slot with that pid killed, and wake it if it
sleeps. -/
def kill (s : Sys) (pid : Int) : Sys × Int :=
  match (List.finRange NPROC).find? fun p => ((s.proc p).pid : Int) == pid with
  | none => (s, -1)
  | some p =>
      let pr := s.proc p
      (s.setProc p { pr with
        killed := true
        state := if pr.state = .sleeping then .runnable else pr.state }, 0)

section Spec

variable {s s' : Sys} {np : Fin NPROC}

theorem allocproc_some (h : allocproc s = some (np, s')) :
    (s.proc np).state = .unused ∧
      s' = { s.setProc np { s.proc np with pid := s.nextpid } with nextpid := s.nextpid + 1 } := by
  unfold allocproc at h
  split at h
  · cases h
  · rename_i p hp
    obtain ⟨rfl, rfl⟩ := Prod.mk.inj (Option.some.inj h)
    exact ⟨by simpa using List.find?_some hp, rfl⟩

theorem freeproc_ofile (pr : Proc) : (freeproc pr).ofile = pr.ofile := rfl

theorem freeproc_not_alive (pr : Proc) : ¬ (freeproc pr).Alive := fun h => h.1 rfl

@[simp] theorem reparent_k (s : Sys) (p : Fin NPROC) : (reparent s p).k = s.k := rfl

@[simp] theorem reparent_state (s : Sys) (p q : Fin NPROC) :
    ((reparent s p).proc q).state = (s.proc q).state := by
  simp only [reparent]
  split_ifs <;> rfl

@[simp] theorem reparent_ofile (s : Sys) (p q : Fin NPROC) :
    ((reparent s p).proc q).ofile = (s.proc q).ofile := by
  simp only [reparent]
  split_ifs <;> rfl

/-- What `wait` can do: return at once and change nothing, or free a
`ZOMBIE` child of the caller and return its pid. -/
theorem wait_some {p : Fin NPROC} {addr : Nat} {copyOk : Bool} {r : Int}
    (h : wait s p addr copyOk = some (s', r)) :
    (s' = s ∧ r = -1) ∨
      ∃ np, (s.proc np).state = .zombie ∧ (s.proc np).parent = some p ∧
        s' = s.setProc np (freeproc (s.proc np)) ∧ r = (s.proc np).pid := by
  unfold wait at h
  dsimp only at h
  split at h
  · rename_i np hnp
    have hz := List.find?_some hnp
    have hkid := (List.mem_filter.mp (List.mem_of_find?_eq_some hnp)).2
    split_ifs at h
    · obtain ⟨rfl, rfl⟩ := Prod.mk.inj (Option.some.inj h)
      exact .inl ⟨rfl, rfl⟩
    · obtain ⟨rfl, rfl⟩ := Prod.mk.inj (Option.some.inj h)
      exact .inr ⟨np, by simpa using hz, by simpa using hkid, rfl, rfl⟩
  · split_ifs at h
    obtain ⟨rfl, rfl⟩ := Prod.mk.inj (Option.some.inj h)
    exact .inl ⟨rfl, rfl⟩

section Wait

variable {p : Fin NPROC} {addr : Nat} {copyOk : Bool}

theorem wait_of_no_child (h : ∀ q, (s.proc q).parent ≠ some p) : wait s p addr copyOk = some (s, -1) := by
  have hk : (List.finRange NPROC).filter (fun np => (s.proc np).parent == some p) = [] := by
    simp [List.filter_eq_nil_iff, h]
  simp [wait, hk]

theorem wait_of_killed (hk : (s.proc p).killed = true)
    (hz : ∀ q, (s.proc q).parent = some p → (s.proc q).state ≠ .zombie) :
    wait s p addr copyOk = some (s, -1) := by
  have hnone : ((List.finRange NPROC).filter fun np => (s.proc np).parent == some p).find?
      (fun np => (s.proc np).state == .zombie) = none := by
    simp only [List.find?_eq_none, List.mem_filter, List.mem_finRange, true_and, beq_iff_eq]
    intro q hq
    simpa using hz q hq
  simp [wait, hnone, hk]

/-- With a `ZOMBIE` child, `wait` takes the first in the table. -/
theorem wait_found (hz : ∃ q, (s.proc q).parent = some p ∧ (s.proc q).state = .zombie) :
    ∃ np, (s.proc np).parent = some p ∧ (s.proc np).state = .zombie ∧
      ((List.finRange NPROC).filter fun np => (s.proc np).parent == some p).find?
        (fun np => (s.proc np).state == .zombie) = some np := by
  obtain ⟨q, hq, hzq⟩ := hz
  have hsome : (((List.finRange NPROC).filter fun np => (s.proc np).parent == some p).find?
      (fun np => (s.proc np).state == .zombie)).isSome := by
    rw [List.find?_isSome]
    exact ⟨q, by simp [hq], by simp [hzq]⟩
  obtain ⟨np, hnp⟩ := Option.isSome_iff_exists.mp hsome
  have hmem := List.mem_filter.mp (List.mem_of_find?_eq_some hnp)
  exact ⟨np, by simpa using hmem.2, by simpa using List.find?_some hnp, hnp⟩

theorem wait_of_copy_fail (hz : ∃ q, (s.proc q).parent = some p ∧ (s.proc q).state = .zombie)
    (ha : addr ≠ 0) : wait s p addr false = some (s, -1) := by
  obtain ⟨np, -, -, hnp⟩ := wait_found hz
  simp [wait, hnp, ha]

/-- With a `ZOMBIE` child and the status copied out, `wait` frees the first
one and returns its pid, whether or not the caller is killed. -/
theorem wait_reaps (hz : ∃ q, (s.proc q).parent = some p ∧ (s.proc q).state = .zombie)
    (hc : addr = 0 ∨ copyOk = true) :
    ∃ np, (s.proc np).parent = some p ∧ (s.proc np).state = .zombie ∧
      wait s p addr copyOk = some (s.setProc np (freeproc (s.proc np)), ((s.proc np).pid : Int)) := by
  obtain ⟨np, hpar, hz, hnp⟩ := wait_found hz
  refine ⟨np, hpar, hz, ?_⟩
  have hcopy : ¬ (addr ≠ 0 ∧ copyOk = false) := by
    rcases hc with hc | hc <;> simp [hc]
  simp only [wait, hnp, if_neg hcopy]

end Wait

/-- What `kill` can do: nothing, or mark one slot killed and wake it. -/
theorem kill_cases (s : Sys) (pid : Int) :
    (kill s pid).1 = s ∨ ∃ q, (kill s pid).1 = s.setProc q { s.proc q with
      killed := true
      state := if (s.proc q).state = .sleeping then .runnable else (s.proc q).state } := by
  unfold kill
  split
  · exact .inl rfl
  · exact .inr ⟨_, rfl⟩

/-- `kill` returns `0` exactly when some slot holds the pid, whatever that
slot's state: an `UNUSED` slot keeps the pid `0` of `freeproc`, or the pid
an `allocproc` that failed gave it. -/
theorem kill_ret_zero (s : Sys) (pid : Int) :
    (kill s pid).2 = 0 ↔ ∃ q, ((s.proc q).pid : Int) = pid := by
  unfold kill
  split
  · rename_i hnone
    simp only [List.find?_eq_none, List.mem_finRange, beq_iff_eq, true_implies] at hnone
    simp [hnone]
  · rename_i q hq
    exact ⟨fun _ => ⟨q, by simpa using List.find?_some hq⟩, fun _ => rfl⟩

/-- A child that `fork` makes has the `killed` flag its slot had while it
was `UNUSED`: neither `allocproc` nor `fork` clears it. -/
theorem fork_child_killed {p : Fin NPROC} {mem : ForkMem} {r : Int}
    (h : fork s p mem = .ok (s', r)) (hr : r ≠ -1) :
    ∃ np, (s.proc np).state = .unused ∧ (s'.proc np).state = .runnable ∧
      (s'.proc np).parent = some p ∧ (s'.proc np).killed = (s.proc np).killed := by
  unfold fork at h
  split at h
  · cases h
    exact absurd rfl hr
  · rename_i np s₁ ha
    obtain ⟨hu, rfl⟩ := allocproc_some ha
    -- every failure of the memory allocations returns `-1`
    split at h
    · cases h
      exact absurd rfl hr
    · cases h
      exact absurd rfl hr
    · cases h
      exact absurd rfl hr
    · split at h
      · cases h
      · cases h
        exact ⟨np, hu, by simp, by simp, by simp⟩

end Spec

end Kernel
end Xv6
