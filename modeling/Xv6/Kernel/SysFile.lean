import Mathlib
import Xv6.Kernel.Proc
import Xv6.Fs.Layout
import Xv6.Support.System

/-!
# File descriptors

The system calls of `kernel/sysfile.c` that make and drop descriptors:
`sys_open`, `sys_pipe`, `sys_dup` and `sys_close`, with `argfd` and
`fdalloc`.  With `fork`, `exit`, `wait` and `kill` of `kernel/proc.c`
they are the events of one transition system over `Sys`, each call one
atomic step of the process that makes it; a call that panics has no step.

What the file system does for `sys_open` (`create`, `namei`, `ilock`) is
an argument of the step: the inode it found, or `none` when it found none.
`exec` changes no field of `Sys` (only the process's memory), so it is not
an event: with it or without, the same states are reached.
-/

namespace Xv6
namespace Kernel

/-- `O_RDONLY` (`kernel/fcntl.h`) -/
def O_RDONLY : Int32 := 0x000

/-- `O_WRONLY` -/
def O_WRONLY : Int32 := 0x001

/-- `O_RDWR` -/
def O_RDWR : Int32 := 0x002

/-- `O_CREATE` -/
def O_CREATE : Int32 := 0x200

/-- `O_TRUNC` -/
def O_TRUNC : Int32 := 0x400

/-- `NDEV` -/
def NDEV : Int16 := 10

/-- The inode `sys_open` got from `create` or `namei`: its number, `type`
and `major`. -/
structure OpenIp where
  inum : Nat
  type : Int16
  major : Int16

theorem toNat_lt_nofile {fd : Int} (h : 0 ≤ fd ∧ fd < NOFILE) : fd.toNat < NOFILE := by
  unfold NOFILE at h ⊢
  omega

/-- `argfd`: the descriptor `fd` of process `p` and its file, if `fd` is in
range and names one. -/
def argfd (s : Sys) (p : Fin NPROC) (fd : Int) : Option (Fin NOFILE × Fin NFILE) :=
  if h : 0 ≤ fd ∧ fd < NOFILE then
    match (s.proc p).ofile ⟨fd.toNat, toNat_lt_nofile h⟩ with
    | none => none
    | some f => some (⟨fd.toNat, toNat_lt_nofile h⟩, f)
  else none

/-- `fdalloc(f)`: the lowest free descriptor of `p`, which now names `f`. -/
def fdalloc (s : Sys) (p : Fin NPROC) (f : Fin NFILE) : Option (Fin NOFILE × Sys) :=
  match (List.finRange NOFILE).find? fun fd => ((s.proc p).ofile fd).isNone with
  | none => none
  | some fd => some (fd, s.setOfile p fd (some f))

/-- `sys_dup()` -/
def sysDup (s : Sys) (p : Fin NPROC) (fd : Int) : Except String (Sys × Int) :=
  match argfd s p fd with
  | none => .ok (s, -1)
  | some (_, f) =>
      match fdalloc s p f with
      | none => .ok (s, -1)
      | some (fd, s) =>
          match filedup s.k.ftable f with
          | .error e => .error e
          | .ok ft => .ok ({ s with k := { s.k with ftable := ft } }, ((fd : Nat) : Int))

/-- `sys_close()` -/
def sysClose (s : Sys) (p : Fin NPROC) (fd : Int) : Except String (Sys × Int) :=
  match argfd s p fd with
  | none => .ok (s, -1)
  | some (fd, f) =>
      let s := s.setOfile p fd none
      match s.k.fileclose f with
      | .error e => .error e
      | .ok k => .ok ({ s with k }, 0)

/-- `sys_open()` after `create` or `namei` gave `ip`. -/
def sysOpen (s : Sys) (p : Fin NPROC) (omode : Int32) (ip : Option OpenIp) :
    Except String (Sys × Int) :=
  match ip with
  | none => .ok (s, -1)
  | some ip =>
      if omode &&& O_CREATE = 0 ∧ ip.type = Fs.T_DIR ∧ omode ≠ O_RDONLY then .ok (s, -1)
      else if ip.type = Fs.T_DEVICE ∧ (ip.major < 0 ∨ NDEV ≤ ip.major) then .ok (s, -1)
      else
        match s.k.filealloc with
        | none => .ok (s, -1)
        | some (f, k) =>
            match fdalloc { s with k } p f with
            | none =>
                match k.fileclose f with
                | .error e => .error e
                | .ok k => .ok ({ s with k }, -1)
            | some (fd, s) =>
                let ff := s.k.ftable f
                let ff := if ip.type = Fs.T_DEVICE then { ff with type := .device }
                  else { ff with type := .inode }
                let ff := { ff with
                  ip := ip.inum
                  readable := decide (omode &&& O_WRONLY = 0)
                  writable := decide (omode &&& O_WRONLY ≠ 0 ∨ omode &&& O_RDWR ≠ 0) }
                .ok ({ s with k := { s.k with ftable := Function.update s.k.ftable f ff } },
                  ((fd : Nat) : Int))

/-- `fileclose(rf); fileclose(wf); return -1;` of `sys_pipe`. -/
def closePair (s : Sys) (rf wf : Fin NFILE) : Except String (Sys × Int) :=
  match s.k.fileclose rf with
  | .error e => .error e
  | .ok k =>
      match k.fileclose wf with
      | .error e => .error e
      | .ok k => .ok ({ s with k }, -1)

/-- `sys_pipe()`; `copyOk` says whether both `copyout`s of the descriptors
succeed. -/
def sysPipe (s : Sys) (p : Fin NPROC) (copyOk : Bool) : Except String (Sys × Int) :=
  match s.k.pipealloc with
  | .error e => .error e
  | .ok (k, none) => .ok ({ s with k }, -1)
  | .ok (k, some (rf, wf)) =>
      let s := { s with k }
      match fdalloc s p rf with
      | none => closePair s rf wf
      | some (fd0, s1) =>
          match fdalloc s1 p wf with
          | none => closePair (s1.setOfile p fd0 none) rf wf
          | some (fd1, s2) =>
              if copyOk then .ok (s2, 0)
              else closePair ((s2.setOfile p fd0 none).setOfile p fd1 none) rf wf

section Spec

variable {s s' : Sys} {p : Fin NPROC} {f : Fin NFILE} {fd : Fin NOFILE}

theorem argfd_some {n : Int} (h : argfd s p n = some (fd, f)) : (s.proc p).ofile fd = some f := by
  unfold argfd at h
  split at h
  · split at h
    · cases h
    · rename_i hof
      obtain ⟨rfl, rfl⟩ := Prod.mk.inj (Option.some.inj h)
      exact hof
  · cases h

theorem fdalloc_some (h : fdalloc s p f = some (fd, s')) :
    (s.proc p).ofile fd = none ∧ s' = s.setOfile p fd (some f) := by
  unfold fdalloc at h
  split at h
  · cases h
  · rename_i i hi
    obtain ⟨rfl, rfl⟩ := Prod.mk.inj (Option.some.inj h)
    exact ⟨by simpa using List.find?_some hi, rfl⟩

end Spec

/-- A system call, by the process that makes it, with what the parts of
the kernel not modelled here answer. -/
inductive Ev where
  | open (p : Fin NPROC) (omode : Int32) (ip : Option OpenIp)
  | pipe (p : Fin NPROC) (copyOk : Bool)
  | dup (p : Fin NPROC) (fd : Int)
  | close (p : Fin NPROC) (fd : Int)
  | fork (p : Fin NPROC) (mem : ForkMem)
  | exit (p : Fin NPROC) (status : Int)
  | wait (p : Fin NPROC) (addr : Nat) (copyOk : Bool)
  | kill (p : Fin NPROC) (pid : Int)

/-- The process that makes the call. -/
def Ev.caller : Ev → Fin NPROC
  | .open p .. | .pipe p .. | .dup p .. | .close p .. | .fork p .. | .exit p .. | .wait p ..
  | .kill p .. => p

/-- The state a call returns in; `none` when it panics or sleeps. -/
def call (s : Sys) : Ev → Option Sys
  | .open p omode ip => ((sysOpen s p omode ip).map Prod.fst).toOption
  | .pipe p copyOk => ((sysPipe s p copyOk).map Prod.fst).toOption
  | .dup p fd => ((sysDup s p fd).map Prod.fst).toOption
  | .close p fd => ((sysClose s p fd).map Prod.fst).toOption
  | .fork p mem => ((fork s p mem).map Prod.fst).toOption
  | .exit p status => (exit s p status).toOption
  | .wait p addr copyOk => (wait s p addr copyOk).map Prod.fst
  | .kill _ pid => some (kill s pid).1

/-- A step: a live process makes a call. -/
def step (s : Sys) (e : Ev) : Option Sys :=
  if (s.proc e.caller).Alive then call s e else none

/-- The kernel from `userinit`, over the file table `k0` it boots with. -/
def procSystem (k0 : KState) : System Sys Ev := ⟨userinit k0, step⟩

section Call

variable {s' : Sys}

theorem toOption_map_fst {x : Except String (Sys × Int)} (h : (x.map Prod.fst).toOption = some s') :
    ∃ r, x = .ok (s', r) := by
  cases x with
  | error e => cases h
  | ok a =>
      obtain ⟨s'', r⟩ := a
      cases h
      exact ⟨r, rfl⟩

theorem ok_map_fst {x : Except String (Sys × Int)} {s'' : Sys} {r : Int} (hx : x = .ok (s'', r))
    (h : (x.map Prod.fst).toOption = some s') : s' = s'' := by
  obtain ⟨r', hr'⟩ := toOption_map_fst h
  rw [hx] at hr'
  cases hr'
  rfl

end Call

end Kernel
end Xv6
