import Xv6.Kernel.FileInv
import Xv6.Kernel.SysFile
import Xv6.Support.Procs

/-!
# Descriptors and reference counts

A file's `ref` counts the descriptors, over all processes, that name it.
Inside a call the two can differ by references the call holds in local
variables (`f` of `sys_open` between `filealloc` and `fdalloc`, `rf` and
`wf` of `sys_pipe`), so the invariant is stated with a count `held` of
those: `Counted s held` says every `ref` is the number of descriptors
naming the file plus `held` (with the file table's own invariant), and
each primitive of a call moves one reference between a descriptor, the
call's hands and `ref`.  At the end of every call `held` is `0` again:
that is `FdInv`, with the fact that `UNUSED` and `ZOMBIE` slots name no
file, which `fork` needs of the slot it takes.
-/

namespace Xv6
namespace Kernel

/-- The number of descriptors, over all processes, that name `f`. -/
def slotCount (proc : Fin NPROC → Proc) (f : Fin NFILE) : Nat :=
  procSum fun q => countWhere (proc q).ofile (· = some f)

/-- Every file's `ref` is the number of descriptors naming it plus the
`held f` references the running call holds. -/
def Refs (s : Sys) (held : Fin NFILE → Nat) : Prop :=
  ∀ f, (s.k.ftable f).ref = slotCount s.proc f + held f

/-- The state inside a call: the file table's invariant, and the counts. -/
structure Counted (s : Sys) (held : Fin NFILE → Nat) : Prop where
  kinv : KInv s.k
  refs : Refs s held

/-- `UNUSED` and `ZOMBIE` slots name no file. -/
def Idle (s : Sys) : Prop := ∀ q, ¬ (s.proc q).Alive → ∀ fd, (s.proc q).ofile fd = none

/-- The invariant of descriptors between calls. -/
structure FdInv (s : Sys) : Prop where
  counted : Counted s 0
  idle : Idle s

section Count

variable {s s' : Sys} {p : Fin NPROC} {fd : Fin NOFILE} {f : Fin NFILE}

theorem Sys.setOfile_setProc (s : Sys) (p : Fin NPROC) (pr : Proc) (fd : Fin NOFILE)
    (o : Option (Fin NFILE)) :
    (s.setProc p pr).setOfile p fd o = s.setProc p { pr with ofile := Function.update pr.ofile fd o } := by
  simp [Sys.setOfile, Sys.setProc]

/-- Setting one descriptor changes each file's count by what the descriptor
named before and after. -/
theorem slotCount_setOfile (s : Sys) (p : Fin NPROC) (fd : Fin NOFILE) (o : Option (Fin NFILE))
    (f : Fin NFILE) :
    slotCount (s.setOfile p fd o).proc f + (if (s.proc p).ofile fd = some f then 1 else 0) =
      slotCount s.proc f + (if o = some f then 1 else 0) := by
  set g : Fin NPROC → Nat := fun q => countWhere (s.proc q).ofile (· = some f)
  have hupd : slotCount (s.setOfile p fd o).proc f =
      procSum (Function.update g p (countWhere (Function.update (s.proc p).ofile fd o) (· = some f))) := by
    apply procSum_congr
    intro q
    by_cases hq : q = p
    · subst hq
      simp [Sys.setOfile]
    · simp [Sys.setOfile, hq, g]
  have hsum := procSum_update g p (countWhere (Function.update (s.proc p).ofile fd o) (· = some f))
  have hcount := countWhere_update (s.proc p).ofile (· = some f) fd o
  have hg : g p = countWhere (s.proc p).ofile (· = some f) := rfl
  have hold : slotCount s.proc f = procSum g := rfl
  rw [hupd, hold]
  omega

/-- A descriptor naming `f` means `f` is counted. -/
theorem slotCount_pos {q : Fin NPROC} (hfd : (s.proc q).ofile fd = some f) : 0 < slotCount s.proc f :=
  lt_of_lt_of_le (countWhere_pos (P := (· = some f)) hfd)
    (le_procSum (fun q => countWhere (s.proc q).ofile (· = some f)) q)

theorem slotCount_congr (h : ∀ q, (s'.proc q).ofile = (s.proc q).ofile) (f : Fin NFILE) :
    slotCount s'.proc f = slotCount s.proc f := by
  unfold slotCount
  exact procSum_congr fun q => by rw [h q]

/-- With every descriptor empty, nothing is counted. -/
theorem slotCount_of_empty (h : ∀ q fd, (s.proc q).ofile fd = none) (f : Fin NFILE) :
    slotCount s.proc f = 0 := by
  unfold slotCount
  refine procSum_eq_zero.2 fun q => countWhere_eq_zero.2 fun fd => ?_
  simp [h q fd]

end Count

/-! ## One reference at a time -/

section Moves

variable {s : Sys} {held : Fin NFILE → Nat} {p : Fin NPROC} {fd : Fin NOFILE} {f : Fin NFILE}

theorem Counted.live (h : Counted s held) {q : Fin NPROC} (hfd : (s.proc q).ofile fd = some f) :
    s.k.Live f := by
  unfold KState.Live
  rw [h.refs f]
  have := slotCount_pos hfd
  omega

/-- Setting a descriptor moves references between the descriptors and the
call's hands: what the descriptor named before is held now, and what it
names now is no longer held. -/
theorem Counted.setOfile {held' : Fin NFILE → Nat} {o : Option (Fin NFILE)} (h : Counted s held)
    (hheld : ∀ g, held' g + (if o = some g then 1 else 0) =
      held g + (if (s.proc p).ofile fd = some g then 1 else 0)) :
    Counted (s.setOfile p fd o) held' := by
  refine ⟨h.kinv, fun g => ?_⟩
  have hc := slotCount_setOfile s p fd o g
  have hr := h.refs g
  have hg := hheld g
  simp only [Sys.setOfile_k]
  omega

/-- `fdalloc` hands a held reference to a descriptor. -/
theorem Counted.give (h : Counted s (held + Pi.single f 1)) (hfd : (s.proc p).ofile fd = none) :
    Counted (s.setOfile p fd (some f)) held := by
  refine h.setOfile fun g => ?_
  by_cases hg : g = f
  · subst hg
    simp [hfd]
  · simp [hfd, Ne.symm hg]

/-- Clearing a descriptor leaves its reference in the call's hands. -/
theorem Counted.drop (h : Counted s held) (hfd : (s.proc p).ofile fd = some f) :
    Counted (s.setOfile p fd none) (held + Pi.single f 1) := by
  refine h.setOfile fun g => ?_
  by_cases hg : g = f
  · subst hg
    simp [hfd]
  · simp [hfd, Ne.symm hg]

/-- A new file table moves references between the counts and the call's
hands. -/
theorem Counted.setK {held' : Fin NFILE → Nat} {k' : KState} (h : Counted s held) (hk : KInv k')
    (href : ∀ g, (k'.ftable g).ref + held g = (s.k.ftable g).ref + held' g) :
    Counted { s with k := k' } held' := by
  refine ⟨hk, fun g => ?_⟩
  have hr := h.refs g
  have hg := href g
  show (k'.ftable g).ref = slotCount s.proc g + held' g
  omega

/-- `filealloc` gives the call a reference to a free file. -/
theorem Counted.filealloc (h : Counted s held) {k' : KState} (ha : s.k.filealloc = some (f, k')) :
    Counted { s with k := k' } (held + Pi.single f 1) := by
  obtain ⟨hf, rfl⟩ := KState.filealloc_some ha
  refine h.setK (h.kinv.of_fileTaken hf) fun g => ?_
  by_cases hg : g = f
  · subst hg
    simp [fileTaken_ftable, hf, add_comm]
  · simp [fileTaken_ftable, hg]

/-- `filedup` of a file a descriptor names gives the call one more
reference. -/
theorem Counted.filedup (h : Counted s held) {q : Fin NPROC} (hfd : (s.proc q).ofile fd = some f) :
    ∃ ft, Kernel.filedup s.k.ftable f = .ok ft ∧
      Counted { s with k := { s.k with ftable := ft } } (held + Pi.single f 1) := by
  obtain ⟨ft, hft, hinv, href⟩ := h.kinv.filedup (h.live hfd)
  refine ⟨ft, hft, h.setK hinv fun g => ?_⟩
  by_cases hg : g = f
  · subst hg
    simp [href]
    omega
  · simp [href, hg]

/-- `fileclose` of a held reference: the file's object is released when
the reference was its last, unless the file is `FD_NONE`. -/
theorem Counted.fileclose (h : Counted s (held + Pi.single f 1)) :
    ∃ k', s.k.fileclose f = .ok k' ∧ Counted { s with k := k' } held ∧
      k'.released = s.k.released ++
        (if (s.k.ftable f).ref = 1 ∧ (s.k.ftable f).type ≠ .none then [s.k.stamp f] else []) := by
  have hlive : s.k.Live f := by
    unfold KState.Live
    rw [h.refs f]
    simp
  obtain ⟨k', hk', hinv, hf', hg', -, -, hrel⟩ := h.kinv.fileclose hlive
  refine ⟨k', hk', h.setK hinv fun g => ?_, hrel⟩
  by_cases hg : g = f
  · subst hg
    have hpos : 0 < (s.k.ftable g).ref := hlive
    simp only [hf', Pi.add_apply, Pi.single_eq_same]
    omega
  · simp [hg' g hg, Pi.single_eq_of_ne hg]

/-- `fileclose(rf); fileclose(wf);` of the two references `sys_pipe` holds. -/
theorem Counted.closePair {rf wf : Fin NFILE} (h : Counted s (Pi.single wf 1 + Pi.single rf 1)) :
    ∃ s', closePair s rf wf = .ok (s', -1) ∧ Counted s' 0 ∧ s'.proc = s.proc := by
  obtain ⟨k₁, hk₁, hc₁, -⟩ := h.fileclose
  obtain ⟨k₂, hk₂, hc₂, -⟩ := (show Counted { s with k := k₁ } (0 + Pi.single wf 1) by
    rw [zero_add]; exact hc₁).fileclose
  exact ⟨_, by simp [Kernel.closePair, hk₁, show k₁.fileclose wf = .ok k₂ from hk₂], hc₂, rfl⟩

end Moves

/-! ## Loops over the descriptors -/

section Loops

variable {s : Sys} {p np : Fin NPROC}

theorem Counted.ofile_congr {s' : Sys} {held : Fin NFILE → Nat} (h : Counted s held) (hk : s'.k = s.k)
    (hof : ∀ q, (s'.proc q).ofile = (s.proc q).ofile) : Counted s' held := by
  refine ⟨hk ▸ h.kinv, fun f => ?_⟩
  rw [hk, slotCount_congr hof]
  exact h.refs f

/-- `fork`'s loop gives the child `np` a descriptor, and the file a
reference, for each descriptor of the parent. -/
theorem Counted.dupFiles (hne : np ≠ p) :
    ∀ (is : List (Fin NOFILE)) (k : KState) (nof : OFile), is.Nodup → (∀ i ∈ is, nof i = none) →
      Counted ({ s with k }.setProc np { s.proc np with ofile := nof }) 0 →
      ∃ k' nof', Kernel.dupFiles k (s.proc p).ofile nof is = .ok (k', nof') ∧
        Counted ({ s with k := k' }.setProc np { s.proc np with ofile := nof' }) 0
  | [], k, nof, _, _, h => ⟨k, nof, rfl, h⟩
  | i :: is, k, nof, hnd, hfree, h => by
      have hnd' := List.nodup_cons.mp hnd
      have hfree' : ∀ j ∈ is, nof j = none := fun j hj => hfree j (List.mem_cons_of_mem i hj)
      cases hpi : (s.proc p).ofile i with
      | none =>
          obtain ⟨k', nof', hrun, hc⟩ := Counted.dupFiles hne is k nof hnd'.2 hfree' h
          exact ⟨k', nof', by simp [Kernel.dupFiles, hpi, hrun], hc⟩
      | some f =>
          set S := { s with k }.setProc np { s.proc np with ofile := nof } with hS
          -- the parent's descriptor `i` names `f` in the loop's state too
          have hslot : (S.proc p).ofile i = some f := by
            simp [S, Function.update_of_ne (Ne.symm hne), hpi]
          obtain ⟨ft, hft, hc₁⟩ := h.filedup hslot
          have hft' : Kernel.filedup k.ftable f = .ok ft := hft
          have hnone : (({ S with k := { S.k with ftable := ft } }).proc np).ofile i = none := by
            simpa [S] using hfree i List.mem_cons_self
          have hc₂ := hc₁.give hnone
          have hstate : ({ S with k := { S.k with ftable := ft } }).setOfile np i (some f) =
              ({ s with k := { k with ftable := ft } }).setProc np
                { s.proc np with ofile := Function.update nof i (some f) } := by
            simp [S, Sys.setOfile, Sys.setProc]
          rw [hstate] at hc₂
          obtain ⟨k', nof', hrun, hc⟩ := Counted.dupFiles hne is { k with ftable := ft }
            (Function.update nof i (some f)) hnd'.2
            (fun j hj => by
              rw [Function.update_of_ne (fun e : j = i => hnd'.1 (e ▸ hj))]
              exact hfree' j hj) hc₂
          exact ⟨k', nof', by simp [Kernel.dupFiles, hpi, hft', hrun], hc⟩

/-- `exit`'s loop closes every descriptor of `p` it passes and drops the
file's reference. -/
theorem Counted.closeFiles :
    ∀ (fds : List (Fin NOFILE)) (k : KState) (of : OFile),
      Counted ({ s with k }.setProc p { s.proc p with ofile := of }) 0 →
      ∃ k' of', Kernel.closeFiles k of fds = .ok (k', of') ∧
        Counted ({ s with k := k' }.setProc p { s.proc p with ofile := of' }) 0 ∧
        (∀ fd ∈ fds, of' fd = none) ∧ (∀ fd, of fd = none → of' fd = none)
  | [], k, of, h => ⟨k, of, rfl, h, by simp, fun _ h => h⟩
  | fd :: fds, k, of, h => by
      cases hfd : of fd with
      | none =>
          obtain ⟨k', of', hrun, hc, hall, hkeep⟩ := Counted.closeFiles fds k of h
          refine ⟨k', of', by simp [Kernel.closeFiles, hfd, hrun], hc, ?_, hkeep⟩
          intro fd' hfd'
          rcases List.mem_cons.mp hfd' with rfl | hfd'
          · exact hkeep fd' hfd
          · exact hall fd' hfd'
      | some f =>
          set S := { s with k }.setProc p { s.proc p with ofile := of } with hS
          have hslot : (S.proc p).ofile fd = some f := by
            simp [S, hfd]
          obtain ⟨k₁, hk₁, hc₁, -⟩ := (h.drop hslot).fileclose
          have hk₁' : k.fileclose f = .ok k₁ := hk₁
          have hstate : { S.setOfile p fd none with k := k₁ } = ({ s with k := k₁ }).setProc p
              { s.proc p with ofile := Function.update of fd none } := by
            simp [S, Sys.setOfile, Sys.setProc]
          rw [hstate] at hc₁
          obtain ⟨k', of', hrun, hc, hall, hkeep⟩ := Counted.closeFiles fds k₁ _ hc₁
          refine ⟨k', of', by simp [Kernel.closeFiles, hfd, hk₁', hrun], hc, ?_, fun fd' h' => ?_⟩
          · intro fd' hfd'
            rcases List.mem_cons.mp hfd' with rfl | hfd'
            · exact hkeep fd' (by simp)
            · exact hall fd' hfd'
          · apply hkeep
            by_cases he : fd' = fd
            · subst he
              simp
            · rw [Function.update_of_ne he]
              exact h'

end Loops

/-! ## The calls -/

section Calls

variable {s s' : Sys} {p : Fin NPROC}

theorem Idle.of_proc (h : Idle s) (hproc : s'.proc = s.proc) : Idle s' := by
  unfold Idle
  rw [hproc]
  exact h

/-- A live process's own descriptors are not the idle slots'. -/
theorem Idle.setOfile (h : Idle s) (hp : (s.proc p).Alive) (fd : Fin NOFILE) (o : Option (Fin NFILE)) :
    Idle (s.setOfile p fd o) := by
  intro q hq fd'
  have hq' : ¬ (s.proc q).Alive := by simpa [Proc.Alive] using hq
  have hqp : q ≠ p := fun e => hq' (e ▸ hp)
  rw [Sys.setOfile_ofile, if_neg hqp]
  exact h q hq' fd'

theorem alive_setOfile (hp : (s.proc p).Alive) (fd : Fin NOFILE) (o : Option (Fin NFILE)) :
    ((s.setOfile p fd o).proc p).Alive := by
  simpa [Proc.Alive] using hp

/-- A slot is replaced by a live process, or by one with no descriptors. -/
theorem Idle.setProc (h : Idle s) {q : Fin NPROC} {x : Proc} (hx : x.Alive ∨ ∀ fd, x.ofile fd = none) :
    Idle (s.setProc q x) := by
  intro q' hq' fd
  by_cases hq : q' = q
  · subst hq
    simp only [Sys.setProc_proc, Function.update_self] at hq' ⊢
    exact hx.resolve_left hq' fd
  · simp only [Sys.setProc_proc, Function.update_of_ne hq] at hq' ⊢
    exact h q' hq' fd

/-- `reparent` moves no descriptor and changes no state. -/
theorem Idle.reparent (h : Idle s) : Idle (reparent s p) := by
  intro q hq fd
  rw [reparent_ofile]
  exact h q (by simpa [Proc.Alive] using hq) fd

theorem Counted.setProc {held : Fin NFILE → Nat} (h : Counted s held) {q : Fin NPROC} {x : Proc}
    (hof : x.ofile = (s.proc q).ofile) : Counted (s.setProc q x) held :=
  h.ofile_congr rfl fun q' => by
    by_cases hq : q' = q
    · subst hq
      simpa using hof
    · simp [Function.update_of_ne hq]

/-- A change of the counts only: the same descriptors, each `ref` as before. -/
theorem Counted.of_refs {held : Fin NFILE → Nat} (h : Counted s held) (hk : KInv s'.k)
    (hproc : s'.proc = s.proc) (href : ∀ g, (s'.k.ftable g).ref = (s.k.ftable g).ref) :
    Counted s' held :=
  ⟨hk, fun g => by rw [href, hproc]; exact h.refs g⟩

/-- A call that moves no descriptor and no reference, and leaves every idle
slot idle or empty. -/
theorem FdInv.of_ofile (h : FdInv s) (hk : s'.k = s.k) (hof : ∀ q, (s'.proc q).ofile = (s.proc q).ofile)
    (hidle : ∀ q, ¬ (s'.proc q).Alive → ∀ fd, (s.proc q).ofile fd = none) : FdInv s' :=
  ⟨h.counted.ofile_congr hk hof, fun q hq fd => by rw [hof q]; exact hidle q hq fd⟩

/-- **`sys_close`** drops a descriptor and its reference; the file's object
is released exactly when the descriptor was the last to name it. -/
theorem FdInv.sysClose (h : FdInv s) (hp : (s.proc p).Alive) (n : Int) :
    ∃ s' r, Kernel.sysClose s p n = .ok (s', r) ∧ FdInv s' ∧
      ∀ fd f, argfd s p n = some (fd, f) → r = 0 ∧
        s'.k.released = s.k.released ++
          (if slotCount s.proc f = 1 ∧ (s.k.ftable f).type ≠ .none then [s.k.stamp f] else []) := by
  cases ha : argfd s p n with
  | none =>
      exact ⟨s, -1, by simp [Kernel.sysClose, ha], h, fun fd f hfd => by cases hfd⟩
  | some r =>
      obtain ⟨fd, f⟩ := r
      obtain ⟨k', hk', hc, hrel⟩ := (h.counted.drop (argfd_some ha)).fileclose
      have hk'' : s.k.fileclose f = .ok k' := hk'
      refine ⟨_, 0, by simp [Kernel.sysClose, ha, hk''], ⟨hc, h.idle.setOfile hp fd none⟩, ?_⟩
      intro fd' f' hfd'
      obtain ⟨-, rfl⟩ := Prod.mk.inj (Option.some.inj hfd')
      refine ⟨rfl, ?_⟩
      rw [hrel]
      simp [h.counted.refs f]

/-- `sys_dup` gives the file one more descriptor and one more reference. -/
theorem FdInv.sysDup (h : FdInv s) (hp : (s.proc p).Alive) (n : Int) :
    ∃ s' r, Kernel.sysDup s p n = .ok (s', r) ∧ FdInv s' := by
  cases ha : argfd s p n with
  | none => exact ⟨s, -1, by simp [Kernel.sysDup, ha], h⟩
  | some r =>
      obtain ⟨fd₀, f⟩ := r
      cases hfa : fdalloc s p f with
      | none => exact ⟨s, -1, by simp [Kernel.sysDup, ha, hfa], h⟩
      | some r =>
          obtain ⟨fd, s₁⟩ := r
          obtain ⟨hfree, rfl⟩ := fdalloc_some hfa
          obtain ⟨ft, hft, hc⟩ := h.counted.filedup (argfd_some ha)
          refine ⟨({ s with k := { s.k with ftable := ft } }).setOfile p fd (some f), ((fd : Nat) : Int),
            ?_, ⟨hc.give hfree, h.idle.setOfile hp fd (some f)⟩⟩
          simp only [Kernel.sysDup, ha, hfa, Sys.setOfile_k, hft]
          rfl

/-- `sys_open` gives a free file a descriptor and makes it an inode or
device file; when no descriptor is free it closes the file again. -/
theorem FdInv.sysOpen (h : FdInv s) (hp : (s.proc p).Alive) (omode : Int32) (ip : Option OpenIp) :
    ∃ s' r, Kernel.sysOpen s p omode ip = .ok (s', r) ∧ FdInv s' := by
  rcases ip with _ | ip
  · exact ⟨s, -1, rfl, h⟩
  by_cases hdir : omode &&& O_CREATE = 0 ∧ ip.type = Fs.T_DIR ∧ omode ≠ O_RDONLY
  · exact ⟨s, -1, by simp [Kernel.sysOpen, hdir], h⟩
  by_cases hdev : ip.type = Fs.T_DEVICE ∧ (ip.major < 0 ∨ NDEV ≤ ip.major)
  · exact ⟨s, -1, by simp [Kernel.sysOpen, hdev], h⟩
  cases hfa : s.k.filealloc with
  | none => exact ⟨s, -1, by simp [Kernel.sysOpen, hdir, hdev, hfa], h⟩
  | some r =>
      obtain ⟨f, k⟩ := r
      have hc := h.counted.filealloc hfa
      cases hfd : fdalloc { s with k } p f with
      | none =>
          -- `fileclose(f)` of a file that is still `FD_NONE`
          obtain ⟨k', hk', hc', -⟩ := hc.fileclose
          have hk'' : k.fileclose f = .ok k' := hk'
          exact ⟨{ s with k := k' }, -1, by simp [Kernel.sysOpen, hdir, hdev, hfa, hfd, hk''],
            ⟨hc', h.idle⟩⟩
      | some r =>
          obtain ⟨fd, s₁⟩ := r
          obtain ⟨hfree, rfl⟩ := fdalloc_some hfd
          obtain ⟨hf0, rfl⟩ := KState.filealloc_some hfa
          have hc₁ : Counted (({ s with k := fileTaken s.k f }).setOfile p fd (some f)) 0 :=
            hc.give hfree
          have hlive : (fileTaken s.k f).Live f := (fileTaken_live f).mpr (.inl rfl)
          have hnone : ((fileTaken s.k f).ftable f).type = .none := by
            simpa [fileTaken_ftable] using h.counted.kinv.table.none_of_free f hf0
          simp only [Kernel.sysOpen, hdir, hdev, hfa, hfd, if_false]
          refine ⟨_, _, rfl, ⟨hc₁.of_refs ?_ rfl fun g => ?_, h.idle.setOfile hp fd (some f)⟩⟩
          · apply hc₁.kinv.retype hlive (by simp [hnone]) <;> split_ifs <;> simp
          · by_cases hg : g = f
            · subst hg
              split_ifs <;> simp
            · simp [hg]

/-- `sys_pipe` gives the two files of a new pipe a descriptor each; on
any failure after `pipealloc` it clears the descriptors and closes both
files, which frees the pipe. -/
theorem FdInv.sysPipe (h : FdInv s) (hp : (s.proc p).Alive) (copyOk : Bool) :
    ∃ s' r, Kernel.sysPipe s p copyOk = .ok (s', r) ∧ FdInv s' := by
  obtain ⟨k', hinv, -, ⟨hpa, hft⟩ | ⟨f0, f1, hpa, hne, h0, h1, href⟩⟩ := h.counted.kinv.pipealloc
  · -- no pipe: every count as it was
    exact ⟨{ s with k := k' }, -1, by simp [Kernel.sysPipe, hpa],
      ⟨h.counted.of_refs hinv rfl fun g => by rw [hft], h.idle⟩⟩
  -- the call holds the two new references
  have hc : Counted { s with k := k' } (Pi.single f1 1 + Pi.single f0 1) := by
    refine ⟨hinv, fun g => ?_⟩
    have hr := h.counted.refs g
    simp only [Pi.zero_apply, add_zero] at hr
    show (k'.ftable g).ref = slotCount s.proc g + _
    rw [href g, Pi.add_apply]
    by_cases hg0 : g = f0
    · subst hg0
      simp only [true_or, if_true, Pi.single_eq_same, Pi.single_eq_of_ne hne]
      omega
    · by_cases hg1 : g = f1
      · subst hg1
        simp only [or_true, if_true, Pi.single_eq_same, Pi.single_eq_of_ne hg0]
        omega
      · simp only [hg0, hg1, or_self, if_false, Pi.single_eq_of_ne hg0, Pi.single_eq_of_ne hg1]
        omega
  set s₀ : Sys := { s with k := k' } with hs₀
  have hp₀ : (s₀.proc p).Alive := hp
  cases hfd0 : fdalloc s₀ p f0 with
  | none =>
      obtain ⟨s', hs', hc', hproc⟩ := hc.closePair
      exact ⟨s', -1, by simp [Kernel.sysPipe, hpa, ← hs₀, hfd0, hs'], ⟨hc', h.idle.of_proc hproc⟩⟩
  | some r =>
      obtain ⟨fd0, s₁⟩ := r
      obtain ⟨hfree0, rfl⟩ := fdalloc_some hfd0
      have hc₁ : Counted (s₀.setOfile p fd0 (some f0)) (Pi.single f1 1) := hc.give hfree0
      have hidle₁ : Idle (s₀.setOfile p fd0 (some f0)) := Idle.setOfile (s := s₀) h.idle hp₀ fd0 _
      have hslot0 : ((s₀.setOfile p fd0 (some f0)).proc p).ofile fd0 = some f0 := by
        simp [Sys.setOfile_ofile]
      cases hfd1 : fdalloc (s₀.setOfile p fd0 (some f0)) p f1 with
      | none =>
          -- `p->ofile[fd0] = 0`, then close both
          obtain ⟨s', hs', hc', hproc⟩ := (hc₁.drop hslot0).closePair
          exact ⟨s', -1, by simp [Kernel.sysPipe, hpa, ← hs₀, hfd0, hfd1, hs'],
            ⟨hc', (hidle₁.setOfile (alive_setOfile hp₀ fd0 _) fd0 none).of_proc hproc⟩⟩
      | some r =>
          obtain ⟨fd1, s₂⟩ := r
          obtain ⟨hfree1, rfl⟩ := fdalloc_some hfd1
          have hc₂ : Counted ((s₀.setOfile p fd0 (some f0)).setOfile p fd1 (some f1)) 0 :=
            (show Counted _ (0 + Pi.single f1 1) by rw [zero_add]; exact hc₁).give hfree1
          have hp₁ := alive_setOfile hp₀ fd0 (some f0)
          have hidle₂ := hidle₁.setOfile hp₁ fd1 (some f1)
          cases copyOk with
          | true => exact ⟨_, 0, by simp [Kernel.sysPipe, hpa, ← hs₀, hfd0, hfd1], ⟨hc₂, hidle₂⟩⟩
          | false =>
              -- the `copyout` failed: clear both descriptors, then close both
              have hne01 : fd1 ≠ fd0 := fun e => by
                rw [e, hslot0] at hfree1
                cases hfree1
              have hslot0' : (((s₀.setOfile p fd0 (some f0)).setOfile p fd1 (some f1)).proc p).ofile
                  fd0 = some f0 := by
                rw [Sys.setOfile_ofile, if_pos rfl, Function.update_of_ne (Ne.symm hne01), hslot0]
              have hc₃ := hc₂.drop hslot0'
              have hslot1 : ((((s₀.setOfile p fd0 (some f0)).setOfile p fd1 (some f1)).setOfile p fd0
                  none).proc p).ofile fd1 = some f1 := by
                simp [Sys.setOfile_ofile, hne01]
              have hc₄ := hc₃.drop hslot1
              rw [zero_add, add_comm] at hc₄
              obtain ⟨s', hs', hc', hproc⟩ := hc₄.closePair
              have hp₂ := alive_setOfile hp₁ fd1 (some f1)
              refine ⟨s', -1, by simp [Kernel.sysPipe, hpa, ← hs₀, hfd0, hfd1, hs'], ⟨hc', ?_⟩⟩
              exact ((hidle₂.setOfile hp₂ fd0 none).setOfile (alive_setOfile hp₂ fd0 none) fd1
                none).of_proc hproc

/-- `fork` copies the parent's descriptors into the child's empty slot and
gives each file one more reference; when memory runs out the slot stays
`UNUSED`, with no descriptors. -/
theorem FdInv.fork (h : FdInv s) (hp : (s.proc p).Alive) (mem : ForkMem) :
    ∃ s' r, Kernel.fork s p mem = .ok (s', r) ∧ FdInv s' := by
  cases ha : allocproc s with
  | none => exact ⟨s, -1, by simp [Kernel.fork, ha], h⟩
  | some r =>
      obtain ⟨np, s₁⟩ := r
      obtain ⟨hunused, rfl⟩ := allocproc_some ha
      have hnp : ¬ (s.proc np).Alive := fun h' => h'.1 hunused
      have hne : np ≠ p := fun e => hnp (e ▸ hp)
      have hempty := h.idle np hnp
      set s₁ : Sys := { s.setProc np { s.proc np with pid := s.nextpid } with
        nextpid := s.nextpid + 1 } with hs₁
      -- taking the slot changes its pid only
      have h₁ : FdInv s₁ :=
        ⟨(h.counted.setProc (q := np) (x := { s.proc np with pid := s.nextpid }) rfl).ofile_congr rfl
          fun _ => rfl, (h.idle.setProc (q := np) (x := { s.proc np with pid := s.nextpid })
          (.inr hempty)).of_proc rfl⟩
      have hempty₁ : ∀ fd, (s₁.proc np).ofile fd = none := fun fd => by simp [s₁, hempty]
      simp only [Kernel.fork, ha]
      cases mem with
      | noTrapframe => exact ⟨s₁, -1, rfl, h₁⟩
      | noPagetable => exact ⟨_, -1, rfl, ⟨h₁.counted.setProc rfl, h₁.idle.setProc (.inr hempty₁)⟩⟩
      | noCopy => exact ⟨_, -1, rfl, ⟨h₁.counted.setProc rfl, h₁.idle.setProc (.inr hempty₁)⟩⟩
      | ok =>
          have hc : Counted ({ s₁ with k := s₁.k }.setProc np
              { s₁.proc np with ofile := (s₁.proc np).ofile }) 0 :=
            h₁.counted.setProc rfl
          obtain ⟨k', nof', hrun, hc'⟩ := Counted.dupFiles (s := s₁) hne (List.finRange NOFILE) s₁.k
            (s₁.proc np).ofile (List.nodup_finRange NOFILE) (fun i _ => hempty₁ i) hc
          simp only [hrun]
          refine ⟨_, _, rfl, ⟨hc'.ofile_congr rfl fun q => ?_,
            (show Idle { s₁ with k := k' } from h₁.idle.of_proc rfl).setProc
              (.inl ⟨by simp, by simp⟩)⟩⟩
          by_cases hq : q = np
          · subst hq
            simp
          · simp [Function.update_of_ne hq]

/-- `exit` closes every descriptor of the process, which becomes a `ZOMBIE`
with none. -/
theorem FdInv.exit (h : FdInv s) (hinit : p ≠ initproc) (status : Int) :
    ∃ s', Kernel.exit s p status = .ok s' ∧ FdInv s' := by
  have hc : Counted ({ s with k := s.k }.setProc p { s.proc p with ofile := (s.proc p).ofile }) 0 :=
    h.counted.setProc rfl
  obtain ⟨k', of', hrun, hc', hall, -⟩ := Counted.closeFiles (List.finRange NOFILE) s.k (s.proc p).ofile hc
  have hnone : ∀ fd, of' fd = none := fun fd => hall fd (List.mem_finRange fd)
  simp only [Kernel.exit, hinit, if_false, hrun]
  have hidle : Idle ({ s with k := k' }.setProc p { s.proc p with ofile := of' }) :=
    (show Idle { s with k := k' } from h.idle.of_proc rfl).setProc (.inr hnone)
  refine ⟨_, rfl, ⟨hc'.ofile_congr rfl fun q => ?_, hidle.reparent.setProc (.inr ?_)⟩⟩
  · by_cases hq : q = p
    · subst hq
      simp
    · simp [Function.update_of_ne hq]
  · simpa using hnone

/-- `wait` frees a `ZOMBIE` child, which names no file. -/
theorem FdInv.wait (h : FdInv s) {addr : Nat} {copyOk : Bool} {r : Int}
    (hw : Kernel.wait s p addr copyOk = some (s', r)) : FdInv s' := by
  rcases wait_some hw with ⟨rfl, -⟩ | ⟨np, hz, -, rfl, -⟩
  · exact h
  · have hnp : ¬ (s.proc np).Alive := fun h' => h'.2 hz
    exact ⟨h.counted.setProc rfl, h.idle.setProc (.inr (h.idle np hnp))⟩

/-- `kill` changes no descriptor, and wakes only a live process. -/
theorem FdInv.kill (h : FdInv s) (pid : Int) : FdInv (Kernel.kill s pid).1 := by
  rcases kill_cases s pid with hk | ⟨q, hk⟩
  · rw [hk]
    exact h
  · rw [hk]
    refine ⟨h.counted.setProc rfl, h.idle.setProc ?_⟩
    by_cases hq : (s.proc q).Alive
    · refine .inl ⟨?_, ?_⟩ <;> split_ifs <;> simp_all [Proc.Alive]
    · exact .inr (h.idle q hq)

end Calls

/-! ## Every reachable state -/

section Run

variable {s s' : Sys} {k0 : KState}

/-- Every step keeps the invariant. -/
theorem FdInv.step (h : FdInv s) {e : Ev} (hs : Kernel.step s e = some s') : FdInv s' := by
  unfold Kernel.step at hs
  split_ifs at hs with hp
  cases e with
  | «open» p omode ip =>
      obtain ⟨s'', r, hrun, hinv⟩ := h.sysOpen hp omode ip
      exact ok_map_fst hrun hs ▸ hinv
  | pipe p copyOk =>
      obtain ⟨s'', r, hrun, hinv⟩ := h.sysPipe hp copyOk
      exact ok_map_fst hrun hs ▸ hinv
  | dup p n =>
      obtain ⟨s'', r, hrun, hinv⟩ := h.sysDup hp n
      exact ok_map_fst hrun hs ▸ hinv
  | close p n =>
      obtain ⟨s'', r, hrun, hinv, -⟩ := h.sysClose hp n
      exact ok_map_fst hrun hs ▸ hinv
  | fork p mem =>
      obtain ⟨s'', r, hrun, hinv⟩ := h.fork hp mem
      exact ok_map_fst hrun hs ▸ hinv
  | exit p status =>
      by_cases hinit : p = initproc
      · simp [Kernel.call, Kernel.exit, hinit, Except.toOption] at hs
      · obtain ⟨s'', hrun, hinv⟩ := h.exit hinit status
        simp only [Kernel.call, hrun, Except.toOption, Option.some.injEq] at hs
        exact hs ▸ hinv
  | wait p addr copyOk =>
      obtain ⟨⟨s'', r⟩, hw, rfl⟩ := Option.map_eq_some_iff.mp hs
      exact h.wait hw
  | kill p pid =>
      simp only [Kernel.call, Option.some.injEq] at hs
      exact hs ▸ h.kill pid

theorem fdInv_userinit (h0 : KInv k0) (hfree : ∀ f, (k0.ftable f).ref = 0) : FdInv (userinit k0) := by
  have hempty : ∀ q fd, ((userinit k0).proc q).ofile fd = none := by
    intro q fd
    by_cases hq : q = initproc
    · subst hq
      simp [userinit, Proc.zero]
    · simp [userinit, Proc.zero, hq]
  refine ⟨⟨h0, fun f => ?_⟩, fun q _ => hempty q⟩
  rw [slotCount_of_empty hempty]
  exact hfree f

/-- Between calls, every file's `ref` is the number of descriptors naming it. -/
theorem fdInv_reachable (h0 : KInv k0) (hfree : ∀ f, (k0.ftable f).ref = 0) :
    (procSystem k0).Invariant FdInv :=
  (procSystem k0).invariant_of_step (fdInv_userinit h0 hfree) fun _ _ _ h hs => h.step hs

end Run

end Kernel
end Xv6
