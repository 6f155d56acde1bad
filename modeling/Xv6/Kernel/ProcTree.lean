import Xv6.Kernel.SysFile
import Xv6.Kernel.FileInv
import Mathlib.Logic.Relation

/-!
# The process tree

`p->parent` of the slots in use, over every run of the kernel of
`SysFile`: every process but `initproc` has a live parent, so a `ZOMBIE`
has no children (`exit` gives them to `initproc` first), and following
parents never comes back to where it started.  The last is carried by the
pids, as ranks carry it in a union-find: `fork` gives the child the next
pid, above every pid in use, and `reparent` points at `initproc`, whose pid
is `1`, so pids fall strictly along `p->parent`.

The calls on descriptors change no field of the tree: `SameTree` says so,
and one inversion lemma per call shows it of the state it returns.
-/

namespace Xv6
namespace Kernel

/-- `q`'s parent is `r`, for a slot `q` in use. -/
def ParentOf (s : Sys) (q r : Fin NPROC) : Prop :=
  (s.proc q).state ≠ .unused ∧ (s.proc q).parent = some r

/-- The invariant of the process tree. -/
structure TreeInv (s : Sys) : Prop where
  init_alive : (s.proc initproc).Alive
  init_root : (s.proc initproc).parent = none
  init_pid : (s.proc initproc).pid = 1
  unused_orphan : ∀ q, (s.proc q).state = .unused → (s.proc q).parent = none
  parent_alive : ∀ q, (s.proc q).state ≠ .unused → q ≠ initproc →
    ∃ r, (s.proc q).parent = some r ∧ (s.proc r).Alive
  pid_lt_parent : ∀ q r, ParentOf s q r → (s.proc r).pid < (s.proc q).pid
  pid_pos : ∀ q, (s.proc q).state ≠ .unused → 0 < (s.proc q).pid
  pid_lt_next : ∀ q, (s.proc q).state ≠ .unused → (s.proc q).pid < s.nextpid

/-- No field of the tree changed: which slots are in use and alive, their
parents and pids, and `nextpid`. -/
def SameTree (s s' : Sys) : Prop :=
  s'.nextpid = s.nextpid ∧ ∀ q, ((s'.proc q).state = .unused ↔ (s.proc q).state = .unused) ∧
    ((s'.proc q).Alive ↔ (s.proc q).Alive) ∧ (s'.proc q).parent = (s.proc q).parent ∧
    (s'.proc q).pid = (s.proc q).pid

section Same

variable {s s' s'' : Sys}

theorem SameTree.refl (s : Sys) : SameTree s s := ⟨rfl, fun _ => ⟨Iff.rfl, Iff.rfl, rfl, rfl⟩⟩

theorem SameTree.trans (h : SameTree s s') (h' : SameTree s' s'') : SameTree s s'' := by
  refine ⟨h'.1.trans h.1, fun q => ?_⟩
  obtain ⟨hu, ha, hp, hi⟩ := h.2 q
  obtain ⟨hu', ha', hp', hi'⟩ := h'.2 q
  exact ⟨hu'.trans hu, ha'.trans ha, hp'.trans hp, hi'.trans hi⟩

theorem sameTree_withK (s : Sys) (k : KState) : SameTree s { s with k } := SameTree.refl s

theorem sameTree_setOfile (s : Sys) (p : Fin NPROC) (fd : Fin NOFILE) (o : Option (Fin NFILE)) :
    SameTree s (s.setOfile p fd o) := by
  refine ⟨rfl, fun q => ?_⟩
  by_cases hq : q = p
  · subst hq
    simp [Sys.setOfile, Proc.Alive]
  · simp [Sys.setOfile, hq]

theorem fdalloc_sameTree {p : Fin NPROC} {f : Fin NFILE} {fd : Fin NOFILE}
    (h : fdalloc s p f = some (fd, s')) : SameTree s s' := by
  obtain ⟨-, rfl⟩ := fdalloc_some h
  exact sameTree_setOfile s p fd (some f)

theorem closePair_sameTree {rf wf : Fin NFILE} {r : Int} (h : closePair s rf wf = .ok (s', r)) :
    SameTree s s' := by
  unfold closePair at h
  split at h
  · cases h
  · split at h
    · cases h
    · cases h
      exact sameTree_withK s _

end Same

/-! ## The calls on descriptors keep the tree -/

section Files

variable {s s' : Sys} {p : Fin NPROC} {r : Int}

theorem sysClose_sameTree {n : Int} (h : sysClose s p n = .ok (s', r)) : SameTree s s' := by
  unfold sysClose at h
  split at h
  · cases h
    exact SameTree.refl s
  · dsimp only at h
    split at h
    · cases h
    · cases h
      exact sameTree_setOfile s p _ none

theorem sysDup_sameTree {n : Int} (h : sysDup s p n = .ok (s', r)) : SameTree s s' := by
  unfold sysDup at h
  split at h
  · cases h
    exact SameTree.refl s
  · split at h
    · cases h
      exact SameTree.refl s
    · rename_i hfd
      split at h
      · cases h
      · cases h
        exact (fdalloc_sameTree hfd).trans (sameTree_withK _ _)

theorem sysOpen_sameTree {omode : Int32} {ip : Option OpenIp} (h : sysOpen s p omode ip = .ok (s', r)) :
    SameTree s s' := by
  unfold sysOpen at h
  rcases ip with _ | ip
  · cases h
    exact SameTree.refl s
  dsimp only at h
  by_cases hdir : omode &&& O_CREATE = 0 ∧ ip.type = Fs.T_DIR ∧ omode ≠ O_RDONLY
  · rw [if_pos hdir] at h
    cases h
    exact SameTree.refl s
  rw [if_neg hdir] at h
  by_cases hdev : ip.type = Fs.T_DEVICE ∧ (ip.major < 0 ∨ NDEV ≤ ip.major)
  · rw [if_pos hdev] at h
    cases h
    exact SameTree.refl s
  rw [if_neg hdev] at h
  split at h
  · cases h
    exact SameTree.refl s
  · split at h
    · split at h
      · cases h
      · cases h
        exact sameTree_withK s _
    · rename_i hfd
      cases h
      exact ((sameTree_withK s _).trans (fdalloc_sameTree hfd)).trans (sameTree_withK _ _)

theorem sysPipe_sameTree {copyOk : Bool} (h : sysPipe s p copyOk = .ok (s', r)) : SameTree s s' := by
  unfold sysPipe at h
  split at h
  · cases h
  · cases h
    exact sameTree_withK s _
  · -- every path runs from `{ s with k }` through `fdalloc`s, clears and `closePair`
    have h₀ := sameTree_withK s ‹KState›
    dsimp only at h
    split at h
    · exact h₀.trans (closePair_sameTree h)
    · rename_i hfd0
      have h₁ := h₀.trans (fdalloc_sameTree hfd0)
      split at h
      · exact (h₁.trans (sameTree_setOfile _ p _ none)).trans (closePair_sameTree h)
      · rename_i hfd1
        have h₂ := h₁.trans (fdalloc_sameTree hfd1)
        split_ifs at h
        · cases h
          exact h₂
        · exact ((h₂.trans (sameTree_setOfile _ p _ none)).trans (sameTree_setOfile _ p _ none)).trans
            (closePair_sameTree h)

theorem sameTree_setOfiles (s : Sys) (p : Fin NPROC) (k : KState) (of : OFile) :
    SameTree s ({ s with k }.setProc p { s.proc p with ofile := of }) := by
  refine ⟨rfl, fun q => ?_⟩
  by_cases hq : q = p
  · subst hq
    simp [Proc.Alive]
  · simp [hq]

theorem sameTree_kill (s : Sys) (pid : Int) : SameTree s (kill s pid).1 := by
  rcases kill_cases s pid with hk | ⟨q, hk⟩
  · rw [hk]
    exact SameTree.refl s
  · rw [hk]
    refine ⟨rfl, fun q' => ?_⟩
    by_cases hq : q' = q
    · subst hq
      simp only [Sys.setProc_proc, Function.update_self, Proc.Alive]
      split_ifs with hs <;> simp [hs]
    · simp [Function.update_of_ne hq]

end Files

/-! ## The calls on processes keep the tree -/

section Tree

variable {s s' : Sys} {p np : Fin NPROC}

theorem TreeInv.of_sameTree (h : TreeInv s) (hs : SameTree s s') : TreeInv s' := by
  obtain ⟨hn, hq⟩ := hs
  have hused : ∀ q, (s'.proc q).state ≠ .unused → (s.proc q).state ≠ .unused :=
    fun q hu e => hu ((hq q).1.mpr e)
  refine ⟨(hq initproc).2.1.mpr h.init_alive, (hq initproc).2.2.1.trans h.init_root,
    (hq initproc).2.2.2.trans h.init_pid, fun q hu => ?_, fun q hu hi => ?_, fun q r hqr => ?_,
    fun q hu => ?_, fun q hu => ?_⟩
  · rw [(hq q).2.2.1]
    exact h.unused_orphan q ((hq q).1.mp hu)
  · obtain ⟨r, hr, ha⟩ := h.parent_alive q (hused q hu) hi
    exact ⟨r, (hq q).2.2.1.trans hr, (hq r).2.1.mpr ha⟩
  · rw [(hq q).2.2.2, (hq r).2.2.2]
    exact h.pid_lt_parent q r ⟨hused q hqr.1, (hq q).2.2.1.symm.trans hqr.2⟩
  · rw [(hq q).2.2.2]
    exact h.pid_pos q (hused q hu)
  · rw [(hq q).2.2.2, hn]
    exact h.pid_lt_next q (hused q hu)

theorem TreeInv.init_ne (h : TreeInv s) (hnp : ¬ (s.proc np).Alive) : np ≠ initproc :=
  fun e => hnp (e ▸ h.init_alive)

/-- A slot that is not alive is nobody's parent. -/
theorem TreeInv.not_parent (h : TreeInv s) (hnp : ¬ (s.proc np).Alive) (q : Fin NPROC) :
    (s.proc q).parent ≠ some np := by
  intro hq
  by_cases hu : (s.proc q).state = .unused
  · rw [h.unused_orphan q hu] at hq
    cases hq
  by_cases hi : q = initproc
  · subst hi
    rw [h.init_root] at hq
    cases hq
  obtain ⟨r, hr, ha⟩ := h.parent_alive q hu hi
  rw [hq] at hr
  cases hr
  exact hnp ha

/-- No process is its own parent. -/
theorem TreeInv.parent_ne (h : TreeInv s) (q : Fin NPROC) : (s.proc q).parent ≠ some q := by
  intro hq
  by_cases hu : (s.proc q).state = .unused
  · rw [h.unused_orphan q hu] at hq
    cases hq
  exact Nat.lt_irrefl _ (h.pid_lt_parent q q ⟨hu, hq⟩)

/-- Emptying a slot that is not alive, or rewriting an `UNUSED` one, keeps
the tree while the slot stays `UNUSED` and orphaned: `allocproc` taking a
pid, and `freeproc` in `fork` and `wait`. -/
theorem TreeInv.setIdle (h : TreeInv s) (hnp : ¬ (s.proc np).Alive) {x : Proc}
    (hx : x.state = .unused) (hxp : x.parent = none) (hproc : s'.proc = Function.update s.proc np x)
    (hn : s.nextpid ≤ s'.nextpid) : TreeInv s' := by
  have hinit := (h.init_ne hnp).symm
  -- every slot but `np` is as it was, and none has `np` for parent
  have hq : ∀ q, q ≠ np → s'.proc q = s.proc q := fun q hq => by
    rw [hproc, Function.update_of_ne hq]
  have hnp' : s'.proc np = x := by rw [hproc, Function.update_self]
  refine ⟨by rw [hq _ hinit]; exact h.init_alive, by rw [hq _ hinit]; exact h.init_root,
    by rw [hq _ hinit]; exact h.init_pid, fun q hu => ?_, fun q hu hi => ?_, fun q r hqr => ?_,
    fun q hu => ?_, fun q hu => ?_⟩
  · by_cases hqn : q = np
    · subst hqn
      rw [hnp']
      exact hxp
    · rw [hq q hqn] at hu ⊢
      exact h.unused_orphan q hu
  · have hqn : q ≠ np := fun e => hu (by rw [e, hnp', hx])
    rw [hq q hqn] at hu ⊢
    obtain ⟨r, hr, ha⟩ := h.parent_alive q hu hi
    have hrn : r ≠ np := fun e => hnp (e ▸ ha)
    exact ⟨r, hr, by rw [hq r hrn]; exact ha⟩
  · have hqn : q ≠ np := fun e => hqr.1 (by rw [e, hnp', hx])
    have hqr' : ParentOf s q r := by
      unfold ParentOf at hqr ⊢
      rwa [hq q hqn] at hqr
    have hrn : r ≠ np := fun e => h.not_parent hnp q (e ▸ hqr'.2)
    rw [hq q hqn, hq r hrn]
    exact h.pid_lt_parent q r hqr'
  · have hqn : q ≠ np := fun e => hu (by rw [e, hnp', hx])
    rw [hq q hqn] at hu ⊢
    exact h.pid_pos q hu
  · have hqn : q ≠ np := fun e => hu (by rw [e, hnp', hx])
    rw [hq q hqn] at hu ⊢
    exact lt_of_lt_of_le (h.pid_lt_next q hu) hn

/-- The child of `fork`: the slot `allocproc` took becomes a live process
whose parent is the caller and whose pid is the next one. -/
theorem TreeInv.adopt (h : TreeInv s) (hp : (s.proc p).Alive) (hnp : (s.proc np).state = .unused)
    {x : Proc} (hx : x.Alive) (hxp : x.parent = some p) (hxpid : x.pid = s.nextpid)
    (hproc : s'.proc = Function.update s.proc np x) (hn : s'.nextpid = s.nextpid + 1) : TreeInv s' := by
  have hnpa : ¬ (s.proc np).Alive := fun ha => ha.1 hnp
  have hinit := (h.init_ne hnpa).symm
  have hpn : p ≠ np := fun e => hnpa (e ▸ hp)
  have hq : ∀ q, q ≠ np → s'.proc q = s.proc q := fun q hq => by
    rw [hproc, Function.update_of_ne hq]
  have hnp' : s'.proc np = x := by rw [hproc, Function.update_self]
  have hinit_lt : 1 < s.nextpid := h.init_pid ▸ h.pid_lt_next initproc h.init_alive.1
  refine ⟨by rw [hq _ hinit]; exact h.init_alive, by rw [hq _ hinit]; exact h.init_root,
    by rw [hq _ hinit]; exact h.init_pid, fun q hu => ?_, fun q hu hi => ?_, fun q r hqr => ?_,
    fun q hu => ?_, fun q hu => ?_⟩
  · have hqn : q ≠ np := fun e => hx.1 (by rw [← hnp', ← e]; exact hu)
    rw [hq q hqn] at hu ⊢
    exact h.unused_orphan q hu
  · by_cases hqn : q = np
    · subst hqn
      exact ⟨p, hnp' ▸ hxp, by rw [hq p hpn]; exact hp⟩
    · rw [hq q hqn] at hu ⊢
      obtain ⟨r, hr, ha⟩ := h.parent_alive q hu hi
      have hrn : r ≠ np := fun e => hnpa (e ▸ ha)
      exact ⟨r, hr, by rw [hq r hrn]; exact ha⟩
  · by_cases hqn : q = np
    · -- the child's parent is the caller, with a smaller pid
      subst hqn
      have hr : r = p := by
        have := hqr.2
        rw [hnp', hxp] at this
        exact (Option.some.inj this).symm
      subst hr
      rw [hnp', hq r hpn, hxpid]
      exact h.pid_lt_next r hp.1
    · have hqr' : ParentOf s q r := by
        unfold ParentOf at hqr ⊢
        rwa [hq q hqn] at hqr
      have hrn : r ≠ np := fun e => h.not_parent hnpa q (e ▸ hqr'.2)
      rw [hq q hqn, hq r hrn]
      exact h.pid_lt_parent q r hqr'
  · by_cases hqn : q = np
    · subst hqn
      rw [hnp', hxpid]
      omega
    · rw [hq q hqn] at hu ⊢
      exact h.pid_pos q hu
  · rw [hn]
    by_cases hqn : q = np
    · subst hqn
      rw [hnp', hxpid]
      omega
    · rw [hq q hqn] at hu ⊢
      have := h.pid_lt_next q hu
      omega

section ExitTree

variable (s : Sys) (p : Fin NPROC) (status : Int)

/-- After `exit`, `p` is a `ZOMBIE` and every other slot in the state it was. -/
theorem exit_proc_state (q : Fin NPROC) :
    (((reparent s p).setProc p { (reparent s p).proc p with xstate := status, state := .zombie }).proc
      q).state = if q = p then .zombie else (s.proc q).state := by
  by_cases hq : q = p
  · subst hq
    simp
  · simp [hq]

/-- `exit` changes no pid. -/
theorem exit_proc_pid (hpp : (s.proc p).parent ≠ some p) (q : Fin NPROC) :
    (((reparent s p).setProc p { (reparent s p).proc p with xstate := status, state := .zombie }).proc
      q).pid = (s.proc q).pid := by
  by_cases hq : q = p
  · subst hq
    simp [reparent, hpp]
  · simp only [Sys.setProc_proc, Function.update_of_ne hq, reparent]
    split_ifs <;> rfl

/-- After `exit`, `p`'s children are `initproc`'s; `p` keeps its parent. -/
theorem exit_proc_parent (hpp : (s.proc p).parent ≠ some p) (q : Fin NPROC) :
    (((reparent s p).setProc p { (reparent s p).proc p with xstate := status, state := .zombie }).proc
      q).parent = if q ≠ p ∧ (s.proc q).parent = some p then some initproc else (s.proc q).parent := by
  by_cases hq : q = p
  · subst hq
    simp [reparent, hpp]
  · simp only [Sys.setProc_proc, Function.update_of_ne hq, reparent, ne_eq, hq, not_false_eq_true,
      true_and]
    split_ifs <;> rfl

end ExitTree

/-- `exit` of a live process other than `initproc`: its children go to
`initproc`, and it becomes a `ZOMBIE` with no children. -/
theorem TreeInv.exit (h : TreeInv s) (hp : (s.proc p).Alive) (hinit : p ≠ initproc) (status : Int) :
    TreeInv ((reparent s p).setProc p { (reparent s p).proc p with xstate := status, state := .zombie }) := by
  -- `p` is not its own parent, so `reparent` leaves its slot alone
  have hpp := h.parent_ne p
  have hstate := exit_proc_state s p status
  have hpid := exit_proc_pid s p status hpp
  have hpar := exit_proc_parent s p status hpp
  have hnext : ((reparent s p).setProc p
      { (reparent s p).proc p with xstate := status, state := .zombie }).nextpid = s.nextpid := rfl
  generalize (reparent s p).setProc p { (reparent s p).proc p with xstate := status, state := .zombie } = s'
    at hstate hpid hpar hnext ⊢
  have halive : ∀ q, q ≠ p → ((s'.proc q).Alive ↔ (s.proc q).Alive) := fun q hq => by
    simp [Proc.Alive, hstate, hq]
  refine ⟨(halive _ (Ne.symm hinit)).mpr h.init_alive, by simp [hpar, h.init_root],
    by rw [hpid]; exact h.init_pid, fun q hu => ?_, fun q hu hi => ?_, fun q r hqr => ?_,
    fun q hu => ?_, fun q hu => ?_⟩
  · -- a slot `UNUSED` now was `UNUSED` before, and was no child of `p`
    have hqp : q ≠ p := fun e => by simp [hstate, e] at hu
    rw [hstate, if_neg hqp] at hu
    have hnone := h.unused_orphan q hu
    simp [hpar, hnone]
  · have hu' : (s.proc q).state ≠ .unused := fun e => hu (by
      rw [hstate]; split_ifs with hqp
      · exact absurd (hqp ▸ e) hp.1
      · exact e)
    obtain ⟨r, hr, ha⟩ := h.parent_alive q hu' hi
    by_cases hqp : q ≠ p ∧ (s.proc q).parent = some p
    · exact ⟨initproc, by simp [hpar, hqp], (halive _ (Ne.symm hinit)).mpr h.init_alive⟩
    · have hrp : r ≠ p := by
        intro e
        rw [e] at hr
        by_cases hq : q = p
        · exact hpp (hq ▸ hr)
        · exact hqp ⟨hq, hr⟩
      exact ⟨r, by rw [hpar, if_neg hqp, hr], (halive r hrp).mpr ha⟩
  · obtain ⟨hu, hr⟩ := hqr
    have hu' : (s.proc q).state ≠ .unused := fun e => hu (by
      rw [hstate]; split_ifs with hqp
      · exact absurd (hqp ▸ e) hp.1
      · exact e)
    rw [hpid, hpid]
    by_cases hqp : q ≠ p ∧ (s.proc q).parent = some p
    · -- a child of `p`, now `initproc`'s, with a pid above `p`'s
      rw [hpar, if_pos hqp] at hr
      cases hr
      have := h.pid_lt_parent q p ⟨hu', hqp.2⟩
      have := h.pid_pos p hp.1
      rw [h.init_pid]
      omega
    · rw [hpar, if_neg hqp] at hr
      exact h.pid_lt_parent q r ⟨hu', hr⟩
  · rw [hpid]
    by_cases hqp : q = p
    · subst hqp
      exact h.pid_pos q hp.1
    · rw [hstate, if_neg hqp] at hu
      exact h.pid_pos q hu
  · rw [hpid, hnext]
    by_cases hqp : q = p
    · subst hqp
      exact h.pid_lt_next q hp.1
    · rw [hstate, if_neg hqp] at hu
      exact h.pid_lt_next q hu

theorem TreeInv.fork (h : TreeInv s) (hp : (s.proc p).Alive) {mem : ForkMem} {r : Int}
    (hf : Kernel.fork s p mem = .ok (s', r)) : TreeInv s' := by
  unfold Kernel.fork at hf
  split at hf
  · cases hf
    exact h
  · rename_i np s₁ ha
    obtain ⟨hnp, rfl⟩ := allocproc_some ha
    have hnpa : ¬ (s.proc np).Alive := fun h' => h'.1 hnp
    -- `allocproc` takes the slot and a pid
    have h₁ : TreeInv { s.setProc np { s.proc np with pid := s.nextpid } with
        nextpid := s.nextpid + 1 } :=
      h.setIdle (x := { s.proc np with pid := s.nextpid }) hnpa hnp (h.unused_orphan np hnp) rfl
        (Nat.le_succ _)
    have hnpa₁ : ¬ (({ s.setProc np { s.proc np with pid := s.nextpid } with
        nextpid := s.nextpid + 1 } : Sys).proc np).Alive := by
      simp [Proc.Alive, hnp]
    split at hf
    · cases hf
      exact h₁
    · cases hf
      exact h₁.setIdle hnpa₁ rfl rfl rfl le_rfl
    · cases hf
      exact h₁.setIdle hnpa₁ rfl rfl rfl le_rfl
    · split at hf
      · cases hf
      · rename_i k' of' _
        cases hf
        refine h.adopt (x := { s.proc np with
          pid := s.nextpid, parent := some p, ofile := of', state := .runnable }) hp hnp
          ⟨by simp, by simp⟩ rfl rfl ?_ rfl
        simp [Sys.setProc, Function.update_idem]

theorem TreeInv.exitCall (h : TreeInv s) (hp : (s.proc p).Alive) {status : Int}
    (he : Kernel.exit s p status = .ok s') : TreeInv s' := by
  unfold Kernel.exit at he
  split_ifs at he with hinit
  split at he
  · cases he
  · rename_i k' of' _
    cases he
    have hS := sameTree_setOfiles s p k' of'
    exact (h.of_sameTree hS).exit ((hS.2 p).2.1.mpr hp) hinit status

theorem TreeInv.wait (h : TreeInv s) {addr : Nat} {copyOk : Bool} {r : Int}
    (hw : Kernel.wait s p addr copyOk = some (s', r)) : TreeInv s' := by
  rcases wait_some hw with ⟨rfl, -⟩ | ⟨np, hz, -, rfl, -⟩
  · exact h
  · exact h.setIdle (fun ha => ha.2 hz) rfl rfl rfl le_rfl

/-- Every step keeps the tree. -/
theorem TreeInv.step (h : TreeInv s) {e : Ev} (hs : Kernel.step s e = some s') : TreeInv s' := by
  unfold Kernel.step at hs
  split_ifs at hs with hp
  cases e with
  | «open» p omode ip =>
      obtain ⟨r, hr⟩ := toOption_map_fst hs
      exact h.of_sameTree (sysOpen_sameTree hr)
  | pipe p copyOk =>
      obtain ⟨r, hr⟩ := toOption_map_fst hs
      exact h.of_sameTree (sysPipe_sameTree hr)
  | dup p n =>
      obtain ⟨r, hr⟩ := toOption_map_fst hs
      exact h.of_sameTree (sysDup_sameTree hr)
  | close p n =>
      obtain ⟨r, hr⟩ := toOption_map_fst hs
      exact h.of_sameTree (sysClose_sameTree hr)
  | fork p mem =>
      obtain ⟨r, hr⟩ := toOption_map_fst hs
      exact h.fork hp hr
  | exit p status =>
      cases hx : Kernel.exit s p status with
      | error e => simp [Kernel.call, hx, Except.toOption] at hs
      | ok s'' =>
          simp only [Kernel.call, hx, Except.toOption, Option.some.injEq] at hs
          subst hs
          exact h.exitCall hp hx
  | wait p addr copyOk =>
      obtain ⟨⟨s'', r⟩, hw, rfl⟩ := Option.map_eq_some_iff.mp hs
      exact h.wait hw
  | kill p pid =>
      simp only [Kernel.call, Option.some.injEq] at hs
      exact hs ▸ h.of_sameTree (sameTree_kill s pid)

theorem treeInv_userinit (k0 : KState) : TreeInv (userinit k0) := by
  have hq : ∀ q, q ≠ initproc → (userinit k0).proc q = Proc.zero := fun q hq => by
    simp [userinit, hq]
  have hi : (userinit k0).proc initproc = { Proc.zero with pid := 1, state := .runnable } := by
    simp [userinit]
  refine ⟨by simp [hi, Proc.Alive], by simp [hi, Proc.zero], by simp [hi], fun q hu => ?_,
    fun q hu hne => by simp [hq q hne, Proc.zero] at hu, fun q r hqr => ?_,
    fun q hu => ?_, fun q hu => ?_⟩
  · by_cases hqi : q = initproc
    · subst hqi
      simp [hi, Proc.zero]
    · simp [hq q hqi, Proc.zero]
  · by_cases hqi : q = initproc
    · subst hqi
      simp [ParentOf, hi, Proc.zero] at hqr
    · simp [ParentOf, hq q hqi, Proc.zero] at hqr
  · by_cases hqi : q = initproc
    · subst hqi
      simp [hi]
    · simp [hq q hqi, Proc.zero] at hu
  · by_cases hqi : q = initproc
    · subst hqi
      simp [userinit]
    · simp [hq q hqi, Proc.zero] at hu

theorem treeInv_reachable (k0 : KState) : (procSystem k0).Invariant TreeInv :=
  (procSystem k0).invariant_of_step (treeInv_userinit k0) fun _ _ _ h hs => h.step hs

/-- Pids fall strictly along every chain of parents. -/
theorem TreeInv.pid_lt_of_transGen (h : TreeInv s) {q r : Fin NPROC}
    (hqr : Relation.TransGen (ParentOf s) q r) : (s.proc r).pid < (s.proc q).pid := by
  induction hqr with
  | single hab => exact h.pid_lt_parent _ _ hab
  | tail _ hbc ih => exact lt_trans (h.pid_lt_parent _ _ hbc) ih

theorem TreeInv.acyclic (h : TreeInv s) (q : Fin NPROC) : ¬ Relation.TransGen (ParentOf s) q q :=
  fun hq => Nat.lt_irrefl _ (h.pid_lt_of_transGen hq)

end Tree

/-! ## Every reachable state -/

/-- The second slot, the first child `initproc` forks. -/
def child : Fin NPROC := ⟨1, by decide⟩

/-- `initproc` forks a child (pid 2), the child exits, and `initproc` is
killed. -/
def reapRun : List Ev := [.fork initproc .ok, .exit child 0, .kill initproc 1]

/-- `initproc` calls `kill(0)` and then forks. -/
def preKillRun : List Ev := [.kill initproc 0, .fork initproc .ok]

/-- `initproc` forks with no page free for the trapframe, kills the pid
that attempt took, and forks again. -/
def staleKillRun : List Ev := [.fork initproc .noTrapframe, .kill initproc 2, .fork initproc .ok]

/-- `kill` succeeds on pids that only `UNUSED` slots hold, and the next
`fork` hands out such a slot with `killed` still set: after `kill(0)`, and
after a `kill` of the pid an `allocproc` that failed left behind, the child
starts killed. -/
theorem fork_child_prekilled :
    (kill (userinit (KState.boot bootMem)) 0).2 = 0 ∧
      (∀ q, ((userinit (KState.boot bootMem)).proc q).pid = 0 →
        ((userinit (KState.boot bootMem)).proc q).state = .unused) ∧
      (∃ s, (procSystem (KState.boot bootMem)).Reachable s ∧
        (s.proc child).state = .runnable ∧ (s.proc child).parent = some initproc ∧
        (s.proc child).killed = true) ∧
      (∃ s, (procSystem (KState.boot bootMem)).Reachable s ∧
        (s.proc child).state = .unused ∧ (s.proc child).pid = 2 ∧ (kill s 2).2 = 0) ∧
      (∃ s, (procSystem (KState.boot bootMem)).Reachable s ∧
        (s.proc child).state = .runnable ∧ (s.proc child).pid = 3 ∧
        (s.proc child).killed = true) := by
  refine ⟨by decide, by decide, ?_, ?_, ?_⟩
  · exact (procSystem _).exists_reachable_of_run preKillRun (by decide)
  · exact (procSystem _).exists_reachable_of_run (staleKillRun.take 1) (by decide)
  · exact (procSystem _).exists_reachable_of_run staleKillRun (by decide)

end Kernel
end Xv6
