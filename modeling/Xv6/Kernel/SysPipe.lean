import Xv6.Kernel.FileInv
import Xv6.Kernel.SysFile

/-!
# `sys_pipe` is all or nothing

`sys_pipe` can fail at six points: either `filealloc` or the `kalloc` of
`pipealloc`, either `fdalloc`, or the `copyout` of the descriptors.  Each
failure exit undoes what was done by the generic paths: `fileclose` of a
file that `filealloc` just took only frees its slot, because a free file is
`FD_NONE`; and once both ends of the new pipe are made, `fileclose` of the
read end leaves the pipe to the write end, whose `fileclose` frees the page.

The only fact about the state this rests on is the first field of the file
table's invariant (`TableInv.none_of_free`).
-/

namespace Xv6
namespace Kernel

section Close

variable {k : KState} {f : Fin NFILE} {pi : Nat} {pp : Pipe} {w : Bool}

/-- Closing the one reference to a file that is still `FD_NONE` only frees
the slot. -/
theorem fileclose_new (h1 : (k.ftable f).ref = 1) (hnone : (k.ftable f).type = .none) :
    k.fileclose f = .ok (fileDropped k f) := by
  rw [KState.fileclose_of_one h1,
    KState.releaseObj_none (show ({ k.ftable f with ref := 0 } : File).type = .none from hnone)]
  rfl

/-- The last reference to a pipe end goes to `pipeclose`. -/
theorem fileclose_pipe_end (h1 : (k.ftable f).ref = 1) (ht : (k.ftable f).type = .pipe) :
    k.fileclose f =
      ((fileDropped k f).release f).pipeclose (k.ftable f).pipe (k.ftable f).writable := by
  rw [KState.fileclose_of_one h1]
  simp [KState.releaseObj, ht, fileDropped]

/-- `pipeclose` of one end while the other is open keeps the pipe. -/
theorem pipeclose_keep (hpp : k.pipes pi = some pp) (hother : pp.isOpen (!w) = true) :
    k.pipeclose pi w = .ok { k with
      pipes := Function.update k.pipes pi
        (some (if w then { pp with writeopen := false } else { pp with readopen := false })) } := by
  rw [KState.pipeclose, hpp]
  simp only [close_both_iff, hother, Bool.not_true, Bool.false_eq_true, if_false]

/-- `pipeclose` of the last open end gives the page back. -/
theorem pipeclose_free (hpp : k.pipes pi = some pp) (hother : pp.isOpen (!w) = false)
    (hpage : PageOk k.kmem.kend pi) :
    ∃ k', k.pipeclose pi w = .ok k' ∧ k'.ftable = k.ftable ∧
      k'.kmem.freelist = pi :: k.kmem.freelist := by
  obtain ⟨km, hkm, hfl, -, -⟩ := kfree_of_ok hpage
  rw [KState.pipeclose, hpp]
  simp only [close_both_iff, hother, Bool.not_false, if_true, KState.kfree, hkm]
  exact ⟨_, rfl, rfl, hfl⟩

end Close

/-- `fileclose(rf); fileclose(wf);` of the two ends of a new pipe that
nothing else references: both files are free and `FD_NONE` again, and the
second close gives the pipe's page back. -/
theorem closePair_newPipe {s : Sys} {rf wf : Fin NFILE} {pi n : Nat} (hne : rf ≠ wf)
    (hr : (s.k.ftable rf).ref = 1 ∧ (s.k.ftable rf).type = .pipe ∧ (s.k.ftable rf).pipe = pi ∧
      (s.k.ftable rf).writable = false)
    (hw : (s.k.ftable wf).ref = 1 ∧ (s.k.ftable wf).type = .pipe ∧ (s.k.ftable wf).pipe = pi ∧
      (s.k.ftable wf).writable = true)
    (hpp : s.k.pipes pi = some ⟨true, true, n⟩) (hpage : PageOk s.k.kmem.kend pi) :
    ∃ s', closePair s rf wf = .ok (s', -1) ∧ s'.proc = s.proc ∧
      s'.k.ftable = (fileDropped (fileDropped s.k rf) wf).ftable ∧
      s'.k.kmem.freelist = pi :: s.k.kmem.freelist := by
  obtain ⟨hr1, hrt, hrp, hrw⟩ := hr
  obtain ⟨hw1, hwt, hwp, hww⟩ := hw
  -- the read end goes first, and the write end keeps the pipe
  have hc₁ : s.k.fileclose rf = .ok { (fileDropped s.k rf).release rf with
      pipes := Function.update s.k.pipes pi (some ⟨false, true, n⟩) } := by
    rw [fileclose_pipe_end hr1 hrt, hrp, hrw,
      pipeclose_keep (k := (fileDropped s.k rf).release rf) (w := false) hpp rfl]
    rfl
  set k₁ := { (fileDropped s.k rf).release rf with
    pipes := Function.update s.k.pipes pi (some ⟨false, true, n⟩) }
  have hwf : k₁.ftable wf = s.k.ftable wf := by
    simp [k₁, KState.release, fileDropped, Function.update_of_ne hne.symm]
  -- then the write end, the last open one
  obtain ⟨k₂, hk₂, hft₂, hfl₂⟩ := pipeclose_free
    (show ((fileDropped k₁ wf).release wf).pipes pi = some ⟨false, true, n⟩ by
      simp [k₁, KState.release, fileDropped])
    (show Pipe.isOpen ⟨false, true, n⟩ (!true) = false from rfl) hpage
  have hc₂ : k₁.fileclose wf = .ok k₂ := by
    rw [fileclose_pipe_end (hwf ▸ hw1) (hwf ▸ hwt), hwf, hwp, hww]
    exact hk₂
  refine ⟨{ s with k := k₂ }, ?_, rfl, hft₂, hfl₂⟩
  simp only [closePair, hc₁, hc₂]

/-- `pipealloc`, when no free file is anything but `FD_NONE`: two free files
become the read and the write end of a pipe on a page off the free list;
or it fails with every file's `ref` and `type` and the free list as they
were. -/
theorem pipealloc_spec (k : KState)
    (hnone : ∀ f, (k.ftable f).ref = 0 → (k.ftable f).type = .none) :
    (∃ k', k.pipealloc = .ok (k', none) ∧
      (∀ f, (k'.ftable f).ref = (k.ftable f).ref ∧ (k'.ftable f).type = (k.ftable f).type) ∧
      k'.kmem.freelist = k.kmem.freelist) ∨
    ∃ rf wf pi k', k.pipealloc = .ok (k', some (rf, wf)) ∧ rf ≠ wf ∧
      (k.ftable rf).ref = 0 ∧ (k.ftable wf).ref = 0 ∧
      k'.ftable rf =
        { k.ftable rf with ref := 1, type := .pipe, readable := true, writable := false, pipe := pi } ∧
      k'.ftable wf =
        { k.ftable wf with ref := 1, type := .pipe, readable := false, writable := true, pipe := pi } ∧
      (∀ g, g ≠ rf → g ≠ wf → k'.ftable g = k.ftable g) ∧
      k.kmem.freelist = pi :: k'.kmem.freelist ∧ PageOk k'.kmem.kend pi ∧
      ∃ n, k'.pipes pi = some ⟨true, true, n⟩ := by
  unfold KState.pipealloc
  cases hfa0 : k.filealloc with
  | none =>
      exact .inl ⟨k, by simp [KState.pipeallocBad, KState.closeOpt, bind, Except.bind, pure,
        Except.pure, Except.map], fun _ => ⟨rfl, rfl⟩, rfl⟩
  | some r0 =>
      obtain ⟨f0, k1⟩ := r0
      obtain ⟨hf0, rfl⟩ := KState.filealloc_some hfa0
      have hnone0 := hnone f0 hf0
      dsimp only
      cases hfa1 : (fileTaken k f0).filealloc with
      | none =>
          -- no second file: the first is freed again
          have hc := fileclose_new (show ((fileTaken k f0).ftable f0).ref = 1 by
            simp [fileTaken_ftable]) (by simp [fileTaken_ftable, hnone0])
          refine .inl ⟨fileDropped (fileTaken k f0) f0, by simp [KState.pipeallocBad,
            KState.closeOpt, hc, bind, Except.bind, pure, Except.pure, Except.map], fun g => ?_, rfl⟩
          by_cases hg : g = f0
          · subst hg
            simp [fileDropped, fileTaken_ftable, hf0, hnone0]
          · simp [fileDropped, fileTaken_ftable, hg]
      | some r1 =>
          obtain ⟨f1, k2⟩ := r1
          obtain ⟨hf1, rfl⟩ := KState.filealloc_some hfa1
          have hne : f0 ≠ f1 := fun e => by
            rw [fileTaken_ftable, if_pos e.symm] at hf1
            cases hf1
          have hf1' : (k.ftable f1).ref = 0 := by
            rwa [fileTaken_ftable, if_neg (Ne.symm hne)] at hf1
          have hnone1 := hnone f1 hf1'
          dsimp only
          cases hmem : k.kmem.freelist with
          | nil =>
              -- no page: both files are freed again
              rw [KState.kalloc_of_nil (k := fileTaken (fileTaken k f0) f1) hmem]
              simp only [if_true]
              have hc0 := fileclose_new (k := fileTaken (fileTaken k f0) f1) (f := f0)
                (by simp [fileTaken_ftable, hne]) (by simp [fileTaken_ftable, hne, hnone0])
              have hc1 := fileclose_new (k := fileDropped (fileTaken (fileTaken k f0) f1) f0) (f := f1)
                (by simp [fileDropped, fileTaken_ftable, Ne.symm hne])
                (by simp [fileDropped, fileTaken_ftable, Ne.symm hne, hnone1])
              refine .inl ⟨fileDropped (fileDropped (fileTaken (fileTaken k f0) f1) f0) f1, by
                simp [KState.pipeallocBad, KState.closeOpt, hc0, hc1, bind, Except.bind, pure,
                  Except.pure, Except.map], fun g => ?_, hmem⟩
              by_cases hg0 : g = f0
              · subst hg0
                simp [fileDropped, fileTaken_ftable, hne, hf0, hnone0]
              · by_cases hg1 : g = f1
                · subst hg1
                  simp [fileDropped, fileTaken_ftable, hg0, hf1', hnone1]
                · simp [fileDropped, fileTaken_ftable, hg0, hg1]
          | cons pi rest =>
              obtain ⟨hpi, hrest, -, hkend⟩ := kalloc_of_cons hmem
              have hpage : PageOk k.kmem.kend pi := k.kmem.valid pi (by simp [hmem])
              have hpi0 : pi ≠ 0 := (pageOk_pos k.kmem.kend_ge hpage).ne'
              have hk₂mem : (fileTaken (fileTaken k f0) f1).kmem = k.kmem := rfl
              simp only [KState.kalloc, hk₂mem, hpi, if_neg hpi0]
              refine .inr ⟨f0, f1, pi, _, rfl, hne, hf0, hf1', ?_, ?_, fun g hg0 hg1 => ?_, ?_, ?_,
                ?_⟩
              · simp [fileTaken_ftable, hne, Ne.symm hne]
              · simp [fileTaken_ftable, Ne.symm hne]
              · simp [fileTaken_ftable, hg0, hg1]
              · simp [hrest]
              · simpa [hkend] using hpage
              · exact ⟨_, Function.update_self _ _ _⟩

end Kernel
end Xv6
