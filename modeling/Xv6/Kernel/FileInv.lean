import Xv6.Kernel.File

/-!
# The invariant of the file table

What the file table and the objects behind it satisfy in every state the
file system calls reach, whatever the processes hold:

* a file with no reference is `FD_NONE`, and no file is a socket (none of
  the calls modelled here makes one);
* the live files carry distinct allocation numbers, below the counter, and
  none of them has been released; the release log has no repeats;
* the pipes agree with their ends: a live pipe file points at a page that
  holds a pipe, each end of a pipe is one file, and an end is open exactly
  while its file is live; a pipe page is a page of RAM off the free list;
  pipes carry distinct numbers, none of them in the log of freed pipes.

`fileclose` keeps it and releases an object only on the last reference
(`KInv.fileclose`), so each file's object is released once, and each pipe
freed once.
-/

namespace Xv6
namespace Kernel

/-- End `w` of a pipe is open: `writeopen` for the write end. -/
def Pipe.isOpen (pp : Pipe) (w : Bool) : Bool := if w then pp.writeopen else pp.readopen

namespace KState

/-- File `f` has a reference. -/
def Live (k : KState) (f : Fin NFILE) : Prop := 0 < (k.ftable f).ref

/-- File `f` is the live end `w` of the pipe at `pi`, the write end when `w`. -/
def PipeEnd (k : KState) (f : Fin NFILE) (pi : Nat) (w : Bool) : Prop :=
  k.Live f ∧ (k.ftable f).type = .pipe ∧ (k.ftable f).pipe = pi ∧ (k.ftable f).writable = w

end KState

/-- Free files are `FD_NONE`, and no file is a socket. -/
structure TableInv (k : KState) : Prop where
  none_of_free : ∀ f, (k.ftable f).ref = 0 → (k.ftable f).type = .none
  no_sock : ∀ f, (k.ftable f).type ≠ .sock

/-- The allocation numbers of live files are distinct, below the counter,
and not released; the release log has no repeats. -/
structure StampInv (k : KState) : Prop where
  stamp_lt : ∀ f, k.Live f → k.stamp f < k.nstamps
  stamp_inj : ∀ f g, k.Live f → k.Live g → k.stamp f = k.stamp g → f = g
  released_lt : ∀ x ∈ k.released, x < k.nstamps
  released_nodup : k.released.Nodup
  unreleased : ∀ f, k.Live f → k.stamp f ∉ k.released

/-- The pipes agree with their end files and with the free list. -/
structure PipeInv (k : KState) : Prop where
  pipe_cell : ∀ f pi w, k.PipeEnd f pi w → ∃ pp, k.pipes pi = some pp
  end_unique : ∀ f g pi w, k.PipeEnd f pi w → k.PipeEnd g pi w → f = g
  open_iff : ∀ pi pp w, k.pipes pi = some pp → (pp.isOpen w = true ↔ ∃ f, k.PipeEnd f pi w)
  pipe_page : ∀ pi pp, k.pipes pi = some pp → PageOk k.kmem.kend pi ∧ pi ∉ k.kmem.freelist
  id_lt : ∀ pi pp, k.pipes pi = some pp → pp.id < k.nstamps
  id_inj : ∀ pi pj pp pq, k.pipes pi = some pp → k.pipes pj = some pq → pp.id = pq.id → pi = pj
  id_unfreed : ∀ pi pp, k.pipes pi = some pp → pp.id ∉ k.pipesFreed
  freed_lt : ∀ x ∈ k.pipesFreed, x < k.nstamps
  freed_nodup : k.pipesFreed.Nodup
  free_nodup : k.kmem.freelist.Nodup
  free_nopipe : ∀ p ∈ k.kmem.freelist, k.pipes p = none

/-- The invariant of the file table. -/
structure KInv (k : KState) : Prop where
  table : TableInv k
  stamps : StampInv k
  pipes : PipeInv k

variable {k k' : KState} {f : Fin NFILE}

/-! ## Changes that keep the live files -/

theorem TableInv.congr (h : TableInv k) (hft : k'.ftable = k.ftable) : TableInv k' where
  none_of_free g hg := hft ▸ h.none_of_free g (hft ▸ hg)
  no_sock g := hft ▸ h.no_sock g

/-- A change that makes no file live and keeps the numbers and the log keeps
the numbering invariant. -/
theorem StampInv.of_live (h : StampInv k) (hlive : ∀ g, k'.Live g → k.Live g)
    (hstamp : k'.stamp = k.stamp) (hn : k'.nstamps = k.nstamps) (hrel : k'.released = k.released) :
    StampInv k' where
  stamp_lt g hg := by
    rw [hstamp, hn]
    exact h.stamp_lt g (hlive g hg)
  stamp_inj g g' hg hg' := by
    rw [hstamp]
    exact h.stamp_inj g g' (hlive g hg) (hlive g' hg')
  released_lt x hx := by
    rw [hn]
    exact h.released_lt x (hrel ▸ hx)
  released_nodup := hrel ▸ h.released_nodup
  unreleased g hg := by
    rw [hstamp, hrel]
    exact h.unreleased g (hlive g hg)

/-- Releasing live file `f` as it stops being live keeps the numbering
invariant: its number was in no release before. -/
theorem StampInv.release (h : StampInv k) (hf : k.Live f) (hlive : ∀ g, k'.Live g → g ≠ f ∧ k.Live g)
    (hstamp : k'.stamp = k.stamp) (hn : k'.nstamps = k.nstamps)
    (hrel : k'.released = k.released ++ [k.stamp f]) : StampInv k' where
  stamp_lt g hg := by
    rw [hstamp, hn]
    exact h.stamp_lt g (hlive g hg).2
  stamp_inj g g' hg hg' := by
    rw [hstamp]
    exact h.stamp_inj g g' (hlive g hg).2 (hlive g' hg').2
  released_lt x hx := by
    rw [hrel, List.mem_append, List.mem_singleton] at hx
    rw [hn]
    rcases hx with hx | rfl
    · exact h.released_lt x hx
    · exact h.stamp_lt f hf
  released_nodup := by
    rw [hrel, List.nodup_append]
    exact ⟨h.released_nodup, List.nodup_singleton _,
      fun x hx y hy hxy => h.unreleased f hf (by simp_all)⟩
  unreleased g hg := by
    obtain ⟨hgf, hg⟩ := hlive g hg
    rw [hstamp, hrel, List.mem_append, List.mem_singleton, not_or]
    exact ⟨h.unreleased g hg, fun he => hgf (h.stamp_inj g f hg hf he)⟩

/-- A change that keeps every pipe end, the pipes, the allocator and the log
of freed pipes, and does not lower the counter, keeps the pipe invariant. -/
theorem PipeInv.of_ends (h : PipeInv k) (hend : ∀ g pi w, k'.PipeEnd g pi w ↔ k.PipeEnd g pi w)
    (hpipes : k'.pipes = k.pipes) (hkmem : k'.kmem = k.kmem) (hfreed : k'.pipesFreed = k.pipesFreed)
    (hn : k.nstamps ≤ k'.nstamps) : PipeInv k' where
  pipe_cell g pi w hg := hpipes ▸ h.pipe_cell g pi w ((hend g pi w).mp hg)
  end_unique g g' pi w hg hg' := h.end_unique g g' pi w ((hend g pi w).mp hg) ((hend g' pi w).mp hg')
  open_iff pi pp w hp := by
    rw [hpipes] at hp
    simp only [hend]
    exact h.open_iff pi pp w hp
  pipe_page pi pp hp := hkmem ▸ h.pipe_page pi pp (hpipes ▸ hp)
  id_lt pi pp hp := Nat.lt_of_lt_of_le (h.id_lt pi pp (hpipes ▸ hp)) hn
  id_inj pi pj pp pq hp hq := h.id_inj pi pj pp pq (hpipes ▸ hp) (hpipes ▸ hq)
  id_unfreed pi pp hp := hfreed ▸ h.id_unfreed pi pp (hpipes ▸ hp)
  freed_lt x hx := Nat.lt_of_lt_of_le (h.freed_lt x (hfreed ▸ hx)) hn
  freed_nodup := hfreed ▸ h.freed_nodup
  free_nodup := hkmem ▸ h.free_nodup
  free_nopipe p hp := hpipes ▸ h.free_nopipe p (hkmem ▸ hp)

/-! ## `filealloc` -/

theorem fileTaken_ftable (g : Fin NFILE) :
    (fileTaken k f).ftable g = if g = f then { k.ftable f with ref := 1 } else k.ftable g := by
  by_cases hg : g = f
  · subst hg
    simp [fileTaken]
  · simp [fileTaken, hg]

/-- `filealloc` of a free file keeps the invariant: the file, `FD_NONE`,
becomes live with a number no live file or release has. -/
theorem KInv.of_fileTaken (h : KInv k) (hf : (k.ftable f).ref = 0) : KInv (fileTaken k f) := by
  have hnone := h.table.none_of_free f hf
  have hlive : ∀ g, (fileTaken k f).Live g ↔ g = f ∨ k.Live g := by
    intro g
    by_cases hg : g = f
    · simp [KState.Live, fileTaken_ftable, hg]
    · simp [KState.Live, fileTaken_ftable, hg]
  have hend : ∀ g pi w, (fileTaken k f).PipeEnd g pi w ↔ k.PipeEnd g pi w := by
    intro g pi w
    by_cases hg : g = f
    · subst hg
      simp [KState.PipeEnd, KState.Live, fileTaken_ftable, hnone, hf]
    · simp [KState.PipeEnd, KState.Live, fileTaken_ftable, hg]
  have hstamp : ∀ g, (fileTaken k f).stamp g = if g = f then k.nstamps else k.stamp g := by
    intro g
    by_cases hg : g = f
    · simp [fileTaken, hg]
    · simp [fileTaken, hg]
  refine ⟨⟨?_, ?_⟩, ⟨?_, ?_, ?_, ?_, ?_⟩, h.pipes.of_ends hend rfl rfl rfl (Nat.le_succ _)⟩
  · intro g hg
    by_cases hgf : g = f
    · simp [fileTaken_ftable, hgf] at hg
    · simpa [fileTaken_ftable, hgf] using h.table.none_of_free g (by simpa [fileTaken_ftable, hgf] using hg)
  · intro g
    by_cases hgf : g = f
    · simp [fileTaken_ftable, hgf, hnone]
    · simpa [fileTaken_ftable, hgf] using h.table.no_sock g
  · intro g hg
    rw [hstamp]
    split
    · exact Nat.lt_succ_self _
    · exact Nat.lt_succ_of_lt (h.stamps.stamp_lt g (((hlive g).mp hg).resolve_left ‹_›))
  · -- the new number is the counter, above every live file's
    intro g g' hg hg' he
    have hold : ∀ g, (fileTaken k f).Live g → g ≠ f → k.Live g := fun g hg hgf =>
      ((hlive g).mp hg).resolve_left hgf
    by_cases hgf : g = f <;> by_cases hgf' : g' = f
    · rw [hgf, hgf']
    · have := h.stamps.stamp_lt g' (hold g' hg' hgf')
      simp only [hstamp, hgf, hgf', if_true, if_false] at he
      omega
    · have := h.stamps.stamp_lt g (hold g hg hgf)
      simp only [hstamp, hgf, hgf', if_true, if_false] at he
      omega
    · simp only [hstamp, hgf, hgf', if_false] at he
      exact h.stamps.stamp_inj g g' (hold g hg hgf) (hold g' hg' hgf') he
  · intro x hx
    exact Nat.lt_succ_of_lt (h.stamps.released_lt x hx)
  · exact h.stamps.released_nodup
  · intro g hg
    rw [hstamp]
    split
    · exact fun hmem => Nat.lt_irrefl _ (h.stamps.released_lt _ hmem)
    · exact h.stamps.unreleased g (((hlive g).mp hg).resolve_left ‹_›)

/-! ## `filedup` and `fileclose` -/

/-- Changing reference counts without making a file live or free, or
changing what it is, keeps the invariant. -/
theorem KInv.of_refs (h : KInv k) {ft : FTable}
    (htype : ∀ g, (ft g).type = (k.ftable g).type) (hpipe : ∀ g, (ft g).pipe = (k.ftable g).pipe)
    (hw : ∀ g, (ft g).writable = (k.ftable g).writable)
    (hlive : ∀ g, 0 < (ft g).ref ↔ 0 < (k.ftable g).ref) : KInv { k with ftable := ft } := by
  have hend : ∀ g pi w, KState.PipeEnd { k with ftable := ft } g pi w ↔ k.PipeEnd g pi w := by
    intro g pi w
    simp only [KState.PipeEnd, KState.Live, htype, hpipe, hw, hlive]
  refine ⟨⟨fun g hg => ?_, fun g => ?_⟩, h.stamps.of_live (fun g hg => (hlive g).mp hg) rfl rfl rfl,
    h.pipes.of_ends hend rfl rfl rfl (Nat.le_refl _)⟩
  · have hg' : (ft g).ref = 0 := hg
    have : (k.ftable g).ref = 0 := by
      by_contra hne
      have := (hlive g).mpr (Nat.pos_of_ne_zero hne)
      omega
    show (ft g).type = .none
    rw [htype]
    exact h.table.none_of_free g this
  · show (ft g).type ≠ .sock
    rw [htype]
    exact h.table.no_sock g

theorem KInv.filedup (h : KInv k) (hf : k.Live f) :
    ∃ ft, Kernel.filedup k.ftable f = .ok ft ∧ KInv { k with ftable := ft } ∧
      ∀ g, (ft g).ref = if g = f then (k.ftable f).ref + 1 else (k.ftable g).ref := by
  have hpos : 0 < (k.ftable f).ref := hf
  refine ⟨_, by rw [Kernel.filedup, if_neg (by omega)], ?_, ?_⟩
  · refine h.of_refs (fun g => ?_) (fun g => ?_) (fun g => ?_) (fun g => ?_) <;>
      by_cases hg : g = f <;> simp [hg, hpos]
  · intro g
    by_cases hg : g = f <;> simp [hg]

/-- The table after the last reference to `f` went: `ref = 0`, `FD_NONE`. -/
def fileDropped (k : KState) (f : Fin NFILE) : KState :=
  { k with ftable := Function.update k.ftable f { k.ftable f with ref := 0, type := .none } }

theorem fileDropped_live (g : Fin NFILE) : (fileDropped k f).Live g ↔ g ≠ f ∧ k.Live g := by
  by_cases hg : g = f
  · simp [fileDropped, KState.Live, hg]
  · simp [fileDropped, KState.Live, hg]

theorem fileDropped_pipeEnd (g : Fin NFILE) (pi : Nat) (w : Bool) :
    (fileDropped k f).PipeEnd g pi w ↔ g ≠ f ∧ k.PipeEnd g pi w := by
  by_cases hg : g = f
  · simp [fileDropped, KState.PipeEnd, hg]
  · simp [fileDropped, KState.PipeEnd, KState.Live, hg]

theorem TableInv.fileDropped (h : TableInv k) : TableInv (fileDropped k f) where
  none_of_free g hg := by
    by_cases hgf : g = f
    · simp [Kernel.fileDropped, hgf]
    · simp only [Kernel.fileDropped, Function.update_of_ne hgf] at hg ⊢
      exact h.none_of_free g hg
  no_sock g := by
    by_cases hgf : g = f
    · simp [Kernel.fileDropped, hgf]
    · simpa [Kernel.fileDropped, Function.update_of_ne hgf] using h.no_sock g

/-- The last reference to a file that is not a pipe end keeps the pipe
invariant. -/
theorem PipeInv.fileDropped (h : PipeInv k) (hf : (k.ftable f).type ≠ .pipe) :
    PipeInv (fileDropped k f) := by
  refine h.of_ends (fun g pi w => ?_) rfl rfl rfl (Nat.le_refl _)
  rw [fileDropped_pipeEnd]
  constructor
  · exact fun hg => hg.2
  · intro hg
    refine ⟨fun hgf => ?_, hg⟩
    subst hgf
    exact hf hg.2.1

/-! ## Closing a pipe end -/

/-- `pipeclose`'s update of the pipe record: end `w` closed. -/
theorem isOpen_close (pp : Pipe) (w w' : Bool) :
    (if w then { pp with writeopen := false } else { pp with readopen := false }).isOpen w' =
      (w' != w && pp.isOpen w') := by
  cases w <;> cases w' <;> simp [Pipe.isOpen]

/-- `pipeclose` frees the pipe exactly when the other end was closed. -/
theorem close_both_iff (pp : Pipe) (w : Bool) :
    (!(if w then { pp with writeopen := false } else { pp with readopen := false }).readopen &&
      !(if w then { pp with writeopen := false } else { pp with readopen := false }).writeopen) =
      !pp.isOpen (!w) := by
  cases w <;> simp [Pipe.isOpen]

section CloseEnd

variable {pi : Nat} {w : Bool} {pp : Pipe}

/-- Once the last reference to end `w` of the pipe at `pi` went, the ends of
`pi` still live are the other end, which the pipe has open. -/
theorem KInv.other_end (h : KInv k) (hend : k.PipeEnd f pi w) (hpp : k.pipes pi = some pp)
    {g : Fin NFILE} {w' : Bool} (hg : (fileDropped k f).PipeEnd g pi w') :
    w' = !w ∧ pp.isOpen w' = true := by
  obtain ⟨hgf, hg⟩ := (fileDropped_pipeEnd g pi w').mp hg
  have hw : w' ≠ w := fun e => hgf (h.pipes.end_unique g f pi w (e ▸ hg) hend)
  refine ⟨by cases w <;> cases w' <;> simp_all, (h.pipes.open_iff pi pp w' hpp).mpr ⟨g, hg⟩⟩

/-- Away from `pi`, the ends are those of before. -/
theorem fileDropped_pipeEnd_of_ne (hend : k.PipeEnd f pi w) {g : Fin NFILE} {pj : Nat} {w' : Bool}
    (hpj : pj ≠ pi) : (fileDropped k f).PipeEnd g pj w' ↔ k.PipeEnd g pj w' := by
  rw [fileDropped_pipeEnd]
  refine ⟨fun hg => hg.2, fun hg => ⟨fun hgf => ?_, hg⟩⟩
  subst hgf
  exact hpj (hg.2.2.1.symm.trans hend.2.2.1)

theorem pipeEnd_congr (hft : k'.ftable = k.ftable) {g : Fin NFILE} {pi : Nat} {w : Bool} :
    k'.PipeEnd g pi w ↔ k.PipeEnd g pi w := by
  simp [KState.PipeEnd, KState.Live, hft]

/-- The other end still open: the pipe stays, with end `w` closed. -/
theorem KInv.closeEnd_keep (h : KInv k) (hend : k.PipeEnd f pi w) (hpp : k.pipes pi = some pp)
    (hother : pp.isOpen (!w) = true) (hft : k'.ftable = (fileDropped k f).ftable)
    (hpipes : k'.pipes = Function.update k.pipes pi
      (some (if w then { pp with writeopen := false } else { pp with readopen := false })))
    (hkmem : k'.kmem = k.kmem) (hfreed : k'.pipesFreed = k.pipesFreed)
    (hn : k'.nstamps = k.nstamps) : PipeInv k' := by
  have hpage := h.pipes.pipe_page pi pp hpp
  -- what `k'` holds at each page: at `pi` the closed record, with the same number
  have hget : ∀ {pj pq}, k'.pipes pj = some pq →
      ∃ pq₀, k.pipes pj = some pq₀ ∧ pq.id = pq₀.id ∧ (pj ≠ pi → pq = pq₀) := by
    intro pj pq hq
    rw [hpipes] at hq
    by_cases hpj : pj = pi
    · subst hpj
      simp only [Function.update_self, Option.some.injEq] at hq
      subst hq
      exact ⟨pp, hpp, by cases w <;> rfl, fun hne => absurd rfl hne⟩
    · rw [Function.update_of_ne hpj] at hq
      exact ⟨pq, hq, rfl, fun _ => rfl⟩
  refine ⟨fun g pj w' hg => ?_, fun g g' pj w' hg hg' => ?_, fun pj pq w' hq => ?_,
    fun pj pq hq => ?_, fun pj pq hq => ?_, fun pj pj' pq pq' hq hq' hid => ?_,
    fun pj pq hq => ?_, hfreed ▸ hn ▸ h.pipes.freed_lt, hfreed ▸ h.pipes.freed_nodup,
    hkmem ▸ h.pipes.free_nodup, fun p hp => ?_⟩
  · rw [pipeEnd_congr hft, fileDropped_pipeEnd] at hg
    obtain ⟨pq, hq⟩ := h.pipes.pipe_cell g pj w' hg.2
    by_cases hpj : pj = pi
    · exact ⟨_, by rw [hpipes, hpj, Function.update_self]⟩
    · exact ⟨pq, by rw [hpipes, Function.update_of_ne hpj, hq]⟩
  · rw [pipeEnd_congr hft, fileDropped_pipeEnd] at hg hg'
    exact h.pipes.end_unique g g' pj w' hg.2 hg'.2
  · simp only [pipeEnd_congr hft]
    by_cases hpj : pj = pi
    · -- at `pi`: end `w` is closed and has no live file; the other is as before
      subst hpj
      rw [hpipes, Function.update_self, Option.some.injEq] at hq
      subst hq
      rw [isOpen_close]
      constructor
      · intro ho
        simp only [Bool.and_eq_true, bne_iff_ne, ne_eq] at ho
        obtain ⟨g, hg⟩ := (h.pipes.open_iff pj pp w' hpp).mp ho.2
        refine ⟨g, (fileDropped_pipeEnd g pj w').mpr ⟨fun hgf => ho.1 ?_, hg⟩⟩
        subst hgf
        exact hg.2.2.2.symm.trans hend.2.2.2
      · rintro ⟨g, hg⟩
        obtain ⟨rfl, ho⟩ := h.other_end hend hpp hg
        cases w <;> simp_all
    · obtain ⟨pq₀, hq₀, -, he⟩ := hget hq
      rw [he hpj]
      simp only [fileDropped_pipeEnd_of_ne hend hpj]
      exact h.pipes.open_iff pj pq₀ w' hq₀
  · obtain ⟨pq₀, hq₀, -⟩ := hget hq
    rw [hkmem]
    exact h.pipes.pipe_page pj pq₀ hq₀
  · obtain ⟨pq₀, hq₀, he, -⟩ := hget hq
    rw [he, hn]
    exact h.pipes.id_lt pj pq₀ hq₀
  · obtain ⟨q₀, hq₀, he₀, -⟩ := hget hq
    obtain ⟨q₀', hq₀', he₀', -⟩ := hget hq'
    exact h.pipes.id_inj pj pj' q₀ q₀' hq₀ hq₀' (he₀.symm.trans (hid.trans he₀'))
  · obtain ⟨pq₀, hq₀, he, -⟩ := hget hq
    rw [he, hfreed]
    exact h.pipes.id_unfreed pj pq₀ hq₀
  · rw [hkmem] at hp
    have hpi : p ≠ pi := fun e => hpage.2 (e ▸ hp)
    rw [hpipes, Function.update_of_ne hpi]
    exact h.pipes.free_nopipe p hp

/-- The other end closed too: `pipeclose` frees the page, and the pipe's
number goes to the log of freed pipes. -/
theorem KInv.closeEnd_free (h : KInv k) (hend : k.PipeEnd f pi w) (hpp : k.pipes pi = some pp)
    (hother : pp.isOpen (!w) = false) (hft : k'.ftable = (fileDropped k f).ftable)
    (hpipes : k'.pipes = Function.update k.pipes pi none)
    (hfl : k'.kmem.freelist = pi :: k.kmem.freelist) (hkend : k'.kmem.kend = k.kmem.kend)
    (hfreed : k'.pipesFreed = k.pipesFreed ++ [pp.id]) (hn : k'.nstamps = k.nstamps) :
    PipeInv k' := by
  have hpage := h.pipes.pipe_page pi pp hpp
  have hget : ∀ {pj pq}, k'.pipes pj = some pq → pj ≠ pi ∧ k.pipes pj = some pq := by
    intro pj pq hq
    rw [hpipes] at hq
    by_cases hpj : pj = pi
    · subst hpj
      simp at hq
    · rw [Function.update_of_ne hpj] at hq
      exact ⟨hpj, hq⟩
  have hid_ne : ∀ {pj pq}, k'.pipes pj = some pq → pq.id ≠ pp.id := fun hq he =>
    (hget hq).1 (h.pipes.id_inj _ pi _ pp (hget hq).2 hpp he)
  refine ⟨fun g pj w' hg => ?_, fun g g' pj w' hg hg' => ?_, fun pj pq w' hq => ?_,
    fun pj pq hq => ?_, fun pj pq hq => ?_, fun pj pj' pq pq' hq hq' hid => ?_,
    fun pj pq hq => ?_, fun x hx => ?_, ?_, ?_, fun p hp => ?_⟩
  · rw [pipeEnd_congr hft] at hg
    by_cases hpj : pj = pi
    · -- the other end is closed, so no file is an end of `pi` any more
      subst hpj
      obtain ⟨rfl, ho⟩ := h.other_end hend hpp hg
      simp [hother] at ho
    · obtain ⟨pq, hq⟩ := h.pipes.pipe_cell g pj w' ((fileDropped_pipeEnd_of_ne hend hpj).mp hg)
      exact ⟨pq, by rw [hpipes, Function.update_of_ne hpj, hq]⟩
  · rw [pipeEnd_congr hft, fileDropped_pipeEnd] at hg hg'
    exact h.pipes.end_unique g g' pj w' hg.2 hg'.2
  · obtain ⟨hpj, hq⟩ := hget hq
    simp only [pipeEnd_congr hft, fileDropped_pipeEnd_of_ne hend hpj]
    exact h.pipes.open_iff pj pq w' hq
  · obtain ⟨hpj, hq⟩ := hget hq
    rw [hfl, hkend, List.mem_cons, not_or]
    exact ⟨(h.pipes.pipe_page pj pq hq).1, hpj, (h.pipes.pipe_page pj pq hq).2⟩
  · rw [hn]
    exact h.pipes.id_lt pj pq (hget hq).2
  · exact h.pipes.id_inj pj pj' pq pq' (hget hq).2 (hget hq').2 hid
  · rw [hfreed, List.mem_append, List.mem_singleton, not_or]
    exact ⟨h.pipes.id_unfreed pj pq (hget hq).2, hid_ne hq⟩
  · rw [hfreed, List.mem_append, List.mem_singleton] at hx
    rw [hn]
    rcases hx with hx | rfl
    · exact h.pipes.freed_lt x hx
    · exact h.pipes.id_lt pi pp hpp
  · rw [hfreed, List.nodup_append]
    exact ⟨h.pipes.freed_nodup, List.nodup_singleton _,
      fun x hx y hy hxy => h.pipes.id_unfreed pi pp hpp (by simp_all)⟩
  · rw [hfl]
    exact List.nodup_cons.mpr ⟨hpage.2, h.pipes.free_nodup⟩
  · rw [hfl, List.mem_cons] at hp
    rw [hpipes]
    by_cases hpi : p = pi
    · rw [hpi, Function.update_self]
    · rw [Function.update_of_ne hpi]
      exact h.pipes.free_nopipe p (hp.resolve_left hpi)

/-- The last reference to a pipe end goes: the end is recorded as released,
and `pipeclose` closes it, freeing the pipe if the other end is closed. -/
theorem KInv.closeLastPipe (h : KInv k) (hf1 : (k.ftable f).ref = 1)
    (htype : (k.ftable f).type = .pipe) :
    ∃ k', ((fileDropped k f).release f).pipeclose (k.ftable f).pipe (k.ftable f).writable =
        .ok k' ∧ KInv k' ∧ k'.ftable = (fileDropped k f).ftable ∧ k'.stamp = k.stamp ∧
        k'.nstamps = k.nstamps ∧ k'.released = k.released ++ [k.stamp f] := by
  have hlivef : k.Live f := by
    unfold KState.Live
    omega
  have hend : k.PipeEnd f (k.ftable f).pipe (k.ftable f).writable := ⟨hlivef, htype, rfl, rfl⟩
  obtain ⟨pp, hpp⟩ := h.pipes.pipe_cell _ _ _ hend
  -- the table and the numbering do not depend on what happens to the pipe
  have hrest : ∀ {k' : KState}, k'.ftable = (fileDropped k f).ftable → k'.stamp = k.stamp →
      k'.nstamps = k.nstamps → k'.released = k.released ++ [k.stamp f] → PipeInv k' → KInv k' :=
    fun hft hs hn hr hp => ⟨h.table.fileDropped.congr hft,
      h.stamps.release hlivef (fun g hg => (fileDropped_live g).mp (by
        unfold KState.Live at hg ⊢
        rwa [hft] at hg)) hs hn hr, hp⟩
  have hpp' : ((fileDropped k f).release f).pipes (k.ftable f).pipe = some pp := hpp
  unfold KState.pipeclose
  rw [hpp']
  dsimp only
  rw [close_both_iff]
  by_cases hother : pp.isOpen (!(k.ftable f).writable) = true
  · -- the other end open: the pipe stays
    rw [hother, Bool.not_true, if_neg Bool.false_ne_true]
    exact ⟨_, rfl, hrest rfl rfl rfl rfl (h.closeEnd_keep hend hpp hother rfl rfl rfl rfl rfl),
      rfl, rfl, rfl, rfl⟩
  · -- both ends closed: `kfree(pi)`
    rw [Bool.not_eq_true] at hother
    rw [hother, Bool.not_false, if_pos rfl]
    obtain ⟨km, hkm, hfl, -, hkend⟩ := kfree_of_ok (h.pipes.pipe_page _ pp hpp).1
    refine ⟨_, KState.kfree_eq hkm, hrest rfl rfl rfl rfl ?_, rfl, rfl, rfl, rfl⟩
    refine h.closeEnd_free hend hpp hother rfl (Function.update_idem _ _ _) hfl hkend ?_ rfl
    cases (k.ftable f).writable <;> rfl

end CloseEnd

/-- **`fileclose` keeps the invariant.**  On a live file it drops one
reference and changes no other file; on the last reference it releases the
file's object, recorded under the file's number, unless the file is
`FD_NONE`. -/
theorem KInv.fileclose (h : KInv k) (hf : k.Live f) :
    ∃ k', k.fileclose f = .ok k' ∧ KInv k' ∧
      k'.ftable f = { k.ftable f with
        ref := (k.ftable f).ref - 1
        type := if (k.ftable f).ref = 1 then .none else (k.ftable f).type } ∧
      (∀ g, g ≠ f → k'.ftable g = k.ftable g) ∧ k'.stamp = k.stamp ∧ k'.nstamps = k.nstamps ∧
      k'.released = k.released ++
        (if (k.ftable f).ref = 1 ∧ (k.ftable f).type ≠ .none then [k.stamp f] else []) := by
  have hpos : 0 < (k.ftable f).ref := hf
  rcases Nat.lt_or_ge 1 (k.ftable f).ref with hlt | hle
  · -- other references remain: only the count changes
    have hne : ¬ ((k.ftable f).ref = 1 ∧ (k.ftable f).type ≠ .none) := fun h₁ => by omega
    refine ⟨_, KState.fileclose_of_lt hlt, h.of_refs (fun g => ?_) (fun g => ?_) (fun g => ?_)
      (fun g => ?_), by simp [show (k.ftable f).ref ≠ 1 by omega], fun g hg => by simp [hg], rfl,
      rfl, by simp [hne]⟩ <;>
      by_cases hg : g = f <;> simp [hg, hpos]
    omega
  · have h1 : (k.ftable f).ref = 1 := by omega
    have hg' : ∀ g, g ≠ f → (fileDropped k f).ftable g = k.ftable g := fun g hg => by
      simp [fileDropped, hg]
    have hlive : ∀ g, (fileDropped k f).Live g → k.Live g := fun g hg =>
      ((fileDropped_live g).mp hg).2
    rw [KState.fileclose_of_one h1]
    cases htype : (k.ftable f).type with
    | none =>
        refine ⟨fileDropped k f, by simp [KState.releaseObj, htype, fileDropped], ⟨h.table.fileDropped,
          h.stamps.of_live hlive rfl rfl rfl, h.pipes.fileDropped (by simp [htype])⟩,
          by simp [fileDropped, h1], hg', rfl, rfl, by simp [fileDropped]⟩
    | pipe =>
        obtain ⟨k', hk', hinv, hft, hs, hn, hr⟩ := h.closeLastPipe h1 htype
        refine ⟨k', by simpa [KState.releaseObj, htype, fileDropped] using hk', hinv,
          by simp [hft, fileDropped, h1], fun g hg => by rw [hft, hg' g hg], hs, hn, by simp [hr, h1]⟩
    | inode | device =>
        refine ⟨(fileDropped k f).release f, by simp [KState.releaseObj, htype, fileDropped],
          ⟨h.table.fileDropped.congr rfl, h.stamps.release hf (fun g hg => (fileDropped_live g).mp hg)
            rfl rfl rfl, (h.pipes.fileDropped (by simp [htype])).of_ends (fun _ _ _ => Iff.rfl) rfl rfl
            rfl (Nat.le_refl _)⟩, by simp [KState.release, fileDropped, h1], hg', rfl, rfl,
          by simp [KState.release, fileDropped, h1]⟩
    | sock => exact absurd htype (h.table.no_sock f)

/-! ## What `sys_open` and `pipealloc` make of new files -/

/-- Giving a live file that is no pipe end a new record, with the same count,
that is no pipe and no socket, keeps the invariant: `sys_open` makes its new
file an inode or device file this way. -/
theorem KInv.retype (h : KInv k) (hf : k.Live f) (hold : (k.ftable f).type ≠ .pipe) {x : File}
    (href : x.ref = (k.ftable f).ref) (hpipe : x.type ≠ .pipe) (hsock : x.type ≠ .sock) :
    KInv { k with ftable := Function.update k.ftable f x } := by
  have hpos : 0 < (k.ftable f).ref := hf
  have hlive : ∀ g, KState.Live { k with ftable := Function.update k.ftable f x } g ↔ k.Live g := by
    intro g
    by_cases hg : g = f
    · subst hg
      simp [KState.Live, href]
    · simp [KState.Live, hg]
  have hend : ∀ g pi w, KState.PipeEnd { k with ftable := Function.update k.ftable f x } g pi w ↔
      k.PipeEnd g pi w := by
    intro g pi w
    by_cases hg : g = f
    · subst hg
      simp [KState.PipeEnd, hpipe, hold]
    · simp [KState.PipeEnd, KState.Live, hg]
  refine ⟨⟨fun g hg => ?_, fun g => ?_⟩, h.stamps.of_live (fun g => (hlive g).mp) rfl rfl rfl,
    h.pipes.of_ends hend rfl rfl rfl (Nat.le_refl _)⟩
  · by_cases hgf : g = f
    · subst hgf
      simp only [Function.update_self] at hg
      omega
    · simp only [Function.update_of_ne hgf] at hg ⊢
      exact h.table.none_of_free g hg
  · by_cases hgf : g = f
    · subst hgf
      simpa using hsock
    · simpa [Function.update_of_ne hgf] using h.table.no_sock g

section MakePipe

variable {f0 f1 : Fin NFILE} {pi : Nat} {rest : List Nat}

/-- `pipealloc` after taking two files and a page: the page becomes a pipe
with both ends open, numbered by its read end, and the two files its ends.
The number is above every pipe's and freed pipe's, as the read end is the
newest file. -/
theorem KInv.makePipe (h : KInv k) (hf0 : k.Live f0) (hf1 : k.Live f1) (hne : f0 ≠ f1)
    (hnone0 : (k.ftable f0).type = .none) (hnone1 : (k.ftable f1).type = .none)
    (hmem : k.kmem.freelist = pi :: rest)
    (hfresh : ∀ pj pq, k.pipes pj = some pq → pq.id < k.stamp f0)
    (hfresh' : ∀ x ∈ k.pipesFreed, x < k.stamp f0)
    (hft0 : k'.ftable f0 = { k.ftable f0 with
      type := .pipe, readable := true, writable := false, pipe := pi })
    (hft1 : k'.ftable f1 = { k.ftable f1 with
      type := .pipe, readable := false, writable := true, pipe := pi })
    (hft : ∀ g, g ≠ f0 → g ≠ f1 → k'.ftable g = k.ftable g)
    (hpipes : k'.pipes = Function.update k.pipes pi (some ⟨true, true, k.stamp f0⟩))
    (hfl : k'.kmem.freelist = rest) (hkend : k'.kmem.kend = k.kmem.kend)
    (hstamp : k'.stamp = k.stamp) (hn : k'.nstamps = k.nstamps) (hrel : k'.released = k.released)
    (hfreed : k'.pipesFreed = k.pipesFreed) : KInv k' := by
  have hpage : PageOk k.kmem.kend pi := k.kmem.valid pi (by simp [hmem])
  have hnd : (pi :: rest).Nodup := hmem ▸ h.pipes.free_nodup
  have hpi_none : k.pipes pi = none := h.pipes.free_nopipe pi (by simp [hmem])
  -- the files of `k'`, by case
  have hget : ∀ g, k'.ftable g = if g = f0 then { k.ftable f0 with
      type := .pipe, readable := true, writable := false, pipe := pi } else if g = f1 then
      { k.ftable f1 with type := .pipe, readable := false, writable := true, pipe := pi }
      else k.ftable g := by
    intro g
    by_cases hg0 : g = f0
    · subst hg0
      simp [hft0]
    · by_cases hg1 : g = f1
      · subst hg1
        simp [hft1, hg0]
      · simp [hft g hg0 hg1, hg0, hg1]
  have hlive : ∀ g, k'.Live g ↔ k.Live g := by
    intro g
    unfold KState.Live
    rw [hget]
    split_ifs with hg0 hg1
    · subst hg0
      exact Iff.rfl
    · subst hg1
      exact Iff.rfl
    · exact Iff.rfl
  -- the old ends are at pages other than `pi`; the two new ones at `pi`
  have hold_ne : ∀ g pj w, k.PipeEnd g pj w → pj ≠ pi := fun g pj w hg e => by
    obtain ⟨pq, hq⟩ := h.pipes.pipe_cell g pj w hg
    rw [e, hpi_none] at hq
    cases hq
  have hend : ∀ g pj w, k'.PipeEnd g pj w ↔
      (k.PipeEnd g pj w ∨ (g = f0 ∧ pj = pi ∧ w = false) ∨ (g = f1 ∧ pj = pi ∧ w = true)) := by
    intro g pj w
    unfold KState.PipeEnd
    rw [hlive, hget]
    split_ifs with hg0 hg1
    · subst hg0
      simp [hnone0, hf0, hne, eq_comm]
    · subst hg1
      simp [hnone1, hf1, Ne.symm hne, eq_comm]
    · simp [hg0, hg1]
  have hpipe_at : ∀ pj pq, k'.pipes pj = some pq →
      (pj = pi ∧ pq = ⟨true, true, k.stamp f0⟩) ∨ (pj ≠ pi ∧ k.pipes pj = some pq) := by
    intro pj pq hq
    rw [hpipes] at hq
    by_cases hpj : pj = pi
    · subst hpj
      simp only [Function.update_self, Option.some.injEq] at hq
      exact .inl ⟨rfl, hq.symm⟩
    · rw [Function.update_of_ne hpj] at hq
      exact .inr ⟨hpj, hq⟩
  refine ⟨⟨fun g hg => ?_, fun g => ?_⟩,
    h.stamps.of_live (fun g => (hlive g).mp) hstamp hn hrel, ⟨fun g pj w hg => ?_,
    fun g g' pj w hg hg' => ?_, fun pj pq w hq => ?_, fun pj pq hq => ?_, fun pj pq hq => ?_,
    fun pj pj' pq pq' hq hq' hid => ?_, fun pj pq hq => ?_, hn ▸ hfreed ▸ h.pipes.freed_lt,
    hfreed ▸ h.pipes.freed_nodup, hfl ▸ (List.nodup_cons.mp hnd).2, fun p hp => ?_⟩⟩
  · have : ¬ k'.Live g := by
      unfold KState.Live
      omega
    rw [hlive] at this
    have hg0 : g ≠ f0 := fun e => this (e ▸ hf0)
    have hg1 : g ≠ f1 := fun e => this (e ▸ hf1)
    rw [hft g hg0 hg1] at hg ⊢
    exact h.table.none_of_free g hg
  · rw [hget]
    split_ifs
    · simp
    · simp
    · exact h.table.no_sock g
  · rcases (hend g pj w).mp hg with hg | ⟨-, rfl, -⟩ | ⟨-, rfl, -⟩
    · obtain ⟨pq, hq⟩ := h.pipes.pipe_cell g pj w hg
      exact ⟨pq, by rw [hpipes, Function.update_of_ne (hold_ne g pj w hg), hq]⟩
    · exact ⟨_, by rw [hpipes, Function.update_self]⟩
    · exact ⟨_, by rw [hpipes, Function.update_self]⟩
  · -- an end of `pi` is the new file of its side; an end elsewhere is an old end
    have key : ∀ g, k'.PipeEnd g pj w →
        (k.PipeEnd g pj w ∧ pj ≠ pi) ∨ (pj = pi ∧ g = if w then f1 else f0) := by
      intro g hg
      rcases (hend g pj w).mp hg with hg | ⟨rfl, rfl, rfl⟩ | ⟨rfl, rfl, rfl⟩
      · exact .inl ⟨hg, hold_ne g pj w hg⟩
      · exact .inr ⟨rfl, rfl⟩
      · exact .inr ⟨rfl, rfl⟩
    rcases key g hg with ⟨hg, hpj⟩ | ⟨hpj, rfl⟩ <;>
      rcases key g' hg' with ⟨hg', hpj'⟩ | ⟨hpj', rfl⟩
    · exact h.pipes.end_unique g g' pj w hg hg'
    · exact absurd hpj' hpj
    · exact absurd hpj hpj'
    · rfl
  · rcases hpipe_at pj pq hq with ⟨rfl, rfl⟩ | ⟨hpj, hq⟩
    · -- the new pipe: both ends open, each with its file
      simp only [hend]
      cases w
      · exact ⟨fun _ => ⟨f0, by simp⟩, fun _ => rfl⟩
      · exact ⟨fun _ => ⟨f1, by simp⟩, fun _ => rfl⟩
    · simp only [hend, hpj, false_and, and_false, or_false]
      exact h.pipes.open_iff pj pq w hq
  · rcases hpipe_at pj pq hq with ⟨rfl, rfl⟩ | ⟨hpj, hq⟩
    · rw [hfl, hkend]
      exact ⟨hpage, (List.nodup_cons.mp hnd).1⟩
    · rw [hfl, hkend]
      refine ⟨(h.pipes.pipe_page pj pq hq).1, fun hr => (h.pipes.pipe_page pj pq hq).2 ?_⟩
      simp [hmem, hr]
  · rw [hn]
    rcases hpipe_at pj pq hq with ⟨rfl, rfl⟩ | ⟨-, hq⟩
    · exact h.stamps.stamp_lt f0 hf0
    · exact h.pipes.id_lt pj pq hq
  · rcases hpipe_at pj pq hq with ⟨rfl, rfl⟩ | ⟨hpj, hq⟩ <;>
      rcases hpipe_at pj' pq' hq' with ⟨rfl, rfl⟩ | ⟨hpj', hq'⟩
    · rfl
    · exact absurd hid (Nat.ne_of_gt (hfresh pj' pq' hq'))
    · exact absurd hid (Nat.ne_of_lt (hfresh pj pq hq))
    · exact h.pipes.id_inj pj pj' pq pq' hq hq' hid
  · rw [hfreed]
    rcases hpipe_at pj pq hq with ⟨rfl, rfl⟩ | ⟨-, hq⟩
    · exact fun hx => Nat.lt_irrefl _ (hfresh' _ hx)
    · exact h.pipes.id_unfreed pj pq hq
  · rw [hfl] at hp
    have hpi : p ≠ pi := fun e => (List.nodup_cons.mp hnd).1 (e ▸ hp)
    rw [hpipes, Function.update_of_ne hpi]
    exact h.pipes.free_nopipe p (by simp [hmem, hp])

end MakePipe

theorem fileTaken_live (g : Fin NFILE) : (fileTaken k f).Live g ↔ g = f ∨ k.Live g := by
  by_cases hg : g = f
  · simp [KState.Live, fileTaken_ftable, hg]
  · simp [KState.Live, fileTaken_ftable, hg]

/-- The file table at boot, over the free pages `km`: every file free, no
pipe and no socket, nothing numbered or released yet. -/
def KState.boot (km : Kmem) : KState where
  ftable := fun _ => ⟨.none, 0, false, false, 0, 0, 0⟩
  kmem := km
  socks := Sock.SockState.init
  pipes := fun _ => none
  stamp := fun _ => 0
  nstamps := 0
  released := []
  pipesFreed := []

theorem KInv.boot {km : Kmem} (h : km.freelist.Nodup) : KInv (KState.boot km) := by
  have hdead : ∀ f, ¬ (KState.boot km).Live f := fun f hf => by
    simp [KState.Live, KState.boot] at hf
  refine ⟨⟨fun f _ => rfl, fun f => by simp [KState.boot]⟩, ⟨fun f hf => absurd hf (hdead f),
    fun f _ hf => absurd hf (hdead f), by simp [KState.boot], List.nodup_nil,
    fun f hf => absurd hf (hdead f)⟩, ⟨fun f _ _ hf => absurd hf.1 (hdead f),
    fun f _ _ _ hf => absurd hf.1 (hdead f), ?_, ?_, ?_, ?_, ?_, by simp [KState.boot],
    List.nodup_nil, h, fun _ _ => rfl⟩⟩ <;> simp [KState.boot]

/-- One free page above a kernel image of `0x20000` bytes. -/
def bootMem : Kmem :=
  ⟨[PHYSTOP - Vm.PGSIZE], fun _ => 0, KERNBASE + 0x20000, by unfold KERNBASE; omega, by decide⟩

/-- Closing the one reference to a file that is still `FD_NONE`, as the
error paths do with a file `filealloc` just took: the slot is free again,
and nothing is released. -/
theorem KInv.closeNew (h : KInv k) (hf1 : (k.ftable f).ref = 1) (hnone : (k.ftable f).type = .none) :
    ∃ k', k.fileclose f = .ok k' ∧ KInv k' ∧
      k'.ftable = Function.update k.ftable f { k.ftable f with ref := 0 } ∧
      k'.released = k.released := by
  obtain ⟨k', hk', hinv, hf', hg', -, -, hrel⟩ := h.fileclose (f := f) (by unfold KState.Live; omega)
  refine ⟨k', hk', hinv, funext fun g => ?_, by simp [hrel, hnone]⟩
  by_cases hg : g = f
  · subst hg
    rw [hf', Function.update_self, hf1, if_pos rfl, ← hnone]
  · rw [hg' g hg, Function.update_of_ne hg]

/-- **`pipealloc` keeps the invariant.**  It makes a pipe of two free files
and a free page; or, short of files or of a page, it fails with every count
back as it was and nothing released. -/
theorem KInv.pipealloc (h : KInv k) :
    ∃ k', KInv k' ∧ k'.released = k.released ∧
      ((k.pipealloc = .ok (k', none) ∧ k'.ftable = k.ftable) ∨
        ∃ f0 f1, k.pipealloc = .ok (k', some (f0, f1)) ∧ f0 ≠ f1 ∧
          (k.ftable f0).ref = 0 ∧ (k.ftable f1).ref = 0 ∧
          ∀ g, (k'.ftable g).ref = if g = f0 ∨ g = f1 then 1 else (k.ftable g).ref) := by
  unfold KState.pipealloc
  cases hfa0 : k.filealloc with
  | none =>
      exact ⟨k, h, rfl, .inl ⟨by simp [KState.pipeallocBad, KState.closeOpt, bind, Except.bind,
        pure, Except.pure, Except.map], rfl⟩⟩
  | some r0 =>
      obtain ⟨f0, k1⟩ := r0
      obtain ⟨hf0, rfl⟩ := KState.filealloc_some hfa0
      have hnone0 := h.table.none_of_free f0 hf0
      have h1 := h.of_fileTaken hf0
      dsimp only
      cases hfa1 : (fileTaken k f0).filealloc with
      | none =>
          -- no second file: close the first
          obtain ⟨k', hk', hinv, hft, hrel⟩ := h1.closeNew (f := f0) (by simp [fileTaken_ftable])
            (by simp [fileTaken_ftable, hnone0])
          refine ⟨k', hinv, hrel, .inl ⟨?_, ?_⟩⟩
          · simp [KState.pipeallocBad, KState.closeOpt, hk', bind, Except.bind, pure, Except.pure,
              Except.map]
          · funext g
            by_cases hg : g = f0
            · subst hg
              simp [hft, fileTaken_ftable, ← hf0]
            · simp [hft, fileTaken_ftable, hg]
      | some r1 =>
          obtain ⟨f1, k2⟩ := r1
          obtain ⟨hf1, rfl⟩ := KState.filealloc_some hfa1
          have hne : f0 ≠ f1 := fun e => by
            rw [fileTaken_ftable, if_pos e.symm] at hf1
            cases hf1
          have hf1' : (k.ftable f1).ref = 0 := by
            rwa [fileTaken_ftable, if_neg (Ne.symm hne)] at hf1
          have hnone1 := h.table.none_of_free f1 hf1'
          have h2 := h1.of_fileTaken hf1
          dsimp only
          cases hmem : k.kmem.freelist with
          | nil =>
              -- no page: close both files
              rw [KState.kalloc_of_nil (k := fileTaken (fileTaken k f0) f1) hmem]
              simp only [if_true]
              obtain ⟨k₃, hk₃, hinv₃, hft₃, hrel₃⟩ := h2.closeNew (f := f0)
                (by simp [fileTaken_ftable, hne]) (by simp [fileTaken_ftable, hne, hnone0])
              obtain ⟨k₄, hk₄, hinv₄, hft₄, hrel₄⟩ := hinv₃.closeNew (f := f1)
                (by simp [hft₃, fileTaken_ftable, Ne.symm hne])
                (by simp [hft₃, fileTaken_ftable, Ne.symm hne, hnone1])
              refine ⟨k₄, hinv₄, by simp [hrel₄, hrel₃, fileTaken], .inl ⟨?_, ?_⟩⟩
              · simp [KState.pipeallocBad, KState.closeOpt, hk₃, hk₄, bind, Except.bind, pure,
                  Except.pure, Except.map]
              · funext g
                by_cases hg0 : g = f0
                · subst hg0
                  simp [hft₄, hft₃, fileTaken_ftable, hne, ← hf0]
                · by_cases hg1 : g = f1
                  · subst hg1
                    simp [hft₄, hft₃, fileTaken_ftable, hg0, ← hf1']
                  · simp [hft₄, hft₃, fileTaken_ftable, hg0, hg1]
          | cons pi rest =>
              obtain ⟨hpi, hrest, -, hkend⟩ := kalloc_of_cons hmem
              have hpi0 : pi ≠ 0 :=
                (pageOk_pos k.kmem.kend_ge (k.kmem.valid pi (by simp [hmem]))).ne'
              set k₂ := fileTaken (fileTaken k f0) f1 with hk₂
              have hk₂mem : k₂.kmem = k.kmem := rfl
              have hstamp0 : k₂.stamp f0 = k.nstamps := by simp [k₂, fileTaken, hne]
              simp only [KState.kalloc, hk₂mem, hpi, if_neg hpi0]
              have hlive : ∀ g, g = f0 ∨ g = f1 → k₂.Live g := fun g hg => by
                rw [hk₂, fileTaken_live, fileTaken_live]
                tauto
              refine ⟨_, ?_, ?_, .inr ⟨f0, f1, rfl, hne, hf0, hf1', fun g => ?_⟩⟩
              · refine h2.makePipe (hlive f0 (.inl rfl)) (hlive f1 (.inr rfl)) hne
                  (by simp [k₂, fileTaken_ftable, hne, hnone0])
                  (by simp [k₂, fileTaken_ftable, Ne.symm hne, hnone1]) (hk₂mem ▸ hmem)
                  (fun pj pq hq => hstamp0 ▸ h.pipes.id_lt pj pq hq)
                  (fun x hx => hstamp0 ▸ h.pipes.freed_lt x hx)
                  (by simp [Function.update_of_ne hne])
                  (by simp [Function.update_of_ne (Ne.symm hne)]) (fun g h0 h1 => by simp [h0, h1])
                  rfl hrest hkend rfl rfl rfl rfl
              · rfl
              · by_cases hg0 : g = f0
                · subst hg0
                  simp [k₂, fileTaken_ftable, hne]
                · by_cases hg1 : g = f1
                  · subst hg1
                    simp [k₂, fileTaken_ftable, hg0]
                  · simp [k₂, fileTaken_ftable, hg0, hg1]

end Kernel
end Xv6
