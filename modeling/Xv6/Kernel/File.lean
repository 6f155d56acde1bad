import Xv6.Kernel.Kalloc
import Xv6.Net.Socket

/-!
# Open files and the objects behind them

`struct file` and `ftable` of `kernel/file.h` and `kernel/file.c`, with what
`fileclose` releases when the last reference to a file goes: a pipe end
(`pipeclose` of `kernel/pipe.c`), an inode (`iput`), or a socket (`sockclose`
of `kernel/sysnet.c`).  Pipes and sockets live in pages from `kalloc`, and
`kfree` of a page destroys what was in it.

`sockclose` reads one thing that need not be a socket: `si->rxq.head`.  On a
page that holds no socket it reads the page's junk, and a junk head that is
not null makes `mbufq_pophead` load through an address past `MAXVA`, which
traps (`fillWord_ge`).

Ghost fields record the number of the `filealloc` that made each slot's
current file, the files whose object `fileclose` released, and the pipes
`pipeclose` freed.  The inode cache is not part of this state: `iput` is
recorded as a release only.
-/

namespace Xv6
namespace Kernel

/-- `NFILE`: open files per system. -/
def NFILE : Nat := 100

/-- The `type` of a `struct file`: `FD_NONE`, `FD_PIPE`, `FD_INODE`,
`FD_DEVICE`, `FD_SOCK`. -/
inductive FdType
  | none
  | pipe
  | inode
  | device
  | sock
  deriving DecidableEq, Repr

/-- The fields of `struct file` the modelled code uses; `pipe`, `ip` and
`sock` are pointers. -/
structure File where
  type : FdType
  ref : Nat
  readable : Bool
  writable : Bool
  pipe : Nat
  ip : Nat
  sock : Nat
  deriving DecidableEq, Repr

/-- `ftable.file` -/
abbrev FTable := Fin NFILE → File

/-- `filealloc()`: the first file with `ref == 0`, now with `ref = 1`. -/
def filealloc (ft : FTable) : Option (Fin NFILE × FTable) :=
  match (List.finRange NFILE).find? fun f => (ft f).ref == 0 with
  | none => none
  | some f => some (f, Function.update ft f { ft f with ref := 1 })

/-- `filedup(f)` -/
def filedup (ft : FTable) (f : Fin NFILE) : Except String FTable :=
  if (ft f).ref < 1 then .error "filedup"
  else .ok (Function.update ft f { ft f with ref := (ft f).ref + 1 })

/-- The part of `fileclose(f)` under `ftable.lock`: `--f->ref`, and on the
last reference `ff = *f; f->ref = 0; f->type = FD_NONE`, returning `ff`. -/
def fileDecref (ft : FTable) (f : Fin NFILE) : Except String (FTable × Option File) :=
  if (ft f).ref < 1 then .error "fileclose"
  else if (ft f).ref - 1 > 0 then
    .ok (Function.update ft f { ft f with ref := (ft f).ref - 1 }, none)
  else
    .ok (Function.update ft f { ft f with ref := 0, type := .none }, some { ft f with ref := 0 })

/-- `struct pipe`: the flags `pipeclose` reads, and (ghost) the number of the
`pipealloc` that made it. -/
structure Pipe where
  readopen : Bool
  writeopen : Bool
  id : Nat
  deriving DecidableEq, Repr

/-- The file table, the page allocator, the socket table and the pipes by
page; and the ghost records: each slot's allocation number, the number of
allocations so far, the files whose object was released, the pipes freed. -/
structure KState where
  ftable : FTable
  kmem : Kmem
  socks : Sock.SockState
  pipes : Nat → Option Pipe
  stamp : Fin NFILE → Nat
  nstamps : Nat
  released : List Nat
  pipesFreed : List Nat

/-- The state `filealloc` leaves when it takes file `f`: one reference,
numbered `nstamps`. -/
def fileTaken (k : KState) (f : Fin NFILE) : KState :=
  { k with ftable := Function.update k.ftable f { k.ftable f with ref := 1 },
           stamp := Function.update k.stamp f k.nstamps, nstamps := k.nstamps + 1 }

namespace KState

/-- `filealloc()`, numbering the new file. -/
def filealloc (k : KState) : Option (Fin NFILE × KState) :=
  match Kernel.filealloc k.ftable with
  | none => none
  | some (f, ft) =>
      some (f, { k with ftable := ft, stamp := Function.update k.stamp f k.nstamps,
                        nstamps := k.nstamps + 1 })

/-- `kalloc()` -/
def kalloc (k : KState) : KState × Nat :=
  ({ k with kmem := (Kernel.kalloc k.kmem).1 }, (Kernel.kalloc k.kmem).2)

/-- `kfree(pa)`: whatever pipe or socket was in the page is gone. -/
def kfree (k : KState) (pa : Nat) : Except String KState :=
  match Kernel.kfree k.kmem pa with
  | .error e => .error e
  | .ok km =>
      .ok { k with kmem := km,
                   socks := { k.socks with heap := Function.update k.socks.heap pa none },
                   pipes := Function.update k.pipes pa none }

/-- `kfree` of each page of a list, in order. -/
def kfreeAll (k : KState) : List Nat → Except String KState
  | [] => .ok k
  | p :: ps =>
      match k.kfree p with
      | .error e => .error e
      | .ok k => k.kfreeAll ps

/-- `pipeclose(pi, writable)`: close one end, and free the pipe when both
are closed.  A pointer to a page that holds no pipe is not followed: the
invariant of the file table rules it out. -/
def pipeclose (k : KState) (pi : Nat) (writable : Bool) : Except String KState :=
  match k.pipes pi with
  | none => .error "pipeclose"
  | some p =>
      let p := if writable then { p with writeopen := false } else { p with readopen := false }
      if !p.readopen && !p.writeopen then
        { k with pipes := Function.update k.pipes pi (some p),
                 pipesFreed := k.pipesFreed ++ [p.id] }.kfree pi
      else .ok { k with pipes := Function.update k.pipes pi (some p) }

/-- The queue `sockclose` pops from `si->rxq`: the socket's own, or on a
page with no socket the page's junk read as the head pointer, an empty
queue when it is null; any other junk head is past `MAXVA`, and
`mbufq_pophead`'s load of `head->next` faults. -/
def rxqOf (k : KState) (si : Nat) : Except String (List Nat) :=
  match k.socks.heap si with
  | some c => .ok c.rxq
  | none => if fillWord (k.kmem.fill si) = 0 then .ok [] else .error "kerneltrap"

/-- `sockclose(si)`: unlink the socket, `mbuffree` (that is, `kfree`) each
queued mbuf, and `kfree` the socket. -/
def sockclose (k : KState) (si : Nat) : Except String KState :=
  match k.rxqOf si with
  | .error e => .error e
  | .ok q =>
      match { k with socks := Sock.sockclose k.socks si }.kfreeAll q with
      | .error e => .error e
      | .ok k => k.kfree si

/-- Record that the object of file `f` was released. -/
def release (k : KState) (f : Fin NFILE) : KState :=
  { k with released := k.released ++ [k.stamp f] }

/-- The end of `fileclose(f)` once the last reference to `f` went: release
the object of its copy `ff` by its type. -/
def releaseObj (k : KState) (f : Fin NFILE) (ff : File) : Except String KState :=
  match ff.type with
  | .none => .ok k
  | .pipe => (k.release f).pipeclose ff.pipe ff.writable
  -- `begin_op(); iput(ff.ip); end_op();`
  | .inode | .device => .ok (k.release f)
  | .sock => (k.release f).sockclose ff.sock

/-- `fileclose(f)`: drop a reference, and on the last one release the
file's object. -/
def fileclose (k : KState) (f : Fin NFILE) : Except String KState :=
  match fileDecref k.ftable f with
  | .error e => .error e
  | .ok (ft, none) => .ok { k with ftable := ft }
  | .ok (ft, some ff) => { k with ftable := ft }.releaseObj f ff

/-- `if (f) fileclose(f)`, as the error paths write it. -/
def closeOpt (k : KState) : Option (Fin NFILE) → Except String KState
  | none => .ok k
  | some f => k.fileclose f

/-- The `bad:` label of `pipealloc`. -/
def pipeallocBad (k : KState) (f0 f1 : Option (Fin NFILE)) (pi : Nat) :
    Except String KState := do
  let k ← if pi = 0 then pure k else k.kfree pi
  let k ← k.closeOpt f0
  k.closeOpt f1

/-- `pipealloc(&f0, &f1)`: two files and a pipe page, or `-1` (`none`)
after releasing what was allocated. -/
def pipealloc (k : KState) : Except String (KState × Option (Fin NFILE × Fin NFILE)) :=
  match k.filealloc with
  | none => (pipeallocBad k none none 0).map (·, none)
  | some (f0, k) =>
      match k.filealloc with
      | none => (pipeallocBad k (some f0) none 0).map (·, none)
      | some (f1, k) =>
          let (k, pi) := k.kalloc
          if pi = 0 then (pipeallocBad k (some f0) (some f1) 0).map (·, none)
          else
            let ft := Function.update k.ftable f0
              { k.ftable f0 with type := .pipe, readable := true, writable := false, pipe := pi }
            let ft := Function.update ft f1
              { ft f1 with type := .pipe, readable := false, writable := true, pipe := pi }
            .ok ({ k with pipes := Function.update k.pipes pi (some ⟨true, true, k.stamp f0⟩),
                          ftable := ft }, some (f0, f1))

end KState

/-! ## The table -/

section Table

variable {ft ft' : FTable} {f : Fin NFILE}

theorem filealloc_eq_none_iff : filealloc ft = none ↔ ∀ f, (ft f).ref ≠ 0 := by
  unfold filealloc
  split
  · rename_i hfind
    simp only [true_iff]
    intro g hg
    have := List.find?_eq_none.mp hfind g (List.mem_finRange g)
    simp [hg] at this
  · rename_i g hfind
    simp only [reduceCtorEq, false_iff, not_forall, not_not]
    exact ⟨g, by simpa using List.find?_some hfind⟩

theorem filealloc_eq_some (h : filealloc ft = some (f, ft')) :
    (ft f).ref = 0 ∧ ft' = Function.update ft f { ft f with ref := 1 } := by
  unfold filealloc at h
  split at h
  · cases h
  · rename_i g hfind
    simp only [Option.some.injEq, Prod.mk.injEq] at h
    obtain ⟨rfl, rfl⟩ := h
    exact ⟨by simpa using List.find?_some hfind, rfl⟩

theorem fileDecref_of_zero (h : (ft f).ref = 0) : fileDecref ft f = .error "fileclose" := by
  simp [fileDecref, h]

theorem fileDecref_of_lt (h : 1 < (ft f).ref) :
    fileDecref ft f = .ok (Function.update ft f { ft f with ref := (ft f).ref - 1 }, none) := by
  rw [fileDecref, if_neg (by omega), if_pos (by omega)]

theorem fileDecref_of_one (h : (ft f).ref = 1) :
    fileDecref ft f = .ok (Function.update ft f { ft f with ref := 0, type := .none },
      some { ft f with ref := 0 }) := by
  rw [fileDecref, if_neg (by omega), if_neg (by omega)]

end Table

/-! ## Allocation, freeing and closing -/

namespace KState

variable {k : KState} {f : Fin NFILE}

/-- With a free file, `filealloc` takes one, numbered `nstamps`. -/
theorem filealloc_of_free (h : ∃ g, (k.ftable g).ref = 0) :
    ∃ f, (k.ftable f).ref = 0 ∧ k.filealloc = some (f, fileTaken k f) := by
  cases hfa : Kernel.filealloc k.ftable with
  | none =>
      obtain ⟨g, hg⟩ := h
      exact absurd hg (filealloc_eq_none_iff.1 hfa g)
  | some r =>
      obtain ⟨f, ft⟩ := r
      obtain ⟨hf, rfl⟩ := filealloc_eq_some hfa
      exact ⟨f, hf, by simp [filealloc, hfa, fileTaken]⟩

theorem filealloc_some {k' : KState} (h : k.filealloc = some (f, k')) :
    (k.ftable f).ref = 0 ∧ k' = fileTaken k f := by
  unfold filealloc at h
  split at h
  · cases h
  · rename_i f' ft hfa
    simp only [Option.some.injEq, Prod.mk.injEq] at h
    obtain ⟨rfl, rfl⟩ := h
    obtain ⟨hf, rfl⟩ := filealloc_eq_some hfa
    exact ⟨hf, rfl⟩

theorem filealloc_of_full (h : ∀ g, (k.ftable g).ref ≠ 0) : k.filealloc = none := by
  simp [filealloc, filealloc_eq_none_iff.2 h]

theorem kalloc_of_nil (h : k.kmem.freelist = []) : k.kalloc = (k, 0) := by
  simp [kalloc, Kernel.kalloc_of_nil h]

theorem kfree_eq {km : Kmem} {pa : Nat} (h : Kernel.kfree k.kmem pa = .ok km) :
    k.kfree pa = .ok { k with
      kmem := km
      socks := { k.socks with heap := Function.update k.socks.heap pa none }
      pipes := Function.update k.pipes pa none } := by
  rw [kfree, h]

/-- A page that holds no socket and was last filled with a byte other than
`0` makes `sockclose` trap. -/
theorem sockclose_junk {si : Nat} (hs : k.socks.heap si = none) (hb : k.kmem.fill si ≠ 0) :
    k.sockclose si = .error "kerneltrap" := by
  have hw : fillWord (k.kmem.fill si) ≠ 0 := by
    have := fillWord_ge hb
    unfold MAXVA at this
    omega
  simp [sockclose, rxqOf, hs, hw]

theorem fileclose_of_lt (h : 1 < (k.ftable f).ref) :
    k.fileclose f = .ok { k with
      ftable := Function.update k.ftable f { k.ftable f with ref := (k.ftable f).ref - 1 } } := by
  rw [fileclose, fileDecref_of_lt h]

theorem fileclose_of_one (h : (k.ftable f).ref = 1) :
    k.fileclose f = releaseObj
      { k with ftable := Function.update k.ftable f { k.ftable f with ref := 0, type := .none } }
      f { k.ftable f with ref := 0 } := by
  rw [fileclose, fileDecref_of_one h]

theorem releaseObj_none {ff : File} (h : ff.type = .none) : k.releaseObj f ff = .ok k := by
  simp [releaseObj, h]

theorem releaseObj_sock {ff : File} (h : ff.type = .sock) :
    k.releaseObj f ff = (k.release f).sockclose ff.sock := by
  simp [releaseObj, h]

end KState

end Kernel
end Xv6
