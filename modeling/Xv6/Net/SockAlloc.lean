import Xv6.Kernel.File

/-!
# `sockalloc` with the file table and the page allocator

`sockalloc` of `kernel/sysnet.c` as the kernel runs it: `filealloc`, then
`kalloc` of the socket, then the socket list under its lock.  Every failure
jumps to `bad:`, which frees the socket page if there is one and closes the
file if there is one.  `Sock.sockalloc` is the list part alone, and on
success this one does to the socket table exactly what that one does
(`sockalloc_links`).

When the list already has a socket for the addresses, the file was made
`FD_SOCK` and pointed at the new socket before the jump.  So `bad:` frees the
socket page and then `fileclose` calls `sockclose` on it, which reads the
queue head from the junk `kfree` wrote and traps
(`sockalloc_duplicate_traps`).  The two other failures, no free file and no
free page, leave the table, the sockets and the free list as they were
(`sockalloc_fails_atomically`).
-/

namespace Xv6

namespace Sock

/-- Writing a cell that is not allocated does not change the scan. -/
theorem SockInv.findSock_update {s : SockState} {L : List Nat} (hs : SockInv s L) {a : Nat}
    (ha : s.heap a = none) (c : Sock) (raddr : UInt32) (lport rport : UInt16) :
    findSock { s with heap := Function.update s.heap a (some c) } raddr lport rport =
      findSock s raddr lport rport := by
  have haL : a ∉ L := fun h => by simpa [ha] using (hs.live a).mpr h
  have hsame : ∀ b ∈ L, Function.update s.heap a (some c) b = s.heap b := fun b hb =>
    Function.update_of_ne (fun (e : b = a) => haL (e ▸ hb)) _ _
  have hchain : Heap.Chain Sock.next (Function.update s.heap a (some c)) s.sockets L :=
    hs.chain.frame fun b hb => by rw [hsame b hb]
  rw [hs.findSock_eq, findSock, Heap.find_chain _ hchain hs.len_le]
  exact List.find?_congr fun b hb => by rw [hsame b hb]

end Sock

namespace Kernel

open Sock

/-- The `bad:` label of `sockalloc`. -/
def sockallocBad (k : KState) (f : Option (Fin NFILE)) (si : Nat) :
    Except String (KState × Int) := do
  let k ← if si = 0 then pure k else k.kfree si
  let k ← k.closeOpt f
  pure (k, -1)

/-- What `sockalloc` writes before it takes the list lock: the socket `si`,
whose `next` still holds the junk `kalloc` wrote, and the file `f`
pointing at it. -/
def sockInit (k : KState) (f : Fin NFILE) (si : Nat) (raddr : UInt32) (lport rport : UInt16) :
    KState :=
  { k with
    socks := { k.socks with
      heap := Function.update k.socks.heap si (some ⟨fillWord (k.kmem.fill si), raddr, lport, rport, []⟩) }
    ftable := Function.update k.ftable f
      { k.ftable f with type := .sock, readable := true, writable := true, sock := si } }

/-- The part of `sockalloc` under the list lock: a socket for the same
addresses sends it to `bad:`, else `si` goes on the front of the list. -/
def sockLink (k : KState) (f : Fin NFILE) (si : Nat) (raddr : UInt32) (lport rport : UInt16) :
    Except String (KState × Int) :=
  match findSock k.socks raddr lport rport with
  | some _ => sockallocBad k (some f) si
  | none =>
      .ok ({ k with socks := { k.socks with
              heap := Function.update k.socks.heap si
                ((k.socks.heap si).map fun c => { c with next := k.socks.sockets })
              sockets := si
              allocs := k.socks.allocs + 1 } }, 0)

/-- `sockalloc(&f, raddr, lport, rport)` and its return value; the file it
leaves in `*f` is read only by `sys_connect`. -/
def sockalloc (k : KState) (raddr : UInt32) (lport rport : UInt16) :
    Except String (KState × Int) :=
  match k.filealloc with
  | none => sockallocBad k none 0
  | some (f, k) =>
      let (k, si) := k.kalloc
      if si = 0 then sockallocBad k (some f) 0
      else sockLink (sockInit k f si raddr lport rport) f si raddr lport rport

/-- What `sockalloc` relies on: the socket table's invariant, a free list
without repeats whose pages hold no socket, and `FD_NONE` for every file
with no reference. -/
structure SockallocInv (k : KState) (L : List Nat) : Prop where
  table : SockInv k.socks L
  nodup : k.kmem.freelist.Nodup
  free_empty : ∀ p ∈ k.kmem.freelist, k.socks.heap p = none
  none_of_free : ∀ f, (k.ftable f).ref = 0 → (k.ftable f).type = .none

section Calls

variable {k : KState} {raddr : UInt32} {lport rport : UInt16}

theorem sockalloc_of_full (h : ∀ g, (k.ftable g).ref ≠ 0) :
    sockalloc k raddr lport rport = .ok (k, -1) := by
  simp [sockalloc, KState.filealloc_of_full h, sockallocBad, KState.closeOpt, bind,
    Except.bind, pure, Except.pure]

/-- With a file `f` and a page `si`, `sockalloc` initializes both and takes
the list lock. -/
theorem sockalloc_of_page {f : Fin NFILE} {k₁ k₂ : KState} {si : Nat}
    (hfa : k.filealloc = some (f, k₁)) (hka : k₁.kalloc = (k₂, si)) (hsi : si ≠ 0) :
    sockalloc k raddr lport rport = sockLink (sockInit k₂ f si raddr lport rport) f si raddr lport
      rport := by
  simp only [sockalloc, hfa, hka, hsi, if_false]

/-- `bad:` with a socket page and its `FD_SOCK` file of one reference traps:
`kfree` fills the page with `1`, and `fileclose` hands it to `sockclose`. -/
theorem sockallocBad_traps {f : Fin NFILE} {si : Nat} (hsi : PageOk k.kmem.kend si)
    (href : (k.ftable f).ref = 1) (htype : (k.ftable f).type = .sock)
    (hsock : (k.ftable f).sock = si) :
    sockallocBad k (some f) si = .error "kerneltrap" := by
  have hsi0 : si ≠ 0 := (pageOk_pos k.kmem.kend_ge hsi).ne'
  obtain ⟨km, hkm, -, hfill, -⟩ := kfree_of_ok hsi
  -- the state after `kfree(si)`: the file table is untouched
  set k' : KState := { k with
      kmem := km
      socks := { k.socks with heap := Function.update k.socks.heap si none }
      pipes := Function.update k.pipes si none } with hk'
  have hf' : k'.ftable f = k.ftable f := rfl
  have hclose : k'.fileclose f = .error "kerneltrap" := by
    rw [KState.fileclose_of_one (hf' ▸ href), KState.releaseObj_sock (hf' ▸ htype), hf', hsock]
    refine KState.sockclose_junk (by simp [k', KState.release]) ?_
    simp [k', KState.release, hfill]
  simp [sockallocBad, hsi0, KState.kfree_eq hkm, KState.closeOpt, ← hk', hclose, bind,
    Except.bind]

variable {L : List Nat}

/-- On a free page `si` the new socket's cell is not on the list, so the
scan under the lock sees the list as it was. -/
theorem findSock_sockInit (hinv : SockallocInv k L) {si : Nat} {rest : List Nat}
    (hmem : k.kmem.freelist = si :: rest) (f : Fin NFILE) (k₂ : KState) (hk₂ : k₂.socks = k.socks)
    (raddr : UInt32) (lport rport : UInt16) :
    findSock (sockInit k₂ f si raddr lport rport).socks raddr lport rport =
      findSock k.socks raddr lport rport := by
  have hfree : k.socks.heap si = none := hinv.free_empty si (by simp [hmem])
  simp only [sockInit, hk₂]
  exact hinv.table.findSock_update hfree _ raddr lport rport

/-- With a file and a page, `sockalloc` takes the first free page. -/
theorem sockalloc_of_cons (hfree : ∃ g, (k.ftable g).ref = 0) {si : Nat} {rest : List Nat}
    (hmem : k.kmem.freelist = si :: rest) (raddr : UInt32) (lport rport : UInt16) :
    ∃ f, (k.ftable f).ref = 0 ∧ si ≠ 0 ∧
      sockalloc k raddr lport rport =
        sockLink (sockInit { fileTaken k f with kmem := (Kernel.kalloc k.kmem).1 } f si raddr
          lport rport) f si raddr lport rport := by
  obtain ⟨f, hf, hfa⟩ := KState.filealloc_of_free hfree
  obtain ⟨hsi, -⟩ := kalloc_of_cons hmem
  have hsi0 : si ≠ 0 := (pageOk_pos k.kmem.kend_ge (k.kmem.valid si (by simp [hmem]))).ne'
  refine ⟨f, hf, hsi0, sockalloc_of_page hfa ?_ hsi0⟩
  simp only [KState.kalloc, fileTaken, hsi]

/-- **A duplicate traps.**  With a free file and a free page, and a socket
for the same addresses on the list, `sockalloc` never returns: `bad:` frees
the new socket and `fileclose` of its file calls `sockclose` on the freed
page, which traps. -/
theorem sockalloc_duplicate_traps (hinv : SockallocInv k L) (hfree : ∃ g, (k.ftable g).ref = 0)
    (hmem : k.kmem.freelist ≠ []) {a : Nat} (ha : a ∈ L)
    (hk : k.socks.keyAt a = some (raddr, lport, rport)) :
    sockalloc k raddr lport rport = .error "kerneltrap" := by
  obtain ⟨si, rest, hcons⟩ := List.exists_cons_of_ne_nil hmem
  obtain ⟨f, -, -, heq⟩ := sockalloc_of_cons hfree hcons raddr lport rport
  obtain ⟨-, -, -, hkend⟩ := kalloc_of_cons hcons
  have hfind := findSock_sockInit hinv hcons f
    { fileTaken k f with kmem := (Kernel.kalloc k.kmem).1 } rfl raddr lport rport
  rw [heq, sockLink, hfind, hinv.table.findSock_some ha hk]
  refine sockallocBad_traps ?_ (by simp [sockInit, fileTaken]) (by simp [sockInit])
    (by simp [sockInit])
  simpa [sockInit, hkend] using k.kmem.valid si (by simp [hcons])

/-- With no free page, `bad:` closes the file it took, which has no object
yet: `sockalloc` returns `-1` with the table, the sockets and the allocator
as they were. -/
theorem sockalloc_of_no_page (hinv : SockallocInv k L) (hfree : ∃ g, (k.ftable g).ref = 0)
    (hmem : k.kmem.freelist = []) :
    ∃ k', sockalloc k raddr lport rport = .ok (k', -1) ∧ k'.ftable = k.ftable ∧
      k'.socks = k.socks ∧ k'.kmem = k.kmem := by
  obtain ⟨f, hf, hfa⟩ := KState.filealloc_of_free hfree
  have hnone := hinv.none_of_free f hf
  have hka : (fileTaken k f).kalloc = (fileTaken k f, 0) := KState.kalloc_of_nil hmem
  have hclose : (fileTaken k f).fileclose f = .ok { fileTaken k f with
      ftable := Function.update k.ftable f { k.ftable f with ref := 0, type := .none } } := by
    rw [KState.fileclose_of_one (by simp [fileTaken]),
      KState.releaseObj_none (by simp [fileTaken, hnone])]
    simp [fileTaken]
  refine ⟨{ fileTaken k f with
      ftable := Function.update k.ftable f { k.ftable f with ref := 0, type := .none } },
    ?_, ?_, rfl, rfl⟩
  · simp [sockalloc, hfa, hka, sockallocBad, KState.closeOpt, hclose, bind, Except.bind, pure,
      Except.pure]
  · -- the slot goes back to `ref = 0` and `FD_NONE`, which it had
    funext g
    by_cases hg : g = f
    · subst hg
      simp [← hf, ← hnone]
    · simp [Function.update_of_ne hg]

/-- **A new socket.**  With a free file and a free page `si`, and no socket
for the addresses, `sockalloc` returns `0` having done to the socket table
what `Sock.sockalloc` does with the cell `si`, taken the page off the free
list, and made the file an `FD_SOCK` file of `si` with one reference. -/
theorem sockalloc_links (hinv : SockallocInv k L) (hfree : ∃ g, (k.ftable g).ref = 0)
    {si : Nat} {rest : List Nat} (hmem : k.kmem.freelist = si :: rest)
    (hnew : ∀ a ∈ L, k.socks.keyAt a ≠ some (raddr, lport, rport)) :
    ∃ f k', (k.ftable f).ref = 0 ∧ sockalloc k raddr lport rport = .ok (k', 0) ∧
      k'.socks = (Sock.sockalloc k.socks si raddr lport rport).1 ∧ k'.kmem.freelist = rest ∧
      k'.ftable = Function.update k.ftable f { k.ftable f with
        ref := 1, type := .sock, readable := true, writable := true, sock := si } := by
  obtain ⟨f, hf, hsi0, heq⟩ := sockalloc_of_cons hfree hmem raddr lport rport
  obtain ⟨-, hrest, -⟩ := kalloc_of_cons hmem
  have hfind := findSock_sockInit hinv hmem f
    { fileTaken k f with kmem := (Kernel.kalloc k.kmem).1 } rfl raddr lport rport
  have hnone := hinv.table.findSock_none hnew
  rw [heq, sockLink, hfind, hnone]
  refine ⟨f, _, hf, rfl, ?_, hrest, ?_⟩
  · simp [Sock.sockalloc, hsi0, hnone, sockInit, fileTaken]
  · simp [sockInit, fileTaken]

/-- A new socket keeps the invariant. -/
theorem SockallocInv.link (hinv : SockallocInv k L) {si : Nat} {rest : List Nat}
    (hmem : k.kmem.freelist = si :: rest) {f : Fin NFILE} {k' : KState}
    (hsocks : k'.socks = (Sock.sockalloc k.socks si raddr lport rport).1)
    (hkm : k'.kmem.freelist = rest)
    (hft : k'.ftable = Function.update k.ftable f { k.ftable f with
        ref := 1, type := .sock, readable := true, writable := true, sock := si }) :
    ∃ L', SockallocInv k' L' := by
  have hnd : (si :: rest).Nodup := hmem ▸ hinv.nodup
  have hsi_free : k.socks.heap si = none := hinv.free_empty si (by simp [hmem])
  obtain ⟨L', hL'⟩ := hinv.table.sockalloc (.inr hsi_free) raddr lport rport
  refine ⟨L', ⟨hsocks ▸ hL', hkm ▸ (List.nodup_cons.mp hnd).2, ?_, ?_⟩⟩
  · -- the other free pages are still empty: `sockalloc` wrote only `si`
    intro p hp
    rw [hkm] at hp
    have hps : p ≠ si := fun e => (List.nodup_cons.mp hnd).1 (e ▸ hp)
    have hempty := hinv.free_empty p (by simp [hmem, hp])
    unfold Sock.sockalloc at hsocks
    split at hsocks
    · rw [hsocks, hempty]
    · split at hsocks <;> simp [hsocks, Function.update_of_ne hps, hempty]
  · intro g hg
    by_cases hgf : g = f
    · subst hgf
      simp [hft] at hg
    · rw [hft, Function.update_of_ne hgf] at hg ⊢
      exact hinv.none_of_free g hg

/-- **The failures before the list are atomic.**  When `sockalloc` returns
`-1`, the file table, the socket table and the free list are as they were:
only no free file and no free page make it return, since a duplicate traps
(`sockalloc_duplicate_traps`). -/
theorem sockalloc_fails_atomically (hinv : SockallocInv k L) {k' : KState}
    (h : sockalloc k raddr lport rport = .ok (k', -1)) :
    k'.ftable = k.ftable ∧ k'.socks = k.socks ∧ k'.kmem.freelist = k.kmem.freelist := by
  by_cases hfree : ∃ g, (k.ftable g).ref = 0
  · cases hmem : k.kmem.freelist with
    | nil =>
        obtain ⟨k'', h'', hft, hso, hkm⟩ := sockalloc_of_no_page hinv hfree hmem
        rw [h''] at h
        cases h
        exact ⟨hft, hso, by rw [hkm, hmem]⟩
    | cons si rest =>
        by_cases hdup : ∃ a ∈ L, k.socks.keyAt a = some (raddr, lport, rport)
        · obtain ⟨a, ha, hk⟩ := hdup
          rw [sockalloc_duplicate_traps hinv hfree (by simp [hmem]) ha hk] at h
          cases h
        · push Not at hdup
          obtain ⟨f, k'', -, h'', -⟩ := sockalloc_links hinv hfree hmem hdup
          rw [h''] at h
          simp at h
  · push Not at hfree
    rw [sockalloc_of_full hfree] at h
    cases h
    exact ⟨rfl, rfl, rfl⟩

end Calls

theorem bootK_kend_ge : KERNBASE ≤ KERNBASE + 0x20000 := by
  unfold KERNBASE
  omega

theorem bootK_pages_ok :
    ∀ p ∈ [PHYSTOP - Vm.PGSIZE, PHYSTOP - 2 * Vm.PGSIZE], PageOk (KERNBASE + 0x20000) p := by
  decide

/-- A kernel with its two top pages of RAM free, no file open and no
socket; its image ends 128 KiB above `KERNBASE`. -/
def bootK : KState where
  ftable := fun _ => ⟨.none, 0, false, false, 0, 0, 0⟩
  kmem := ⟨[PHYSTOP - Vm.PGSIZE, PHYSTOP - 2 * Vm.PGSIZE], fun _ => 0, KERNBASE + 0x20000,
    bootK_kend_ge, bootK_pages_ok⟩
  socks := SockState.init
  pipes := fun _ => none
  stamp := fun _ => 0
  nstamps := 0
  released := []
  pipesFreed := []

theorem sockallocInv_bootK : SockallocInv bootK [] where
  table := sockInv_init
  nodup := by decide
  free_empty := by simp [bootK, SockState.init]
  none_of_free := by simp [bootK]

/-- Two `connect`s to the same addresses from `bootK`: the first makes the
socket, and the second traps in `sockclose` of the socket `bad:` freed. -/
theorem sockalloc_twice_traps :
    ∃ k₁, sockalloc bootK 1 2 3 = .ok (k₁, 0) ∧ sockalloc k₁ 1 2 3 = .error "kerneltrap" := by
  have hmem : bootK.kmem.freelist = (PHYSTOP - Vm.PGSIZE) :: [PHYSTOP - 2 * Vm.PGSIZE] := rfl
  obtain ⟨f, k₁, -, h₁, hsocks, hkm, hft⟩ :=
    sockalloc_links sockallocInv_bootK ⟨⟨0, by decide⟩, rfl⟩ hmem (by simp)
  obtain ⟨L₁, hinv₁⟩ := SockallocInv.link sockallocInv_bootK hmem hsocks hkm hft
  have hcell : k₁.socks.heap (PHYSTOP - Vm.PGSIZE) = some ⟨0, 1, 2, 3, []⟩ := by
    rw [hsocks]
    rfl
  -- a second file is free: `sockalloc` took only `f`
  have hfree : ∃ g, (k₁.ftable g).ref = 0 := by
    by_cases hf0 : f = ⟨0, by decide⟩
    · exact ⟨⟨1, by decide⟩, by rw [hft, Function.update_of_ne (by rw [hf0]; decide)]; rfl⟩
    · exact ⟨⟨0, by decide⟩, by rw [hft, Function.update_of_ne (Ne.symm hf0)]; rfl⟩
  refine ⟨k₁, h₁, sockalloc_duplicate_traps (a := PHYSTOP - Vm.PGSIZE) hinv₁ hfree
    (by simp [hkm]) ?_ ?_⟩
  · exact (hinv₁.table.live _).mp (by simp [hcell])
  · simp [SockState.keyAt, hcell, Sock.key]

end Kernel
end Xv6
