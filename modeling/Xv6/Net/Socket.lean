import Xv6.Support.Chain
import Xv6.Support.System

/-!
# The socket table

`sockalloc`, `sockclose` and `sockrecvudp` of `kernel/sysnet.c` over a heap
of `struct sock` cells linked from `sockets`.  Each runs its list part under
the table lock, so each is one step here.  `sockalloc`'s duplicate scan and
`sockrecvudp`'s search are the `Heap.find` scan; `sockclose` walks a pointer
to a link (`struct sock **pos`), which is a `Link` here: the variable
`sockets` or the `next` field of a cell.

The scans are bounded by the number of sockets ever allocated; the invariant
shows the bound always covers the list, so no scan stops early.  `kalloc`
is the address given with the event: `0` when it fails, else a cell that is
not allocated.
-/

namespace Xv6
namespace Sock

/-- The fields of `struct sock` that the table code uses; the queue `rxq`
lists its mbufs from head to tail. -/
structure Sock where
  next : Nat
  raddr : UInt32
  lport : UInt16
  rport : UInt16
  rxq : List Nat

/-- The heap of socket cells, the list head `sockets`, and ghost records:
the successful `sockalloc` calls, every `mbuffree`, and every `wakeup` of a
socket's queue. -/
structure SockState where
  heap : Nat → Option Sock
  sockets : Nat
  allocs : Nat
  freed : List Nat
  woken : List Nat

/-- No socket after boot. -/
def SockState.init : SockState :=
  { heap := fun _ => none, sockets := 0, allocs := 0, freed := [], woken := [] }

/-- The addresses a socket is for. -/
def Sock.key (si : Sock) : UInt32 × UInt16 × UInt16 := (si.raddr, si.lport, si.rport)

/-- The test of both scans: `si->raddr == raddr && si->lport == lport &&
si->rport == rport`. -/
def Sock.matches (raddr : UInt32) (lport rport : UInt16) (si : Sock) : Bool :=
  si.raddr == raddr && si.lport == lport && si.rport == rport

/-- The scan of the list for a socket with these addresses. -/
def findSock (s : SockState) (raddr : UInt32) (lport rport : UInt16) : Option Nat :=
  Heap.find Sock.next s.heap (Sock.matches raddr lport rport) s.allocs s.sockets

/-- `sockalloc` with the cell `kalloc` returned (`0` if it failed), and its
return value.  The new cell is written when it is linked: until then no
other code can reach it, and on a duplicate it is freed again. -/
def sockalloc (s : SockState) (a : Nat) (raddr : UInt32) (lport rport : UInt16) :
    SockState × Int :=
  if a = 0 then (s, -1)
  else
    match findSock s raddr lport rport with
    | some _ => (s, -1)
    | none =>
        ({ s with heap := Function.update s.heap a (some ⟨s.sockets, raddr, lport, rport, []⟩),
                  sockets := a, allocs := s.allocs + 1 }, 0)

/-- A pointer to a link: `&sockets` or `&p->next`. -/
inductive Link
  | head
  | next (p : Nat)
  deriving DecidableEq, Repr

/-- `*pos`. -/
def SockState.read (s : SockState) : Link → Nat
  | .head => s.sockets
  | .next p => ((s.heap p).map Sock.next).getD 0

/-- `*pos = v`. -/
def SockState.write (s : SockState) : Link → Nat → SockState
  | .head, v => { s with sockets := v }
  | .next p, v => { s with heap := Function.update s.heap p ((s.heap p).map fun c => { c with next := v }) }

/-- `sockclose`'s walk: `while (*pos) { if (*pos == si) { *pos = si->next;
break; } pos = &(*pos)->next; }`, for at most `fuel` cells. -/
def unlinkSock (si : Nat) : Nat → Link → SockState → SockState
  | 0, _, s => s
  | fuel + 1, pos, s =>
      if s.read pos = 0 then s
      else if s.read pos = si then s.write pos (s.read (.next si))
      else unlinkSock si fuel (.next (s.read pos)) s

/-- `sockclose(si)`: unlink the socket, free its queued mbufs, free it. -/
def sockclose (s : SockState) (si : Nat) : SockState :=
  let s := unlinkSock si s.allocs .head s
  { s with freed := s.freed ++ ((s.heap si).map Sock.rxq).getD [],
           heap := Function.update s.heap si none }

/-- `sockrecvudp(m, raddr, lport, rport)`: queue `m` on the matching socket
and wake its reader, or free `m`. -/
def sockrecvudp (s : SockState) (m : Nat) (raddr : UInt32) (lport rport : UInt16) :
    SockState :=
  match findSock s raddr lport rport with
  | none => { s with freed := s.freed ++ [m] }
  | some si =>
      { s with heap := Function.update s.heap si
                 ((s.heap si).map fun c => { c with rxq := c.rxq ++ [m] }),
               woken := s.woken ++ [si] }

/-- The calls on the table. -/
inductive SockEv
  /-- `sockalloc`, with the cell `kalloc` returns -/
  | alloc (a : Nat) (raddr : UInt32) (lport rport : UInt16)
  /-- `sockclose` of an open socket -/
  | close (si : Nat)
  /-- `sockrecvudp` of mbuf `m` -/
  | recv (m : Nat) (raddr : UInt32) (lport rport : UInt16)
  deriving DecidableEq, Repr

/-- The step: `kalloc` returns `0` or a free cell, and only an open socket
is closed. -/
def sockStep (s : SockState) : SockEv → Option SockState
  | .alloc a raddr lport rport =>
      if a = 0 ∨ s.heap a = none then some (sockalloc s a raddr lport rport).1 else none
  | .close si => if (s.heap si).isSome then some (sockclose s si) else none
  | .recv m raddr lport rport => some (sockrecvudp s m raddr lport rport)

/-- The socket table from boot. -/
def sockSystem : System SockState SockEv := ⟨SockState.init, sockStep⟩

/-- The addresses of the socket at `a`, if it is allocated. -/
def SockState.keyAt (s : SockState) (a : Nat) : Option (UInt32 × UInt16 × UInt16) :=
  (s.heap a).map Sock.key

/-- The invariant of the table, with the list of sockets it holds. -/
structure SockInv (s : SockState) (L : List Nat) : Prop where
  chain : Heap.Chain Sock.next s.heap s.sockets L
  live : ∀ a, (s.heap a).isSome ↔ a ∈ L
  len_le : L.length ≤ s.allocs
  unique : ∀ a ∈ L, ∀ b ∈ L, s.keyAt a = s.keyAt b → a = b

/-! ## The scans -/

theorem matches_iff {raddr : UInt32} {lport rport : UInt16} {c : Sock} :
    Sock.matches raddr lport rport c = true ↔ c.key = (raddr, lport, rport) := by
  simp [Sock.matches, Sock.key, and_assoc]

theorem any_matches_iff {s : SockState} {a : Nat} {raddr : UInt32} {lport rport : UInt16} :
    (s.heap a).any (Sock.matches raddr lport rport) = true ↔
      s.keyAt a = some (raddr, lport, rport) := by
  cases h : s.heap a <;> simp [SockState.keyAt, h, matches_iff]

section Inv

variable {s : SockState} {L : List Nat}

theorem SockInv.findSock_eq (hs : SockInv s L) (raddr : UInt32) (lport rport : UInt16) :
    findSock s raddr lport rport =
      L.find? fun a => (s.heap a).any (Sock.matches raddr lport rport) :=
  Heap.find_chain _ hs.chain hs.len_le

/-- With no socket for these addresses the scan finds none. -/
theorem SockInv.findSock_none (hs : SockInv s L) {raddr : UInt32} {lport rport : UInt16}
    (h : ∀ a ∈ L, s.keyAt a ≠ some (raddr, lport, rport)) :
    findSock s raddr lport rport = none := by
  rw [hs.findSock_eq, List.find?_eq_none]
  intro a ha hm
  exact h a ha (any_matches_iff.1 hm)

/-- The scan finds the socket for these addresses, which is unique. -/
theorem SockInv.findSock_some (hs : SockInv s L) {a : Nat} (ha : a ∈ L)
    {raddr : UInt32} {lport rport : UInt16} (hk : s.keyAt a = some (raddr, lport, rport)) :
    findSock s raddr lport rport = some a := by
  rw [hs.findSock_eq]
  cases hf : L.find? fun a => (s.heap a).any (Sock.matches raddr lport rport) with
  | none =>
      rw [List.find?_eq_none] at hf
      exact absurd (any_matches_iff.2 hk) (hf a ha)
  | some b =>
      have hb := List.mem_of_find?_eq_some hf
      have hm := List.find?_some hf
      beta_reduce at hm
      replace hm := any_matches_iff.1 hm
      rw [hs.unique b hb a ha (hm.trans hk.symm)]

theorem SockInv.mem_of_findSock (hs : SockInv s L) {raddr : UInt32} {lport rport : UInt16}
    {a : Nat} (h : findSock s raddr lport rport = some a) : a ∈ L := by
  rw [hs.findSock_eq] at h
  exact List.mem_of_find?_eq_some h

/-- A change of cells that keeps every cell's link and addresses, and of no
link variable, keeps the invariant. -/
theorem SockInv.of_cells (hs : SockInv s L) {s' : SockState} (hsock : s'.sockets = s.sockets)
    (halloc : s.allocs ≤ s'.allocs)
    (hcell : ∀ a, (s'.heap a).map (fun c => (c.next, c.key)) =
      (s.heap a).map (fun c => (c.next, c.key))) : SockInv s' L := by
  have hnext : ∀ a, (s'.heap a).map Sock.next = (s.heap a).map Sock.next := by
    intro a
    have := congrArg (Option.map Prod.fst) (hcell a)
    simpa [Option.map_map, Function.comp_def] using this
  have hkey : ∀ a, s'.keyAt a = s.keyAt a := by
    intro a
    have := congrArg (Option.map Prod.snd) (hcell a)
    simpa [Option.map_map, Function.comp_def, SockState.keyAt] using this
  have hsome : ∀ a, (s'.heap a).isSome = (s.heap a).isSome := by
    intro a
    have := congrArg Option.isSome (hcell a)
    simpa using this
  refine ⟨?_, ?_, ?_, ?_⟩
  · rw [Heap.Chain, hsock]
    exact hs.chain.frame fun a _ => hnext a
  · intro a
    rw [hsome]
    exact hs.live a
  · exact Nat.le_trans hs.len_le halloc
  · intro a ha b hb hab
    rw [hkey, hkey] at hab
    exact hs.unique a ha b hb hab

end Inv

/-! ## The three calls -/

section Steps

variable {s : SockState} {L : List Nat}

theorem sockInv_init : SockInv SockState.init [] where
  chain := .nil 0
  live := by simp [SockState.init]
  len_le := Nat.le_refl _
  unique := by simp

theorem SockInv.sockalloc (hs : SockInv s L) {a : Nat} (ha : a = 0 ∨ s.heap a = none)
    (raddr : UInt32) (lport rport : UInt16) :
    ∃ L', SockInv (sockalloc s a raddr lport rport).1 L' := by
  unfold Xv6.Sock.sockalloc
  split
  · exact ⟨L, hs⟩
  rename_i ha0
  have hfree : s.heap a = none := ha.resolve_left ha0
  have haL : a ∉ L := fun h => by simpa [hfree] using (hs.live a).mpr h
  split
  · exact ⟨L, hs⟩
  rename_i hnone
  dsimp only
  refine ⟨a :: L, ?_, ?_, ?_, ?_⟩
  · refine .cons ha0 (Function.update_self ..) (hs.chain.frame fun b hb => ?_)
    have hba : b ≠ a := fun e => haL (e ▸ hb)
    simp [Function.update_of_ne hba]
  · intro b
    by_cases hba : b = a
    · subst hba
      simp
    · simp [hba, hs.live b]
  · simpa using hs.len_le
  · -- the new socket's addresses are not in the list: the scan found none
    have hnew : ∀ b ∈ L, s.keyAt b ≠ some (raddr, lport, rport) := by
      intro b hb hk
      rw [hs.findSock_some hb hk] at hnone
      cases hnone
    have hkey : ∀ b, b ≠ a → SockState.keyAt
        { s with heap := Function.update s.heap a (some ⟨s.sockets, raddr, lport, rport, []⟩),
                 sockets := a, allocs := s.allocs + 1 } b = s.keyAt b := by
      intro b hba
      simp [SockState.keyAt, Function.update_of_ne hba]
    have hka : SockState.keyAt
        { s with heap := Function.update s.heap a (some ⟨s.sockets, raddr, lport, rport, []⟩),
                 sockets := a, allocs := s.allocs + 1 } a = some (raddr, lport, rport) := by
      simp [SockState.keyAt, Sock.key]
    intro b hb c hc hbc
    rw [List.mem_cons] at hb hc
    rcases hb with rfl | hb <;> rcases hc with rfl | hc
    · rfl
    · have hca : c ≠ b := fun e => haL (e ▸ hc)
      rw [hka, hkey c hca] at hbc
      exact absurd hbc.symm (hnew c hc)
    · have hba : b ≠ c := fun e => haL (e ▸ hb)
      rw [hka, hkey b hba] at hbc
      exact absurd hbc (hnew b hb)
    · have hba : b ≠ a := fun e => haL (e ▸ hb)
      have hca : c ≠ a := fun e => haL (e ▸ hc)
      rw [hkey b hba, hkey c hca] at hbc
      exact hs.unique b hb c hc hbc

theorem SockInv.sockrecvudp (hs : SockInv s L) (m : Nat) (raddr : UInt32) (lport rport : UInt16) :
    SockInv (sockrecvudp s m raddr lport rport) L := by
  unfold Xv6.Sock.sockrecvudp
  split
  · exact hs.of_cells rfl (Nat.le_refl _) fun _ => rfl
  · rename_i si _
    refine hs.of_cells rfl (Nat.le_refl _) fun a => ?_
    by_cases ha : a = si
    · subst ha
      cases s.heap a <;> simp [Sock.key]
    · simp [Function.update_of_ne ha]

/-- `sockclose`'s walk writes nothing but links. -/
theorem unlinkSock_fields (si fuel : Nat) (pos : Link) (s : SockState) :
    (unlinkSock si fuel pos s).freed = s.freed ∧ (unlinkSock si fuel pos s).allocs = s.allocs := by
  induction fuel generalizing pos with
  | zero => exact ⟨rfl, rfl⟩
  | succ fuel ih =>
      unfold unlinkSock
      split
      · exact ⟨rfl, rfl⟩
      split
      · cases pos <;> exact ⟨rfl, rfl⟩
      · exact ih _

/-- The link `sockclose`'s walk reaches after passing the cells `pre` from
`pos`. -/
def lastLink (pos : Link) : List Nat → Link
  | [] => pos
  | p :: pre => lastLink (.next p) pre

theorem lastLink_concat (pos : Link) (l : List Nat) (y : Nat) :
    lastLink pos (l ++ [y]) = .next y := by
  induction l generalizing pos with
  | nil => rfl
  | cons p l ih => exact ih (.next p)

/-- The walk passes the cells before `si` and writes `si->next` into the
link that points at `si`. -/
theorem unlinkSock_spec {si : Nat} {post : List Nat} (pre : List Nat) (pos : Link)
    (fuel : Nat) (hc : Heap.Chain Sock.next s.heap (s.read pos) (pre ++ si :: post))
    (hsi : si ∉ pre) (hf : pre.length < fuel) :
    unlinkSock si fuel pos s = s.write (lastLink pos pre) (s.read (.next si)) := by
  obtain ⟨fuel, rfl⟩ : ∃ k, fuel = k + 1 := ⟨fuel - 1, by omega⟩
  induction pre generalizing pos fuel with
  | nil =>
      unfold Heap.Chain at hc
      generalize hr : s.read pos = r at hc
      cases hc with
      | cons hp _ _ => simp [unlinkSock, hr, hp, lastLink]
  | cons p pre ih =>
      unfold Heap.Chain at hc
      generalize hr : s.read pos = r at hc
      cases hc with
      | cons hp hcell hs =>
          rename_i c
          have hps : p ≠ si := fun e => hsi (e ▸ List.mem_cons_self ..)
          have hread : s.read (.next p) = c.next := by simp [SockState.read, hcell]
          obtain ⟨k, rfl⟩ : ∃ k, fuel = k + 1 := ⟨fuel - 1, by simp at hf; omega⟩
          simp only [unlinkSock, hr, hp, hps, if_false]
          exact ih (.next p) (by rw [hread]; exact hs)
            (fun h => hsi (List.mem_cons_of_mem _ h)) k (by simp at hf; omega)

/-- Writing a link changes no socket's addresses or queue. -/
theorem write_cells (s : SockState) (l : Link) (v a : Nat) :
    ((s.write l v).heap a).map (fun c => (c.key, c.rxq)) =
      (s.heap a).map (fun c => (c.key, c.rxq)) := by
  cases l with
  | head => rfl
  | next p =>
      by_cases ha : a = p
      · subst ha
        cases h : s.heap a <;> simp [SockState.write, Sock.key, h]
      · simp [SockState.write, Function.update_of_ne ha]

/-- `sockclose`'s walk unlinks exactly `si`, and changes no socket's
addresses or queue. -/
theorem SockInv.unlink (hs : SockInv s L) {si : Nat} {c : Sock} (hc : s.heap si = some c) :
    Heap.Chain Sock.next (unlinkSock si s.allocs .head s).heap
        (unlinkSock si s.allocs .head s).sockets (L.erase si) ∧
      ∀ a, ((unlinkSock si s.allocs .head s).heap a).map (fun c => (c.key, c.rxq)) =
        (s.heap a).map (fun c => (c.key, c.rxq)) := by
  have hmem : si ∈ L := (hs.live si).mp (by simp [hc])
  have hnd := hs.chain.nodup
  obtain ⟨pre, post, rfl⟩ := List.append_of_mem hmem
  have hdisj := (List.nodup_append.mp hnd).2.2
  have hsi : si ∉ pre := fun h => hdisj si h si (List.mem_cons_self ..) rfl
  have hlen := hs.len_le
  simp only [List.length_append, List.length_cons] at hlen
  rw [unlinkSock_spec pre .head s.allocs hs.chain hsi (by omega)]
  refine ⟨?_, write_cells s _ _⟩
  rw [List.erase_append_right _ hsi, List.erase_cons_head]
  have hread : s.read (.next si) = c.next := by simp [SockState.read, hc]
  obtain ⟨q, hpre, hrest⟩ := Heap.Seg.split hs.chain
  have hpost : Heap.Chain Sock.next s.heap c.next post := by
    cases hrest with
    | cons _ hc' hs' =>
        rw [hc] at hc'
        cases hc'
        exact hs'
  rcases pre.eq_nil_or_concat' with rfl | ⟨pre₀, y, rfl⟩
  · -- `si` was first: `sockets = si->next`
    simpa [lastLink, SockState.write, hread] using hpost
  · -- the cell `y` before `si` now links past it
    rw [lastLink_concat]
    obtain ⟨cy, hcy⟩ := hs.chain.mem_cell y (by simp)
    have hy : y ∉ pre₀ := by
      have := (List.nodup_append.mp hnd).1
      exact fun h => (List.nodup_append.mp this).2.2 y h y (List.mem_singleton_self y) rfl
    have hypost : y ∉ post := fun h =>
      hdisj y (by simp) y (List.mem_cons_of_mem _ h) rfl
    simp only [SockState.write, hcy, Option.map_some, hread]
    refine Heap.Seg.append
      (Heap.Seg.setLast (fun c v => { c with next := v }) rfl hpre hcy hy) ?_
    refine hpost.frame fun a ha => ?_
    have hay : a ≠ y := fun e => hypost (e ▸ ha)
    rw [Function.update_of_ne hay]

theorem SockInv.sockclose (hs : SockInv s L) {si : Nat} {c : Sock} (hc : s.heap si = some c) :
    SockInv (sockclose s si) (L.erase si) ∧ (sockclose s si).freed = s.freed ++ c.rxq ∧
      (sockclose s si).heap si = none ∧
      ∀ a, a ≠ si → ((sockclose s si).heap a).map (fun c => (c.key, c.rxq)) =
        (s.heap a).map (fun c => (c.key, c.rxq)) := by
  obtain ⟨hchain, hcells⟩ := hs.unlink hc
  have hnd := hs.chain.nodup
  have hout : si ∉ L.erase si := hnd.not_mem_erase
  have hrxq : ((unlinkSock si s.allocs .head s).heap si).map Sock.rxq = some c.rxq := by
    have := congrArg (Option.map Prod.snd) (hcells si)
    simpa [Option.map_map, Function.comp_def, hc] using this
  have hsome : ∀ a, ((unlinkSock si s.allocs .head s).heap a).isSome = (s.heap a).isSome := by
    intro a
    have := congrArg Option.isSome (hcells a)
    simpa using this
  have hkey : ∀ a, (unlinkSock si s.allocs .head s).keyAt a = s.keyAt a := by
    intro a
    have := congrArg (Option.map Prod.fst) (hcells a)
    simpa [Option.map_map, Function.comp_def, SockState.keyAt] using this
  obtain ⟨hfreed, hallocs⟩ := unlinkSock_fields si s.allocs .head s
  unfold Xv6.Sock.sockclose
  dsimp only
  refine ⟨⟨?_, ?_, ?_, ?_⟩, ?_, Function.update_self .., ?_⟩
  · refine hchain.frame fun a ha => ?_
    have has : a ≠ si := fun e => hout (e ▸ ha)
    simp only [Function.update_of_ne has]
  · intro a
    by_cases has : a = si
    · subst has
      simp [hout]
    · simp only [Function.update_of_ne has, hsome, List.mem_erase_of_ne has]
      exact hs.live a
  · rw [hallocs]
    exact Nat.le_trans List.length_erase_le hs.len_le
  · intro a ha b hb hab
    have has : a ≠ si := fun e => hout (e ▸ ha)
    have hbs : b ≠ si := fun e => hout (e ▸ hb)
    simp only [SockState.keyAt, Function.update_of_ne has, Function.update_of_ne hbs] at hab
    rw [← SockState.keyAt, ← SockState.keyAt, hkey, hkey] at hab
    exact hs.unique a ((List.mem_erase_of_ne has).mp ha) b ((List.mem_erase_of_ne hbs).mp hb) hab
  · rw [hfreed, hrxq]
    rfl
  · intro a has
    simp only [Function.update_of_ne has]
    exact hcells a

end Steps

theorem SockInv.step {s s' : SockState} {L : List Nat} {e : SockEv} (hs : SockInv s L)
    (h : sockStep s e = some s') : ∃ L', SockInv s' L' := by
  cases e with
  | alloc a raddr lport rport =>
      simp only [sockStep] at h
      split at h
      · rename_i ha
        cases h
        exact hs.sockalloc ha raddr lport rport
      · cases h
  | close si =>
      simp only [sockStep] at h
      split at h
      · rename_i hsome
        cases h
        obtain ⟨c, hc⟩ := Option.isSome_iff_exists.mp hsome
        exact ⟨_, (hs.sockclose hc).1⟩
      · cases h
  | recv m raddr lport rport =>
      cases h
      exact ⟨L, hs.sockrecvudp m raddr lport rport⟩

theorem sockInv_reachable : sockSystem.Invariant fun s => ∃ L, SockInv s L :=
  System.invariant_of_step sockSystem ⟨[], sockInv_init⟩ fun _ _ _ ⟨_, hs⟩ h => hs.step h

/-- **The socket table is sound.**  In every state reached by any
interleaving of `sockalloc`, `sockclose` and `sockrecvudp`, `sockets` is a
finite chain `L` with no socket twice, holding exactly the sockets that are
allocated and not closed, no two for the same addresses.  So
`sockrecvudp` frees the mbuf when no socket is for its addresses, and else
queues it on the one socket that is and wakes its reader, touching no other
cell; and `sockclose` of a socket leaves exactly the other sockets in the
list, frees every mbuf queued on it, frees it, and changes no other
socket's addresses or queue. -/
theorem socket_table_safe {s : SockState} (hr : sockSystem.Reachable s) :
    ∃ L, Heap.Chain Sock.next s.heap s.sockets L ∧ L.Nodup ∧
      (∀ a, (s.heap a).isSome ↔ a ∈ L) ∧
      (∀ a ∈ L, ∀ b ∈ L, s.keyAt a = s.keyAt b → a = b) ∧
      (∀ m raddr lport rport, (∀ a ∈ L, s.keyAt a ≠ some (raddr, lport, rport)) →
        sockrecvudp s m raddr lport rport = { s with freed := s.freed ++ [m] }) ∧
      (∀ m raddr lport rport, ∀ a ∈ L, s.keyAt a = some (raddr, lport, rport) →
        sockrecvudp s m raddr lport rport =
          { s with heap := Function.update s.heap a
                     ((s.heap a).map fun c => { c with rxq := c.rxq ++ [m] }),
                   woken := s.woken ++ [a] }) ∧
      ∀ a c, s.heap a = some c →
        Heap.Chain Sock.next (sockclose s a).heap (sockclose s a).sockets (L.erase a) ∧
          (sockclose s a).freed = s.freed ++ c.rxq ∧ (sockclose s a).heap a = none ∧
          ∀ b, b ≠ a → ((sockclose s a).heap b).map (fun c => (c.key, c.rxq)) =
            (s.heap b).map (fun c => (c.key, c.rxq)) := by
  obtain ⟨L, hs⟩ := sockInv_reachable s hr
  refine ⟨L, hs.chain, hs.chain.nodup, hs.live, hs.unique, ?_, ?_, ?_⟩
  · intro m raddr lport rport hnone
    unfold Xv6.Sock.sockrecvudp
    rw [hs.findSock_none hnone]
  · intro m raddr lport rport a ha hk
    unfold Xv6.Sock.sockrecvudp
    rw [hs.findSock_some ha hk]
  · intro a c hc
    obtain ⟨hinv, hfreed, hnone, hcells⟩ := hs.sockclose hc
    exact ⟨hinv.chain, hfreed, hnone, hcells⟩

/-- After one `sockalloc`, the list is a chain without repeats. -/
theorem socket_table_safe_oneSock :
    sockSystem.Reachable (sockalloc SockState.init 5 1 2 3).1 ∧
      ∃ L, Heap.Chain Sock.next (sockalloc SockState.init 5 1 2 3).1.heap
        (sockalloc SockState.init 5 1 2 3).1.sockets L ∧ L.Nodup := by
  have h₁ : sockSystem.step SockState.init (.alloc 5 1 2 3) =
      some (sockalloc SockState.init 5 1 2 3).1 := rfl
  have hr : sockSystem.Reachable (sockalloc SockState.init 5 1 2 3).1 := .step .init h₁
  obtain ⟨L, hchain, hnd, -⟩ := socket_table_safe hr
  exact ⟨hr, L, hchain, hnd⟩

end Sock
end Xv6
