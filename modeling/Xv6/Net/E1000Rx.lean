import Xv6.Support.Ring
import Xv6.Support.System

/-!
# The E1000 receive ring

`e1000_recv` of `kernel/e1000.c` and the device's side of the receive ring
as the E1000 manual describes it, as one transition system.  The device
owns the descriptors of the cyclic interval `[RDH, RDT)`: it writes a frame
into the buffer of the descriptor at `RDH`, sets its length and `DD`, and
advances `RDH`.  Each pass of the driver's loop looks at the slot after
`RDT`; if its `DD` is set it passes the slot's mbuf to `net_rx`, puts a new
mbuf in the slot, clears `DD` and moves `RDT` onto the slot.

A pass runs as one step.  Between passes any number of device steps may
happen, and since the device touches only the slots it owns and `RDH`, and a
pass touches only the slot after `RDT` (which the device does not own when
its `DD` is set, `recvOne_not_owned`) and then `RDT`, every interleaving of
the code with the device is one of these runs.  `e1000_intr` runs do not
overlap: the interrupt is delivered to one hart at a time.

The slots after `RDT` up to `RDH` hold the frames the driver has not taken
yet; `RxInv` says that the frames passed to `net_rx`, followed by these,
are exactly the frames the device wrote.
-/

namespace Xv6
namespace E1000

/-- `RX_RING_SIZE` -/
def RX_RING_SIZE : Nat := 16

instance : NeZero RX_RING_SIZE := ⟨by decide⟩

/-- `E1000_RXD_STAT_DD`: descriptor done -/
def E1000_RXD_STAT_DD : UInt8 := 0x01

/-- `E1000_RXD_STAT_EOP`: end of packet -/
def E1000_RXD_STAT_EOP : UInt8 := 0x02

/-- `MBUF_SIZE`: with `E1000_RCTL_SZ_2048` the device writes at most this
many bytes into a buffer. -/
def MBUF_SIZE : Nat := 2048

/-- The fields of `struct rx_desc` that the driver or the device use. -/
structure RxDesc where
  addr : Nat
  length : UInt16
  status : UInt8
  deriving DecidableEq, Repr

/-- The receive ring, `rx_mbufs`, the registers `RDH` and `RDT`, the bytes
in the mbufs' buffers, the allocator's next fresh mbuf, and ghost records of
the frames the device wrote and of the `net_rx` calls.  An mbuf is named by
the address of its buffer, `m->head` after `mbufalloc(0)`. -/
structure RxState where
  ring : Fin RX_RING_SIZE → RxDesc
  mbufs : Fin RX_RING_SIZE → Nat
  rdh : Fin RX_RING_SIZE
  rdt : Fin RX_RING_SIZE
  mem : Nat → List UInt8
  nextMbuf : Nat
  /-- ghost: every frame the device wrote, in order -/
  written : List (List UInt8)
  /-- ghost: every `net_rx(m)`, with `m->len` and the bytes in `m`'s buffer -/
  delivered : List (Nat × Nat × List UInt8)

/-- The receive half of `e1000_init`: the `i`-th `mbufalloc(0)` fills slot
`i`, statuses are zero, `RDH = 0` and `RDT = RX_RING_SIZE - 1`. -/
def RxState.init : RxState :=
  { ring := fun i => { addr := i.val, length := 0, status := 0 },
    mbufs := fun i => i.val,
    rdh := 0, rdt := ⟨RX_RING_SIZE - 1, by decide⟩,
    mem := fun _ => [], nextMbuf := RX_RING_SIZE, written := [], delivered := [] }

/-- What the device writes back into a descriptor it filled with `len`
bytes. -/
def doneDesc (d : RxDesc) (len : Nat) : RxDesc :=
  { d with length := UInt16.ofNat len, status := E1000_RXD_STAT_DD ||| E1000_RXD_STAT_EOP }

/-- The device writes frame `f` into the buffer of the descriptor at `RDH`
and advances `RDH`. -/
def fillSlot (s : RxState) (f : List UInt8) : RxState :=
  { s with mem := Function.update s.mem (s.ring s.rdh).addr f,
           ring := Function.update s.ring s.rdh (doneDesc (s.ring s.rdh) f.length),
           rdh := Ring.next s.rdh,
           written := s.written ++ [f] }

/-- One frame `f` received by the device, if it owns a descriptor. -/
def rxDevice (s : RxState) (f : List UInt8) : Option RxState :=
  if s.rdh = s.rdt ∨ MBUF_SIZE < f.length then none else some (fillSlot s f)

/-- The descriptor `e1000_recv` puts back: the new buffer, status zero. -/
def refillDesc (d : RxDesc) (m : Nat) : RxDesc := { d with addr := m, status := 0 }

/-- The body of `e1000_recv`'s loop for the slot `i` after `RDT`:
`m->len = d->length; net_rx(m);`, then a new mbuf from `mbufalloc(0)` goes
into the slot, its status is cleared and `RDT` moves onto it. -/
def takeSlot (s : RxState) : RxState :=
  let i := Ring.next s.rdt
  let m := s.mbufs i
  { s with delivered := s.delivered ++ [(m, (s.ring i).length.toNat, s.mem m)],
           mbufs := Function.update s.mbufs i s.nextMbuf,
           nextMbuf := s.nextMbuf + 1,
           ring := Function.update s.ring i (refillDesc (s.ring i) s.nextMbuf),
           rdt := i }

/-- One pass of `e1000_recv`'s loop; `none` when the loop breaks. -/
def recvOne (s : RxState) : Option RxState :=
  if (s.ring (Ring.next s.rdt)).status &&& E1000_RXD_STAT_DD = 0 then none
  else some (takeSlot s)

/-- The events of the receive side. -/
inductive RxEv
  /-- the device receives a frame -/
  | frame (f : List UInt8)
  /-- one pass of `e1000_recv`'s loop -/
  | recv
  deriving DecidableEq, Repr

/-- The step of the receive side. -/
def rxStep (s : RxState) : RxEv → Option RxState
  | .frame f => rxDevice s f
  | .recv => recvOne s

/-- The driver and the device from `e1000_init`. -/
def rxSystem : System RxState RxEv := ⟨RxState.init, rxStep⟩

namespace RxState

/-- The number of frames written and not yet taken: the slots after `RDT`
up to `RDH`. -/
def pending (s : RxState) : Nat := Ring.dist (Ring.next s.rdt) s.rdh

/-- Slot `j` holds a frame the driver has not taken. -/
def Pending (s : RxState) (j : Fin RX_RING_SIZE) : Prop :=
  Ring.dist (Ring.next s.rdt) j < s.pending

/-- The device owns slot `j`: it lies in `[RDH, RDT)`. -/
def Owned (s : RxState) (j : Fin RX_RING_SIZE) : Prop :=
  Ring.dist s.rdh j < Ring.dist s.rdh s.rdt

instance (s : RxState) (j : Fin RX_RING_SIZE) : Decidable (s.Pending j) :=
  inferInstanceAs (Decidable (_ < _))

instance (s : RxState) (j : Fin RX_RING_SIZE) : Decidable (s.Owned j) :=
  inferInstanceAs (Decidable (_ < _))

/-- The slots holding frames not yet taken, in ring order. -/
def pendingSlots (s : RxState) : List (Fin RX_RING_SIZE) :=
  Ring.slots (Ring.next s.rdt) s.pending

/-- The bytes in the buffer of slot `j`'s mbuf. -/
def frameAt (s : RxState) (j : Fin RX_RING_SIZE) : List UInt8 := s.mem (s.mbufs j)

end RxState

/-- The invariant of the receive ring. -/
structure RxInv (s : RxState) : Prop where
  addr_eq : ∀ j, (s.ring j).addr = s.mbufs j
  mbufs_lt : ∀ j, s.mbufs j < s.nextMbuf
  mbufs_inj : ∀ j k, s.mbufs j = s.mbufs k → j = k
  delivered_lt : ∀ d ∈ s.delivered, d.1 < s.nextMbuf
  not_delivered : ∀ j, ∀ d ∈ s.delivered, d.1 ≠ s.mbufs j
  delivered_nodup : (s.delivered.map (·.1)).Nodup
  done_iff : ∀ j, (s.ring j).status &&& E1000_RXD_STAT_DD ≠ 0 ↔ s.Pending j
  length_eq : ∀ j, s.Pending j → (s.ring j).length.toNat = (s.frameAt j).length
  frames : s.delivered.map (·.2.2) ++ s.pendingSlots.map s.frameAt = s.written
  delivered_len : ∀ d ∈ s.delivered, d.2.1 = d.2.2.length

/-! ## Where each slot is -/

namespace RxState

open Ring

variable {s : RxState}

/-- The device owns exactly the slots that are neither pending nor `RDT`. -/
theorem owned_iff (j : Fin RX_RING_SIZE) : s.Owned j ↔ ¬ s.Pending j ∧ j ≠ s.rdt := by
  unfold Owned Pending pending
  by_cases hj : j = s.rdt
  · subst hj
    simp
  · have hne : dist (next s.rdt) j ≠ dist (next s.rdt) s.rdt := fun h => hj (dist_inj h)
    have h1 := dist_next_self s.rdt
    have h2 := dist_lt (next s.rdt) j
    have h3 := dist_lt (next s.rdt) s.rdh
    rw [dist_rebase (next s.rdt) s.rdh j, dist_rebase (next s.rdt) s.rdh s.rdt]
    simp only [hj, ne_eq, not_false_eq_true, and_true]
    split_ifs <;> omega

theorem not_pending_rdh : ¬ s.Pending s.rdh :=
  Nat.lt_irrefl _

theorem pending_lt : s.pending < RX_RING_SIZE :=
  dist_lt _ _

theorem mem_pendingSlots {j : Fin RX_RING_SIZE} : j ∈ s.pendingSlots ↔ s.Pending j :=
  mem_slots (Nat.le_of_lt pending_lt)

end RxState

section Steps

open Ring RxState

variable {s : RxState} {f : List UInt8}

theorem pending_fillSlot_iff (hne : s.rdh ≠ s.rdt) (j : Fin RX_RING_SIZE) :
    (fillSlot s f).Pending j ↔ s.Pending j ∨ j = s.rdh := by
  show dist (next s.rdt) j < dist (next s.rdt) (next s.rdh) ↔ _
  rw [dist_next_next hne]
  constructor
  · intro h
    rcases Nat.lt_succ_iff_lt_or_eq.mp h with h | h
    · exact .inl h
    · exact .inr (dist_inj h)
  · rintro (h | rfl)
    · exact Nat.lt_succ_of_lt h
    · exact Nat.lt_succ_self _

theorem pendingSlots_fillSlot (hne : s.rdh ≠ s.rdt) :
    (fillSlot s f).pendingSlots = s.pendingSlots ++ [s.rdh] :=
  slots_next_right fun h => hne (next_inj h)

section Fill

variable (hs : RxInv s)
include hs

/-- The device's write reaches only the buffer of the slot at `RDH`. -/
theorem frameAt_fillSlot {j : Fin RX_RING_SIZE} (hj : j ≠ s.rdh) :
    (fillSlot s f).frameAt j = s.frameAt j := by
  have hm : s.mbufs j ≠ (s.ring s.rdh).addr := by
    rw [hs.addr_eq]
    exact fun h => hj (hs.mbufs_inj _ _ h)
  simp [fillSlot, frameAt, Function.update_of_ne hm]

theorem frameAt_fillSlot_rdh : (fillSlot s f).frameAt s.rdh = f := by
  simp [fillSlot, frameAt, ← hs.addr_eq]

theorem RxInv.fill (hne : s.rdh ≠ s.rdt) (hf : f.length ≤ MBUF_SIZE) :
    RxInv (fillSlot s f) := by
  have hpend := pending_fillSlot_iff (f := f) hne
  refine { hs with addr_eq := ?_, done_iff := ?_, length_eq := ?_, frames := ?_ }
  · intro j
    by_cases hj : j = s.rdh
    · subst hj
      simp [fillSlot, doneDesc, hs.addr_eq]
    · simp [fillSlot, Function.update_of_ne hj, hs.addr_eq]
  · intro j
    rw [hpend]
    by_cases hj : j = s.rdh
    · subst hj
      simp [fillSlot, doneDesc]
      decide
    · simp only [fillSlot, Function.update_of_ne hj, hs.done_iff, hj, or_false]
  · intro j hj
    by_cases hjr : j = s.rdh
    · subst hjr
      rw [frameAt_fillSlot_rdh hs]
      simp only [fillSlot, Function.update_self, doneDesc]
      exact Nat.mod_eq_of_lt (by unfold MBUF_SIZE at hf; omega)
    · have hp : s.Pending j := ((hpend j).mp hj).resolve_right hjr
      rw [frameAt_fillSlot hs hjr]
      simp only [fillSlot, Function.update_of_ne hjr]
      exact hs.length_eq j hp
  · have hold : s.pendingSlots.map (fillSlot s f).frameAt =
        s.pendingSlots.map s.frameAt := by
      apply List.map_congr_left
      intro j hj
      have hp := mem_pendingSlots.1 hj
      exact frameAt_fillSlot hs fun e => not_pending_rdh (e ▸ hp)
    show s.delivered.map (·.2.2) ++ (fillSlot s f).pendingSlots.map (fillSlot s f).frameAt =
      s.written ++ [f]
    rw [pendingSlots_fillSlot hne, List.map_append, List.map_singleton,
      frameAt_fillSlot_rdh hs, hold, ← List.append_assoc, hs.frames]

end Fill

theorem pending_takeSlot_iff (hi : s.Pending (next s.rdt)) (j : Fin RX_RING_SIZE) :
    (takeSlot s).Pending j ↔ s.Pending j ∧ j ≠ next s.rdt := by
  have hne : next s.rdt ≠ s.rdh := fun e => not_pending_rdh (e ▸ hi)
  have hp := dist_next_left hne
  show dist (next (next s.rdt)) j < dist (next (next s.rdt)) s.rdh ↔ _
  unfold Pending pending at *
  by_cases hj : j = next s.rdt
  · subst hj
    have h1 := dist_next_self (next s.rdt)
    have h2 := dist_lt (next s.rdt) s.rdh
    simp only [ne_eq, not_true_eq_false, and_false, iff_false]
    omega
  · have hj' := dist_next_left (Ne.symm hj)
    simp only [hj, ne_eq, not_false_eq_true, and_true]
    have h0 : dist (next s.rdt) j ≠ 0 := fun h => hj (dist_eq_zero.1 h).symm
    omega

theorem pendingSlots_takeSlot (hi : s.Pending (next s.rdt)) :
    s.pendingSlots = next s.rdt :: (takeSlot s).pendingSlots :=
  slots_next_left fun e => not_pending_rdh (e ▸ hi)

theorem frameAt_takeSlot {j : Fin RX_RING_SIZE} (hj : j ≠ next s.rdt) :
    (takeSlot s).frameAt j = s.frameAt j := by
  simp [takeSlot, frameAt, Function.update_of_ne hj]

section Take

variable (hs : RxInv s) (hi : s.Pending (next s.rdt))
include hs hi

theorem RxInv.take : RxInv (takeSlot s) := by
  have hpend := pending_takeSlot_iff hi
  have hnew : ∀ d ∈ s.delivered, d.1 ≠ s.nextMbuf := fun d hd =>
    Nat.ne_of_lt (hs.delivered_lt d hd)
  refine ⟨?_, ?_, ?_, ?_, ?_, ?_, ?_, ?_, ?_, ?_⟩
  · intro j
    by_cases hj : j = next s.rdt
    · subst hj
      simp [takeSlot, refillDesc]
    · simp [takeSlot, Function.update_of_ne hj, hs.addr_eq]
  · intro j
    by_cases hj : j = next s.rdt
    · subst hj
      simp [takeSlot]
    · simp only [takeSlot, Function.update_of_ne hj]
      exact Nat.lt_succ_of_lt (hs.mbufs_lt j)
  · intro j k hjk
    simp only [takeSlot, Function.update_apply] at hjk
    split_ifs at hjk with hj hk hk
    · rw [hj, hk]
    · exact absurd hjk.symm (Nat.ne_of_lt (hs.mbufs_lt k))
    · exact absurd hjk (Nat.ne_of_lt (hs.mbufs_lt j))
    · exact hs.mbufs_inj j k hjk
  · intro d hd
    simp only [takeSlot, List.mem_append, List.mem_singleton] at hd
    rcases hd with hd | rfl
    · exact Nat.lt_succ_of_lt (hs.delivered_lt d hd)
    · exact Nat.lt_succ_of_lt (hs.mbufs_lt _)
  · intro j d hd
    simp only [takeSlot, List.mem_append, List.mem_singleton] at hd
    by_cases hj : j = next s.rdt
    · subst hj
      simp only [takeSlot, Function.update_self]
      rcases hd with hd | rfl
      · exact hnew d hd
      · exact Nat.ne_of_lt (hs.mbufs_lt _)
    · simp only [takeSlot, Function.update_of_ne hj]
      rcases hd with hd | rfl
      · exact hs.not_delivered j d hd
      · exact fun e => hj (hs.mbufs_inj _ _ e).symm
  · simp only [takeSlot, List.map_append, List.map_singleton]
    refine List.nodup_append.mpr ⟨hs.delivered_nodup, by simp, ?_⟩
    intro a ha b hb
    rw [List.mem_singleton] at hb
    subst hb
    obtain ⟨d, hd, rfl⟩ := List.mem_map.mp ha
    exact hs.not_delivered _ d hd
  · intro j
    rw [hpend]
    by_cases hj : j = next s.rdt
    · subst hj
      simp [takeSlot, refillDesc]
    · simp only [takeSlot, Function.update_of_ne hj, hs.done_iff, hj, ne_eq,
        not_false_eq_true, and_true]
  · intro j hj
    obtain ⟨hp, hjr⟩ := (hpend j).mp hj
    rw [frameAt_takeSlot hjr]
    simp only [takeSlot, Function.update_of_ne hjr]
    exact hs.length_eq j hp
  · have hrest : (takeSlot s).pendingSlots.map (takeSlot s).frameAt =
        (takeSlot s).pendingSlots.map s.frameAt := by
      apply List.map_congr_left
      intro j hj
      exact frameAt_takeSlot ((hpend j).mp (mem_pendingSlots.1 hj)).2
    show (s.delivered ++ [(s.mbufs (next s.rdt), (s.ring (next s.rdt)).length.toNat,
        s.mem (s.mbufs (next s.rdt)))]).map (·.2.2) ++
        (takeSlot s).pendingSlots.map (takeSlot s).frameAt = s.written
    rw [hrest, ← hs.frames, pendingSlots_takeSlot hi]
    simp [frameAt]
  · intro d hd
    simp only [takeSlot, List.mem_append, List.mem_singleton] at hd
    rcases hd with hd | rfl
    · exact hs.delivered_len d hd
    · exact hs.length_eq _ hi

end Take

end Steps

theorem rxInv_init : RxInv RxState.init where
  addr_eq _ := rfl
  mbufs_lt j := j.isLt
  mbufs_inj _ _ h := Fin.ext h
  delivered_lt := by simp [RxState.init]
  not_delivered := by simp [RxState.init]
  delivered_nodup := by simp [RxState.init]
  done_iff := by decide
  length_eq := by decide
  frames := by decide
  delivered_len := by simp [RxState.init]

/-- A pass of the loop that does not break finds its slot pending. -/
theorem RxInv.recv_pending {s s' : RxState} (hs : RxInv s) (h : recvOne s = some s') :
    s.Pending (Ring.next s.rdt) ∧ s' = takeSlot s := by
  unfold recvOne at h
  split at h
  · cases h
  · rename_i hdd
    cases h
    exact ⟨(hs.done_iff _).mp hdd, rfl⟩

theorem RxInv.step {s s' : RxState} {e : RxEv} (hs : RxInv s) (h : rxStep s e = some s') :
    RxInv s' := by
  cases e with
  | frame f =>
      simp only [rxStep, rxDevice] at h
      split at h
      · cases h
      · rename_i hc
        cases h
        exact hs.fill (fun e => hc (.inl e)) (Nat.le_of_not_lt fun e => hc (.inr e))
  | recv =>
      obtain ⟨hi, rfl⟩ := hs.recv_pending h
      exact hs.take hi

theorem rxInv_reachable : rxSystem.Invariant RxInv :=
  System.invariant_of_step rxSystem rxInv_init fun _ _ _ hs h => hs.step h

/-- A pass of the loop takes a slot the device does not own, and leaves the
device's slots as they were. -/
theorem recvOne_not_owned {s s' : RxState} (hs : RxInv s) (h : recvOne s = some s') :
    ¬ s.Owned (Ring.next s.rdt) ∧ ∀ j, s.Owned j → s'.ring j = s.ring j ∧ s'.mbufs j = s.mbufs j := by
  obtain ⟨hi, rfl⟩ := hs.recv_pending h
  have hown : ¬ s.Owned (Ring.next s.rdt) := fun ho => ((RxState.owned_iff _).mp ho).1 hi
  refine ⟨hown, ?_⟩
  intro j hj
  have hne : j ≠ Ring.next s.rdt := fun e => hown (e ▸ hj)
  simp [takeSlot, Function.update_of_ne hne]

end E1000
end Xv6
