import Xv6.Support.Ring
import Xv6.Support.System

/-!
# The E1000 transmit ring

`e1000_transmit` of `kernel/e1000.c` and the device's side of the transmit
ring as the E1000 manual describes it, as one transition system.  The
device owns the descriptors of the cyclic interval `[TDH, TDT)`; it sends
the one at `TDH`, writes `E1000_TXD_STAT_DD` into its status when the
descriptor asks for a report (`E1000_TXD_CMD_RS`), and advances `TDH`.  The
driver, under `e1000_lock`, takes the slot at `TDT` when its `DD` bit is
set, frees the mbuf the slot held before, fills the descriptor and advances
`TDT`.

The driver never clears `DD`: `e1000_init` sets it in every slot and nothing
resets it (`dd_reachable`), so the full-ring test never fires
(`e1000Transmit_ok`), and the sixteenth send in a row moves `TDT` onto
`TDH`, where the device sees an empty ring (`send_fills_ring`).
-/

namespace Xv6
namespace E1000

/-- `TX_RING_SIZE` -/
def TX_RING_SIZE : Nat := 16

instance : NeZero TX_RING_SIZE := ⟨by decide⟩

/-- `E1000_TXD_STAT_DD`: descriptor done -/
def E1000_TXD_STAT_DD : UInt8 := 0x01

/-- `E1000_TXD_CMD_EOP`: end of packet -/
def E1000_TXD_CMD_EOP : UInt8 := 0x01

/-- `E1000_TXD_CMD_RS`: report status -/
def E1000_TXD_CMD_RS : UInt8 := 0x08

/-- The fields of `struct tx_desc` that the driver or the device use. -/
structure TxDesc where
  addr : Nat
  length : UInt16
  cmd : UInt8
  status : UInt8
  deriving DecidableEq, Repr

/-- What the transmit path reads of a `struct mbuf`: its address, and its
`head` and `len` fields. -/
structure Mbuf where
  ptr : Nat
  head : Nat
  len : Nat
  deriving DecidableEq, Repr

/-- The transmit ring, `tx_mbufs`, the registers `TDH` and `TDT`, and ghost
records of what the device sent and of every `mbuffree` and every accepted
packet. -/
structure TxState where
  ring : Fin TX_RING_SIZE → TxDesc
  mbufs : Fin TX_RING_SIZE → Option Mbuf
  tdh : Fin TX_RING_SIZE
  tdt : Fin TX_RING_SIZE
  /-- ghost: `(addr, length)` of every frame the device sent, in order -/
  sent : List (Nat × Nat)
  /-- ghost: every mbuf freed, in order -/
  freed : List Mbuf
  /-- ghost: every mbuf for which `e1000_transmit` returned 0 -/
  accepted : List Mbuf

/-- The transmit half of `e1000_init`: the ring is zeroed with `DD` set in
every status, `tx_mbufs` is empty and `TDH = TDT = 0`. -/
def TxState.init : TxState :=
  { ring := fun _ => { addr := 0, length := 0, cmd := 0, status := E1000_TXD_STAT_DD },
    mbufs := fun _ => none, tdh := 0, tdt := 0, sent := [], freed := [], accepted := [] }

/-- The descriptor `e1000_transmit` writes for `m`; the status is left as it
was. -/
def fillDesc (d : TxDesc) (m : Mbuf) : TxDesc :=
  { d with addr := m.head, length := UInt16.ofNat m.len,
           cmd := E1000_TXD_CMD_RS ||| E1000_TXD_CMD_EOP }

/-- The descriptor at `TDH` is done: `DD` is written when `RS` is set. -/
def completeDesc (d : TxDesc) : TxDesc :=
  if d.cmd &&& E1000_TXD_CMD_RS ≠ 0 then { d with status := d.status ||| E1000_TXD_STAT_DD }
  else d

/-- `e1000_transmit(m)` under `e1000_lock`, with its return value. -/
def e1000Transmit (s : TxState) (m : Mbuf) : TxState × Int :=
  let i := s.tdt
  if (s.ring i).status &&& E1000_TXD_STAT_DD = 0 then (s, -1)
  else
    -- `mbuffree` of the mbuf the slot held, then fill the slot and advance
    ({ s with ring := Function.update s.ring i (fillDesc (s.ring i) m),
              mbufs := Function.update s.mbufs i (some m),
              tdt := Ring.next i,
              freed := s.freed ++ (s.mbufs i).toList }, 0)

/-- The tail of `net_tx_eth`: hand the frame to `e1000_transmit`, and free
it if the ring refused it. -/
def netTxEth (s : TxState) (m : Mbuf) : TxState :=
  let r := e1000Transmit s m
  if r.2 ≠ 0 then { r.1 with freed := r.1.freed ++ [m] }
  else { r.1 with accepted := r.1.accepted ++ [m] }

/-- One step of the device: send the descriptor at `TDH`, if it owns
one. -/
def txDevice (s : TxState) : Option TxState :=
  if s.tdh = s.tdt then none
  else
    some { s with ring := Function.update s.ring s.tdh (completeDesc (s.ring s.tdh)),
                  tdh := Ring.next s.tdh,
                  sent := s.sent ++ [((s.ring s.tdh).addr, (s.ring s.tdh).length.toNat)] }

/-- The events of the transmit side. -/
inductive TxEv
  /-- `net_tx_eth` sends `m` -/
  | send (m : Mbuf)
  /-- the device processes one descriptor -/
  | device
  deriving DecidableEq, Repr

/-- The step of the transmit side. -/
def txStep (s : TxState) : TxEv → Option TxState
  | .send m => some (netTxEth s m)
  | .device => txDevice s

/-- The driver and the device from `e1000_init`. -/
def txSystem : System TxState TxEv := ⟨TxState.init, txStep⟩

/-- The number of descriptors the device owns. -/
def TxState.owned (s : TxState) : Nat := Ring.dist s.tdh s.tdt

/-- Every status has `DD` set. -/
def AllDone (s : TxState) : Prop := ∀ i, (s.ring i).status &&& E1000_TXD_STAT_DD ≠ 0

theorem or_dd_done (x : UInt8) : (x ||| E1000_TXD_STAT_DD) &&& E1000_TXD_STAT_DD ≠ 0 := by
  intro h
  have := congrArg (fun y => (UInt8.toBitVec y).getLsbD 0) h
  simp [E1000_TXD_STAT_DD] at this

theorem completeDesc_status_done (d : TxDesc) :
    (completeDesc d).status &&& E1000_TXD_STAT_DD ≠ 0 ∨ (completeDesc d).status = d.status := by
  unfold completeDesc
  split
  · exact .inl (or_dd_done _)
  · exact .inr rfl

@[simp] theorem fillDesc_status (d : TxDesc) (m : Mbuf) : (fillDesc d m).status = d.status :=
  rfl

/-- `e1000_transmit` leaves every status as it was. -/
theorem e1000Transmit_status (s : TxState) (m : Mbuf) (j : Fin TX_RING_SIZE) :
    ((e1000Transmit s m).1.ring j).status = (s.ring j).status := by
  unfold e1000Transmit
  dsimp only
  split
  · rfl
  · simp only [Function.update_apply]
    split
    · rename_i hj
      rw [hj, fillDesc_status]
    · rfl

@[simp] theorem netTxEth_ring (s : TxState) (m : Mbuf) :
    (netTxEth s m).ring = (e1000Transmit s m).1.ring := by
  unfold netTxEth
  dsimp only
  split <;> rfl

/-- A send changes no status, and the device only sets `DD`. -/
theorem AllDone.step {s s' : TxState} {e : TxEv} (hs : AllDone s)
    (h : txStep s e = some s') : AllDone s' := by
  cases e with
  | send m =>
      cases h
      intro i
      rw [netTxEth_ring, e1000Transmit_status]
      exact hs i
  | device =>
      simp only [txStep, txDevice] at h
      split at h
      · cases h
      · cases h
        intro i
        simp only [Function.update_apply]
        split
        · rename_i hi
          subst hi
          rcases completeDesc_status_done (s.ring s.tdh) with hd | hd
          · exact hd
          · rw [hd]
            exact hs _
        · exact hs i

theorem allDone_init : AllDone TxState.init := by
  intro i
  simp only [TxState.init]
  decide

/-- `DD` is set in every descriptor of every reachable state. -/
theorem dd_reachable : txSystem.Invariant AllDone :=
  System.invariant_of_step txSystem allDone_init fun _ _ _ hs h => hs.step h

/-- So `e1000_transmit` never finds the ring full: it accepts every
packet, whatever the device has done. -/
theorem e1000Transmit_ok {s : TxState} (hr : txSystem.Reachable s) (m : Mbuf) :
    (e1000Transmit s m).2 = 0 := by
  have := dd_reachable s hr s.tdt
  simp [e1000Transmit, this]

/-- A send in a reachable state gives the device one more descriptor,
except when the device already owns `TX_RING_SIZE - 1`: then `TDT` lands on
`TDH` and the device owns none. -/
theorem send_fills_ring {s : TxState} (hr : txSystem.Reachable s) (m : Mbuf) :
    (netTxEth s m).owned = if s.owned + 1 = TX_RING_SIZE then 0 else s.owned + 1 := by
  have hok := e1000Transmit_ok hr m
  have hdd := dd_reachable s hr s.tdt
  simp only [netTxEth, hok, ne_eq, not_true_eq_false, if_false]
  simp only [e1000Transmit, hdd, if_false, TxState.owned]
  exact Ring.dist_next_right s.tdh s.tdt

/-- `k` packets sent back to back, the `j`-th an mbuf at address `j + 1`
whose 42-byte frame starts at `4096 * (j + 1)`. -/
def backToBack (k : Nat) : List TxEv :=
  (List.range k).map fun j => .send ⟨j + 1, 4096 * (j + 1), 42⟩

/-- Sixteen sends in a row from `e1000_init`, before the device runs:
all are accepted, none is sent, and the device owns no descriptor, so it
has nothing to do.  A seventeenth send is accepted too, and frees the first
mbuf, which the device never sent. -/
theorem transmit_overruns_ring :
    (txSystem.run (backToBack 16)).map
        (fun s => (s.owned, s.accepted.length, s.sent, (txDevice s).isNone)) =
      some (0, 16, [], true) ∧
    (txSystem.run (backToBack 17)).map (fun s => (s.freed, s.sent)) =
      some ([⟨1, 4096, 42⟩], []) := by
  set_option maxRecDepth 2000 in decide

end E1000
end Xv6
