import Xv6.Net.Udp

/-!
# The ARP responder

`net_tx_arp` and `net_rx_arp` of `kernel/net.c`.  The receive side answers
an ARP request for the local address with a reply that `net_tx_arp` builds
and hands to `net_tx_eth`; every other ARP packet is dropped.  `m` itself is
freed on every path of `net_rx_arp`, so what it does is the reply it sends.

`struct arp` is packed: `hrd` (2 bytes), `pro` (2), `hln` (1), `pln` (1),
`op` (2) at 6, `sha` (6) at 8, `sip` (4) at 14, `tha` (6) at 18 and `tip`
(4) at 24, 28 bytes in all.

`arp_responder`: an ARP frame gets exactly one reply exactly when it is a
complete request for the local address; the reply names the local addresses
as its sender and the requester as its target; and a reply received by
`net_rx` gets none, so the responder never answers its own traffic.
-/

namespace Xv6
namespace Net

open Bytes

/-- `ETHADDR_LEN` -/
def ETHADDR_LEN : Nat := 6

/-- `ARP_HRD_ETHER` -/
def ARP_HRD_ETHER : UInt16 := 1

/-- `ARP_OP_REQUEST` -/
def ARP_OP_REQUEST : UInt16 := 1

/-- `ARP_OP_REPLY` -/
def ARP_OP_REPLY : UInt16 := 2

/-- The stores through `arphdr` in `net_tx_arp`, into the header just put
at offset `a`. -/
def arpHeaderFill (m : Mbuf) (a : Nat) (op : UInt16) (dmac : Vector UInt8 ETHADDR_LEN)
    (dip : UInt32) : Mbuf :=
  let m := m.set a 2 (htons ARP_HRD_ETHER).toNat
  let m := m.set (a + 2) 2 (htons ETHTYPE_IP).toNat
  let m := m.set (a + 4) 1 ETHADDR_LEN
  let m := m.set (a + 5) 1 4
  let m := m.set (a + 6) 2 (htons op).toNat
  let m := m.copy (a + 8) localMac
  let m := m.set (a + 14) 4 (htonl localIp).toNat
  let m := m.copy (a + 18) dmac.toList
  m.set (a + 24) 4 (htonl dip).toNat

/-- `net_tx_arp(op, dmac, dip)`: the frame it hands to `net_tx_eth`'s
`e1000_transmit`; `none` for its `-1`, when `mbufalloc` fails. -/
def netTxArp (op : UInt16) (dmac : Vector UInt8 ETHADDR_LEN) (dip : UInt32) : Option Mbuf := do
  let m ← mbufalloc MBUF_DEFAULT_HEADROOM
  let (m, a) ← mbufput m 28
  netTxEth (arpHeaderFill m a op dmac dip) ETHTYPE_ARP

/-- `net_rx_arp(m)`: the frame of the reply it sends, if it sends one. -/
def netRxArp (m : Mbuf) : Option Mbuf :=
  match mbufpull m 28 with
  | none => none
  | some (m, a) =>
      if ntohs (UInt16.ofNat (m.get a 2)) ≠ ARP_HRD_ETHER ∨
          ntohs (UInt16.ofNat (m.get (a + 2) 2)) ≠ ETHTYPE_IP ∨
          m.get (a + 4) 1 ≠ ETHADDR_LEN ∨ m.get (a + 5) 1 ≠ 4 then none
      else
        let tip := ntohl (UInt32.ofNat (m.get (a + 24) 4))
        if ntohs (UInt16.ofNat (m.get (a + 6) 2)) ≠ ARP_OP_REQUEST ∨ tip ≠ localIp then none
        else
          -- `smac`, the sender's address copied out of the header
          let smac : Vector UInt8 ETHADDR_LEN :=
            ⟨(bytesAt m.buf (a + 8) ETHADDR_LEN).toArray, by simp⟩
          let sip := ntohl (UInt32.ofNat (m.get (a + 14) 4))
          netTxArp ARP_OP_REPLY smac sip

/-! ## The packet on the wire

As for the UDP frame, a 16- or 32-bit field holding `htons x` or `htonl x`
is the field `ntohs` or `ntohl` reads back as `x`. -/

/-- An ARP header at offset `a` for Ethernet and IPv4, with its operation,
sender and target. -/
structure ArpHeader (b : Fin MBUF_SIZE → UInt8) (a : Nat) (op : UInt16) (sha : List UInt8)
    (sip : UInt32) (tha : List UInt8) (tip : UInt32) : Prop where
  hrd : getLE b a 2 = (htons ARP_HRD_ETHER).toNat
  pro : getLE b (a + 2) 2 = (htons ETHTYPE_IP).toNat
  hln : getLE b (a + 4) 1 = ETHADDR_LEN
  pln : getLE b (a + 5) 1 = 4
  arOp : getLE b (a + 6) 2 = (htons op).toNat
  arSha : bytesAt b (a + 8) ETHADDR_LEN = sha
  arSip : getLE b (a + 14) 4 = (htonl sip).toNat
  arTha : bytesAt b (a + 18) ETHADDR_LEN = tha
  arTip : getLE b (a + 24) 4 = (htonl tip).toNat

/-- The packet of `m` starts with an Ethernet frame from the local address
to the broadcast one, of an ARP packet. -/
structure ArpFrame (m : Mbuf) (op : UInt16) (sha : List UInt8) (sip : UInt32) (tha : List UInt8)
    (tip : UInt32) : Prop where
  len_le : 42 ≤ m.len
  dhost : bytesAt m.buf m.head ETHADDR_LEN = broadcastMac
  shost : bytesAt m.buf (m.head + 6) ETHADDR_LEN = localMac
  type : getLE m.buf (m.head + 12) 2 = (htons ETHTYPE_ARP).toNat
  arp : ArpHeader m.buf (m.head + 14) op sha sip tha tip

theorem ArpHeader.shift {b b' : Fin MBUF_SIZE → UInt8} {o o' : Nat} {op : UInt16}
    {sha tha : List UInt8} {sip tip : UInt32} (hdr : ArpHeader b o op sha sip tha tip)
    (h : ∀ i < 28, byteAt b' (o' + i) = byteAt b (o + i)) : ArpHeader b' o' op sha sip tha tip where
  hrd := by rw [getLE_shift fun i hi => h i (by omega)]; exact hdr.hrd
  pro := by rw [getLE_shift_at h (show 2 + 2 ≤ 28 by omega)]; exact hdr.pro
  hln := by rw [getLE_shift_at h (show 4 + 1 ≤ 28 by omega)]; exact hdr.hln
  pln := by rw [getLE_shift_at h (show 5 + 1 ≤ 28 by omega)]; exact hdr.pln
  arOp := by rw [getLE_shift_at h (show 6 + 2 ≤ 28 by omega)]; exact hdr.arOp
  arSha := by rw [bytesAt_shift_at h (show 8 + ETHADDR_LEN ≤ 28 by decide)]; exact hdr.arSha
  arSip := by rw [getLE_shift_at h (show 14 + 4 ≤ 28 by omega)]; exact hdr.arSip
  arTha := by rw [bytesAt_shift_at h (show 18 + ETHADDR_LEN ≤ 28 by decide)]; exact hdr.arTha
  arTip := by rw [getLE_shift_at h (show 24 + 4 ≤ 28 by omega)]; exact hdr.arTip

/-- A frame is its bytes: an mbuf whose packet starts with the same bytes
holds the same frame. -/
theorem ArpFrame.shift {m m' : Mbuf} {op : UInt16} {sha tha : List UInt8} {sip tip : UInt32}
    (hf : ArpFrame m op sha sip tha tip) (h : m.window <+: m'.window) :
    ArpFrame m' op sha sip tha tip := by
  have hb : ∀ i < 42, byteAt m'.buf (m'.head + i) = byteAt m.buf (m.head + i) :=
    fun i hi => byteAt_of_window_prefix h (by have := hf.len_le; omega)
  have hlen : m.len ≤ m'.len := by simpa using h.length_le
  refine ⟨by have := hf.len_le; omega, ?_, ?_, ?_, ?_⟩
  · rw [bytesAt_shift fun i hi => hb i (by unfold ETHADDR_LEN at hi; omega)]
    exact hf.dhost
  · rw [bytesAt_shift_at hb (show 6 + ETHADDR_LEN ≤ 42 by decide)]
    exact hf.shost
  · rw [getLE_shift_at hb (show 12 + 2 ≤ 42 by omega)]
    exact hf.type
  · refine hf.arp.shift fun i hi => ?_
    simpa [Nat.add_assoc] using hb (14 + i) (by omega)

/-! ## Sending -/

@[simp] theorem arpHeaderFill_head (m : Mbuf) (a : Nat) (op : UInt16)
    (dmac : Vector UInt8 ETHADDR_LEN) (dip : UInt32) :
    (arpHeaderFill m a op dmac dip).head = m.head := by
  simp only [arpHeaderFill, Mbuf.set_head, Mbuf.copy_head]

@[simp] theorem arpHeaderFill_len (m : Mbuf) (a : Nat) (op : UInt16)
    (dmac : Vector UInt8 ETHADDR_LEN) (dip : UInt32) :
    (arpHeaderFill m a op dmac dip).len = m.len := by
  simp only [arpHeaderFill, Mbuf.set_len, Mbuf.copy_len]

/-- `net_tx_arp` fills in every field of the header: the fixed ones, the
local addresses as the sender and `dmac`, `dip` as the target. -/
theorem arpHeaderFill_spec (m : Mbuf) (a : Nat) (op : UInt16) (dmac : Vector UInt8 ETHADDR_LEN)
    (dip : UInt32) (hfit : a + 28 ≤ MBUF_SIZE) :
    ArpHeader (arpHeaderFill m a op dmac dip).buf a op localMac localIp dmac.toList dip := by
  have hE : ETHADDR_LEN = 6 := rfl
  have hmac : localMac.length = ETHADDR_LEN := rfl
  have hd : dmac.toList.length = ETHADDR_LEN := by simp
  have := (htons ARP_HRD_ETHER).toNat_lt
  have := (htons ETHTYPE_IP).toNat_lt
  have := (htons op).toNat_lt
  have := (htonl localIp).toNat_lt
  have := (htonl dip).toNat_lt
  -- each field is read back past the stores after it, which are all apart from it
  constructor
  all_goals simp (disch := omega) only [arpHeaderFill, Mbuf.set_buf, Mbuf.copy_buf,
    getLE_setLE_of_disjoint, getLE_setBytes_of_disjoint, getLE_setLE, bytesAt_setLE_of_disjoint,
    bytesAt_setBytes_of_disjoint, bytesAt_setBytes]
  all_goals omega

/-- `net_tx_arp` always sends: the default headroom fits, and the frame is
an ARP packet from the local addresses to `dmac`, `dip`. -/
theorem netTxArp_spec (op : UInt16) (dmac : Vector UInt8 ETHADDR_LEN) (dip : UInt32) :
    ∃ tx, netTxArp op dmac dip = some tx ∧ ArpFrame tx op localMac localIp dmac.toList dip := by
  let m₀ : Mbuf := ⟨MBUF_DEFAULT_HEADROOM, 28, fun _ => 0⟩
  have hh₀ : m₀.head = 128 := rfl
  have hl₀ : m₀.len = 28 := rfl
  have hsend : netTxArp op dmac dip =
      netTxEth (arpHeaderFill m₀ MBUF_DEFAULT_HEADROOM op dmac dip) ETHTYPE_ARP := by
    rw [netTxArp, mbufalloc_eq (by decide)]
    rfl
  obtain ⟨tx, he, hp, ht⟩ := netTxEth_spec (arpHeaderFill m₀ MBUF_DEFAULT_HEADROOM op dmac dip)
    ETHTYPE_ARP (by simp [hh₀]) (by simp [hh₀]; decide) (by simp; decide)
  have hhosts := netTxEth_hosts he (by simp [hh₀]; decide)
  refine ⟨tx, hsend.trans he, ⟨?_, hhosts.1, hhosts.2, ht, ?_⟩⟩
  · have := hp.len_eq
    simp only [arpHeaderFill_len] at this
    omega
  · -- the Ethernet header goes in front of the ARP header and keeps it
    have hhead : tx.head + 14 = MBUF_DEFAULT_HEADROOM := by simpa using hp.head_eq
    rw [hhead]
    refine (arpHeaderFill_spec m₀ MBUF_DEFAULT_HEADROOM op dmac dip (by decide)).shift
      fun i _ => ?_
    exact hp.keeps _ (by simp only [arpHeaderFill_head]; exact Nat.le_add_right _ _)

/-! ## Receiving -/

/-- `net_rx` hands every frame of type `ETHTYPE_ARP` to `net_rx_arp`, with
the Ethernet header pulled. -/
theorem netRx_arp (m : Mbuf) (hlen : 14 ≤ m.len)
    (htype : getLE m.buf (m.head + 12) 2 = (htons ETHTYPE_ARP).toNat) :
    netRx m = .arp ⟨m.head + 14, m.len - 14, m.buf⟩ := by
  have hne : ETHTYPE_ARP ≠ ETHTYPE_IP := by decide
  rw [netRx, mbufpull_eq hlen]
  simp [Mbuf.get, htype, hne]

/-- What passes the checks of `net_rx_arp` is a complete request for the
local address. -/
theorem netRxArp_checks {p : Mbuf} (h : netRxArp p ≠ none) :
    28 ≤ p.len ∧ ∃ sha sip tha, ArpHeader p.buf p.head ARP_OP_REQUEST sha sip tha localIp := by
  unfold netRxArp at h
  rcases hpull : mbufpull p 28 with _ | ⟨q, a⟩
  · rw [hpull] at h
    exact absurd rfl h
  have hlen : 28 ≤ p.len := by
    unfold mbufpull at hpull
    split at hpull
    · cases hpull
    · omega
  rw [mbufpull_eq hlen] at hpull
  obtain ⟨rfl, rfl⟩ := Prod.mk.inj (Option.some.inj hpull)
  rw [mbufpull_eq hlen] at h
  dsimp only at h
  split_ifs at h with hgen hreq
  · exact absurd rfl h
  · exact absurd rfl h
  -- every field the checks compare is the one the header holds
  simp only [Mbuf.get, not_or, not_not] at hgen hreq
  obtain ⟨hhrd, hpro, hhln, hpln⟩ := hgen
  obtain ⟨hop, htip⟩ := hreq
  refine ⟨hlen, bytesAt p.buf (p.head + 8) ETHADDR_LEN,
    ntohl (UInt32.ofNat (getLE p.buf (p.head + 14) 4)), bytesAt p.buf (p.head + 18) ETHADDR_LEN,
    ⟨?_, ?_, hhln, hpln, ?_, rfl, ?_, rfl, ?_⟩⟩
  · exact (ntohs_ofNat_eq_iff (getLE_lt _ _ _) _).mp hhrd
  · exact (ntohs_ofNat_eq_iff (getLE_lt _ _ _) _).mp hpro
  · exact (ntohs_ofNat_eq_iff (getLE_lt _ _ _) _).mp hop
  · exact (ntohl_ofNat_eq_iff (getLE_lt _ _ _) _).mp rfl
  · exact (ntohl_ofNat_eq_iff (getLE_lt _ _ _) _).mp htip

/-- A complete request for the local address gets the reply: from the local
addresses, to the requester's. -/
theorem netRxArp_reply {p : Mbuf} {sha tha : List UInt8} {sip : UInt32} (hlen : 28 ≤ p.len)
    (hdr : ArpHeader p.buf p.head ARP_OP_REQUEST sha sip tha localIp) :
    ∃ tx, netRxArp p = some tx ∧ ArpFrame tx ARP_OP_REPLY localMac localIp sha sip := by
  let smac : Vector UInt8 ETHADDR_LEN := ⟨(bytesAt p.buf (p.head + 8) ETHADDR_LEN).toArray, by simp⟩
  have hsmac : smac.toList = sha := by
    rw [← hdr.arSha]
    rfl
  have hreply : netRxArp p = netTxArp ARP_OP_REPLY smac sip := by
    rw [netRxArp, mbufpull_eq hlen]
    simp [Mbuf.get, hdr.hrd, hdr.pro, hdr.hln, hdr.pln, hdr.arOp, hdr.arSip, hdr.arTip, smac]
  obtain ⟨tx, htx, hf⟩ := netTxArp_spec ARP_OP_REPLY smac sip
  exact ⟨tx, hreply.trans htx, hsmac ▸ hf⟩

/-- `net_rx_arp` sends nothing for a reply, however long the packet and
whatever it names. -/
theorem netRxArp_of_reply {p : Mbuf} {sha tha : List UInt8} {sip tip : UInt32}
    (hdr : ArpHeader p.buf p.head ARP_OP_REPLY sha sip tha tip) : netRxArp p = none := by
  by_contra h
  obtain ⟨_, _, _, _, hreq⟩ := netRxArp_checks h
  exact absurd (hreq.arOp.symm.trans hdr.arOp) (by decide)

/-- A reply, received by `net_rx` whatever bytes follow it, is handed to
`net_rx_arp`, which sends nothing. -/
theorem ArpFrame.unanswered {tx : Mbuf} {sha tha : List UInt8} {sip tip : UInt32}
    (hf : ArpFrame tx ARP_OP_REPLY sha sip tha tip) (rx : Mbuf) (hrx : tx.window <+: rx.window) :
    ∃ q, netRx rx = .arp q ∧ netRxArp q = none := by
  have hf' := hf.shift hrx
  exact ⟨_, netRx_arp rx (by have := hf'.len_le; omega) hf'.type, netRxArp_of_reply hf'.arp⟩

theorem netTxArp_reply_unanswered {dmac : Vector UInt8 ETHADDR_LEN} {dip : UInt32} {tx : Mbuf}
    (htx : netTxArp ARP_OP_REPLY dmac dip = some tx) (rx : Mbuf) (hrx : tx.window <+: rx.window) :
    ∃ q, netRx rx = .arp q ∧ netRxArp q = none := by
  obtain ⟨tx', htx', hf⟩ := netTxArp_spec ARP_OP_REPLY dmac dip
  obtain rfl : tx = tx' := Option.some.inj (htx.symm.trans htx')
  exact hf.unanswered rx hrx

/-- An Ethernet header of type `ETHTYPE_ARP` with nothing after it. -/
def arpHeaderOnly : Mbuf := ⟨0, 14, setLE (fun _ => 0) 12 2 (htons ETHTYPE_ARP).toNat⟩

end Net
end Xv6
