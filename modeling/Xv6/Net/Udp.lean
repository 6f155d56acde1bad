import Xv6.Net.Mbuf

/-!
# Sending and receiving UDP

`net_tx_udp`, `net_tx_ip` and `net_tx_eth`, which prepend the three
headers to a payload in an mbuf, and `net_rx`, `net_rx_ip` and
`net_rx_udp`, which check and strip them, from `kernel/net.c`.  The
receive side ends in one of the three things it can do with the mbuf:
hand it to `sockrecvudp`, to `net_rx_arp`, or free it.

`udp_round_trip`: whatever the payload (as long as it fits after the
default headroom) and the ports, the frame built for the local address
passes every check of the receive side, in whichever mbuf it arrives, and
reaches `sockrecvudp` with the same payload, the local address and the
ports swapped into the receiver's view.
-/

namespace Xv6
namespace Net

open Bytes Cksum

/-- `ETHTYPE_IP` -/
def ETHTYPE_IP : UInt16 := 0x0800

/-- `ETHTYPE_ARP` -/
def ETHTYPE_ARP : UInt16 := 0x0806

/-- `IPPROTO_UDP` -/
def IPPROTO_UDP : UInt8 := 17

/-- `MAKE_IP_ADDR(a, b, c, d)` -/
def MAKE_IP_ADDR (a b c d : UInt32) : UInt32 := (a <<< 24) ||| (b <<< 16) ||| (c <<< 8) ||| d

/-- `local_ip`: QEMU's idea of the guest address. -/
def localIp : UInt32 := MAKE_IP_ADDR 10 0 2 15

/-- `local_mac` -/
def localMac : List UInt8 := [0x52, 0x54, 0x00, 0x12, 0x34, 0x56]

/-- `broadcast_mac` -/
def broadcastMac : List UInt8 := [0xFF, 0xFF, 0xFF, 0xFF, 0xFF, 0xFF]

/-- `(4 << 4) | (20 >> 2)`: IPv4 with a 20-byte header. -/
def IP_VHL : Nat := (4 <<< 4) ||| (20 >>> 2)

/-! ## Sending

`struct eth` is `dhost` (6 bytes), `shost` (6) and `type` (2); `struct ip`
is `ip_vhl`, `ip_tos`, `ip_len` (at 2), `ip_id`, `ip_off` (at 6), `ip_ttl`
(at 8), `ip_p` (at 9), `ip_sum` (at 10), `ip_src` (at 12) and `ip_dst` (at
16); `struct udp` is `sport`, `dport`, `ulen` and `sum`, two bytes each. -/

/-- `net_tx_eth(m, ethtype)`: push the Ethernet header; the result is the
mbuf handed to `e1000_transmit`. -/
def netTxEth (m : Mbuf) (ethtype : UInt16) : Option Mbuf := do
  let m ← mbufpush m 14
  let h := m.head
  let m := m.copy (h + 6) localMac
  let m := m.copy h broadcastMac
  pure (m.set (h + 12) 2 (htons ethtype).toNat)

/-- The stores through `iphdr` in `net_tx_ip`, into the header just
pushed at `m.head`: cleared, then filled, the checksum last. -/
def ipHeaderFill (m : Mbuf) (proto : UInt8) (dip : UInt32) : Mbuf :=
  let h := m.head
  let m := m.set h 20 0
  let m := m.set h 1 IP_VHL
  let m := m.set (h + 9) 1 proto.toNat
  let m := m.set (h + 12) 4 (htonl localIp).toNat
  let m := m.set (h + 16) 4 (htonl dip).toNat
  let m := m.set (h + 2) 2 (htons (UInt16.ofNat m.len)).toNat
  let m := m.set (h + 8) 1 100
  m.set (h + 10) 2 (inCksum m.buf h 20).toNat

/-- `net_tx_ip(m, proto, dip)`: push the IP header, with its checksum. -/
def netTxIp (m : Mbuf) (proto : UInt8) (dip : UInt32) : Option Mbuf := do
  let m ← mbufpush m 20
  netTxEth (ipHeaderFill m proto dip) ETHTYPE_IP

/-- The stores through `udphdr` in `net_tx_udp`. -/
def udpHeaderFill (m : Mbuf) (sport dport : UInt16) : Mbuf :=
  let h := m.head
  let m := m.set h 2 (htons sport).toNat
  let m := m.set (h + 2) 2 (htons dport).toNat
  let m := m.set (h + 4) 2 (htons (UInt16.ofNat m.len)).toNat
  m.set (h + 6) 2 0

/-- `net_tx_udp(m, dip, sport, dport)`: push the UDP header. -/
def netTxUdp (m : Mbuf) (dip : UInt32) (sport dport : UInt16) : Option Mbuf := do
  let m ← mbufpush m 8
  netTxIp (udpHeaderFill m sport dport) IPPROTO_UDP dip

/-- The mbuf `sockwrite` gives `net_tx_udp`: `mbufalloc` with the default
headroom, `mbufput` of the payload's length, and the payload copied in. -/
def sockwriteMbuf (payload : List UInt8) : Option Mbuf := do
  let m ← mbufalloc MBUF_DEFAULT_HEADROOM
  let r ← mbufput m payload.length
  pure (r.1.copy r.2 payload)

/-! ## Receiving -/

/-- What the receive path does with an mbuf in the end. -/
inductive RxAction
  /-- `sockrecvudp(m, raddr, lport, rport)` -/
  | udp (m : Mbuf) (raddr : UInt32) (lport rport : UInt16)
  /-- `net_rx_arp(m)` -/
  | arp (m : Mbuf)
  /-- `mbuffree(m)` -/
  | free (m : Mbuf)

/-- `net_rx_udp(m, len, iphdr)`, with the IP header at offset `ip`. -/
def netRxUdp (m : Mbuf) (len : UInt16) (ip : Nat) : RxAction :=
  match mbufpull m 8 with
  | none => .free m
  | some (m, u) =>
      if ntohs (UInt16.ofNat (m.get (u + 4) 2)) ≠ len then .free m
      else
        let len := len - 8
        if len.toNat > m.len then .free m
        else
          -- the pointer `mbuftrim` returns is not used
          let m := ((mbuftrim m (m.len - len.toNat)).map Prod.fst).getD m
          .udp m (ntohl (UInt32.ofNat (m.get (ip + 12) 4))) (ntohs (UInt16.ofNat (m.get (u + 2) 2)))
            (ntohs (UInt16.ofNat (m.get u 2)))

/-- `net_rx_ip(m)`. -/
def netRxIp (m : Mbuf) : RxAction :=
  match mbufpull m 20 with
  | none => .free m
  | some (m, ip) =>
      if m.get ip 1 ≠ IP_VHL then .free m
      else if inCksum m.buf ip 20 ≠ 0 then .free m
      else if htons (UInt16.ofNat (m.get (ip + 6) 2)) ≠ 0 then .free m
      else if htonl (UInt32.ofNat (m.get (ip + 16) 4)) ≠ localIp then .free m
      else if UInt8.ofNat (m.get (ip + 9) 1) ≠ IPPROTO_UDP then .free m
      else netRxUdp m (ntohs (UInt16.ofNat (m.get (ip + 2) 2)) - 20) ip

/-- `net_rx(m)`. -/
def netRx (m : Mbuf) : RxAction :=
  match mbufpull m 14 with
  | none => .free m
  | some (m, e) =>
      let type := ntohs (UInt16.ofNat (m.get (e + 12) 2))
      if type = ETHTYPE_IP then netRxIp m
      else if type = ETHTYPE_ARP then .arp m
      else .free m

/-! ## The frame between the two sides

What the send side leaves in the buffer and the receive side reads back,
field by field; the fields are little-endian reads of the bytes, so a field
holding `htons x` is the big-endian `x` on the wire. -/

/-- The fields of an IP header at offset `ip` that `net_rx_ip` checks and
`net_rx_udp` reads. -/
structure IpHeader (b : Fin MBUF_SIZE → UInt8) (ip : Nat) (src dst : UInt32) (proto : UInt8)
    (len : Nat) : Prop where
  vhl : getLE b ip 1 = IP_VHL
  sum : inCksum b ip 20 = 0
  off : getLE b (ip + 6) 2 = 0
  p : getLE b (ip + 9) 1 = proto.toNat
  ipLen : getLE b (ip + 2) 2 = (htons (UInt16.ofNat len)).toNat
  ipSrc : getLE b (ip + 12) 4 = (htonl src).toNat
  ipDst : getLE b (ip + 16) 4 = (htonl dst).toNat

/-- The fields of a UDP header at offset `u`. -/
structure UdpHeader (b : Fin MBUF_SIZE → UInt8) (u : Nat) (sport dport : UInt16) (len : Nat) :
    Prop where
  src : getLE b u 2 = (htons sport).toNat
  dst : getLE b (u + 2) 2 = (htons dport).toNat
  ulen : getLE b (u + 4) 2 = (htons (UInt16.ofNat len)).toNat

/-- The packet of `m` starts with an Ethernet frame of an IP packet of a
UDP datagram with `L` bytes of payload (the card may pad a short frame). -/
structure UdpFrame (m : Mbuf) (src dst : UInt32) (sport dport : UInt16) (L : Nat) : Prop where
  len_le : L + 42 ≤ m.len
  type : getLE m.buf (m.head + 12) 2 = (htons ETHTYPE_IP).toNat
  ip : IpHeader m.buf (m.head + 14) src dst IPPROTO_UDP (L + 28)
  udp : UdpHeader m.buf (m.head + 34) sport dport (L + 8)

section Shift

variable {b b' : Fin MBUF_SIZE → UInt8} {o o' : Nat}

theorem IpHeader.shift {src dst : UInt32} {proto : UInt8} {len : Nat}
    (hdr : IpHeader b o src dst proto len) (h : ∀ i < 20, byteAt b' (o' + i) = byteAt b (o + i)) :
    IpHeader b' o' src dst proto len where
  vhl := by rw [getLE_shift fun i hi => h i (by omega)]; exact hdr.vhl
  sum := by rw [inCksum_shift h]; exact hdr.sum
  off := by rw [getLE_shift_at h (show 6 + 2 ≤ 20 by omega)]; exact hdr.off
  p := by rw [getLE_shift_at h (show 9 + 1 ≤ 20 by omega)]; exact hdr.p
  ipLen := by rw [getLE_shift_at h (show 2 + 2 ≤ 20 by omega)]; exact hdr.ipLen
  ipSrc := by rw [getLE_shift_at h (show 12 + 4 ≤ 20 by omega)]; exact hdr.ipSrc
  ipDst := by rw [getLE_shift_at h (show 16 + 4 ≤ 20 by omega)]; exact hdr.ipDst

theorem UdpHeader.shift {sport dport : UInt16} {len : Nat} (hdr : UdpHeader b o sport dport len)
    (h : ∀ i < 8, byteAt b' (o' + i) = byteAt b (o + i)) : UdpHeader b' o' sport dport len where
  src := by rw [getLE_shift fun i hi => h i (by omega)]; exact hdr.src
  dst := by rw [getLE_shift_at h (show 2 + 2 ≤ 8 by omega)]; exact hdr.dst
  ulen := by rw [getLE_shift_at h (show 4 + 2 ≤ 8 by omega)]; exact hdr.ulen

end Shift

/-- A frame is its bytes: an mbuf whose packet starts with the same bytes
holds the same frame. -/
theorem UdpFrame.shift {m m' : Mbuf} {src dst : UInt32} {sport dport : UInt16} {L : Nat}
    (hf : UdpFrame m src dst sport dport L) (h : m.window <+: m'.window) :
    UdpFrame m' src dst sport dport L := by
  have hb : ∀ i < L + 42, byteAt m'.buf (m'.head + i) = byteAt m.buf (m.head + i) :=
    fun i hi => byteAt_of_window_prefix h (by have := hf.len_le; omega)
  have hlen : m.len ≤ m'.len := by simpa using h.length_le
  refine ⟨by have := hf.len_le; omega, ?_, ?_, ?_⟩
  · rw [getLE_shift_at hb (show 12 + 2 ≤ L + 42 by omega)]
    exact hf.type
  · refine hf.ip.shift fun i hi => ?_
    simpa [Nat.add_assoc] using hb (14 + i) (by omega)
  · refine hf.udp.shift fun i hi => ?_
    simpa [Nat.add_assoc] using hb (34 + i) (by omega)

/-! ## Sending builds a frame -/

/-- `m'` is `m` with `k` bytes put in front, the bytes of `m` untouched. -/
structure Prepends (m m' : Mbuf) (k : Nat) : Prop where
  head_eq : m'.head + k = m.head
  len_eq : m'.len = m.len + k
  keeps : ∀ i, m.head ≤ i → byteAt m'.buf i = byteAt m.buf i

theorem Prepends.trans {m m₁ m₂ : Mbuf} {k₁ k₂ : Nat} (h₁ : Prepends m m₁ k₁)
    (h₂ : Prepends m₁ m₂ k₂) : Prepends m m₂ (k₁ + k₂) where
  head_eq := by
    have := h₁.head_eq
    have := h₂.head_eq
    omega
  len_eq := by rw [h₂.len_eq, h₁.len_eq, Nat.add_assoc]
  keeps i hi := by
    have := h₁.head_eq
    rw [h₂.keeps i (by omega), h₁.keeps i hi]

/-- Filling a header in front of `lo` leaves every byte from `lo` on. -/
theorem Prepends.of_fill {m m' : Mbuf} {k : Nat} (hroom : k ≤ m.head)
    (hhead : m'.head = m.head - k) (hlen : m'.len = m.len + k)
    (hkeep : ∀ i, m.head ≤ i → byteAt m'.buf i = byteAt m.buf i) : Prepends m m' k :=
  ⟨by omega, hlen, hkeep⟩

theorem netTxEth_spec (m : Mbuf) (ethtype : UInt16) (hroom : 14 ≤ m.head)
    (hfit : m.head ≤ MBUF_SIZE) (hlen : m.len + 14 < 2 ^ 32) :
    ∃ m', netTxEth m ethtype = some m' ∧ Prepends m m' 14 ∧
      getLE m'.buf (m'.head + 12) 2 = (htons ethtype).toNat := by
  have hmac : localMac.length = 6 := rfl
  have hbc : broadcastMac.length = 6 := rfl
  refine ⟨_, by rw [netTxEth, mbufpush_eq hroom hlen]; rfl, Prepends.of_fill hroom rfl rfl ?_, ?_⟩
  · -- the three stores all lie below the old head
    intro i hi
    simp only [Mbuf.set_buf, Mbuf.copy_buf]
    rw [byteAt_setLE_of_not_mem _ _ (by omega), byteAt_setBytes_of_not_mem _ _ (by omega),
      byteAt_setBytes_of_not_mem _ _ (by omega)]
  · have := (htons ethtype).toNat_lt
    simp only [Mbuf.set_buf, Mbuf.set_head, Mbuf.copy_head]
    rw [getLE_setLE _ _ (by omega)]
    omega

/-- `net_tx_eth` sends every frame to the broadcast address from the local
one. -/
theorem netTxEth_hosts {m m' : Mbuf} {ethtype : UInt16} (he : netTxEth m ethtype = some m')
    (hfit : m.head ≤ MBUF_SIZE) :
    bytesAt m'.buf m'.head 6 = broadcastMac ∧ bytesAt m'.buf (m'.head + 6) 6 = localMac := by
  have hmac : localMac.length = 6 := rfl
  have hbc : broadcastMac.length = 6 := rfl
  unfold netTxEth mbufpush at he
  split at he
  · cases he
  · simp only [Option.bind_eq_bind, Option.bind_some, Option.pure_def, Option.some.injEq] at he
    subst he
    simp only [Mbuf.set_buf, Mbuf.set_head, Mbuf.copy_buf, Mbuf.copy_head]
    -- `dhost` is stored last, over nothing of `shost`; `type` lies after both
    constructor
    · rw [bytesAt_setLE_of_disjoint _ _ (by omega), bytesAt_setBytes _ _ _ hbc (by omega)]
    · rw [bytesAt_setLE_of_disjoint _ _ (by omega), bytesAt_setBytes_of_disjoint _ _ (by omega),
        bytesAt_setBytes _ _ _ hmac (by omega)]

-- by `simp`, not `rfl`: the kernel would unfold the checksum
@[simp] theorem ipHeaderFill_head (m : Mbuf) (proto : UInt8) (dip : UInt32) :
    (ipHeaderFill m proto dip).head = m.head := by
  simp only [ipHeaderFill, Mbuf.set_head]

@[simp] theorem ipHeaderFill_len (m : Mbuf) (proto : UInt8) (dip : UInt32) :
    (ipHeaderFill m proto dip).len = m.len := by
  simp only [ipHeaderFill, Mbuf.set_len]

theorem ipHeaderFill_keeps (m : Mbuf) (proto : UInt8) (dip : UInt32) {i : Nat}
    (hi : m.head + 20 ≤ i) : byteAt (ipHeaderFill m proto dip).buf i = byteAt m.buf i := by
  simp (disch := omega) only [ipHeaderFill, Mbuf.set_buf, Mbuf.set_len, byteAt_setLE_of_not_mem]

/-- `net_tx_ip` fills in every field `net_rx_ip` checks, the checksum
included. -/
theorem ipHeaderFill_spec (m : Mbuf) (proto : UInt8) (dip : UInt32)
    (hfit : m.head + 20 ≤ MBUF_SIZE) :
    IpHeader (ipHeaderFill m proto dip).buf m.head localIp dip proto m.len := by
  have := (htons (UInt16.ofNat m.len)).toNat_lt
  have := (htonl localIp).toNat_lt
  have := (htonl dip).toNat_lt
  have := proto.toNat_lt
  constructor
  all_goals simp (disch := omega) only [ipHeaderFill, Mbuf.set_buf, Mbuf.set_len,
    getLE_setLE_of_disjoint, getLE_setLE]
  · rfl
  · -- the header was summed with its checksum field still zero
    refine inCksum_stored _ _ ?_ hfit
    simp (disch := omega) only [getLE_setLE_of_disjoint]
    exact getLE_setLE_zero _ (by omega) (by omega)
  · exact getLE_setLE_zero _ (by omega) (by omega)
  all_goals omega

theorem netTxIp_spec (m : Mbuf) (proto : UInt8) (dip : UInt32) (hroom : 34 ≤ m.head)
    (hfit : m.head ≤ MBUF_SIZE) (hlen : m.len + 34 < 2 ^ 32) :
    ∃ m', netTxIp m proto dip = some m' ∧ Prepends m m' 34 ∧
      getLE m'.buf (m'.head + 12) 2 = (htons ETHTYPE_IP).toNat ∧
      IpHeader m'.buf (m'.head + 14) localIp dip proto (m.len + 20) := by
  let m₀ : Mbuf := ⟨m.head - 20, m.len + 20, m.buf⟩
  have hh₀ : m₀.head = m.head - 20 := rfl
  have hl₀ : m₀.len = m.len + 20 := rfl
  have hp₁ : Prepends m (ipHeaderFill m₀ proto dip) 20 :=
    Prepends.of_fill (by omega) (by simp [hh₀]) (by simp [hl₀]) fun i hi =>
      ipHeaderFill_keeps m₀ proto dip (by rw [hh₀]; omega)
  obtain ⟨m', he, hp₂, ht⟩ :=
    netTxEth_spec (ipHeaderFill m₀ proto dip) ETHTYPE_IP (by simp [hh₀]; omega) (by simp [hh₀]; omega)
      (by simp [hl₀]; omega)
  refine ⟨m', by rw [netTxIp, mbufpush_eq (by omega) (by omega)]; exact he, hp₁.trans hp₂, ht, ?_⟩
  -- the Ethernet header goes in front of the IP header and keeps it
  have hhead : m'.head + 14 = m₀.head := by simpa using hp₂.head_eq
  rw [hhead]
  refine (ipHeaderFill_spec m₀ proto dip (by rw [hh₀]; omega)).shift fun i _ => ?_
  exact hp₂.keeps _ (by simp)

@[simp] theorem udpHeaderFill_head (m : Mbuf) (sport dport : UInt16) :
    (udpHeaderFill m sport dport).head = m.head := by
  simp only [udpHeaderFill, Mbuf.set_head]

@[simp] theorem udpHeaderFill_len (m : Mbuf) (sport dport : UInt16) :
    (udpHeaderFill m sport dport).len = m.len := by
  simp only [udpHeaderFill, Mbuf.set_len]

theorem udpHeaderFill_keeps (m : Mbuf) (sport dport : UInt16) {i : Nat} (hi : m.head + 8 ≤ i) :
    byteAt (udpHeaderFill m sport dport).buf i = byteAt m.buf i := by
  simp (disch := omega) only [udpHeaderFill, Mbuf.set_buf, Mbuf.set_len, byteAt_setLE_of_not_mem]

theorem udpHeaderFill_spec (m : Mbuf) (sport dport : UInt16) (hfit : m.head + 8 ≤ MBUF_SIZE) :
    UdpHeader (udpHeaderFill m sport dport).buf m.head sport dport m.len := by
  have := (htons sport).toNat_lt
  have := (htons dport).toNat_lt
  have := (htons (UInt16.ofNat m.len)).toNat_lt
  constructor
  all_goals simp (disch := omega) only [udpHeaderFill, Mbuf.set_buf, Mbuf.set_len,
    getLE_setLE_of_disjoint, getLE_setLE]
  all_goals omega

/-- `net_tx_udp` builds a UDP frame for `dip` in front of the payload. -/
theorem netTxUdp_spec (m : Mbuf) (dip : UInt32) (sport dport : UInt16) (hroom : 42 ≤ m.head)
    (hfit : m.head ≤ MBUF_SIZE) (hlen : m.len + 42 < 2 ^ 32) :
    ∃ m', netTxUdp m dip sport dport = some m' ∧ Prepends m m' 42 ∧
      UdpFrame m' localIp dip sport dport m.len := by
  let m₀ : Mbuf := ⟨m.head - 8, m.len + 8, m.buf⟩
  have hh₀ : m₀.head = m.head - 8 := rfl
  have hl₀ : m₀.len = m.len + 8 := rfl
  have hp₁ : Prepends m (udpHeaderFill m₀ sport dport) 8 :=
    Prepends.of_fill (by omega) (by simp [hh₀]) (by simp [hl₀]) fun i hi =>
      udpHeaderFill_keeps m₀ sport dport (by rw [hh₀]; omega)
  obtain ⟨m', he, hp₂, ht, hip⟩ :=
    netTxIp_spec (udpHeaderFill m₀ sport dport) IPPROTO_UDP dip (by simp [hh₀]; omega)
      (by simp [hh₀]; omega) (by simp [hl₀]; omega)
  refine ⟨m', by rw [netTxUdp, mbufpush_eq (by omega) (by omega)]; exact he, hp₁.trans hp₂, ?_⟩
  have hhead : m'.head + 34 = m₀.head := by simpa using hp₂.head_eq
  have hlen : m'.len = m.len + 42 := (hp₁.trans hp₂).len_eq
  refine ⟨by omega, ht, by simpa [hl₀, Nat.add_assoc] using hip, ?_⟩
  rw [hhead]
  refine (udpHeaderFill_spec m₀ sport dport (by rw [hh₀]; omega)).shift fun i _ => ?_
  exact hp₂.keeps _ (by simp)

theorem sockwriteMbuf_spec (payload : List UInt8)
    (hlen : payload.length ≤ MBUF_SIZE - MBUF_DEFAULT_HEADROOM) :
    sockwriteMbuf payload = some ⟨MBUF_DEFAULT_HEADROOM, payload.length,
      setBytes (fun _ => 0) MBUF_DEFAULT_HEADROOM payload⟩ := by
  have hput : (⟨MBUF_DEFAULT_HEADROOM, 0, fun _ => 0⟩ : Mbuf).len + payload.length ≤ MBUF_SIZE := by
    simp only [MBUF_SIZE, MBUF_DEFAULT_HEADROOM] at hlen ⊢
    omega
  simp [sockwriteMbuf, mbufalloc_eq (show MBUF_DEFAULT_HEADROOM ≤ MBUF_SIZE by decide),
    mbufput_eq hput, Mbuf.copy]

/-! ## Receiving takes a frame apart -/

theorem netRx_eq (m : Mbuf) (hlen : 14 ≤ m.len)
    (htype : getLE m.buf (m.head + 12) 2 = (htons ETHTYPE_IP).toNat) :
    netRx m = netRxIp ⟨m.head + 14, m.len - 14, m.buf⟩ := by
  rw [netRx, mbufpull_eq hlen]
  simp [Mbuf.get, htype]

theorem netRxIp_eq (m : Mbuf) {L : Nat} {src : UInt32} (hlen : L + 28 ≤ m.len)
    (hip : IpHeader m.buf m.head src localIp IPPROTO_UDP (L + 28)) :
    netRxIp m = netRxUdp ⟨m.head + 20, m.len - 20, m.buf⟩ (UInt16.ofNat (L + 8)) m.head := by
  -- `ntohs(ip_len) - 20` in 16 bits
  have hlen20 : UInt16.ofNat (L + 28) - 20 = UInt16.ofNat (L + 8) := by
    rw [show L + 28 = (L + 8) + 20 by omega, UInt16.ofNat_add]
    simp
  rw [netRxIp, mbufpull_eq (by omega)]
  simp only [Mbuf.get, hip.vhl, hip.sum, hip.off, hip.ipDst, hip.p, hip.ipLen, UInt16.ofNat_toNat,
    UInt32.ofNat_toNat, UInt8.ofNat_toNat, bswaps_bswaps, bswapl_bswapl, hlen20]
  simp

theorem netRxUdp_eq (m : Mbuf) (ip : Nat) {L : Nat} {src : UInt32} {sport dport : UInt16}
    (hlen : L + 8 ≤ m.len) (hL : L < 65536) (hudp : UdpHeader m.buf m.head sport dport (L + 8))
    (hsrc : getLE m.buf (ip + 12) 4 = (htonl src).toNat) :
    netRxUdp m (UInt16.ofNat (L + 8)) ip = .udp ⟨m.head + 8, L, m.buf⟩ src dport sport := by
  have hmod : L % 65536 = L := Nat.mod_eq_of_lt hL
  -- the length check passes, and the trim cuts off what follows the datagram
  have hfits : ¬ m.len - 8 < L := by omega
  have htrim : ¬ m.len - 8 < m.len - 8 - L := by omega
  have hleft : m.len - 8 - (m.len - 8 - L) = L := by omega
  rw [netRxUdp, mbufpull_eq (by omega)]
  simp [Mbuf.get, hudp.ulen, hudp.src, hudp.dst, hsrc, hmod, mbuftrim, hfits, htrim, hleft]

/-- The receive side hands the payload of every UDP frame for the local
address to `sockrecvudp`, whatever bytes follow the frame. -/
theorem UdpFrame.netRx_udp {m : Mbuf} {src : UInt32} {sport dport : UInt16} {L : Nat}
    (hf : UdpFrame m src localIp sport dport L) (hL : L < 65536) :
    netRx m = .udp ⟨m.head + 42, L, m.buf⟩ src dport sport := by
  have := hf.len_le
  rw [netRx_eq m (by omega) hf.type, netRxIp_eq _ (by simp; omega) hf.ip]
  exact netRxUdp_eq ⟨m.head + 14 + 20, m.len - 14 - 20, m.buf⟩ (m.head + 14) (by simp; omega) hL
    hf.udp hf.ip.ipSrc

/-! ## The round trip -/

/-- A payload that `sockwrite` puts after the default headroom, sent by
`net_tx_udp` to the local address, is received by `net_rx` from any mbuf
whose packet starts with the frame: every check passes, and `sockrecvudp`
gets the same payload, the local address as the remote one, and the ports
swapped. -/
theorem udp_round_trip (payload : List UInt8)
    (hlen : payload.length ≤ MBUF_SIZE - MBUF_DEFAULT_HEADROOM) (sport dport : UInt16) :
    ∃ m tx, sockwriteMbuf payload = some m ∧ netTxUdp m localIp sport dport = some tx ∧
      ∀ rx : Mbuf, tx.window <+: rx.window →
        ∃ m', netRx rx = .udp m' localIp dport sport ∧ m'.window = payload := by
  have hL : payload.length ≤ 1920 := by simpa [MBUF_SIZE, MBUF_DEFAULT_HEADROOM] using hlen
  let m : Mbuf :=
    ⟨MBUF_DEFAULT_HEADROOM, payload.length, setBytes (fun _ => 0) MBUF_DEFAULT_HEADROOM payload⟩
  have hhead : m.head = 128 := rfl
  have hlenm : m.len = payload.length := rfl
  obtain ⟨tx, htx, hp, hf⟩ := netTxUdp_spec m localIp sport dport (by rw [hhead]; omega)
    (by rw [hhead]; decide) (by rw [hlenm]; omega)
  refine ⟨m, tx, sockwriteMbuf_spec payload hlen, htx, fun rx hrx => ?_⟩
  refine ⟨_, (hf.shift hrx).netRx_udp (by rw [hlenm]; omega), ?_⟩
  -- byte `42 + i` of the packet received is byte `128 + i` of the payload sent
  have htxhead : tx.head + 42 = 128 := hp.head_eq
  have htxlen : tx.len = payload.length + 42 := hp.len_eq
  apply List.ext_getElem (by simp [hlenm])
  intro i _ hi
  simp only [Mbuf.window, List.getElem_map, List.getElem_range]
  have hrx₁ : byteAt rx.buf (rx.head + 42 + i) = byteAt tx.buf (tx.head + (42 + i)) := by
    rw [Nat.add_assoc]
    exact byteAt_of_window_prefix hrx (by omega)
  have hpos : tx.head + (42 + i) = 128 + i := by omega
  rw [hrx₁, hp.keeps _ (by rw [hhead]; omega), hpos, byteAt_setBytes,
    if_pos (by simp only [MBUF_DEFAULT_HEADROOM, MBUF_SIZE]; omega)]
  simp [MBUF_DEFAULT_HEADROOM, List.getElem?_eq_getElem hi]

theorem udp_round_trip_threeBytes :
    [1, 2, 3].length ≤ MBUF_SIZE - MBUF_DEFAULT_HEADROOM ∧
      ∃ m tx, sockwriteMbuf [1, 2, 3] = some m ∧ netTxUdp m localIp 2000 25600 = some tx ∧
        ∀ rx : Mbuf, tx.window <+: rx.window →
          ∃ m', netRx rx = .udp m' localIp 25600 2000 ∧ m'.window = [1, 2, 3] :=
  ⟨by decide, udp_round_trip [1, 2, 3] (by decide) 2000 25600⟩

end Net
end Xv6
