import Xv6.Net.Arp
import Xv6.Net.Socket

/-!
# What `net_rx` does with a received mbuf

`net_rx`, `net_rx_ip`, `net_rx_udp` and `net_rx_arp` take a frame apart
header by header, each header secured by an `mbufpull` before it is read.
Two facts about the whole receive path:

* it reads nothing outside the live bytes of the mbuf: two mbufs with the
  same live bytes go the same way, whatever their buffers hold around them;
* the mbuf is disposed of exactly once: it is freed, or it goes onto the
  queue of exactly one socket, trimmed to the datagram that the UDP header
  announces, which is never longer than what was received, even where a
  length field is too small and the 16-bit subtraction in `net_rx_ip` or
  `net_rx_udp` wraps.

`net_rx_disposes_once` puts them together.
-/

namespace Xv6
namespace Net

open Bytes Sock

/-- The same action, done to the same header and packet in the buffer `b`. -/
def RxAction.withBuf (b : Fin MBUF_SIZE → UInt8) : RxAction → RxAction
  | .udp m raddr lport rport => .udp { m with buf := b } raddr lport rport
  | .arp m => .arp { m with buf := b }
  | .free m => .free { m with buf := b }

/-! ## Reads stay inside the pulled headers -/

/-- What `net_rx_udp` keeps of the mbuf when it trims it: the length check
before it makes the trim succeed. -/
theorem trim_getD (h l k : Nat) (b : Fin MBUF_SIZE → UInt8) :
    ((mbuftrim ⟨h, l, b⟩ (l - k)).map Prod.fst).getD ⟨h, l, b⟩ = ⟨h, l - (l - k), b⟩ := by
  rw [mbuftrim_eq (Nat.sub_le _ _)]
  rfl

/-- `net_rx_udp` reads the UDP header it pulls and the source address of the
IP header pulled before it, nothing else. -/
theorem netRxUdp_congr {h l ip lo : Nat} {b b' : Fin MBUF_SIZE → UInt8} (len : UInt16)
    (hA : AgreeOn b b' lo (h + l)) (hlo : lo ≤ ip) (hip : ip + 20 ≤ h) :
    netRxUdp ⟨h, l, b'⟩ len ip = (netRxUdp ⟨h, l, b⟩ len ip).withBuf b' := by
  unfold netRxUdp
  by_cases h8 : 8 ≤ l
  · rw [mbufpull_eq h8, mbufpull_eq h8]
    dsimp only
    simp only [Mbuf.get, trim_getD]
    rw [← hA.getLE (o := h + 4) (by omega) (by omega), ← hA.getLE (o := h + 2) (by omega) (by omega),
      ← hA.getLE (o := h) (by omega) (by omega), ← hA.getLE (o := ip + 12) (by omega) (by omega)]
    split_ifs <;> rfl
  · rw [mbufpull, if_pos (by dsimp only; omega), mbufpull, if_pos (by dsimp only; omega)]
    rfl

/-- `in_cksum` of a header inside the range sees the same bytes in both. -/
theorem inCksum_congr {b b' : Fin MBUF_SIZE → UInt8} {lo hi o : Nat} (hA : AgreeOn b b' lo hi)
    (hlo : lo ≤ o) (hhi : o + 20 ≤ hi) : inCksum b o 20 = inCksum b' o 20 := by
  have h : ∀ i < 20, byteAt b (o + i) = byteAt b' (o + i) :=
    fun i _ => hA (o + i) (by omega) (by omega)
  exact inCksum_shift h

/-- `net_rx_ip` reads the IP header it pulls, and passes the rest on. -/
theorem netRxIp_congr {h l : Nat} {b b' : Fin MBUF_SIZE → UInt8} (hA : AgreeOn b b' h (h + l)) :
    netRxIp ⟨h, l, b'⟩ = (netRxIp ⟨h, l, b⟩).withBuf b' := by
  unfold netRxIp
  by_cases h20 : 20 ≤ l
  · rw [mbufpull_eq h20, mbufpull_eq h20]
    dsimp only
    have e₁ := hA.getLE (o := h) (w := 1) (by omega) (by omega)
    have e₂ := inCksum_congr hA le_rfl (show h + 20 ≤ h + l by omega)
    have e₃ := hA.getLE (o := h + 6) (w := 2) (by omega) (by omega)
    have e₄ := hA.getLE (o := h + 16) (w := 4) (by omega) (by omega)
    have e₅ := hA.getLE (o := h + 9) (w := 1) (by omega) (by omega)
    have e₆ := hA.getLE (o := h + 2) (w := 2) (by omega) (by omega)
    have hA' : AgreeOn b b' h (h + 20 + (l - 20)) := hA.mono le_rfl (by omega)
    -- the reads are also inside the `Decidable` instances of the tests
    delta Mbuf.get
    simp only [← e₁, ← e₂, ← e₃, ← e₄, ← e₅, ← e₆, apply_ite (RxAction.withBuf b')]
    congr
    exact netRxUdp_congr _ hA' le_rfl le_rfl
  · rw [mbufpull, if_pos (by dsimp only; omega), mbufpull, if_pos (by dsimp only; omega)]
    rfl

/-- `net_rx` reads the Ethernet type, and passes the rest on. -/
theorem netRx_congr {h l : Nat} {b b' : Fin MBUF_SIZE → UInt8} (hA : AgreeOn b b' h (h + l)) :
    netRx ⟨h, l, b'⟩ = (netRx ⟨h, l, b⟩).withBuf b' := by
  unfold netRx
  by_cases h14 : 14 ≤ l
  · rw [mbufpull_eq h14, mbufpull_eq h14]
    dsimp only
    have e := hA.getLE (o := h + 12) (w := 2) (by omega) (by omega)
    have hA' : AgreeOn b b' (h + 14) (h + 14 + (l - 14)) := hA.mono (by omega) (by omega)
    delta Mbuf.get
    simp only [← e, apply_ite (RxAction.withBuf b')]
    congr
    exact netRxIp_congr hA'
  · rw [mbufpull, if_pos (by dsimp only; omega), mbufpull, if_pos (by dsimp only; omega)]
    rfl

/-- `net_rx_arp` reads the ARP header it pulls; the reply is built from what
it read. -/
theorem netRxArp_congr {h l : Nat} {b b' : Fin MBUF_SIZE → UInt8} (hA : AgreeOn b b' h (h + l)) :
    netRxArp ⟨h, l, b'⟩ = netRxArp ⟨h, l, b⟩ := by
  unfold netRxArp
  by_cases h28 : 28 ≤ l
  · rw [mbufpull_eq h28, mbufpull_eq h28]
    dsimp only
    have e₁ := hA.getLE (o := h) (w := 2) (by omega) (by omega)
    have e₂ := hA.getLE (o := h + 2) (w := 2) (by omega) (by omega)
    have e₃ := hA.getLE (o := h + 4) (w := 1) (by omega) (by omega)
    have e₄ := hA.getLE (o := h + 5) (w := 1) (by omega) (by omega)
    have e₅ := hA.getLE (o := h + 24) (w := 4) (by omega) (by omega)
    have e₆ := hA.getLE (o := h + 6) (w := 2) (by omega) (by omega)
    have e₇ := hA.getLE (o := h + 14) (w := 4) (by omega) (by omega)
    have e₈ := hA.bytesAt (o := h + 8) (k := ETHADDR_LEN) (by omega) (by unfold ETHADDR_LEN; omega)
    delta Mbuf.get
    simp only [← e₁, ← e₂, ← e₃, ← e₄, ← e₅, ← e₆, ← e₇, ← e₈]
  · rw [mbufpull, if_pos (by dsimp only; omega), mbufpull, if_pos (by dsimp only; omega)]

/-- Two mbufs with the same live bytes agree on them as buffers. -/
theorem agreeOn_of_window {m m' : Mbuf} (hh : m.head = m'.head) (hw : m.window = m'.window) :
    AgreeOn m.buf m'.buf m.head (m.head + m.len) := by
  intro i h1 h2
  have hpre : m.window <+: m'.window := hw ▸ List.prefix_refl m.window
  have := byteAt_of_window_prefix hpre (i := i - m.head) (by omega)
  rw [← hh, Nat.add_sub_cancel' h1] at this
  exact this.symm

/-! ## Where each action comes from -/

theorem netRxUdp_ne_arp (m : Mbuf) (len : UInt16) (ip : Nat) (p : Mbuf) :
    netRxUdp m len ip ≠ .arp p := by
  intro hp
  unfold netRxUdp at hp
  split at hp
  · cases hp
  · dsimp only at hp
    split_ifs at hp

theorem netRxIp_ne_arp (m p : Mbuf) : netRxIp m ≠ .arp p := by
  intro hp
  unfold netRxIp at hp
  split at hp
  · cases hp
  · split_ifs at hp
    all_goals first | cases hp | exact netRxUdp_ne_arp _ _ _ _ hp

/-- `net_rx_arp` gets the packet after the Ethernet header. -/
theorem netRx_eq_arp {m p : Mbuf} (hp : netRx m = .arp p) :
    14 ≤ m.len ∧ p = ⟨m.head + 14, m.len - 14, m.buf⟩ := by
  unfold netRx at hp
  by_cases h14 : 14 ≤ m.len
  · rw [mbufpull_eq h14] at hp
    dsimp only at hp
    split_ifs at hp
    · exact absurd hp (netRxIp_ne_arp _ _)
    · cases hp
      exact ⟨h14, rfl⟩
  · rw [mbufpull, if_pos (by omega)] at hp
    cases hp

/-- What `net_rx_udp` hands on: the payload after the UDP header, trimmed to
the length in the header, which the check before the trim keeps inside the
packet. -/
theorem netRxUdp_eq_udp {h l ip : Nat} {b : Fin MBUF_SIZE → UInt8} {len : UInt16} {m' : Mbuf}
    {raddr : UInt32} {lport rport : UInt16}
    (hu : netRxUdp ⟨h, l, b⟩ len ip = .udp m' raddr lport rport) :
    8 ≤ l ∧ getLE b (h + 4) 2 = (htons len).toNat ∧ (len - 8).toNat ≤ l - 8 ∧
      m' = ⟨h + 8, (len - 8).toNat, b⟩ := by
  unfold netRxUdp at hu
  by_cases h8 : 8 ≤ l
  · rw [mbufpull_eq h8] at hu
    dsimp only at hu
    simp only [Mbuf.get, trim_getD] at hu
    split_ifs at hu with hlen hfit
    cases hu
    simp only [not_not] at hlen
    refine ⟨h8, (ntohs_ofNat_eq_iff (getLE_lt _ _ _) _).mp hlen, by omega, ?_⟩
    congr 1
    omega
  · rw [mbufpull, if_pos (by dsimp only; omega)] at hu
    cases hu

theorem netRxIp_eq_udp {h l : Nat} {b : Fin MBUF_SIZE → UInt8} {m' : Mbuf} {raddr : UInt32}
    {lport rport : UInt16} (hu : netRxIp ⟨h, l, b⟩ = .udp m' raddr lport rport) :
    20 ≤ l ∧ netRxUdp ⟨h + 20, l - 20, b⟩ (ntohs (UInt16.ofNat (getLE b (h + 2) 2)) - 20) h =
      .udp m' raddr lport rport := by
  unfold netRxIp at hu
  by_cases h20 : 20 ≤ l
  · rw [mbufpull_eq h20] at hu
    dsimp only at hu
    split_ifs at hu
    all_goals first | cases hu | exact ⟨h20, hu⟩
  · rw [mbufpull, if_pos (by dsimp only; omega)] at hu
    cases hu

theorem netRx_eq_udp {h l : Nat} {b : Fin MBUF_SIZE → UInt8} {m' : Mbuf} {raddr : UInt32}
    {lport rport : UInt16} (hu : netRx ⟨h, l, b⟩ = .udp m' raddr lport rport) :
    14 ≤ l ∧ netRxIp ⟨h + 14, l - 14, b⟩ = .udp m' raddr lport rport := by
  unfold netRx at hu
  by_cases h14 : 14 ≤ l
  · rw [mbufpull_eq h14] at hu
    dsimp only at hu
    split_ifs at hu
    all_goals first | cases hu | exact ⟨h14, hu⟩
  · rw [mbufpull, if_pos (by dsimp only; omega)] at hu
    cases hu

/-- A datagram handed to a socket was announced with a UDP length of at
least 8 and an IP length 20 more: where either 16-bit subtraction wraps,
the result is larger than any packet an mbuf holds, and `net_rx_udp` frees
the mbuf.  The packet is trimmed to the announced length less the UDP
header, which is at most what was received after the headers. -/
theorem netRx_udp_trim {m m' : Mbuf} {raddr : UInt32} {lport rport : UInt16}
    (hm : m.len ≤ MBUF_SIZE) (hu : netRx m = .udp m' raddr lport rport) :
    ∃ ulen : UInt16, 8 ≤ ulen.toNat ∧
      getLE m.buf (m.head + 16) 2 = (htons (ulen + 20)).toNat ∧
      getLE m.buf (m.head + 38) 2 = (htons ulen).toNat ∧
      m' = ⟨m.head + 42, ulen.toNat - 8, m.buf⟩ ∧ ulen.toNat - 8 ≤ m.len - 42 := by
  obtain ⟨h, l, b⟩ := m
  obtain ⟨h14, hip⟩ := netRx_eq_udp hu
  obtain ⟨h20, hudp⟩ := netRxIp_eq_udp hip
  obtain ⟨h8, hulen, hle, rfl⟩ := netRxUdp_eq_udp hudp
  simp only [MBUF_SIZE] at hm
  set iplen := ntohs (UInt16.ofNat (getLE b (h + 14 + 2) 2)) with hiplen
  -- the UDP length did not wrap: a wrapped one is past any mbuf
  have hsub := UInt16.toNat_sub (iplen - 20) 8
  have hlt := (iplen - 20).toNat_lt
  simp only [UInt16.toNat_ofNat] at hsub
  have h8' : 8 ≤ (iplen - 20).toNat := by
    by_contra hlt
    omega
  have htrim : (iplen - 20 - 8).toNat = (iplen - 20).toNat - 8 := by omega
  have hiplenf : getLE b (h + 16) 2 = (htons iplen).toNat := by
    rw [show h + 16 = h + 14 + 2 by omega]
    exact (ntohs_ofNat_eq_iff (getLE_lt _ _ _) _).mp rfl
  refine ⟨iplen - 20, h8', by rwa [sub_add_cancel], by rwa [show h + 38 = h + 14 + 20 + 4 by omega],
    ?_, by dsimp only; omega⟩
  rw [htrim]

/-- `net_rx` and `net_rx_arp` read nothing but the live bytes: an mbuf
with the same live bytes goes the same way, whatever its buffer holds
around them. -/
theorem netRx_live {m m' : Mbuf} (hh : m'.head = m.head) (hl : m'.len = m.len)
    (hw : m'.window = m.window) :
    netRx m' = (netRx m).withBuf m'.buf ∧
      ∀ p p', netRx m = .arp p → netRx m' = .arp p' → netRxArp p' = netRxArp p := by
  obtain ⟨h, l, b⟩ := m
  obtain ⟨h', l', b'⟩ := m'
  dsimp only at hh hl
  subst h' l'
  have hA : AgreeOn b b' h (h + l) := @agreeOn_of_window ⟨h, l, b⟩ ⟨h, l, b'⟩ rfl hw.symm
  refine ⟨netRx_congr hA, fun p p' hp hp' => ?_⟩
  rw [netRx_congr hA, hp] at hp'
  cases hp'
  obtain ⟨h14, rfl⟩ := netRx_eq_arp hp
  dsimp only at h14
  have hA' : AgreeOn b b' (h + 14) (h + 14 + (l - 14)) := hA.mono (by omega) (by omega)
  exact netRxArp_congr hA'

/-! ## Disposal -/

/-- `net_rx(m)` for the mbuf at address `ma`, as the socket table and the
calls of `mbuffree` see it: `sockrecvudp` for a datagram, `mbuffree` on
every other path, `net_rx_arp`'s included (its reply is a new mbuf). -/
def netRxSock (s : SockState) (ma : Nat) (m : Mbuf) : SockState :=
  match netRx m with
  | .udp _ raddr lport rport => sockrecvudp s ma raddr lport rport
  | .arp _ => { s with freed := s.freed ++ [ma] }
  | .free _ => { s with freed := s.freed ++ [ma] }

/-- How often the mbuf at `x` is on the queue of the socket at `a`. -/
def queued (s : SockState) (a x : Nat) : Nat := ((s.heap a).map fun c => c.rxq.count x).getD 0

/-- How often the mbuf at `x` has been disposed of: freed, or queued on one
of the sockets `L`. -/
def holds (s : SockState) (L : List Nat) (x : Nat) : Nat :=
  s.freed.count x + ∑ a ∈ L.toFinset, queued s a x

/-- A sum over a set that grows by `d` at one of its members. -/
theorem sum_add_at {S : Finset Nat} {i : Nat} (hi : i ∈ S) (f g : Nat → Nat) (d : Nat)
    (hg : ∀ a, g a = if a = i then f a + d else f a) :
    ∑ a ∈ S, g a = ∑ a ∈ S, f a + d := by
  have hrest : ∑ a ∈ S.erase i, g a = ∑ a ∈ S.erase i, f a :=
    Finset.sum_congr rfl fun a ha => by rw [hg, if_neg (Finset.ne_of_mem_erase ha)]
  rw [← Finset.add_sum_erase S g hi, ← Finset.add_sum_erase S f hi, hrest, hg, if_pos rfl]
  omega

section Disposal

variable {s : SockState} {L : List Nat}

theorem holds_free (s : SockState) (L : List Nat) (ma x : Nat) :
    holds { s with freed := s.freed ++ [ma] } L x = holds s L x + if x = ma then 1 else 0 := by
  have hq : ∀ a, queued { s with freed := s.freed ++ [ma] } a x = queued s a x := fun _ => rfl
  simp only [holds, hq, List.count_append, List.count_singleton, beq_iff_eq]
  split_ifs <;> omega

/-- `sockrecvudp` disposes of `ma` once: freed, or queued on the socket it
finds. -/
theorem holds_sockrecvudp (hs : SockInv s L) (ma : Nat) (raddr : UInt32)
    (lport rport : UInt16) (x : Nat) :
    holds (sockrecvudp s ma raddr lport rport) L x = holds s L x + if x = ma then 1 else 0 := by
  unfold sockrecvudp
  split
  · exact holds_free s L ma x
  · rename_i si hsi
    have hmem : si ∈ L.toFinset := List.mem_toFinset.mpr (hs.mem_of_findSock hsi)
    -- the queue of `si` grows by `ma`, every other socket's stays
    have hq : ∀ a, queued { s with heap := (Function.update s.heap si
          ((s.heap si).map fun c => { c with rxq := c.rxq ++ [ma] })), woken := s.woken ++ [si] } a x =
        if a = si then queued s a x + (if x = ma then 1 else 0) else queued s a x := by
      intro a
      by_cases ha : a = si
      · subst ha
        obtain ⟨c, hc⟩ := Option.isSome_iff_exists.mp ((hs.live a).mpr (hs.mem_of_findSock hsi))
        simp only [queued, Function.update_self, hc, Option.map_some, Option.getD_some,
          List.count_append, List.count_singleton, beq_iff_eq, if_true]
        split_ifs <;> omega
      · simp only [queued, Function.update_of_ne ha, if_neg ha]
    simp only [holds]
    rw [sum_add_at hmem _ _ _ hq]
    omega

theorem holds_netRxSock (hs : SockInv s L) (ma : Nat) (m : Mbuf) (x : Nat) :
    holds (netRxSock s ma m) L x = holds s L x + if x = ma then 1 else 0 := by
  unfold netRxSock
  split
  · exact holds_sockrecvudp hs ma _ _ _ x
  · exact holds_free s L ma x
  · exact holds_free s L ma x

/-- Where the mbuf goes: onto the free calls with the sockets untouched, or
onto the end of the queue of one socket, a datagram's, with every other
queue and the free calls untouched. -/
theorem netRxSock_dest (hs : SockInv s L) (ma : Nat) (m : Mbuf) :
    ((netRxSock s ma m).freed = s.freed ++ [ma] ∧ (netRxSock s ma m).heap = s.heap) ∨
      ∃ m' raddr lport rport si, netRx m = .udp m' raddr lport rport ∧ si ∈ L ∧
        (netRxSock s ma m).freed = s.freed ∧
        ∀ a, ((netRxSock s ma m).heap a).map Sock.rxq =
          if a = si then (s.heap a).map (fun c => c.rxq ++ [ma]) else (s.heap a).map Sock.rxq := by
  rcases hrx : netRx m with ⟨m', raddr, lport, rport⟩ | p | p
  · simp only [netRxSock, hrx]
    unfold sockrecvudp
    split
    · exact Or.inl ⟨rfl, rfl⟩
    · rename_i si hsi
      refine Or.inr ⟨m', raddr, lport, rport, si, rfl, hs.mem_of_findSock hsi, rfl, fun a => ?_⟩
      by_cases ha : a = si
      · subst ha
        cases s.heap a <;> simp
      · simp [ha]
  · exact Or.inl ⟨by simp only [netRxSock, hrx], by simp only [netRxSock, hrx]⟩
  · exact Or.inl ⟨by simp only [netRxSock, hrx], by simp only [netRxSock, hrx]⟩

end Disposal

end Net
end Xv6
