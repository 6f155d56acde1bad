import Mathlib
import Xv6.Support.Cksum

/-!
# Packet buffers, byte order and the IP checksum

`struct mbuf` and its operations from `kernel/net.c`, `bswaps`/`bswapl`
from `kernel/net.h`, and `in_cksum`.  An mbuf is its buffer, the offset of
`head` in it and `len`; `mbufpush` and `mbufput` return `none` where the
code panics, and `mbufpull` returns `none` for the null pointer.  Header
fields are little-endian runs of bytes at `head` plus the field's offset.

The byte swaps are involutions (`bswaps_bswaps`, `bswapl_bswapl`), so
`ntohs` undoes `htons` and `ntohl` undoes `htonl`; and `in_cksum` of a
header into which its own checksum was stored is zero (`inCksum_stored`).
-/

namespace Xv6
namespace Net

open Bytes Cksum

/-- `MBUF_SIZE` -/
def MBUF_SIZE : Nat := 2048

/-- `MBUF_DEFAULT_HEADROOM` -/
def MBUF_DEFAULT_HEADROOM : Nat := 128

/-- A `struct mbuf`: `head` as an offset into `buf`, and `len`. -/
structure Mbuf where
  head : Nat
  len : Nat
  buf : Fin MBUF_SIZE → UInt8

/-- `mbufalloc(headroom)`: a zeroed buffer; `kalloc` is taken to succeed. -/
def mbufalloc (headroom : Nat) : Option Mbuf :=
  if headroom > MBUF_SIZE then none else some ⟨headroom, 0, fun _ => 0⟩

/-- `mbufpull(m, len)`: strip `len` bytes from the front, with the old
`head`; `none` when fewer are there. -/
def mbufpull (m : Mbuf) (len : Nat) : Option (Mbuf × Nat) :=
  if m.len < len then none else some ({ m with len := m.len - len, head := m.head + len }, m.head)

/-- `mbufpush(m, len)`: prepend `len` bytes; `none` is the panic when the
headroom is too small.  `m->len += len` is the `unsigned int` sum. -/
def mbufpush (m : Mbuf) (len : Nat) : Option Mbuf :=
  if m.head < len then none else some { m with head := m.head - len, len := (m.len + len) % 2 ^ 32 }

/-- `mbufput(m, len)`: append `len` bytes, with the old end; `none` is the
panic when the new length, the `unsigned int` sum, exceeds `MBUF_SIZE`. -/
def mbufput (m : Mbuf) (len : Nat) : Option (Mbuf × Nat) :=
  let l := (m.len + len) % 2 ^ 32
  if l > MBUF_SIZE then none else some ({ m with len := l }, m.head + m.len)

/-- `mbuftrim(m, len)`: strip `len` bytes from the end, with the new end;
`none` when fewer are there. -/
def mbuftrim (m : Mbuf) (len : Nat) : Option (Mbuf × Nat) :=
  if len > m.len then none else some ({ m with len := m.len - len }, m.head + (m.len - len))

/-- The bytes of the packet: `len` bytes from `head`. -/
def Mbuf.window (m : Mbuf) : List UInt8 :=
  (List.range m.len).map fun i => UInt8.ofNat (byteAt m.buf (m.head + i))

/-- A field of `w` bytes at offset `o` of the buffer. -/
def Mbuf.get (m : Mbuf) (o w : Nat) : Nat := getLE m.buf o w

/-- Store a field of `w` bytes at offset `o` of the buffer. -/
def Mbuf.set (m : Mbuf) (o w v : Nat) : Mbuf := { m with buf := setLE m.buf o w v }

/-- Copy bytes to offset `o` of the buffer. -/
def Mbuf.copy (m : Mbuf) (o : Nat) (l : List UInt8) : Mbuf := { m with buf := setBytes m.buf o l }

@[simp] theorem Mbuf.set_head (m : Mbuf) (o w v : Nat) : (m.set o w v).head = m.head := rfl
@[simp] theorem Mbuf.set_len (m : Mbuf) (o w v : Nat) : (m.set o w v).len = m.len := rfl
@[simp] theorem Mbuf.set_buf (m : Mbuf) (o w v : Nat) : (m.set o w v).buf = setLE m.buf o w v :=
  rfl
@[simp] theorem Mbuf.copy_head (m : Mbuf) (o : Nat) (l : List UInt8) : (m.copy o l).head = m.head :=
  rfl
@[simp] theorem Mbuf.copy_len (m : Mbuf) (o : Nat) (l : List UInt8) : (m.copy o l).len = m.len :=
  rfl
@[simp] theorem Mbuf.copy_buf (m : Mbuf) (o : Nat) (l : List UInt8) :
    (m.copy o l).buf = setBytes m.buf o l := rfl

theorem mbufpush_eq {m : Mbuf} {len : Nat} (h : len ≤ m.head) (hl : m.len + len < 2 ^ 32) :
    mbufpush m len = some ⟨m.head - len, m.len + len, m.buf⟩ := by
  rw [mbufpush, if_neg (by omega), Nat.mod_eq_of_lt hl]

theorem mbufpull_eq {m : Mbuf} {len : Nat} (h : len ≤ m.len) :
    mbufpull m len = some (⟨m.head + len, m.len - len, m.buf⟩, m.head) := by
  rw [mbufpull, if_neg (by omega)]

theorem mbufput_eq {m : Mbuf} {len : Nat} (h : m.len + len ≤ MBUF_SIZE) :
    mbufput m len = some (⟨m.head, m.len + len, m.buf⟩, m.head + m.len) := by
  have hl : (m.len + len) % 2 ^ 32 = m.len + len :=
    Nat.mod_eq_of_lt (lt_of_le_of_lt h (by decide))
  rw [mbufput]
  simp only [hl, if_neg (Nat.not_lt.mpr h)]

theorem mbuftrim_eq {m : Mbuf} {len : Nat} (h : len ≤ m.len) :
    mbuftrim m len = some (⟨m.head, m.len - len, m.buf⟩, m.head + (m.len - len)) := by
  rw [mbuftrim, if_neg (by omega)]

@[simp] theorem Mbuf.length_window (m : Mbuf) : m.window.length = m.len := by
  simp [Mbuf.window]

/-- An mbuf whose packet starts with the packet of another has the same
byte at each offset into it. -/
theorem byteAt_of_window_prefix {m m' : Mbuf} (h : m.window <+: m'.window) {i : Nat}
    (hi : i < m.len) : byteAt m'.buf (m'.head + i) = byteAt m.buf (m.head + i) := by
  have he := h.getElem (by simpa using hi)
  simp only [Mbuf.window, List.getElem_map, List.getElem_range] at he
  have := congrArg UInt8.toNat he
  rw [UInt8.toNat_ofNat_of_lt' (byteAt_lt _ _), UInt8.toNat_ofNat_of_lt' (byteAt_lt _ _)] at this
  exact this.symm

/-! ## The live bytes and `buf`

`net.h` draws the live bytes between the headroom and the tailroom of
`buf`.  `mbufpull`, `mbufpush` and `mbuftrim` keep them there and return
ranges inside it; `mbufput` checks the new length against `MBUF_SIZE` but
not against the room left after `head`, and that length is an `unsigned
int` that can wrap. -/

/-- The live bytes lie inside `buf`: `m->head + m->len <= m->buf + MBUF_SIZE`
(`m->buf <= m->head` holds of an offset). -/
def Mbuf.Inside (m : Mbuf) : Prop := m.head + m.len ≤ MBUF_SIZE

instance (m : Mbuf) : Decidable m.Inside := inferInstanceAs (Decidable (_ ≤ _))

theorem mbufalloc_eq {h : Nat} (hh : h ≤ MBUF_SIZE) : mbufalloc h = some ⟨h, 0, fun _ => 0⟩ := by
  rw [mbufalloc, if_neg (Nat.not_lt.mpr hh)]

theorem mbufalloc_inside {h : Nat} {m : Mbuf} (ha : mbufalloc h = some m) : m.Inside := by
  unfold mbufalloc at ha
  split at ha
  · cases ha
  · rename_i hh
    cases ha
    show h + 0 ≤ MBUF_SIZE
    omega

/-- `mbufpull` fails exactly when fewer than `len` bytes are live, and
otherwise returns the first `len` of them, inside `buf`. -/
theorem mbufpull_inside {m : Mbuf} (hm : m.Inside) (len : Nat) :
    (mbufpull m len = none ↔ m.len < len) ∧
      ∀ m' p, mbufpull m len = some (m', p) → m'.Inside ∧ p = m.head ∧ p + len ≤ MBUF_SIZE := by
  unfold Mbuf.Inside at hm
  unfold mbufpull
  refine ⟨by split <;> rename_i hlt <;> simp [hlt], fun m' p h => ?_⟩
  split at h
  · cases h
  · rename_i hlt
    simp only [Option.some.injEq, Prod.mk.injEq] at h
    obtain ⟨rfl, rfl⟩ := h
    refine ⟨?_, rfl, by omega⟩
    show m.head + len + (m.len - len) ≤ MBUF_SIZE
    omega

/-- `mbuftrim` fails exactly when fewer than `len` bytes are live, and
otherwise returns the last `len` of them, inside `buf`. -/
theorem mbuftrim_inside {m : Mbuf} (hm : m.Inside) (len : Nat) :
    (mbuftrim m len = none ↔ m.len < len) ∧
      ∀ m' p, mbuftrim m len = some (m', p) → m'.Inside ∧ p + len ≤ MBUF_SIZE := by
  unfold Mbuf.Inside at hm
  unfold mbuftrim
  refine ⟨by split <;> rename_i hlt <;> simp [hlt], fun m' p h => ?_⟩
  split at h
  · cases h
  · rename_i hlt
    simp only [Option.some.injEq, Prod.mk.injEq] at h
    obtain ⟨rfl, rfl⟩ := h
    refine ⟨?_, by omega⟩
    show m.head + (m.len - len) ≤ MBUF_SIZE
    omega

/-- `mbufpush` panics exactly when the headroom is short, and otherwise
returns `len` bytes in front of the old ones, inside `buf`; the length
cannot wrap here, as it stays below `MBUF_SIZE`. -/
theorem mbufpush_inside {m : Mbuf} (hm : m.Inside) (len : Nat) :
    (mbufpush m len = none ↔ m.head < len) ∧
      ∀ m', mbufpush m len = some m' → m'.Inside ∧ m'.head + len = m.head := by
  unfold Mbuf.Inside at hm
  have hsize : MBUF_SIZE < 2 ^ 32 := by decide
  refine ⟨by unfold mbufpush; split <;> rename_i hlt <;> simp [hlt], fun m' h => ?_⟩
  by_cases hlen : m.head < len
  · rw [mbufpush, if_pos hlen] at h
    cases h
  · rw [mbufpush_eq (Nat.not_lt.mp hlen) (by omega)] at h
    cases h
    refine ⟨?_, by show m.head - len + len = m.head; omega⟩
    show m.head - len + (m.len + len) ≤ MBUF_SIZE
    omega

/-- `mbufput` from a fresh buffer with headroom `h`: any `len` up to
`MBUF_SIZE` that does not fit after `head` passes the length check, so
the call returns, and the bytes from the pointer it returns run past the
end of `buf`. -/
theorem mbufput_past_buf {h len : Nat} {m : Mbuf} (ha : mbufalloc h = some m)
    (hroom : MBUF_SIZE - h < len) (hlen : len ≤ MBUF_SIZE) :
    ∃ m', mbufput m len = some (m', h) ∧ MBUF_SIZE < m'.head + m'.len ∧ MBUF_SIZE < h + len := by
  have hh : h ≤ MBUF_SIZE := by
    by_contra hgt
    rw [mbufalloc, if_pos (Nat.lt_of_not_le hgt)] at ha
    cases ha
  rw [mbufalloc_eq hh] at ha
  cases ha
  refine ⟨_, mbufput_eq (by show 0 + len ≤ MBUF_SIZE; omega), ?_, by omega⟩
  show MBUF_SIZE < h + (0 + len)
  omega

/-- With the default headroom, a put of `MBUF_SIZE` bytes returns without
a panic and leaves the live bytes `MBUF_DEFAULT_HEADROOM` bytes past the
end of `buf`. -/
theorem mbufput_overruns :
    ∃ m m', mbufalloc MBUF_DEFAULT_HEADROOM = some m ∧
      mbufput m MBUF_SIZE = some (m', MBUF_DEFAULT_HEADROOM) ∧
      m'.head + m'.len = MBUF_SIZE + MBUF_DEFAULT_HEADROOM := by
  have ha : mbufalloc MBUF_DEFAULT_HEADROOM = some ⟨MBUF_DEFAULT_HEADROOM, 0, fun _ => 0⟩ :=
    mbufalloc_eq (by decide)
  obtain ⟨m', hput, -⟩ := mbufput_past_buf ha (by decide) (le_refl _)
  have hm' : m' = ⟨MBUF_DEFAULT_HEADROOM, MBUF_SIZE, fun _ => 0⟩ := by
    rw [mbufput_eq (by decide)] at hput
    simp only [Option.some.injEq, Prod.mk.injEq] at hput
    exact hput.1.symm
  exact ⟨_, m', ha, hput, by rw [hm']; rfl⟩

/-- A put whose length wraps the `unsigned int` counter passes the check
too: the length falls to what it wrapped to, while the caller's `len`
bytes from the returned pointer run past the end of `buf`. -/
theorem mbufput_wraps {m : Mbuf} (hm : m.Inside) (hpos : 0 < m.len) :
    mbufput m (2 ^ 32 - m.len) = some ({ m with len := 0 }, m.head + m.len) ∧
      MBUF_SIZE < m.head + m.len + (2 ^ 32 - m.len) := by
  unfold Mbuf.Inside at hm
  have hsize : MBUF_SIZE < 2 ^ 32 := by decide
  have hwrap : (m.len + (2 ^ 32 - m.len)) % 2 ^ 32 = 0 := by
    rw [Nat.add_sub_cancel' (by omega), Nat.mod_self]
  refine ⟨?_, by omega⟩
  rw [mbufput]
  simp only [hwrap, if_neg (Nat.not_lt.mpr (Nat.zero_le _))]

/-! ## Byte order -/

/-- `bswaps` -/
def bswaps (val : UInt16) : UInt16 :=
  ((val &&& 0x00ff) <<< 8) ||| ((val &&& 0xff00) >>> 8)

/-- `bswapl` -/
def bswapl (val : UInt32) : UInt32 :=
  ((val &&& 0x000000ff) <<< 24) ||| ((val &&& 0x0000ff00) <<< 8) |||
    ((val &&& 0x00ff0000) >>> 8) ||| ((val &&& 0xff000000) >>> 24)

/-- `ntohs` -/
abbrev ntohs := bswaps
/-- `htons` -/
abbrev htons := bswaps
/-- `ntohl` -/
abbrev ntohl := bswapl
/-- `htonl` -/
abbrev htonl := bswapl

@[simp] theorem bswaps_bswaps (x : UInt16) : bswaps (bswaps x) = x := by
  apply UInt16.eq_of_toBitVec_eq
  apply BitVec.eq_of_getLsbD_eq
  intro i hi
  simp only [bswaps, UInt16.toBitVec_or, UInt16.toBitVec_and, UInt16.toBitVec_shiftLeft,
    UInt16.toBitVec_shiftRight, UInt16.toBitVec_ofNat, BitVec.ofNat_eq_ofNat, BitVec.reduceMod,
    BitVec.shiftLeft_eq', BitVec.ushiftRight_eq', BitVec.toNat_ofNat, Nat.reducePow, Nat.reduceMod]
  -- bit by bit: each of the sixteen bits comes back to its place (a plain `simp` per bit
  -- is several times slower)
  interval_cases i <;> simp only [BitVec.getLsbD_eq_getElem, BitVec.getLsbD_of_ge, BitVec.getElem_or,
    BitVec.getElem_and, BitVec.getElem_shiftLeft, BitVec.getElem_ushiftRight, BitVec.reduceGetElem,
    Nat.reduceLT, Nat.reduceLeDiff, Nat.reduceAdd, Nat.reduceSub, Nat.sub_eq_zero_of_le,
    Nat.ofNat_pos, zero_tsub, add_zero, decide_true, decide_false, Bool.not_true, Bool.not_false,
    Bool.and_true, Bool.true_and, Bool.false_and, Bool.or_false, Bool.false_or]

@[simp] theorem bswapl_bswapl (x : UInt32) : bswapl (bswapl x) = x := by
  apply UInt32.eq_of_toBitVec_eq
  apply BitVec.eq_of_getLsbD_eq
  intro i hi
  simp only [bswapl, UInt32.toBitVec_or, UInt32.toBitVec_and, UInt32.toBitVec_shiftLeft,
    UInt32.toBitVec_shiftRight, UInt32.toBitVec_ofNat, BitVec.ofNat_eq_ofNat, BitVec.reduceMod,
    BitVec.shiftLeft_eq', BitVec.ushiftRight_eq', BitVec.toNat_ofNat, Nat.reducePow, Nat.reduceMod]
  interval_cases i <;> simp only [BitVec.getLsbD_eq_getElem, BitVec.getLsbD_of_ge, BitVec.getElem_or,
    BitVec.getElem_and, BitVec.getElem_shiftLeft, BitVec.getElem_ushiftRight, BitVec.reduceGetElem,
    Nat.reduceLT, Nat.reduceLeDiff, Nat.reduceAdd, Nat.reduceSub, Nat.sub_eq_zero_of_le,
    Nat.ofNat_pos, zero_tsub, add_zero, decide_true, decide_false, Bool.not_true, Bool.not_false,
    Bool.and_true, Bool.true_and, Bool.and_false, Bool.false_and, Bool.and_self, Bool.or_false,
    Bool.false_or, Bool.or_self]

@[simp] theorem bswaps_zero : bswaps 0 = 0 := rfl

/-- A 16-bit field taken off the wire is `v` exactly when its bytes hold
`htons(v)`. -/
theorem ntohs_ofNat_eq_iff {x : Nat} (hx : x < 2 ^ 16) (v : UInt16) :
    ntohs (UInt16.ofNat x) = v ↔ x = (htons v).toNat := by
  constructor
  · rintro rfl
    show x = (bswaps (bswaps (UInt16.ofNat x))).toNat
    rw [bswaps_bswaps, UInt16.toNat_ofNat_of_lt' hx]
  · rintro rfl
    simp

/-- A 32-bit field taken off the wire is `v` exactly when its bytes hold
`htonl(v)`. -/
theorem ntohl_ofNat_eq_iff {x : Nat} (hx : x < 2 ^ 32) (v : UInt32) :
    ntohl (UInt32.ofNat x) = v ↔ x = (htonl v).toNat := by
  constructor
  · rintro rfl
    show x = (bswapl (bswapl (UInt32.ofNat x))).toNat
    rw [bswapl_bswapl, UInt32.toNat_ofNat_of_lt' hx]
  · rintro rfl
    simp

/-! ## `in_cksum` -/

/-- The `while (nleft > 1)` loop of `in_cksum`: add the 16-bit words at
`w`, `w + 2`, …; it returns the sum, the position and the bytes left. -/
def cksumWords (b : Fin MBUF_SIZE → UInt8) : Nat → Nat → UInt32 → UInt32 × Nat × Nat
  | w, nleft + 2, sum => cksumWords b (w + 2) nleft (sum + UInt32.ofNat (getLE b w 2))
  | w, nleft, sum => (sum, w, nleft)

/-- `in_cksum(addr, len)` over the bytes of `b` from offset `addr`. -/
def inCksum (b : Fin MBUF_SIZE → UInt8) (addr len : Nat) : UInt16 :=
  let r := cksumWords b addr len 0
  -- mop up an odd byte, then fold the carries back twice
  let sum := if r.2.2 = 1 then r.1 + UInt32.ofNat (byteAt b r.2.1) else r.1
  let sum : UInt32 := (sum &&& (0xffff : UInt32)) + (sum >>> (16 : UInt32))
  let sum : UInt32 := sum + (sum >>> (16 : UInt32))
  ~~~sum.toUInt16

theorem cksumWords_even (b : Fin MBUF_SIZE → UInt8) (w k : Nat) (s : UInt32) :
    cksumWords b w (2 * k) s = (s + UInt32.ofNat (wordSum b w k), w + 2 * k, 0) := by
  induction k generalizing w s with
  | zero => simp [cksumWords, wordSum]
  | succ k ih =>
      rw [show 2 * (k + 1) = 2 * k + 2 by omega, cksumWords, ih, wordSum, UInt32.ofNat_add,
        UInt32.add_assoc]
      simp only [Prod.mk.injEq, true_and, and_true]
      omega

theorem toNat_and_ffff (x : UInt32) : (x &&& (0xffff : UInt32)).toNat = x.toNat % 65536 := by
  rw [UInt32.toNat_and]
  show x.toNat &&& (2 ^ 16 - 1) = _
  rw [Nat.and_two_pow_sub_one_eq_mod]

theorem toNat_shiftRight_16 (x : UInt32) : (x >>> (16 : UInt32)).toNat = x.toNat / 65536 := by
  rw [UInt32.toNat_shiftRight]
  show x.toNat >>> 16 = _
  rw [Nat.shiftRight_eq_div_pow]

/-- For an even length, `in_cksum` is the complement of the folded word
sum. -/
theorem inCksum_even (b : Fin MBUF_SIZE → UInt8) (o k : Nat) (hk : k ≤ 65536) :
    (inCksum b o (2 * k)).toNat = 65535 - fold (wordSum b o k) := by
  have hN := wordSum_lt b o k
  have hlt : wordSum b o k < 2 ^ 32 := by omega
  unfold inCksum
  rw [cksumWords_even]
  simp only [UInt32.zero_add, Nat.zero_ne_one, if_false, UInt16.toNat_not, UInt32.toNat_toUInt16]
  -- the two folds, computed on the numbers
  have hx : (UInt32.ofNat (wordSum b o k)).toNat = wordSum b o k := by
    rw [UInt32.toNat_ofNat']
    exact Nat.mod_eq_of_lt hlt
  generalize UInt32.ofNat (wordSum b o k) = x at hx
  have h₁ : ((x &&& (0xffff : UInt32)) + (x >>> (16 : UInt32))).toNat =
      x.toNat % 65536 + x.toNat / 65536 := by
    rw [UInt32.toNat_add, toNat_and_ffff, toNat_shiftRight_16]
    exact Nat.mod_eq_of_lt (by omega)
  generalize (x &&& (0xffff : UInt32)) + (x >>> (16 : UInt32)) = y at h₁
  have h₂ : (y + (y >>> (16 : UInt32))).toNat = y.toNat + y.toNat / 65536 := by
    rw [UInt32.toNat_add, toNat_shiftRight_16]
    exact Nat.mod_eq_of_lt (by omega)
  rw [h₂, h₁, hx]
  rfl

/-- `in_cksum` of a 20-byte header sees only its bytes. -/
theorem inCksum_shift {b b' : Fin MBUF_SIZE → UInt8} {o o' : Nat}
    (h : ∀ i < 20, byteAt b' (o' + i) = byteAt b (o + i)) :
    inCksum b' o' 20 = inCksum b o 20 := by
  have hc : (inCksum b o 20).toNat = 65535 - fold (wordSum b o 10) :=
    inCksum_even b o 10 (by decide)
  have hc' : (inCksum b' o' 20).toNat = 65535 - fold (wordSum b' o' 10) :=
    inCksum_even b' o' 10 (by decide)
  apply UInt16.toNat_inj.mp
  rw [hc, hc', wordSum_shift fun i hi => h i (by omega)]

/-- `in_cksum` of a 20-byte header into whose zero checksum field its own
`in_cksum` was stored is zero. -/
theorem inCksum_stored (b : Fin MBUF_SIZE → UInt8) (o : Nat) (h0 : getLE b (o + 10) 2 = 0)
    (hfit : o + 20 ≤ MBUF_SIZE) :
    inCksum (setLE b (o + 10) 2 (inCksum b o 20).toNat) o 20 = 0 := by
  have hc : (inCksum b o 20).toNat = 65535 - fold (wordSum b o 10) :=
    inCksum_even b o 10 (by decide)
  have hN := wordSum_lt b o 10
  -- storing the checksum adds it to the word sum, since the field was zero
  have hs : wordSum (setLE b (o + 10) 2 (inCksum b o 20).toNat) o 10 =
      wordSum b o 10 + (65535 - fold (wordSum b o 10)) := by
    have := wordSum_setLE b (inCksum b o 20).toNat (show 5 < 10 by decide) h0 (by omega)
    rw [this, hc, Nat.mod_eq_of_lt (by omega)]
  have hc' : (inCksum (setLE b (o + 10) 2 (inCksum b o 20).toNat) o 20).toNat =
      65535 - fold (wordSum (setLE b (o + 10) 2 (inCksum b o 20).toNat) o 10) :=
    inCksum_even _ o 10 (by decide)
  apply UInt16.toNat_inj.mp
  rw [hc', hs, fold_add_compl _ (by omega)]
  rfl

end Net
end Xv6
