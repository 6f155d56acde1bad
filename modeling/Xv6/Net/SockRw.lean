import Xv6.Net.Mbuf
import Xv6.Kernel.Copy

/-!
# Socket reads and writes

`sockwrite` and `sockread` of `kernel/sysnet.c`, with the user's bytes moved
by `copyin` and `copyout` over physical memory.  `n` is the `int` given to
`write()` or `read()`: `sockwrite` passes it to `mbufput` as an `unsigned
int` and to `copyin` as a `uint64`; `sockread` clamps it from above by
`m->len` only, and `copyout` takes the result as a `uint64`.

For lengths in range both calls do what they should: `sockwrite` sends the
user's bytes after the default headroom (`sockwrite_copies`) and writes
nothing outside `buf` (`sockwrite_frame`), and `sockread` reads nothing but
the packet (`sockread_payload_only`).  Out of range: a negative `n` makes
`mbufput` panic, an `n` past the room after the headroom passes
`mbufput`'s check and `copyin` writes past the end of `buf`
(`sockwrite_panic_iff`, `sockwrite_copies`), and a negative `n` to
`sockread` becomes a copy of almost `2^64` bytes that runs on past the
packet until a user page is not mapped (`sockread_negative`).
-/

namespace Xv6
namespace Net

open Vm

/-- How `sockwrite` ends. -/
inductive WriteEnd
  /-- `panic("mbufput")` -/
  | panic
  /-- `return -1`: nothing sent, the mbuf freed -/
  | fail
  /-- `net_tx_udp(m, si->raddr, si->lport, si->rport)`, then `return n` -/
  | sent (m : Mbuf)

/-- `sockwrite(si, addr, n)` with the caller's page table `walkaddr`;
`kalloc` gave the page whose `buf` starts at physical address `base`. -/
def sockwrite (walkaddr : Nat → Nat) (mem : Nat → UInt8) (base addr : Nat) (n : Int) :
    (Nat → UInt8) × WriteEnd :=
  match mbufalloc MBUF_DEFAULT_HEADROOM with
  | none => (mem, .fail)
  | some m =>
      -- `mbufalloc` zeroes `buf`
      let mem := memset mem base MBUF_SIZE 0
      match mbufput m (n % 2 ^ 32).toNat with
      | none => (mem, .panic)
      | some (m, dst) =>
          let r := copyin walkaddr mem (base + dst) addr (n % 2 ^ 64).toNat
          if r.2 then (r.1, .sent { m with buf := fun i => r.1 (base + i) }) else (r.1, .fail)

/-- `sockread(si, addr, n)` once `mbufq_pophead` has returned `m`, whose
`buf` starts at physical address `base`: the count copied out, or `-1`.
The wait for a packet and the `killed` check before it are left out. -/
def sockread (walkaddr : Nat → Nat) (mem : Nat → UInt8) (m : Mbuf) (base addr : Nat) (n : Int) :
    (Nat → UInt8) × Int :=
  -- `int len = m->len; if (len > n) len = n;`
  let len : Int := if (m.len : Int) > n then n else m.len
  let r := copyout walkaddr mem addr (base + m.head) (len % 2 ^ 64).toNat
  (r.1, if r.2 then len else -1)

/-! ## `sockwrite` -/

section Write

variable (walkaddr : Nat → Nat) (mem : Nat → UInt8) (base addr : Nat)

/-- `sockwrite` panics exactly for the `int`s below zero or above
`MBUF_SIZE`: the headroom is not counted. -/
theorem sockwrite_panic_iff {n : Int} (hlo : -2 ^ 31 ≤ n) (hhi : n < 2 ^ 31) :
    (∃ r, sockwrite walkaddr mem base addr n = (r, .panic)) ↔ n < 0 ∨ (MBUF_SIZE : Int) < n := by
  have hput : ((0 + (n % 2 ^ 32).toNat) % 2 ^ 32 > MBUF_SIZE) ↔ n < 0 ∨ (MBUF_SIZE : Int) < n := by
    unfold MBUF_SIZE
    omega
  unfold sockwrite
  rw [mbufalloc_eq (by decide)]
  dsimp only
  unfold mbufput
  dsimp only
  by_cases hp : (0 + (n % 2 ^ 32).toNat) % 2 ^ 32 > MBUF_SIZE
  · simp only [if_pos hp]
    exact ⟨fun _ => hput.mp hp, fun _ => ⟨_, rfl⟩⟩
  · simp only [if_neg hp]
    constructor
    · rintro ⟨r, hr⟩
      split at hr <;> cases hr
    · intro h
      exact absurd (hput.mpr h) hp

/-- `sockwrite` of `n` bytes, `n` up to `MBUF_SIZE`: `copyin` to the
headroom's end, then the mbuf of `n` bytes sent, or `-1`. -/
theorem sockwrite_eq {n : Nat} (hn : n ≤ MBUF_SIZE) :
    sockwrite walkaddr mem base addr n =
      if (copyin walkaddr (memset mem base MBUF_SIZE 0) (base + MBUF_DEFAULT_HEADROOM) addr n).2 then
        ((copyin walkaddr (memset mem base MBUF_SIZE 0) (base + MBUF_DEFAULT_HEADROOM) addr n).1,
          .sent ⟨MBUF_DEFAULT_HEADROOM, n, fun i =>
            (copyin walkaddr (memset mem base MBUF_SIZE 0) (base + MBUF_DEFAULT_HEADROOM) addr n).1
              (base + i)⟩)
      else ((copyin walkaddr (memset mem base MBUF_SIZE 0) (base + MBUF_DEFAULT_HEADROOM) addr n).1,
        .fail) := by
  have h32 : ((n : Int) % 2 ^ 32).toNat = n := by
    unfold MBUF_SIZE at hn
    omega
  have h64 : ((n : Int) % 2 ^ 64).toNat = n := by
    unfold MBUF_SIZE at hn
    omega
  unfold sockwrite
  rw [mbufalloc_eq (by decide)]
  dsimp only
  rw [h32, mbufput_eq (by show 0 + n ≤ MBUF_SIZE; omega), h64]
  simp only [Nat.zero_add, Nat.add_zero]

/-- Nothing outside the headroom's end and `n` bytes after it, nor outside
`buf`, changes. -/
theorem sockwrite_frame {n : Nat} (hn : n ≤ MBUF_SIZE) {a : Nat}
    (ha : a < base ∨ base + MBUF_DEFAULT_HEADROOM + n ≤ a ∧ base + MBUF_SIZE ≤ a) :
    (sockwrite walkaddr mem base addr n).1 a = mem a := by
  have hcopy := copyin_frame walkaddr (memset mem base MBUF_SIZE 0)
    (base + MBUF_DEFAULT_HEADROOM) addr n a (by omega)
  have hset : memset mem base MBUF_SIZE 0 a = mem a := by
    rw [memset, if_neg (by omega)]
  rw [sockwrite_eq walkaddr mem base addr hn]
  split <;> rw [hcopy, hset]

/-- With the user's `n` bytes mapped, in pages apart from the mbuf's,
`sockwrite` sends an mbuf of `n` bytes after the default headroom, and
the user's bytes are what `copyin` wrote from the headroom on. -/
theorem sockwrite_copies {n : Nat} (hn : n ≤ MBUF_SIZE)
    (hmap : ∀ i < n, walkaddr (PGROUNDDOWN (addr + i)) ≠ 0)
    (hsep : ∀ i < n, uaddr walkaddr (addr + i) < base ∨
      base + MBUF_DEFAULT_HEADROOM + MBUF_SIZE ≤ uaddr walkaddr (addr + i)) :
    ∃ m, (sockwrite walkaddr mem base addr n).2 = .sent m ∧ m.head = MBUF_DEFAULT_HEADROOM ∧
      m.len = n ∧ ∀ i < n, (sockwrite walkaddr mem base addr n).1 (base + MBUF_DEFAULT_HEADROOM + i) =
        mem (uaddr walkaddr (addr + i)) := by
  obtain ⟨hok, hbytes⟩ := copyin_bytes walkaddr (memset mem base MBUF_SIZE 0)
    (base + MBUF_DEFAULT_HEADROOM) addr n hmap (fun i hi j hj => by
      have := hsep i hi
      unfold MBUF_SIZE at hn this
      omega)
  -- the user's bytes lie outside `buf`, which `mbufalloc` zeroed
  have hkeep : ∀ i < n, memset mem base MBUF_SIZE 0 (uaddr walkaddr (addr + i)) =
      mem (uaddr walkaddr (addr + i)) := fun i hi => by
    have := hsep i hi
    rw [memset, if_neg (by unfold MBUF_DEFAULT_HEADROOM at this; omega)]
  rw [sockwrite_eq walkaddr mem base addr hn, if_pos hok]
  refine ⟨_, rfl, rfl, rfl, fun i hi => ?_⟩
  rw [hbytes i hi, hkeep i hi]

/-- With room for them, the mbuf sent holds exactly the user's bytes. -/
theorem sockwrite_sends {n : Nat} (hn : n ≤ MBUF_SIZE - MBUF_DEFAULT_HEADROOM)
    (hmap : ∀ i < n, walkaddr (PGROUNDDOWN (addr + i)) ≠ 0)
    (hsep : ∀ i < n, uaddr walkaddr (addr + i) < base ∨
      base + MBUF_DEFAULT_HEADROOM + MBUF_SIZE ≤ uaddr walkaddr (addr + i)) :
    ∃ m, (sockwrite walkaddr mem base addr n).2 = .sent m ∧ m.Inside ∧
      m.window = (List.range n).map fun i => mem (uaddr walkaddr (addr + i)) := by
  have hn' : n ≤ MBUF_SIZE := le_trans hn (Nat.sub_le _ _)
  obtain ⟨m, hm, hhead, hlen, hbytes⟩ := sockwrite_copies walkaddr mem base addr hn' hmap hsep
  have hbuf : ∀ i : Fin MBUF_SIZE, m.buf i = (sockwrite walkaddr mem base addr n).1 (base + i) := by
    rw [sockwrite_eq walkaddr mem base addr hn'] at hm ⊢
    split at hm
    · cases hm
      intro i
      rw [if_pos ‹_›]
    · cases hm
  refine ⟨m, hm, by unfold Mbuf.Inside MBUF_DEFAULT_HEADROOM MBUF_SIZE at *; omega, ?_⟩
  apply List.ext_getElem (by simp [hlen])
  intro i hi _
  have hi' : i < n := by simpa [hlen] using hi
  have hin : MBUF_DEFAULT_HEADROOM + i < MBUF_SIZE := by
    unfold MBUF_DEFAULT_HEADROOM MBUF_SIZE at hn ⊢
    omega
  simp only [Mbuf.window, List.getElem_map, List.getElem_range, hhead]
  rw [Bytes.byteAt, dif_pos hin, hbuf, UInt8.ofNat_toNat, ← Nat.add_assoc, hbytes i hi']

end Write

/-- A user page mapped at physical page 1, which holds ones, and an mbuf
whose `buf` starts 20 bytes into physical page 2. -/
def demoWalk : Nat → Nat := fun va0 => if va0 = 0 then PGSIZE else 0

/-- Ones on physical page 1, zeroes elsewhere. -/
def demoMem : Nat → UInt8 := fun a => if PGSIZE ≤ a ∧ a < 2 * PGSIZE then 1 else 0

/-- Where `buf` starts: after `next`, `head` and `len` in page 2. -/
def demoBase : Nat := 2 * PGSIZE + 20

/-- `write(fd, addr, -1)` on a socket panics in `mbufput`, and `write(fd, 0,
2000)` with the user's bytes mapped returns from `mbufput`, after which
`copyin` writes a user byte over the first byte past `buf`. -/
theorem sockwrite_unchecked :
    (∀ walkaddr mem base addr, ∃ r, sockwrite walkaddr mem base addr (-1) = (r, .panic)) ∧
      demoMem (demoBase + MBUF_SIZE) = 0 ∧
      (sockwrite demoWalk demoMem demoBase 0 2000).1 (demoBase + MBUF_SIZE) = 1 := by
  refine ⟨fun walkaddr mem base addr =>
    (sockwrite_panic_iff walkaddr mem base addr (by decide) (by decide)).mpr (.inl (by decide)),
    by decide, ?_⟩
  have hpg : ∀ i < 2000, PGROUNDDOWN (0 + i) = 0 := by
    intro i hi
    unfold PGROUNDDOWN PGSIZE
    omega
  have hua : ∀ i < 2000, uaddr demoWalk (0 + i) = PGSIZE + i := by
    intro i hi
    rw [uaddr, hpg i hi, demoWalk, if_pos rfl]
    unfold PGSIZE
    omega
  obtain ⟨m, -, -, -, hbytes⟩ := sockwrite_copies demoWalk demoMem demoBase 0 (n := 2000) (by decide)
    (fun i hi => by rw [hpg i hi, demoWalk, if_pos rfl]; decide)
    (fun i hi => by rw [hua i hi]; left; unfold demoBase PGSIZE; omega)
  have h := hbytes 1920 (by decide)
  rw [hua 1920 (by decide), Nat.cast_ofNat] at h
  rw [show demoBase + MBUF_SIZE = demoBase + MBUF_DEFAULT_HEADROOM + 1920 by rfl, h]
  decide

/-! ## `sockread` -/

section Read

variable (walkaddr : Nat → Nat) (m : Mbuf) (base addr : Nat)

/-- For `n ≥ 0` `sockread` reads nothing but the packet: two memories that
agree on its bytes agree after it wherever they agreed before, and the
return values are equal. -/
theorem sockread_payload_only {n : Int} (hn : 0 ≤ n) (S : Set Nat) (mem₁ mem₂ : Nat → UInt8)
    (hpay : ∀ j < m.len, mem₁ (base + m.head + j) = mem₂ (base + m.head + j))
    (hS : ∀ p ∈ S, mem₁ p = mem₂ p) :
    (sockread walkaddr mem₁ m base addr n).2 = (sockread walkaddr mem₂ m base addr n).2 ∧
      ∀ p ∈ S, (sockread walkaddr mem₁ m base addr n).1 p =
        (sockread walkaddr mem₂ m base addr n).1 p := by
  -- the length copied is `min(m->len, n)`, no more than the packet
  have hlen : ((if (m.len : Int) > n then n else m.len) % 2 ^ 64).toNat ≤ m.len := by
    split <;> omega
  obtain ⟨hok, hmem⟩ := copyout_agree walkaddr S mem₁ mem₂ addr (base + m.head)
    ((if (m.len : Int) > n then n else m.len) % 2 ^ 64).toNat
    (fun j hj => hpay j (by omega)) hS
  unfold sockread
  exact ⟨by simp only [hok], hmem⟩

/-- For `n < 0` the length stays `n`, and `copyout` takes it as almost
`2^64` bytes: the rest of the user's first page gets the bytes from
`m->head` on, the packet and what follows it, before the next page, not
mapped, stops the copy. -/
theorem sockread_negative (mem : Nat → UInt8) {n : Int} (hlo : -2 ^ 31 ≤ n) (hn : n < 0)
    (hpa : walkaddr (PGROUNDDOWN addr) ≠ 0) (hnext : walkaddr (PGROUNDDOWN addr + PGSIZE) = 0) :
    sockread walkaddr mem m base addr n =
      (memmove mem (uaddr walkaddr addr) (base + m.head) (PGSIZE - addr % PGSIZE), -1) := by
  have hlen : (if (m.len : Int) > n then n else m.len) = n := if_pos (by omega)
  have hbig : PGSIZE - addr % PGSIZE < (n % 2 ^ 64).toNat := by
    unfold PGSIZE
    omega
  unfold sockread
  simp only [hlen, copyout_first_page walkaddr mem hpa hnext hbig, Bool.false_eq_true, if_false]

end Read

/-- A packet of three bytes from the default headroom. -/
def leakMbuf : Mbuf := ⟨MBUF_DEFAULT_HEADROOM, 3, fun _ => 0⟩

/-- `demoMem` with the kernel byte just past the packet changed. -/
def leakMem : Nat → UInt8 := Function.update demoMem (demoBase + MBUF_DEFAULT_HEADROOM + 3) 7

/-- Two kernel states that agree on the packet and on the caller's user
page, and differ in one kernel byte just past the packet: after
`read(fd, 0, -1)` the caller's user memory differs at that byte's offset. -/
theorem sockread_discloses :
    (∀ j < leakMbuf.len, demoMem (demoBase + leakMbuf.head + j) =
      leakMem (demoBase + leakMbuf.head + j)) ∧
      (∀ p, PGSIZE ≤ p → p < 2 * PGSIZE → demoMem p = leakMem p) ∧
      (sockread demoWalk demoMem leakMbuf demoBase 0 (-1)).2 =
        (sockread demoWalk leakMem leakMbuf demoBase 0 (-1)).2 ∧
      (sockread demoWalk demoMem leakMbuf demoBase 0 (-1)).1 (uaddr demoWalk 3) ≠
        (sockread demoWalk leakMem leakMbuf demoBase 0 (-1)).1 (uaddr demoWalk 3) := by
  have hpa : demoWalk (PGROUNDDOWN 0) ≠ 0 := by decide
  have hnext : demoWalk (PGROUNDDOWN 0 + PGSIZE) = 0 := by decide
  have hread := fun mem => sockread_negative demoWalk leakMbuf demoBase 0 mem (n := -1) (by decide)
    (by decide) hpa hnext
  refine ⟨fun j hj => ?_, fun p hp₁ hp₂ => ?_, by rw [hread, hread], ?_⟩
  · have hhead : leakMbuf.head = MBUF_DEFAULT_HEADROOM := rfl
    have hj3 : j < 3 := hj
    rw [leakMem, Function.update_of_ne (by rw [hhead]; omega)]
  · rw [leakMem, Function.update_of_ne (by unfold demoBase MBUF_DEFAULT_HEADROOM; omega)]
  · rw [hread, hread]
    decide

end Net
end Xv6
