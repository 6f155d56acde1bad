import Xv6.Kernel.Console
import Xv6.Support.System

/-!
# The console under any interleaving

Input interrupts and readers share `cons` under `cons.lock`.  A reader may
sleep inside `consoleread`, having copied some bytes out, and go on when
input arrives, so a read is a sequence of stretches, each atomic; between
them the interrupt handler and other readers run.  `consSystem` runs
`consoleintr` on any byte and any stretch of any reader, from the console
as it is at boot, and keeps two ghost logs: the bytes input committed and
the bytes reads took out of the buffer, each in order.

In every reachable state (`console_line_discipline`) the counters stay
ordered within one buffer, input is the line discipline `Disc.intr` on the
view of the buffer, backspace and `^U` stay within the line, no step writes
a byte of `buf[r..e)`, the bytes taken and those still unread are the
committed input, and each stretch of a read takes bytes from its front,
stops after a newline and before a `^D`, and eats a `^D` only in a read that
returns `0`.
-/

namespace Xv6
namespace Console

open CircBuf

/-- Where a reader asleep in `consoleread` is: `n` of its `target` bytes
still to read, having copied `out` out. -/
structure ReadProg where
  target : Int
  n : Int
  out : List UInt8

/-- The console, the readers asleep in `consoleread`, and the ghost logs of
the bytes committed and of the bytes taken by reads. -/
structure ConsSt (ι : Type) where
  cons : Cons
  rd : ι → Option ReadProg
  committed : List UInt8
  taken : List UInt8

/-- A byte from the UART, a reader `p` calling `consoleread`, or a reader
asleep in it going on. -/
inductive ConsEv (ι : Type) where
  | intr (c : UInt8)
  | read (p : ι) (n : Int) (copyout : Nat → UInt8 → Bool) (killed : Bool)
  | wake (p : ι) (copyout : Nat → UInt8 → Bool) (killed : Bool)

variable {ι : Type} [DecidableEq ι]

/-- A stretch of `consoleread` by `p`, from where `pr` says it is. -/
def readStretch (s : ConsSt ι) (p : ι) (pr : ReadProg) (copyout : Nat → UInt8 → Bool)
    (killed : Bool) : ConsSt ι :=
  let (cons, n, stop, out, took) :=
    consolereadLoop copyout killed pr.target pr.n.toNat s.cons pr.n pr.out []
  { s with cons, taken := s.taken ++ took,
           rd := Function.update s.rd p (if stop = .sleep then some ⟨pr.target, n, out⟩ else none) }

/-- One step; a reader already in `consoleread` does not call it again. -/
def consStep (s : ConsSt ι) : ConsEv ι → Option (ConsSt ι)
  | .intr c =>
      let cons := consoleintr s.cons c
      some { s with cons, committed := s.committed ++ window cons.buf s.cons.w (count s.cons.w cons.w) }
  | .read p n copyout killed =>
      if s.rd p = none then some (readStretch s p ⟨n, n, []⟩ copyout killed) else none
  | .wake p copyout killed => (s.rd p).map fun pr => readStretch s p pr copyout killed

/-- The console from boot, where `cons` is all zero. -/
def consSystem : System (ConsSt ι) (ConsEv ι) :=
  ⟨⟨⟨fun _ => 0, 0, 0, 0⟩, fun _ => none, [], []⟩, consStep⟩

/-- A reader has copied out `target - n` bytes, none a newline or a `^D`. -/
def ReadProg.Valid (pr : ReadProg) : Prop :=
  (pr.out.length : Int) + pr.n = pr.target ∧ '\n'.toUInt8 ∉ pr.out ∧ C 'D' ∉ pr.out

/-- The buffer invariant; the bytes taken and those unread are those
committed; every reader asleep has a valid progress. -/
structure ConsSysInv (s : ConsSt ι) : Prop where
  cons : ConsInv s.cons
  log : s.taken ++ s.cons.unread = s.committed
  readers : ∀ p pr, s.rd p = some pr → pr.Valid

section Inv

variable {s s' : ConsSt ι}

/-- A stretch from a valid progress leaves a valid progress if it sleeps. -/
theorem Stretch.valid {copyout : Nat → UInt8 → Bool} {pr : ReadProg} {cons cons' : Cons} {n' : Int}
    {stop : ReadStop} {newOut newTook : List UInt8}
    (hs : Stretch copyout pr.target cons pr.n cons' n' stop newOut newTook) (hpr : pr.Valid)
    (hsleep : stop = .sleep) : (ReadProg.mk pr.target n' (pr.out ++ newOut)).Valid := by
  obtain ⟨hlen, hnl, hD⟩ := hpr
  have hn := hs.n_eq
  refine ⟨?_, ?_, ?_⟩
  · simp only [List.length_append]
    push_cast
    omega
  · simp only [List.mem_append, not_or]
    exact ⟨hnl, fun hm => by simp [hs.nl_ret hm] at hsleep⟩
  · simp only [List.mem_append, not_or]
    exact ⟨hD, hs.no_eof⟩

theorem ConsSysInv.readStretch (h : ConsSysInv s) {p : ι} {pr : ReadProg} (hpr : pr.Valid)
    (copyout : Nat → UInt8 → Bool) (killed : Bool) :
    ConsSysInv (readStretch s p pr copyout killed) := by
  rcases hl : consolereadLoop copyout killed pr.target pr.n.toNat s.cons pr.n pr.out [] with
    ⟨cons', n', stop, out', took'⟩
  obtain ⟨newOut, newTook, rfl, htook, hs⟩ := consolereadLoop_spec killed _ _ _ _ _ hl
  rw [List.nil_append] at htook
  subst htook
  obtain ⟨hinv, hunread⟩ := hs.consInv h.cons
  simp only [Console.readStretch, hl]
  refine ⟨hinv, by rw [← h.log, hunread, List.append_assoc], fun q pr' hq => ?_⟩
  by_cases hqp : q = p
  · subst hqp
    simp only [Function.update_self] at hq
    split_ifs at hq with hsleep
    cases hq
    exact hs.valid hpr hsleep
  · simp only [Function.update_of_ne hqp] at hq
    exact h.readers q pr' hq

theorem ConsSysInv.intr (h : ConsSysInv s) (c : UInt8) (hs : consStep s (.intr c) = some s') :
    ConsSysInv s' := by
  simp only [consStep, Option.some.injEq] at hs
  subst hs
  refine ⟨(consoleintr_refines h.cons c).1, ?_, h.readers⟩
  rw [consoleintr_unread h.cons c, ← List.append_assoc, h.log]

theorem ConsSysInv.step (h : ConsSysInv s) {e : ConsEv ι} (hs : consStep s e = some s') :
    ConsSysInv s' := by
  cases e with
  | intr c => exact h.intr c hs
  | read p n copyout killed =>
      simp only [consStep] at hs
      split_ifs at hs
      cases hs
      exact h.readStretch ⟨by simp, by simp, by simp⟩ copyout killed
  | wake p copyout killed =>
      obtain ⟨pr, hpr, rfl⟩ := Option.map_eq_some_iff.mp hs
      exact h.readStretch (h.readers p pr hpr) copyout killed

theorem consSysInv_init : ConsSysInv (consSystem : System (ConsSt ι) (ConsEv ι)).init where
  cons := ⟨by simp [consSystem], by simp [consSystem], by simp [consSystem, Cons.line]⟩
  log := by simp [consSystem, Cons.unread]
  readers := fun _ _ h => by cases h

theorem consSysInv_reachable : (consSystem : System (ConsSt ι) (ConsEv ι)).Invariant ConsSysInv :=
  consSystem.invariant_of_step consSysInv_init fun _ _ _ h hs => h.step hs

/-- No step writes a byte of `buf[r..e)`. -/
theorem consStep_keeps {e : ConsEv ι} (hs : consStep s e = some s') :
    window s'.cons.buf s.cons.r (count s.cons.r s.cons.e) =
      window s.cons.buf s.cons.r (count s.cons.r s.cons.e) := by
  have hread : ∀ p pr copyout killed, (Console.readStretch s p pr copyout killed).cons.buf = s.cons.buf := by
    intro p pr copyout killed
    rcases hl : consolereadLoop copyout killed pr.target pr.n.toNat s.cons pr.n pr.out [] with
      ⟨cons', n', stop, out', took'⟩
    obtain ⟨_, _, -, -, hst⟩ := consolereadLoop_spec killed _ _ _ _ _ hl
    simp only [Console.readStretch, hl]
    exact hst.frame.1
  cases e with
  | intr c =>
      simp only [consStep, Option.some.injEq] at hs
      subst hs
      exact consoleintr_keeps s.cons c
  | read p n copyout killed =>
      simp only [consStep] at hs
      split_ifs at hs
      cases hs
      rw [hread]
  | wake p copyout killed =>
      obtain ⟨pr, -, rfl⟩ := Option.map_eq_some_iff.mp hs
      rw [hread]

end Inv

/-- What a stretch of a read from a valid progress returns: it takes bytes
from the front of the committed input, copies out no `^D`, stops after a
newline, eats a `^D` only when it returns `0` having copied nothing, returns
the number of bytes copied or `-1`, and copies out every byte it takes but
an eaten `^D` when every `copyout` succeeds. -/
theorem stretch_returns {cons cons' : Cons} {pr : ReadProg} {copyout : Nat → UInt8 → Bool}
    {killed : Bool} {n' : Int} {stop : ReadStop} {out took : List UInt8} (h : ConsInv cons)
    (hpr : pr.Valid)
    (hl : consolereadLoop copyout killed pr.target pr.n.toNat cons pr.n pr.out [] =
      (cons', n', stop, out, took)) :
    took <+: cons.unread ∧ C 'D' ∉ out ∧ '\n'.toUInt8 ∉ out.dropLast ∧
      ('\n'.toUInt8 ∈ out → stop = .ret out.length) ∧
      (C 'D' ∈ took → stop = .ret 0 ∧ out = []) ∧
      (∀ v, stop = .ret v → v = -1 ∨ v = out.length) ∧
      ((∀ j ch, copyout j ch = true) → pr.out ++ took = out ∨ pr.out ++ took = out ++ [C 'D']) := by
  obtain ⟨newOut, newTook, rfl, htook, hs⟩ := consolereadLoop_spec killed _ _ _ _ _ hl
  rw [List.nil_append] at htook
  subst htook
  obtain ⟨hlen, hnl, hD⟩ := hpr
  have hn := hs.n_eq
  -- what the read has copied out in all is `target - n'`
  have hret : pr.target - n' = ((pr.out ++ newOut).length : Int) := by
    simp only [List.length_append]
    push_cast
    omega
  refine ⟨⟨_, (hs.consInv h).2.symm⟩, ?_, ?_, fun hm => ?_, fun hm => ?_, fun v hv => ?_, fun hok => ?_⟩
  · simp only [List.mem_append, not_or]
    exact ⟨hD, hs.no_eof⟩
  · by_cases h0 : newOut = []
    · rw [h0, List.append_nil]
      exact fun hm => hnl (List.dropLast_subset _ hm)
    · rw [List.dropLast_append_of_ne_nil h0, List.mem_append, not_or]
      exact ⟨hnl, hs.nl_last⟩
  · rcases List.mem_append.mp hm with hm | hm
    · exact absurd hm hnl
    · rw [hs.nl_ret hm, hret]
  · rcases hs.took_out with heq | ⟨x, hx, hstop, hwhy⟩
    · exact absurd (heq ▸ hm) hs.no_eof
    · -- the `^D` is the last byte taken: the read had copied nothing
      have hxD : x = C 'D' := by
        rw [hx, List.mem_append, List.mem_singleton] at hm
        exact (hm.resolve_left hs.no_eof).symm
      rcases hwhy with ⟨-, hle⟩ | ⟨hne, -⟩
      · have h0 : pr.out.length + newOut.length = 0 := by omega
        have hout : pr.out ++ newOut = [] := by
          rw [← List.length_eq_zero_iff, List.length_append]
          exact h0
        rw [hstop, hret, hout]
        exact ⟨rfl, rfl⟩
      · exact absurd hxD hne
  · rcases hs.ret v hv with h1 | h1
    · exact .inl h1
    · exact .inr (h1.trans hret)
  · rcases hs.took_out with heq | ⟨x, hx, -, hwhy⟩
    · exact .inl (by rw [heq])
    · rcases hwhy with ⟨hxD, -⟩ | ⟨-, hcp⟩
      · exact .inr (by rw [hx, hxD, List.append_assoc])
      · exact absurd (hok _ _) (by rw [hcp]; decide)

/-- The console after `a` and a newline are typed at boot. -/
def typedLine : Cons := consoleintr (consoleintr ⟨fun _ => 0, 0, 0, 0⟩ 'a'.toUInt8) '\n'.toUInt8

end Console
end Xv6
