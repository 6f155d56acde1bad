import Xv6.Support.CircBuf

/-!
# The console's input buffer

The input half of `cons` in `kernel/console.c`: bytes typed at the console
wait in a circular buffer of `INPUT_BUF` slots indexed by three free-running
`uint` counters.  `buf[r..w)` is input committed to readers and not yet
read, and `buf[w..e)` is the line still being edited.  `consoleintr` edits
the line (backspace, `^U`), appends to it, and commits it at a newline, at a
`^D` or when the buffer is full; `consoleread` copies committed bytes out up
to a newline, and leaves a `^D` that follows some bytes for a read of its
own.

`Disc` is the console as its user sees it, as lists: the committed bytes to
be read and the line being edited, with `Disc.intr` the line discipline on
them.  In every state satisfying `ConsInv`, which it keeps, `consoleintr`
refines `Disc.intr` (`consoleintr_refines`).
-/

namespace Xv6
namespace Console

open CircBuf

/-- `INPUT_BUF` -/
def INPUT_BUF : Nat := 128

instance : NeZero INPUT_BUF := ⟨by decide⟩

theorem input_buf_dvd : INPUT_BUF ∣ 2 ^ 32 := ⟨2 ^ 25, by decide⟩

/-- `C(x)`: control-`x`. -/
def C (x : Char) : UInt8 := x.toUInt8 - '@'.toUInt8

/-- The input fields of `cons`. -/
structure Cons where
  buf : Fin INPUT_BUF → UInt8
  r : UInt32
  w : UInt32
  e : UInt32

/-- The committed bytes not yet read, `buf[r..w)`. -/
def Cons.unread (cons : Cons) : List UInt8 := window cons.buf cons.r (count cons.r cons.w)

/-- The line being edited, `buf[w..e)`. -/
def Cons.line (cons : Cons) : List UInt8 := window cons.buf cons.w (count cons.w cons.e)

/-- `cons.buf[cons.e++ % INPUT_BUF] = c` -/
def Cons.store (cons : Cons) (c : UInt8) : Cons :=
  { cons with buf := Function.update cons.buf (slot INPUT_BUF cons.e) c, e := cons.e + 1 }

/-- The loop of `^U`, for at most `fuel` rounds:
`while(cons.e != cons.w && cons.buf[(cons.e-1) % INPUT_BUF] != '\n') cons.e--;` -/
def killLine : Nat → Cons → Cons
  | 0, cons => cons
  | fuel + 1, cons =>
      if cons.e ≠ cons.w ∧ cons.buf (slot INPUT_BUF (cons.e - 1)) ≠ '\n'.toUInt8 then
        killLine fuel { cons with e := cons.e - 1 }
      else cons

/-- `consoleintr(c)` for a byte `c` from the UART; `^P` prints the process
list and changes nothing here.  Each round of the `^U` loop moves `e` one
nearer `w`, so `count w e` rounds run it out. -/
def consoleintr (cons : Cons) (c : UInt8) : Cons :=
  if c = C 'P' then cons
  else if c = C 'U' then killLine (count cons.w cons.e) cons
  else if c = C 'H' ∨ c = '\x7f'.toUInt8 then
    if cons.e ≠ cons.w then { cons with e := cons.e - 1 } else cons
  else if c ≠ 0 ∧ count cons.r cons.e < INPUT_BUF then
    let c := if c = '\r'.toUInt8 then '\n'.toUInt8 else c
    let cons := cons.store c
    if c = '\n'.toUInt8 ∨ c = C 'D' ∨ cons.e = cons.r + UInt32.ofNat INPUT_BUF then
      { cons with w := cons.e }
    else cons
  else cons

/-- How a stretch of `consoleread` under `cons.lock` ends: asleep until
input arrives, or returning. -/
inductive ReadStop where
  | sleep
  | ret (v : Int)
  deriving DecidableEq, Repr

/-- The loop of `consoleread` with `n` of its `target` bytes still to read,
for at most `fuel` rounds, until it sleeps or returns; `copyout i c` says
whether the copy of `c` to `dst + i` succeeds, and `killed` whether the
reader has been killed.  It returns the bytes it copied out after `out`,
and (a ghost) the bytes it took out of the buffer for good after `took`. -/
def consolereadLoop (copyout : Nat → UInt8 → Bool) (killed : Bool) (target : Int) :
    Nat → Cons → Int → List UInt8 → List UInt8 → Cons × Int × ReadStop × List UInt8 × List UInt8
  | 0, cons, n, out, took => (cons, n, .ret (target - n), out, took)
  | fuel + 1, cons, n, out, took =>
      if n ≤ 0 then (cons, n, .ret (target - n), out, took)
      else if cons.r = cons.w then (cons, n, if killed then .ret (-1) else .sleep, out, took)
      else
        let c := cons.buf (slot INPUT_BUF cons.r)
        let cons := { cons with r := cons.r + 1 }
        if c = C 'D' then
          if n < target then ({ cons with r := cons.r - 1 }, n, .ret (target - n), out, took)
          else (cons, n, .ret (target - n), out, took ++ [c])
        else if copyout (target - n).toNat c = false then
          (cons, n, .ret (target - n), out, took ++ [c])
        else if c = '\n'.toUInt8 then
          (cons, n - 1, .ret (target - (n - 1)), out ++ [c], took ++ [c])
        else consolereadLoop copyout killed target fuel cons (n - 1) (out ++ [c]) (took ++ [c])

/-- `consoleread(dst, n)`, up to where it first sleeps or returns: each
round either returns or reads one of the `n` bytes. -/
def consoleread (copyout : Nat → UInt8 → Bool) (killed : Bool) (cons : Cons) (n : Int) :
    Cons × Int × ReadStop × List UInt8 × List UInt8 :=
  consolereadLoop copyout killed n n.toNat cons n [] []

/-- The console as its user sees it: the committed bytes not yet read, and
the line being edited. -/
structure Disc where
  unread : List UInt8
  line : List UInt8
  deriving DecidableEq, Repr

/-- The line discipline: `\r` is a newline, backspace and `^U` edit the
line, `NUL` and `^P` are ignored, a byte that would overfill the buffer is
dropped, and a newline, a `^D` or a full buffer commits the line. -/
def Disc.intr (d : Disc) (c : UInt8) : Disc :=
  if c = C 'P' then d
  else if c = C 'U' then { d with line := [] }
  else if c = C 'H' ∨ c = '\x7f'.toUInt8 then { d with line := d.line.dropLast }
  else if c ≠ 0 ∧ d.unread.length + d.line.length < INPUT_BUF then
    let c := if c = '\r'.toUInt8 then '\n'.toUInt8 else c
    if c = '\n'.toUInt8 ∨ c = C 'D' ∨ d.unread.length + d.line.length + 1 = INPUT_BUF then
      ⟨d.unread ++ d.line ++ [c], []⟩
    else { d with line := d.line ++ [c] }
  else d

/-- The view of the buffer. -/
def Cons.toDisc (cons : Cons) : Disc := ⟨cons.unread, cons.line⟩

/-- `r ≤ w ≤ e ≤ r + INPUT_BUF` as distances modulo `2 ^ 32`, and the line
holds no newline: it would have been committed. -/
structure ConsInv (cons : Cons) : Prop where
  count_eq : count cons.r cons.w + count cons.w cons.e = count cons.r cons.e
  bound : count cons.r cons.e ≤ INPUT_BUF
  open_line : '\n'.toUInt8 ∉ cons.line

section Buffer

variable {cons : Cons}

@[simp] theorem length_unread (cons : Cons) : cons.unread.length = count cons.r cons.w := by
  simp [Cons.unread]

@[simp] theorem length_line (cons : Cons) : cons.line.length = count cons.w cons.e := by
  simp [Cons.line]

theorem with_e_self (cons : Cons) (h : cons.w = cons.e) : { cons with e := cons.w } = cons := by
  obtain ⟨buf, r, w, e⟩ := cons
  dsimp only at h ⊢
  rw [h]

/-- With no newline in the line, `^U` erases all of it. -/
theorem killLine_eq : ∀ (fuel : Nat) (cons : Cons), count cons.w cons.e ≤ fuel →
    '\n'.toUInt8 ∉ cons.line → killLine fuel cons = { cons with e := cons.w }
  | 0, cons, hf, _ => by
      rw [killLine, with_e_self cons (count_eq_zero.1 (Nat.le_zero.mp hf))]
  | fuel + 1, cons, hf, hl => by
      by_cases he : cons.e = cons.w
      · rw [killLine, if_neg (fun h => h.1 he), with_e_self cons he.symm]
      · obtain ⟨k, hk⟩ : ∃ k, count cons.w cons.e = k + 1 :=
          Nat.exists_eq_succ_of_ne_zero fun h0 => he (count_eq_zero.1 h0).symm
        -- the byte before `e` is the last of the line
        have hline : cons.line = window cons.buf cons.w k ++ [cons.buf (slot INPUT_BUF (cons.e - 1))] := by
          rw [Cons.line, hk, window_succ_right, sub_one_eq_add hk]
        have hc : cons.buf (slot INPUT_BUF (cons.e - 1)) ≠ '\n'.toUInt8 := fun h =>
          hl (by rw [hline, h]; exact List.mem_append_right _ (List.mem_singleton_self _))
        have hk' : count cons.w (cons.e - 1) = k := by
          have := count_sub_one he
          omega
        rw [killLine, if_pos ⟨he, hc⟩]
        refine killLine_eq fuel _ (by dsimp only; omega) fun h => hl ?_
        rw [hline]
        exact List.mem_append_left _ (by simpa [Cons.line, hk'] using h)

/-- `^U` moves `e` back towards `w` and changes nothing else. -/
theorem killLine_le : ∀ (fuel : Nat) (cons : Cons),
    ∃ e', killLine fuel cons = { cons with e := e' } ∧ count cons.w e' ≤ count cons.w cons.e
  | 0, cons => ⟨cons.e, rfl, le_rfl⟩
  | fuel + 1, cons => by
      rw [killLine]
      split_ifs with h
      · obtain ⟨e', he', hle⟩ := killLine_le fuel { cons with e := cons.e - 1 }
        refine ⟨e', he', ?_⟩
        have := count_sub_one h.1
        dsimp only at hle
        omega
      · exact ⟨cons.e, rfl, le_rfl⟩

/-- Backspace drops the last byte of the line. -/
theorem line_backspace (he : cons.e ≠ cons.w) :
    ({ cons with e := cons.e - 1 } : Cons).line = cons.line.dropLast ∧
      count cons.w (cons.e - 1) + 1 = count cons.w cons.e := by
  obtain ⟨k, hk⟩ : ∃ k, count cons.w cons.e = k + 1 :=
    Nat.exists_eq_succ_of_ne_zero fun h0 => he (count_eq_zero.1 h0).symm
  have hc := count_sub_one he
  refine ⟨?_, hc⟩
  rw [Cons.line, Cons.line, hk, window_succ_right, List.dropLast_concat]
  dsimp only
  congr 1
  omega

section Store

variable (h : ConsInv cons) (hfree : count cons.r cons.e < INPUT_BUF) (x : UInt8)
include hfree

include h in
theorem count_store_e : count cons.r (cons.e + 1) = count cons.r cons.e + 1 ∧
    count cons.w (cons.e + 1) = count cons.w cons.e + 1 := by
  have := h.count_eq
  exact ⟨count_add_one (by unfold INPUT_BUF at hfree; omega),
    count_add_one (by unfold INPUT_BUF at hfree; omega)⟩

/-- A stored byte goes into the slot past `e`, which no byte of `buf[r..e)`
occupies. -/
theorem window_store : window (cons.store x).buf cons.r (count cons.r cons.e) =
    window cons.buf cons.r (count cons.r cons.e) := by
  have hslot : slot INPUT_BUF cons.e = slot INPUT_BUF (cons.r + UInt32.ofNat (count cons.r cons.e)) :=
    congrArg _ ((eq_add_iff_count (count_lt _ _)).mpr rfl)
  simp only [Cons.store]
  rw [hslot, window_update input_buf_dvd _ _ hfree]

include h in
/-- Storing keeps the committed bytes and ends the line with the byte. -/
theorem view_store : (cons.store x).unread = cons.unread ∧ (cons.store x).line = cons.line ++ [x] := by
  have hslot_r : slot INPUT_BUF cons.e = slot INPUT_BUF (cons.r + UInt32.ofNat (count cons.r cons.e)) :=
    congrArg _ ((eq_add_iff_count (count_lt _ _)).mpr rfl)
  have hslot_w : slot INPUT_BUF cons.e = slot INPUT_BUF (cons.w + UInt32.ofNat (count cons.w cons.e)) :=
    congrArg _ ((eq_add_iff_count (count_lt _ _)).mpr rfl)
  have hwe := h.count_eq
  constructor
  · simp only [Cons.unread, Cons.store]
    rw [hslot_r, window_update_of_le input_buf_dvd _ _ (by omega) hfree]
  · simp only [Cons.line, Cons.store]
    rw [(count_store_e h hfree).2, hslot_w, window_push input_buf_dvd _ _ (by omega)]

include h in
theorem store_full : (cons.store x).e = cons.r + UInt32.ofNat INPUT_BUF ↔
    count cons.r cons.e + 1 = INPUT_BUF := by
  rw [eq_add_iff_count (by decide), Cons.store, (count_store_e h hfree).1]

end Store

/-- Committing the line makes it part of the committed bytes. -/
theorem view_commit (h : count cons.r cons.w + count cons.w cons.e = count cons.r cons.e) :
    ({ cons with w := cons.e } : Cons).unread = cons.unread ++ cons.line ∧
      ({ cons with w := cons.e } : Cons).line = [] := by
  have hw : cons.w = cons.r + UInt32.ofNat (count cons.r cons.w) :=
    (eq_add_iff_count (count_lt _ _)).mpr rfl
  constructor
  · rw [Cons.unread, Cons.unread, Cons.line]
    dsimp only
    rw [← h, window_add, ← hw]
  · simp [Cons.line]

/-- What `consoleintr` does to the buffer: nothing, move `e` back towards
`w`, or, with room, store a byte and perhaps commit the line. -/
theorem consoleintr_cases (cons : Cons) (c : UInt8) :
    consoleintr cons c = cons ∨
      (∃ e', consoleintr cons c = { cons with e := e' } ∧ count cons.w e' ≤ count cons.w cons.e) ∨
      count cons.r cons.e < INPUT_BUF ∧ ∃ x, consoleintr cons c = cons.store x ∨
        consoleintr cons c = { cons.store x with w := (cons.store x).e } := by
  by_cases hP : c = C 'P'
  · rw [consoleintr, if_pos hP]
    exact .inl rfl
  by_cases hU : c = C 'U'
  · rw [consoleintr, if_neg hP, if_pos hU]
    exact .inr (.inl (killLine_le _ cons))
  by_cases hH : c = C 'H' ∨ c = '\x7f'.toUInt8
  · rw [consoleintr, if_neg hP, if_neg hU, if_pos hH]
    split_ifs with he
    · exact .inr (.inl ⟨cons.e - 1, rfl, by have := count_sub_one he; omega⟩)
    · exact .inl rfl
  by_cases hs : c ≠ 0 ∧ count cons.r cons.e < INPUT_BUF
  · rw [consoleintr, if_neg hP, if_neg hU, if_neg hH, if_pos hs]
    generalize (if c = '\r'.toUInt8 then '\n'.toUInt8 else c) = x
    dsimp only
    split_ifs
    · exact .inr (.inr ⟨hs.2, x, .inr rfl⟩)
    · exact .inr (.inr ⟨hs.2, x, .inl rfl⟩)
  · rw [consoleintr, if_neg hP, if_neg hU, if_neg hH, if_neg hs]
    exact .inl rfl

/-- Backspace and `^U` only move `e` back towards `w`: they erase no byte at
or before `w`. -/
theorem consoleintr_erase {c : UInt8} (hc : c = C 'U' ∨ c = C 'H' ∨ c = '\x7f'.toUInt8) :
    ∃ e', consoleintr cons c = { cons with e := e' } ∧ count cons.w e' ≤ count cons.w cons.e := by
  have hP : c ≠ C 'P' := by
    rcases hc with rfl | rfl | rfl <;> decide
  by_cases hU : c = C 'U'
  · rw [consoleintr, if_neg hP, if_pos hU]
    exact killLine_le _ cons
  · rw [consoleintr, if_neg hP, if_neg hU, if_pos (hc.resolve_left hU)]
    split_ifs with he
    · exact ⟨cons.e - 1, rfl, by have := count_sub_one he; omega⟩
    · exact ⟨cons.e, rfl, le_rfl⟩

theorem refine_killLine (h : ConsInv cons) :
    ConsInv { cons with e := cons.w } ∧
      ({ cons with e := cons.w } : Cons).toDisc = { cons.toDisc with line := [] } := by
  have hline : ({ cons with e := cons.w } : Cons).line = [] := by simp [Cons.line]
  refine ⟨⟨by simp, ?_, by rw [hline]; simp⟩, by rw [Cons.toDisc, hline]; rfl⟩
  have := h.count_eq
  have := h.bound
  dsimp only
  omega

theorem refine_backspace (h : ConsInv cons) :
    ConsInv (if cons.e ≠ cons.w then { cons with e := cons.e - 1 } else cons) ∧
      (if cons.e ≠ cons.w then { cons with e := cons.e - 1 } else cons).toDisc =
        { cons.toDisc with line := cons.toDisc.line.dropLast } := by
  split_ifs with he
  · obtain ⟨hline, hc⟩ := line_backspace he
    have hre : cons.e ≠ cons.r := by
      intro h'
      have h0 : count cons.r cons.e = 0 := by rw [h', count_self]
      have h1 : count cons.w cons.e ≠ 0 := fun h0' => he (count_eq_zero.1 h0').symm
      have := h.count_eq
      omega
    have hc' := count_sub_one hre
    have := h.count_eq
    refine ⟨⟨by dsimp only; omega, by have := h.bound; dsimp only; omega, ?_⟩, ?_⟩
    · rw [hline]
      exact fun hm => h.open_line (List.dropLast_subset _ hm)
    · rw [Cons.toDisc, Cons.toDisc, hline]
      rfl
  · have hnil : cons.line = [] := by
      simp [Cons.line, not_not.mp he]
    refine ⟨h, ?_⟩
    rw [Cons.toDisc, hnil]
    rfl

theorem refine_store (h : ConsInv cons) (hfree : count cons.r cons.e < INPUT_BUF) (x : UInt8) :
    ConsInv (if x = '\n'.toUInt8 ∨ x = C 'D' ∨ (cons.store x).e = cons.r + UInt32.ofNat INPUT_BUF
        then { cons.store x with w := (cons.store x).e } else cons.store x) ∧
      (if x = '\n'.toUInt8 ∨ x = C 'D' ∨ (cons.store x).e = cons.r + UInt32.ofNat INPUT_BUF
        then { cons.store x with w := (cons.store x).e } else cons.store x).toDisc =
      (if x = '\n'.toUInt8 ∨ x = C 'D' ∨
          cons.toDisc.unread.length + cons.toDisc.line.length + 1 = INPUT_BUF
        then (⟨cons.toDisc.unread ++ cons.toDisc.line ++ [x], []⟩ : Disc)
        else { cons.toDisc with line := cons.toDisc.line ++ [x] }) := by
  have hfull : cons.toDisc.unread.length + cons.toDisc.line.length + 1 = INPUT_BUF ↔
      (cons.store x).e = cons.r + UInt32.ofNat INPUT_BUF := by
    rw [store_full h hfree x, Cons.toDisc, length_unread, length_line, h.count_eq]
  simp only [hfull]
  obtain ⟨hu, hl⟩ := view_store h hfree x
  obtain ⟨hr, hw⟩ := count_store_e h hfree
  have := h.count_eq
  split_ifs with hc
  · -- the line, with the byte, is committed
    obtain ⟨hu', hl'⟩ := view_commit (show count (cons.store x).r (cons.store x).w +
      count (cons.store x).w (cons.store x).e = count (cons.store x).r (cons.store x).e by
        simp only [Cons.store]
        omega)
    refine ⟨⟨by simp, by simp only [Cons.store]; omega, by rw [hl']; simp⟩, ?_⟩
    simp only [Cons.toDisc, hu', hl', hu, hl, List.append_assoc]
  · refine ⟨⟨by simp only [Cons.store]; omega, by simp only [Cons.store]; omega, ?_⟩, ?_⟩
    · rw [hl]
      simp only [List.mem_append, List.mem_singleton, not_or]
      exact ⟨h.open_line, fun hx => hc (.inl hx.symm)⟩
    · simp only [Cons.toDisc, hu, hl]

/-- `consoleintr` keeps the invariant and is the line discipline on the
view of the buffer. -/
theorem consoleintr_refines (h : ConsInv cons) (c : UInt8) :
    ConsInv (consoleintr cons c) ∧ (consoleintr cons c).toDisc = cons.toDisc.intr c := by
  have hlen : cons.toDisc.unread.length + cons.toDisc.line.length = count cons.r cons.e := by
    rw [Cons.toDisc, length_unread, length_line, h.count_eq]
  by_cases hP : c = C 'P'
  · rw [consoleintr, if_pos hP, Disc.intr, if_pos hP]
    exact ⟨h, rfl⟩
  by_cases hU : c = C 'U'
  · rw [consoleintr, if_neg hP, if_pos hU, Disc.intr, if_neg hP, if_pos hU,
      killLine_eq _ _ le_rfl h.open_line]
    exact refine_killLine h
  by_cases hH : c = C 'H' ∨ c = '\x7f'.toUInt8
  · rw [consoleintr, if_neg hP, if_neg hU, if_pos hH, Disc.intr, if_neg hP, if_neg hU, if_pos hH]
    exact refine_backspace h
  by_cases hs : c ≠ 0 ∧ count cons.r cons.e < INPUT_BUF
  · have hs' : c ≠ 0 ∧ cons.toDisc.unread.length + cons.toDisc.line.length < INPUT_BUF := by
      rw [hlen]
      exact hs
    rw [consoleintr, if_neg hP, if_neg hU, if_neg hH, if_pos hs, Disc.intr, if_neg hP, if_neg hU,
      if_neg hH, if_pos hs']
    exact refine_store h hs.2 (if c = '\r'.toUInt8 then '\n'.toUInt8 else c)
  · have hs' : ¬ (c ≠ 0 ∧ cons.toDisc.unread.length + cons.toDisc.line.length < INPUT_BUF) := by
      rw [hlen]
      exact hs
    rw [consoleintr, if_neg hP, if_neg hU, if_neg hH, if_neg hs, Disc.intr, if_neg hP, if_neg hU,
      if_neg hH, if_neg hs']
    exact ⟨h, rfl⟩

/-- `consoleintr` writes no byte of `buf[r..e)`. -/
theorem consoleintr_keeps (cons : Cons) (c : UInt8) :
    window (consoleintr cons c).buf cons.r (count cons.r cons.e) =
      window cons.buf cons.r (count cons.r cons.e) := by
  rcases consoleintr_cases cons c with h | ⟨e', h, -⟩ | ⟨hfree, x, h | h⟩ <;> rw [h]
  · exact window_store hfree x
  · exact window_store hfree x

/-- The committed bytes after `consoleintr` are those before it and the
bytes `w` moved over. -/
theorem consoleintr_unread (h : ConsInv cons) (c : UInt8) :
    (consoleintr cons c).unread =
      cons.unread ++ window (consoleintr cons c).buf cons.w (count cons.w (consoleintr cons c).w) := by
  rcases consoleintr_cases cons c with hc | ⟨e', hc, -⟩ | ⟨hfree, x, hc | hc⟩ <;> rw [hc]
  · simp
  · simp [Cons.unread]
  · rw [(view_store h hfree x).1]
    simp [Cons.store]
  · -- the bytes committed are the line with the stored byte
    obtain ⟨hr, hw⟩ := count_store_e h hfree
    have := h.count_eq
    rw [(view_commit (show count (cons.store x).r (cons.store x).w +
      count (cons.store x).w (cons.store x).e = count (cons.store x).r (cons.store x).e by
        simp only [Cons.store]
        omega)).1, (view_store h hfree x).1]
    rfl

end Buffer

section Read

variable {copyout : Nat → UInt8 → Bool} {target : Int}

/-- What a stretch of `consoleread` did, going from `cons` with `n` bytes
left to `cons'` with `n'` left: it copied `newOut` out and took `newTook`
out of the buffer for good.  The bytes it took are the first committed
ones; it copied them all out, or all but a last `^D` it ate in a read that
returns `0` or a last byte whose `copyout` failed.  It copies out no `^D` and
stops after a newline; it sleeps only with bytes left to read and no
committed byte, and returns the bytes it read or `-1`. -/
structure Stretch (copyout : Nat → UInt8 → Bool) (target : Int) (cons : Cons) (n : Int)
    (cons' : Cons) (n' : Int) (stop : ReadStop) (newOut newTook : List UInt8) : Prop where
  frame : cons'.buf = cons.buf ∧ cons'.w = cons.w ∧ cons'.e = cons.e
  r_eq : cons'.r = cons.r + UInt32.ofNat newTook.length
  took_eq : newTook = window cons.buf cons.r newTook.length
  took_le : newTook.length ≤ count cons.r cons.w
  n_eq : n' = n - newOut.length
  no_eof : C 'D' ∉ newOut
  nl_last : '\n'.toUInt8 ∉ newOut.dropLast
  nl_ret : '\n'.toUInt8 ∈ newOut → stop = .ret (target - n')
  took_out : newTook = newOut ∨ ∃ x, newTook = newOut ++ [x] ∧ stop = .ret (target - n') ∧
    (x = C 'D' ∧ target ≤ n' ∨ x ≠ C 'D' ∧ copyout (target - n').toNat x = false)
  sleep : stop = .sleep → cons'.r = cons.w ∧ 0 < n'
  ret : ∀ v, stop = .ret v → v = -1 ∨ v = target - n'

theorem Stretch.stay {cons : Cons} {n : Int} {stop : ReadStop}
    (hsleep : stop = .sleep → cons.r = cons.w ∧ 0 < n)
    (hret : ∀ v, stop = .ret v → v = -1 ∨ v = target - n) :
    Stretch copyout target cons n cons n stop [] [] where
  frame := ⟨rfl, rfl, rfl⟩
  r_eq := by simp
  took_eq := rfl
  took_le := Nat.zero_le _
  n_eq := by simp
  no_eof := by simp
  nl_last := by simp
  nl_ret := by simp
  took_out := .inl rfl
  sleep := hsleep
  ret := hret

theorem window_one (buf : Fin INPUT_BUF → UInt8) (r : UInt32) :
    window buf r 1 = [buf (slot INPUT_BUF r)] := by
  simp [window]

/-- Taking one byte without copying it out: a `^D` that ends the read, or a
byte whose `copyout` failed. -/
theorem Stretch.take_one {cons : Cons} {n : Int} (hrw : cons.r ≠ cons.w)
    (hwhy : cons.buf (slot INPUT_BUF cons.r) = C 'D' ∧ target ≤ n ∨
      cons.buf (slot INPUT_BUF cons.r) ≠ C 'D' ∧
        copyout (target - n).toNat (cons.buf (slot INPUT_BUF cons.r)) = false) :
    Stretch copyout target cons n { cons with r := cons.r + 1 } n (.ret (target - n)) []
      [cons.buf (slot INPUT_BUF cons.r)] where
  frame := ⟨rfl, rfl, rfl⟩
  r_eq := by simp
  took_eq := (window_one _ _).symm
  took_le := Nat.one_le_iff_ne_zero.mpr fun h0 => hrw (count_eq_zero.1 h0)
  n_eq := by simp
  no_eof := by simp
  nl_last := by simp
  nl_ret := by simp
  took_out := .inr ⟨_, rfl, rfl, hwhy⟩
  sleep := by simp
  ret := fun _ hv => .inr (ReadStop.ret.inj hv).symm

/-- Copying out a newline ends the read. -/
theorem Stretch.newline {cons : Cons} {n : Int} (hrw : cons.r ≠ cons.w)
    (hnl : cons.buf (slot INPUT_BUF cons.r) = '\n'.toUInt8) :
    Stretch copyout target cons n { cons with r := cons.r + 1 } (n - 1) (.ret (target - (n - 1)))
      ['\n'.toUInt8] ['\n'.toUInt8] where
  frame := ⟨rfl, rfl, rfl⟩
  r_eq := by simp
  took_eq := by rw [List.length_singleton, window_one, hnl]
  took_le := Nat.one_le_iff_ne_zero.mpr fun h0 => hrw (count_eq_zero.1 h0)
  n_eq := by simp
  no_eof := by decide
  nl_last := by simp
  nl_ret := fun _ => rfl
  took_out := .inl rfl
  sleep := by simp
  ret := fun _ hv => .inr (ReadStop.ret.inj hv).symm

/-- A byte copied out before the rest of the stretch. -/
theorem Stretch.cons_step {cons cons' : Cons} {n n' : Int} {stop : ReadStop}
    {newOut newTook : List UInt8}
    (hs : Stretch copyout target { cons with r := cons.r + 1 } (n - 1) cons' n' stop newOut newTook)
    (hrw : cons.r ≠ cons.w) (hD : cons.buf (slot INPUT_BUF cons.r) ≠ C 'D')
    (hnl : cons.buf (slot INPUT_BUF cons.r) ≠ '\n'.toUInt8) :
    Stretch copyout target cons n cons' n' stop (cons.buf (slot INPUT_BUF cons.r) :: newOut)
      (cons.buf (slot INPUT_BUF cons.r) :: newTook) where
  frame := hs.frame
  r_eq := by rw [List.length_cons, add_ofNat_succ, hs.r_eq]
  took_eq := by
    rw [List.length_cons, window_succ_left]
    exact congrArg _ hs.took_eq
  took_le := by
    have h₁ : newTook.length ≤ count (cons.r + 1) cons.w := hs.took_le
    have := count_add_one_left hrw
    simp only [List.length_cons]
    omega
  n_eq := by
    rw [hs.n_eq, List.length_cons]
    push_cast
    omega
  no_eof := by
    simp only [List.mem_cons, not_or]
    exact ⟨Ne.symm hD, hs.no_eof⟩
  nl_last := by
    cases newOut with
    | nil => simp
    | cons a l =>
        rw [List.dropLast_cons_cons, List.mem_cons, not_or]
        exact ⟨Ne.symm hnl, hs.nl_last⟩
  nl_ret := fun hm => hs.nl_ret ((List.mem_cons.mp hm).resolve_left (Ne.symm hnl))
  took_out := by
    rcases hs.took_out with h | ⟨x, hx, hstop, hwhy⟩
    · exact .inl (by rw [h])
    · exact .inr ⟨x, by rw [hx]; rfl, hstop, hwhy⟩
  sleep := hs.sleep
  ret := hs.ret

/-- A stretch keeps the invariant, and takes its bytes from the front of
the committed input. -/
theorem Stretch.consInv {cons cons' : Cons} {n n' : Int} {stop : ReadStop} {newOut newTook : List UInt8}
    (hs : Stretch copyout target cons n cons' n' stop newOut newTook) (h : ConsInv cons) :
    ConsInv cons' ∧ cons.unread = newTook ++ cons'.unread := by
  obtain ⟨hbuf, hw, he⟩ := hs.frame
  have hle := hs.took_le
  have := h.count_eq
  have hrw := count_add_left hle
  have hre := count_add_left (show newTook.length ≤ count cons.r cons.e by omega)
  have hline : cons'.line = cons.line := by rw [Cons.line, Cons.line, hbuf, hw, he]
  refine ⟨⟨?_, ?_, hline ▸ h.open_line⟩, ?_⟩
  · rw [hs.r_eq, hw, he]
    omega
  · rw [hs.r_eq, he]
    have := h.bound
    omega
  · have hw' : cons.w = cons.r + UInt32.ofNat (count cons.r cons.w) :=
      (eq_add_iff_count (count_lt _ _)).mpr rfl
    rw [Cons.unread, Cons.unread, hbuf, hw, hs.r_eq, ← hrw, Nat.add_comm, window_add, ← hs.took_eq]

/-- The loop of `consoleread` is a stretch, after the bytes copied and
taken before it. -/
theorem consolereadLoop_spec (killed : Bool) : ∀ (fuel : Nat) (cons : Cons) (n : Int)
    (out took : List UInt8) {cons' : Cons} {n' : Int} {stop : ReadStop} {out' took' : List UInt8},
    consolereadLoop copyout killed target fuel cons n out took = (cons', n', stop, out', took') →
    ∃ newOut newTook, out' = out ++ newOut ∧ took' = took ++ newTook ∧
      Stretch copyout target cons n cons' n' stop newOut newTook
  | 0, cons, n, out, took, _, _, _, _, _, h => by
      simp only [consolereadLoop, Prod.mk.injEq] at h
      obtain ⟨rfl, rfl, rfl, rfl, rfl⟩ := h
      exact ⟨[], [], by simp, by simp,
        Stretch.stay (by simp) fun _ hv => .inr (ReadStop.ret.inj hv).symm⟩
  | fuel + 1, cons, n, out, took, _, _, _, _, _, h => by
      rw [consolereadLoop] at h
      dsimp only at h
      split_ifs at h with hn hrw hk hD hlt hcp hnl
      · cases h
        exact ⟨[], [], by simp, by simp,
          Stretch.stay (by simp) fun _ hv => .inr (ReadStop.ret.inj hv).symm⟩
      · cases h
        exact ⟨[], [], by simp, by simp, Stretch.stay (by simp) fun _ hv => .inl (ReadStop.ret.inj hv).symm⟩
      · cases h
        exact ⟨[], [], by simp, by simp, Stretch.stay (fun _ => ⟨hrw, by omega⟩) (by simp)⟩
      · -- a `^D` after some bytes stays for the next read
        cases h
        have hback : cons.r + 1 - 1 = cons.r := by simp
        rw [hback]
        exact ⟨[], [], by simp, by simp,
          Stretch.stay (by simp) fun _ hv => .inr (ReadStop.ret.inj hv).symm⟩
      · cases h
        exact ⟨[], _, by simp, rfl, Stretch.take_one hrw (.inl ⟨hD, not_lt.mp hlt⟩)⟩
      · cases h
        exact ⟨[], _, by simp, rfl, Stretch.take_one hrw (.inr ⟨hD, hcp⟩)⟩
      · cases h
        rw [hnl]
        exact ⟨_, _, rfl, rfl, Stretch.newline hrw hnl⟩
      · obtain ⟨newOut, newTook, hout, htook, hs⟩ := consolereadLoop_spec killed fuel _ _ _ _ h
        refine ⟨_, _, by rw [hout, List.append_assoc]; rfl, by rw [htook, List.append_assoc]; rfl,
          hs.cons_step hrw hD hnl⟩

end Read

end Console
end Xv6
