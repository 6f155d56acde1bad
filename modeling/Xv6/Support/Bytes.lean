import Mathlib.Data.Nat.Basic
import Mathlib.Tactic.Linarith

/-!
# Little-endian fields in byte buffers

A C structure laid over a byte buffer (`(struct logheader *) buf->data`, a
packet header at `m->head`) reads and writes integer fields as runs of
bytes in the machine's byte order; RISC-V is little-endian.  This module
models such a buffer as a function from offsets to bytes and gives the two
operations a field access compiles to:

* `getLE b o w` is the unsigned value of the `w` bytes of `b` at offset `o`,
  least significant byte first;
* `setLE b o w v` stores the low `w` bytes of `v` there, as an assignment to
  an integer field of width `w` does.

The lemmas are the ones a field-overlay argument needs: a stored field reads
back modulo its width, disjoint fields do not interfere, and a read depends
only on the bytes it covers.
-/

namespace Xv6
namespace Bytes

variable {n m : Nat}

/-- The byte at offset `i` as a number, zero past the end of the buffer. -/
def byteAt (b : Fin n → UInt8) (i : Nat) : Nat :=
  if h : i < n then (b ⟨i, h⟩).toNat else 0

/-- The little-endian number held in the `w` bytes of `b` from offset `o`. -/
def getLE (b : Fin n → UInt8) (o : Nat) : Nat → Nat
  | 0 => 0
  | w + 1 => byteAt b o + 256 * getLE b (o + 1) w

/-- Store the low `w` bytes of `v` at offset `o`, least significant first. -/
def setLE (b : Fin n → UInt8) (o w v : Nat) : Fin n → UInt8 :=
  fun i => if o ≤ i.val ∧ i.val < o + w then UInt8.ofNat (v / 256 ^ (i.val - o))
    else b i

/-- Copy the bytes `l` to offset `o`, as `memmove(b + o, l, len)` does. -/
def setBytes (b : Fin n → UInt8) (o : Nat) (l : List UInt8) : Fin n → UInt8 :=
  fun i => if o ≤ i.val ∧ i.val < o + l.length then l.getD (i.val - o) 0 else b i

theorem byteAt_lt (b : Fin n → UInt8) (i : Nat) : byteAt b i < 256 := by
  unfold byteAt
  split
  · exact UInt8.toNat_lt _
  · omega

theorem getLE_lt (b : Fin n → UInt8) (o w : Nat) : getLE b o w < 256 ^ w := by
  induction w generalizing o with
  | zero => simp [getLE]
  | succ w ih =>
      have hb := byteAt_lt b o
      have ht := ih (o + 1)
      rw [getLE, Nat.pow_succ]
      nlinarith

@[simp] theorem getLE_zero (b : Fin n → UInt8) (o : Nat) : getLE b o 0 = 0 := rfl

theorem getLE_succ (b : Fin n → UInt8) (o w : Nat) :
    getLE b o (w + 1) = byteAt b o + 256 * getLE b (o + 1) w := rfl

/-- A read depends only on the bytes it covers. -/
theorem getLE_congr {b b' : Fin n → UInt8} {o w : Nat}
    (h : ∀ i, o ≤ i → i < o + w → byteAt b i = byteAt b' i) :
    getLE b o w = getLE b' o w := by
  induction w generalizing o with
  | zero => rfl
  | succ w ih =>
      rw [getLE_succ, getLE_succ, h o le_rfl (by omega)]
      congr 2
      exact ih fun i h1 h2 => h i (by omega) (by omega)

/-- Bytes that spell `v` digit by digit in base 256 read back as `v` modulo
the width. -/
theorem getLE_of_digits {b : Fin n → UInt8} {o w v : Nat}
    (h : ∀ k, k < w → byteAt b (o + k) = v / 256 ^ k % 256) :
    getLE b o w = v % 256 ^ w := by
  induction w generalizing o v with
  | zero => simp [Nat.mod_one]
  | succ w ih =>
      have hhead : byteAt b o = v % 256 := by simpa using h 0 (by omega)
      have htail : getLE b (o + 1) w = v / 256 % 256 ^ w := by
        apply ih
        intro k hk
        rw [Nat.div_div_eq_div_mul, ← Nat.pow_succ']
        simpa [Nat.add_assoc, Nat.add_comm 1 k] using h (k + 1) (by omega)
      rw [getLE_succ, hhead, htail, Nat.pow_succ', Nat.mod_mul]

theorem byteAt_setLE (b : Fin n → UInt8) (o w v i : Nat) :
    byteAt (setLE b o w v) i =
      if o ≤ i ∧ i < o + w ∧ i < n then v / 256 ^ (i - o) % 256
      else byteAt b i := by
  unfold byteAt setLE
  by_cases hi : i < n
  · by_cases hr : o ≤ i ∧ i < o + w
    · simp [hi, hr]
    · simp only [hi, dif_pos, hr, if_false]
      simp [hr]
  · simp [hi]

/-- A stored field reads back modulo its width. -/
@[simp] theorem getLE_setLE (b : Fin n → UInt8) {o w : Nat} (v : Nat)
    (h : o + w ≤ n) : getLE (setLE b o w v) o w = v % 256 ^ w := by
  apply getLE_of_digits
  intro k hk
  rw [byteAt_setLE, if_pos ⟨by omega, by omega, by omega⟩, Nat.add_sub_cancel_left]

/-- Storing one field leaves a disjoint field as it was. -/
theorem getLE_setLE_of_disjoint (b : Fin n → UInt8) {o w o' w' : Nat} (v : Nat)
    (h : o' + w' ≤ o ∨ o + w ≤ o') :
    getLE (setLE b o w v) o' w' = getLE b o' w' := by
  apply getLE_congr
  intro i h1 h2
  rw [byteAt_setLE, if_neg (by omega)]

/-- Storing a field twice keeps only the second store. -/
@[simp] theorem setLE_setLE (b : Fin n → UInt8) (o w v u : Nat) :
    setLE (setLE b o w v) o w u = setLE b o w u := by
  funext i
  unfold setLE
  split <;> simp_all

/-- Stores to disjoint fields commute. -/
theorem setLE_comm (b : Fin n → UInt8) {o w o' w' : Nat} (v v' : Nat)
    (h : o' + w' ≤ o ∨ o + w ≤ o') :
    setLE (setLE b o w v) o' w' v' = setLE (setLE b o' w' v') o w v := by
  funext i
  unfold setLE
  by_cases h1 : o ≤ i.val ∧ i.val < o + w
  · have h2 : ¬(o' ≤ i.val ∧ i.val < o' + w') := by omega
    simp [h1, h2]
  · simp [h1]

theorem byteAt_setBytes (b : Fin n → UInt8) (o : Nat) (l : List UInt8) (i : Nat) :
    byteAt (setBytes b o l) i =
      if o ≤ i ∧ i < o + l.length ∧ i < n then (l.getD (i - o) 0).toNat else byteAt b i := by
  unfold byteAt setBytes
  by_cases hi : i < n
  · by_cases hr : o ≤ i ∧ i < o + l.length
    · simp [hi, hr]
    · simp only [hi, dif_pos, hr, if_false]
      simp [hr]
  · simp [hi]

theorem getLE_setBytes_of_disjoint (b : Fin n → UInt8) {o o' w' : Nat} (l : List UInt8)
    (h : o' + w' ≤ o ∨ o + l.length ≤ o') :
    getLE (setBytes b o l) o' w' = getLE b o' w' := by
  apply getLE_congr
  intro i h1 h2
  rw [byteAt_setBytes, if_neg (by omega)]

/-- A read sees only the bytes it covers, wherever in whichever buffer they
are. -/
theorem getLE_shift {b : Fin n → UInt8} {b' : Fin m → UInt8} {o o' w : Nat}
    (h : ∀ i < w, byteAt b' (o' + i) = byteAt b (o + i)) : getLE b' o' w = getLE b o w := by
  induction w generalizing o o' with
  | zero => rfl
  | succ w ih =>
      have htail : getLE b' (o' + 1) w = getLE b (o + 1) w := @ih (o + 1) (o' + 1) fun i hi => by
        simpa [Nat.add_assoc, Nat.add_comm 1 i] using h (i + 1) (by omega)
      have hhead : byteAt b' o' = byteAt b o := by simpa using h 0 (by omega)
      rw [getLE_succ, getLE_succ, htail, hhead]

/-- A read inside a run of bytes on which two buffers agree. -/
theorem getLE_shift_at {b : Fin n → UInt8} {b' : Fin m → UInt8} {o o' len k w : Nat}
    (h : ∀ i < len, byteAt b' (o' + i) = byteAt b (o + i)) (hk : k + w ≤ len) :
    getLE b' (o' + k) w = getLE b (o + k) w :=
  getLE_shift fun i hi => by simpa [Nat.add_assoc] using h (k + i) (by omega)

/-- A field inside a zero-filled run reads zero. -/
theorem getLE_setLE_zero (b : Fin n → UInt8) {o w o' w' : Nat} (hin : o ≤ o')
    (hend : o' + w' ≤ o + w) : getLE (setLE b o w 0) o' w' = 0 := by
  induction w' generalizing o' with
  | zero => rfl
  | succ w' ih =>
      rw [getLE_succ, ih (by omega) (by omega), byteAt_setLE]
      split
      · simp
      · -- only past the end of the buffer, where every byte reads zero
        simp [byteAt]
        omega

/-- Outside a stored field every byte is as it was. -/
theorem byteAt_setLE_of_not_mem (b : Fin n → UInt8) {o w i : Nat} (v : Nat)
    (h : i < o ∨ o + w ≤ i) : byteAt (setLE b o w v) i = byteAt b i := by
  rw [byteAt_setLE, if_neg (by omega)]

theorem byteAt_setBytes_of_not_mem (b : Fin n → UInt8) {o i : Nat} (l : List UInt8)
    (h : i < o ∨ o + l.length ≤ i) : byteAt (setBytes b o l) i = byteAt b i := by
  rw [byteAt_setBytes, if_neg (by omega)]

/-- A zero-filled buffer reads zero everywhere. -/
theorem getLE_zeros (o w : Nat) : getLE (fun _ : Fin n => (0 : UInt8)) o w = 0 := by
  induction w generalizing o with
  | zero => rfl
  | succ w ih =>
      have hb : byteAt (fun _ : Fin n => (0 : UInt8)) o = 0 := by
        unfold byteAt
        split <;> rfl
      rw [getLE_succ, ih, hb]

/-! ## Runs of bytes -/

/-- The `k` bytes of `b` from offset `o`, as the bytes of a `char` array
field. -/
def bytesAt (b : Fin n → UInt8) (o k : Nat) : List UInt8 :=
  (List.range k).map fun i => UInt8.ofNat (byteAt b (o + i))

@[simp] theorem length_bytesAt (b : Fin n → UInt8) (o k : Nat) : (bytesAt b o k).length = k := by
  simp [bytesAt]

/-- A run of bytes is its bytes, wherever in whichever buffer they are. -/
theorem bytesAt_shift {b : Fin n → UInt8} {b' : Fin m → UInt8} {o o' k : Nat}
    (h : ∀ i < k, byteAt b' (o' + i) = byteAt b (o + i)) : bytesAt b' o' k = bytesAt b o k := by
  unfold bytesAt
  refine List.map_congr_left fun i hi => ?_
  rw [h i (List.mem_range.mp hi)]

/-- A run inside a run of bytes on which two buffers agree. -/
theorem bytesAt_shift_at {b : Fin n → UInt8} {b' : Fin m → UInt8} {o o' len j k : Nat}
    (h : ∀ i < len, byteAt b' (o' + i) = byteAt b (o + i)) (hj : j + k ≤ len) :
    bytesAt b' (o' + j) k = bytesAt b (o + j) k :=
  bytesAt_shift fun i hi => by simpa [Nat.add_assoc] using h (j + i) (by omega)

theorem bytesAt_setLE_of_disjoint (b : Fin n → UInt8) {o w o' k : Nat} (v : Nat)
    (h : o' + k ≤ o ∨ o + w ≤ o') : bytesAt (setLE b o w v) o' k = bytesAt b o' k :=
  bytesAt_shift fun i hi => byteAt_setLE_of_not_mem b v (by omega)

theorem bytesAt_setBytes_of_disjoint (b : Fin n → UInt8) {o o' k : Nat} (l : List UInt8)
    (h : o' + k ≤ o ∨ o + l.length ≤ o') : bytesAt (setBytes b o l) o' k = bytesAt b o' k :=
  bytesAt_shift fun i hi => byteAt_setBytes_of_not_mem b l (by omega)

/-- Copied bytes read back. -/
theorem bytesAt_setBytes (b : Fin n → UInt8) (o : Nat) (l : List UInt8) {k : Nat}
    (hk : l.length = k) (h : o + k ≤ n) : bytesAt (setBytes b o l) o k = l := by
  subst hk
  apply List.ext_getElem (by simp)
  intro i hi hi'
  simp only [bytesAt, List.getElem_map, List.getElem_range]
  rw [byteAt_setBytes, if_pos ⟨by omega, by omega, by omega⟩, Nat.add_sub_cancel_left]
  simp [List.getD_eq_getElem?_getD, hi']

/-! ## Buffers that agree on a range -/

/-- `b` and `b'` hold the same bytes from `lo` up to `hi`. -/
def AgreeOn (b b' : Fin n → UInt8) (lo hi : Nat) : Prop :=
  ∀ i, lo ≤ i → i < hi → byteAt b i = byteAt b' i

section AgreeOn

variable {b b' : Fin n → UInt8} {lo hi : Nat}

theorem AgreeOn.mono (h : AgreeOn b b' lo hi) {lo' hi' : Nat} (hlo : lo ≤ lo') (hhi : hi' ≤ hi) :
    AgreeOn b b' lo' hi' :=
  fun i h1 h2 => h i (by omega) (by omega)

/-- A read inside the range sees the same number in both. -/
theorem AgreeOn.getLE (h : AgreeOn b b' lo hi) {o w : Nat} (hlo : lo ≤ o) (hhi : o + w ≤ hi) :
    getLE b o w = getLE b' o w :=
  getLE_congr fun i h1 h2 => h i (by omega) (by omega)

theorem AgreeOn.bytesAt (h : AgreeOn b b' lo hi) {o k : Nat} (hlo : lo ≤ o) (hhi : o + k ≤ hi) :
    bytesAt b o k = bytesAt b' o k :=
  bytesAt_shift fun i hi' => h (o + i) (by omega) (by omega)

end AgreeOn

/-! ## Structures laid over a buffer -/

/-- Store the fields `(offset, width, value)` in turn from base `o`, as the
assignments to the fields of a C structure laid over the buffer do. -/
def setFields (b : Fin n → UInt8) (o : Nat) (fs : List (Nat × Nat × Nat)) : Fin n → UInt8 :=
  fs.foldl (fun b f => setLE b (o + f.1) f.2.1 f.2.2) b

/-- Two fields, each given by its offset and width, do not overlap. -/
def Apart (f g : Nat × Nat) : Prop := f.1 + f.2 ≤ g.1 ∨ g.1 + g.2 ≤ f.1

instance (f g : Nat × Nat) : Decidable (Apart f g) := inferInstanceAs (Decidable (_ ∨ _))

@[simp] theorem setFields_nil (b : Fin n → UInt8) (o : Nat) : setFields b o [] = b := rfl

theorem setFields_cons (b : Fin n → UInt8) (o : Nat) (f : Nat × Nat × Nat)
    (fs : List (Nat × Nat × Nat)) :
    setFields b o (f :: fs) = setFields (setLE b (o + f.1) f.2.1 f.2.2) o fs := rfl

/-- A read apart from every stored field sees the buffer as it was. -/
theorem getLE_setFields_of_disjoint (b : Fin n → UInt8) (o : Nat) {fs : List (Nat × Nat × Nat)}
    {o' w' : Nat} (h : ∀ f ∈ fs, o' + w' ≤ o + f.1 ∨ o + f.1 + f.2.1 ≤ o') :
    getLE (setFields b o fs) o' w' = getLE b o' w' := by
  induction fs generalizing b with
  | nil => rfl
  | cons f fs ih =>
      rw [setFields_cons, ih _ fun g hg => h g (List.mem_cons_of_mem _ hg)]
      exact getLE_setLE_of_disjoint _ _ (h f List.mem_cons_self)

/-- Each of a structure's fields, stored with the others, reads back modulo
its width. -/
theorem getLE_setFields_of_mem (b : Fin n → UInt8) (o : Nat) {fs : List (Nat × Nat × Nat)}
    (hp : (fs.map fun f => (f.1, f.2.1)).Pairwise Apart) {f : Nat × Nat × Nat} (hf : f ∈ fs)
    (hn : o + f.1 + f.2.1 ≤ n) :
    getLE (setFields b o fs) (o + f.1) f.2.1 = f.2.2 % 256 ^ f.2.1 := by
  induction fs generalizing b with
  | nil => cases hf
  | cons g fs ih =>
      rw [List.map_cons, List.pairwise_cons] at hp
      rw [setFields_cons]
      rcases List.mem_cons.mp hf with rfl | hf
      · -- the later fields are apart from this one
        rw [getLE_setFields_of_disjoint]
        · exact getLE_setLE _ _ (by omega)
        · intro g hg
          have := hp.1 _ (List.mem_map_of_mem hg)
          simp only [Apart] at this
          omega
      · exact ih _ hp.2 hf

end Bytes
end Xv6
