import Mathlib.Data.List.TakeDrop

/-!
# Fixed-width records in a byte string

A file read as an array of C structures of one size (a directory's
`struct dirent`s) is a list cut into records of width `w`: the record at a
multiple of `w`, and the offsets of the records below the end of the list.
A record is rewritten by splicing its new bytes over the old ones.

The lemmas are those a table of records needs: a spliced record reads
back, a splice leaves every record it does not overlap as it was, and the
offsets after a splice are the old ones and possibly the record written
past the end.
-/

namespace Xv6
namespace Records

variable {α : Type}

/-- The offsets `0, w, 2w, …` below `n`, those a loop
`for(off = 0; off < n; off += w)` visits. -/
def slots (w n : Nat) : List Nat := (List.range ((n + w - 1) / w)).map (w * ·)

/-- The record of width `w` at offset `off`. -/
def recordAt (w : Nat) (l : List α) (off : Nat) : List α := (l.drop off).take w

/-- `l` with `e` written over it from `off` on, extending it if need be. -/
def splice (l : List α) (off : Nat) (e : List α) : List α :=
  l.take off ++ e ++ l.drop (off + e.length)

theorem slots_eq (w n : Nat) : slots w n = (List.range ((n + w - 1) / w)).map (w * ·) := rfl

theorem recordAt_eq (w : Nat) (l : List α) (off : Nat) : recordAt w l off = (l.drop off).take w :=
  rfl

theorem splice_eq (l : List α) (off : Nat) (e : List α) :
    splice l off e = l.take off ++ e ++ l.drop (off + e.length) := rfl

variable {w n o off : Nat}

theorem mem_slots (hw : 0 < w) : o ∈ slots w n ↔ o % w = 0 ∧ o < n := by
  simp only [slots_eq, List.mem_map, List.mem_range, Nat.lt_div_iff_mul_lt hw]
  constructor
  · rintro ⟨k, hk, rfl⟩
    refine ⟨Nat.mul_mod_right _ _, ?_⟩
    rw [Nat.mul_comm]
    omega
  · rintro ⟨hmod, hlt⟩
    refine ⟨o / w, ?_, Nat.mul_div_cancel' (Nat.dvd_of_mod_eq_zero hmod)⟩
    rw [Nat.div_mul_cancel (Nat.dvd_of_mod_eq_zero hmod)]
    omega

/-- The offsets rise. -/
theorem pairwise_slots (hw : 0 < w) (n : Nat) : (slots w n).Pairwise (· < ·) :=
  List.pairwise_lt_range.map _ fun _ _ h => Nat.mul_lt_mul_of_pos_left h hw

/-- The first record a search finds comes after only records it passed
over. -/
theorem find?_slots_first (hw : 0 < w) {p : Nat → Bool} {s : Nat}
    (h : (slots w n).find? p = some s) (ho : o ∈ slots w n) (hlt : o < s) : p o = false := by
  obtain ⟨-, as, bs, heq, hpass⟩ := List.find?_eq_some_iff_append.mp h
  have hpw := pairwise_slots hw n
  rw [heq] at hpw ho
  rcases List.mem_append.mp ho with ho | ho
  · simpa using hpass o ho
  · rcases List.mem_cons.mp ho with rfl | ho
    · exact absurd hlt (Nat.lt_irrefl _)
    · -- the records after the one found lie past it
      have := List.rel_of_pairwise_cons (List.pairwise_append.mp hpw).2.1 ho
      omega

/-- Two offsets of records less than a width apart are the same. -/
theorem eq_of_mod_eq_zero (ho : o % w = 0) (hoff : off % w = 0)
    (h₁ : o < off + w) (h₂ : off < o + w) : o = off := by
  obtain ⟨a, rfl⟩ := Nat.dvd_of_mod_eq_zero ho
  obtain ⟨b, rfl⟩ := Nat.dvd_of_mod_eq_zero hoff
  have hab : a < b + 1 := Nat.lt_of_mul_lt_mul_left (by rw [Nat.mul_succ]; exact h₁)
  have hba : b < a + 1 := Nat.lt_of_mul_lt_mul_left (by rw [Nat.mul_succ]; exact h₂)
  rw [show a = b by omega]

/-- A record read within a list of records whose length is a multiple of
the width lies wholly inside it. -/
theorem add_le_of_mem_slots (hw : 0 < w) (hn : n % w = 0) (h : o ∈ slots w n) : o + w ≤ n := by
  obtain ⟨hmod, hlt⟩ := (mem_slots hw).mp h
  by_contra hgt
  exact absurd (eq_of_mod_eq_zero hmod hn (by omega) (by omega)) (by omega)

theorem length_splice (l : List α) (e : List α) (h : off ≤ l.length) :
    (splice l off e).length = max l.length (off + e.length) := by
  simp only [splice_eq, List.length_append, List.length_take, List.length_drop]
  omega

/-- The record written reads back. -/
@[simp] theorem recordAt_splice_self (l e : List α) (h : off ≤ l.length) :
    recordAt e.length (splice l off e) off = e := by
  simp [recordAt_eq, splice_eq, h]

/-- A record that the splice does not overlap is as it was. -/
theorem recordAt_splice_of_disjoint (l e : List α) (h : off ≤ l.length)
    (hd : o + w ≤ off ∨ off + e.length ≤ o) :
    recordAt w (splice l off e) o = recordAt w l o := by
  simp only [recordAt_eq, splice_eq]
  rcases hd with hd | hd
  · -- the record lies before the splice
    rw [List.append_assoc, List.drop_append_of_le_length (by simp; omega),
      List.take_append_of_le_length (by simp; omega), List.drop_take,
      List.take_take, Nat.min_eq_left (by omega)]
  · -- the record lies after it
    rw [List.drop_append, List.drop_eq_nil_of_le (by simp; omega), List.nil_append,
      List.drop_drop]
    simp only [List.length_append, List.length_take, Nat.min_eq_left h]
    congr 2
    omega

/-- The offsets after writing one record at an offset of the table, or just
past its end: the old ones, and the one written. -/
theorem mem_slots_splice (l e : List α) (hw : 0 < w) (he : e.length = w) (hoff : off % w = 0)
    (h : off ≤ l.length) :
    o ∈ slots w (splice l off e).length ↔ o ∈ slots w l.length ∨ o = off := by
  rw [length_splice l e h, mem_slots hw, mem_slots hw, he]
  constructor
  · rintro ⟨hmod, hlt⟩
    by_cases ho : o = off
    · exact .inr ho
    · -- past the old end only the record written starts
      refine .inl ⟨hmod, ?_⟩
      by_contra hge
      exact ho (eq_of_mod_eq_zero hmod hoff (by omega) (by omega))
  · rintro (⟨hmod, hlt⟩ | rfl)
    · exact ⟨hmod, by omega⟩
    · exact ⟨hoff, by omega⟩

end Records
end Xv6
