import Xv6.Support.System
import Mathlib

/-!
# Descriptors of the virtio disk

`kernel/virtio_disk.c` hands each disk request to the device as a chain of
three of the `NUM` descriptors, linked by `VRING_DESC_F_NEXT`, whose head
indexes `info[]`, where the request's `buf` is recorded.  `alloc3_desc`
takes three free descriptors or none; when the device has used a chain,
`virtio_disk_intr` clears `b->disk` of the `buf` in `info[head]`, and the
requester frees the chain with `free_chain`.

The descriptors keep the two fields `free_chain` reads, `flags` and `next`;
the rings are the lists of chain heads given to the device and not yet used
(`pending`), and used and not yet seen by `virtio_disk_intr` (`used`).
`virtioSystem` runs `virtio_disk_rw` for any `buf`, in its atomic parts,
`virtio_disk_intr`, and a device that uses any chain it was given, once.
-/

namespace Xv6
namespace Virtio

/-- `NUM` -/
def NUM : Nat := 8

instance : NeZero NUM := ⟨by decide⟩

/-- `VRING_DESC_F_NEXT` -/
def VRING_DESC_F_NEXT : UInt16 := 1

/-- `VRING_DESC_F_WRITE` -/
def VRING_DESC_F_WRITE : UInt16 := 2

/-- `struct virtq_desc`, the fields the driver reads back. -/
structure VirtqDesc where
  flags : UInt16
  next : UInt16
  deriving DecidableEq, Repr

/-- An entry of `disk.info[]`. -/
structure Info (β : Type) where
  b : Option β
  status : UInt8

/-- The driver's view of `disk`. -/
structure Disk (β : Type) where
  desc : Fin NUM → VirtqDesc
  free : Fin NUM → Bool
  info : Fin NUM → Info β

variable {β : Type}

/-- `disk.desc[i]` for an `int i`; out of range it reads nothing the driver
then uses, as `free_desc` panics. -/
def Disk.descAt (d : Disk β) (i : Nat) : VirtqDesc :=
  if h : i < NUM then d.desc ⟨i, h⟩ else ⟨0, 0⟩

/-- `alloc_desc()`: the first free descriptor, marked non-free. -/
def allocDesc (d : Disk β) : Option (Fin NUM × Disk β) :=
  ((List.finRange NUM).find? fun i => d.free i).map fun i =>
    (i, { d with free := Function.update d.free i false })

/-- `free_desc(i)` -/
def freeDesc (d : Disk β) (i : Nat) : Except String (Disk β) :=
  if h : i < NUM then
    if d.free ⟨i, h⟩ then .error "free_desc 2"
    else .ok { d with desc := Function.update d.desc ⟨i, h⟩ ⟨0, 0⟩,
                      free := Function.update d.free ⟨i, h⟩ true }
  else .error "free_desc 1"

/-- `free_chain(i)`, for at most `fuel` rounds: each round frees a non-free
descriptor or panics, so the `NUM + 1` rounds it is given never run out. -/
def freeChain (d : Disk β) : Nat → Nat → Except String (Disk β)
  | 0, _ => .error "free_chain"
  | fuel + 1, i =>
      let flag := (d.descAt i).flags
      let nxt := (d.descAt i).next
      match freeDesc d i with
      | .error e => .error e
      | .ok d => if flag &&& VRING_DESC_F_NEXT ≠ 0 then freeChain d fuel nxt.toNat else .ok d

/-- `alloc3_desc(idx)`, its loop over the three descriptors unrolled: the
three descriptors, or none with those taken freed again. -/
def alloc3Desc (d : Disk β) : Except String (Option (Fin NUM × Fin NUM × Fin NUM) × Disk β) :=
  match allocDesc d with
  | none => .ok (none, d)
  | some (i0, d) =>
      match allocDesc d with
      | none => do
          let d ← freeDesc d i0
          .ok (none, d)
      | some (i1, d) =>
          match allocDesc d with
          | none => do
              let d ← freeDesc d i0
              let d ← freeDesc d i1
              .ok (none, d)
          | some (i2, d) => .ok (some (i0, i1, i2), d)

section Spec

variable {d d' : Disk β}

theorem allocDesc_some {i : Fin NUM} (h : allocDesc d = some (i, d')) :
    d.free i = true ∧ d' = { d with free := Function.update d.free i false } := by
  obtain ⟨j, hj, hj'⟩ := Option.map_eq_some_iff.mp h
  cases hj'
  exact ⟨by simpa using List.find?_some hj, rfl⟩

theorem allocDesc_none (h : allocDesc d = none) (i : Fin NUM) : d.free i = false := by
  simp only [allocDesc, Option.map_eq_none_iff, List.find?_eq_none, List.mem_finRange,
    true_implies] at h
  simpa using h i

/-- `free_desc` of a descriptor in use frees it and clears it. -/
theorem freeDesc_of_used {i : Fin NUM} (h : d.free i = false) :
    freeDesc d i = .ok ⟨Function.update d.desc i ⟨0, 0⟩, Function.update d.free i true, d.info⟩ := by
  simp [freeDesc, h]

/-- `alloc3_desc` never panics: it takes three distinct free descriptors, or
leaves `free[]` as it was, and the descriptors in use untouched. -/
theorem alloc3Desc_spec (d : Disk β) :
    (∃ d', alloc3Desc d = .ok (none, d') ∧ d'.free = d.free ∧ d'.info = d.info ∧
      ∀ j, d.free j = false → d'.desc j = d.desc j) ∨
      ∃ i0 i1 i2 d', alloc3Desc d = .ok (some (i0, i1, i2), d') ∧
        (i0 ≠ i1 ∧ i0 ≠ i2 ∧ i1 ≠ i2) ∧ (d.free i0 = true ∧ d.free i1 = true ∧ d.free i2 = true) ∧
        d' = ⟨d.desc, Function.update (Function.update (Function.update d.free i0 false) i1 false) i2
          false, d.info⟩ := by
  -- a descriptor in use is none of those `alloc_desc` took
  have hne : ∀ j i, d.free j = false → d.free i = true → j ≠ i := by
    rintro j i hj hi rfl
    simp [hj] at hi
  rcases h0 : allocDesc d with _ | ⟨i0, d1⟩
  · exact .inl ⟨d, by simp [alloc3Desc, h0], rfl, rfl, fun _ _ => rfl⟩
  obtain ⟨hf0, rfl⟩ := allocDesc_some h0
  rcases h1 : allocDesc { d with free := Function.update d.free i0 false } with _ | ⟨i1, d2⟩
  · -- the first descriptor goes back
    have hu : ({ d with free := Function.update d.free i0 false } : Disk β).free i0 = false := by
      simp
    refine .inl ⟨_, by simp only [alloc3Desc, h0, h1, freeDesc_of_used hu, except_ok_bind]; rfl, ?_,
      by rfl, fun j hj => Function.update_of_ne (hne j i0 hj hf0) _ _⟩
    simp [hf0]
  obtain ⟨hf1, rfl⟩ := allocDesc_some h1
  have h01 : i0 ≠ i1 := by
    rintro rfl
    simp at hf1
  simp only [Function.update_of_ne h01.symm] at hf1
  rcases h2 : allocDesc { d with free := Function.update (Function.update d.free i0 false) i1 false }
    with _ | ⟨i2, d3⟩
  · -- the first two go back
    have hu0 : ({ d with free := Function.update (Function.update d.free i0 false) i1 false } :
        Disk β).free i0 = false := by
      simp [Function.update_of_ne h01]
    have hu1 : ({ d with desc := Function.update d.desc i0 ⟨0, 0⟩,
                         free := Function.update (Function.update (Function.update d.free i0 false)
                           i1 false) i0 true } : Disk β).free i1 = false := by
      simp [Function.update_of_ne h01.symm]
    refine .inl ⟨_, by
      simp only [alloc3Desc, h0, h1, h2, freeDesc_of_used hu0, except_ok_bind,
        freeDesc_of_used hu1]; rfl, ?_, by rfl, fun j hj => ?_⟩
    swap
    · simp [Function.update_of_ne (hne j i0 hj hf0), Function.update_of_ne (hne j i1 hj hf1)]
    funext j
    by_cases hj0 : j = i0
    · subst hj0
      simp [Function.update_of_ne h01, hf0]
    · by_cases hj1 : j = i1
      · subst hj1
        simp [hf1]
      · simp [Function.update_of_ne hj0, Function.update_of_ne hj1]
  obtain ⟨hf2, rfl⟩ := allocDesc_some h2
  have h02 : i0 ≠ i2 := by
    rintro rfl
    simp [Function.update_of_ne h01] at hf2
  have h12 : i1 ≠ i2 := by
    rintro rfl
    simp at hf2
  simp only [Function.update_of_ne h12.symm, Function.update_of_ne h02.symm] at hf2
  exact .inr ⟨i0, i1, i2, _, by simp only [alloc3Desc, h0, h1, h2], ⟨h01, h02, h12⟩,
    ⟨hf0, hf1, hf2⟩, rfl⟩

/-- A round of `free_chain` on a descriptor in use that links on. -/
theorem freeChain_next {i : Fin NUM} (hu : d.free i = false)
    (hn : (d.desc i).flags &&& VRING_DESC_F_NEXT ≠ 0) (fuel : Nat) :
    freeChain d (fuel + 1) i = freeChain
      ⟨Function.update d.desc i ⟨0, 0⟩, Function.update d.free i true, d.info⟩ fuel
      (d.desc i).next.toNat := by
  simp only [freeChain, Disk.descAt, i.isLt, dif_pos, freeDesc_of_used hu, if_pos hn]

/-- The last round of `free_chain`. -/
theorem freeChain_last {i : Fin NUM} (hu : d.free i = false)
    (hn : (d.desc i).flags &&& VRING_DESC_F_NEXT = 0) (fuel : Nat) :
    freeChain d (fuel + 1) i =
      .ok ⟨Function.update d.desc i ⟨0, 0⟩, Function.update d.free i true, d.info⟩ := by
  simp only [freeChain, Disk.descAt, i.isLt, dif_pos, freeDesc_of_used hu, hn, ne_eq,
    not_true_eq_false, if_false]

/-- The links of a chain `i0 → i1 → i2` as `virtio_disk_rw` formats it. -/
structure Links (d : Disk β) (i0 i1 i2 : Fin NUM) : Prop where
  next0 : (d.desc i0).flags &&& VRING_DESC_F_NEXT ≠ 0 ∧ (d.desc i0).next.toNat = i1
  next1 : (d.desc i1).flags &&& VRING_DESC_F_NEXT ≠ 0 ∧ (d.desc i1).next.toNat = i2
  last : (d.desc i2).flags &&& VRING_DESC_F_NEXT = 0

/-- The links are in the descriptors of the chain alone. -/
theorem Links.congr {i0 i1 i2 : Fin NUM} (h : Links d i0 i1 i2)
    (he : ∀ j ∈ [i0, i1, i2], d'.desc j = d.desc j) : Links d' i0 i1 i2 := by
  simp only [List.mem_cons, List.not_mem_nil, or_false, forall_eq_or_imp, forall_eq] at he
  obtain ⟨e0, e1, e2⟩ := he
  exact ⟨e0 ▸ h.next0, e1 ▸ h.next1, e2 ▸ h.last⟩

/-- Three writes to a table leave the other entries alone. -/
theorem update3_of_not_mem {α : Type} (f : Fin NUM → α) (a0 a1 a2 : α) {i0 i1 i2 j : Fin NUM}
    (hj : j ∉ [i0, i1, i2]) :
    Function.update (Function.update (Function.update f i0 a0) i1 a1) i2 a2 j = f j := by
  simp only [List.mem_cons, List.not_mem_nil, or_false, not_or] at hj
  rw [Function.update_of_ne hj.2.2, Function.update_of_ne hj.2.1, Function.update_of_ne hj.1]

theorem update3_eq_of_mem {α : Type} (f : Fin NUM → α) (v : α) {i0 i1 i2 j : Fin NUM}
    (hj : j ∈ [i0, i1, i2]) :
    Function.update (Function.update (Function.update f i0 v) i1 v) i2 v j = v := by
  simp only [List.mem_cons, List.not_mem_nil, or_false] at hj
  rcases hj with rfl | rfl | rfl <;> simp [Function.update_apply]

theorem update_info_status (info : Fin NUM → Info β) (i j : Fin NUM) (x : Option β) :
    (Function.update info i { info i with b := x } j).status = (info j).status := by
  by_cases hj : j = i
  · subst hj
    simp
  · rw [Function.update_of_ne hj]

theorem update_info_b (info : Fin NUM → Info β) (i j : Fin NUM) (x : UInt8) :
    (Function.update info i { info i with status := x } j).b = (info j).b := by
  by_cases hj : j = i
  · subst hj
    simp
  · rw [Function.update_of_ne hj]

/-- `free_chain` of a chain of three descriptors in use frees exactly those
three, in three rounds, without panicking. -/
theorem freeChain_chain {i0 i1 i2 : Fin NUM} (hd : i0 ≠ i1 ∧ i0 ≠ i2 ∧ i1 ≠ i2)
    (hu : d.free i0 = false ∧ d.free i1 = false ∧ d.free i2 = false) (hl : Links d i0 i1 i2)
    (fuel : Nat) :
    freeChain d (fuel + 3) i0 = .ok
      ⟨Function.update (Function.update (Function.update d.desc i0 ⟨0, 0⟩) i1 ⟨0, 0⟩) i2 ⟨0, 0⟩,
        Function.update (Function.update (Function.update d.free i0 true) i1 true) i2 true,
        d.info⟩ := by
  obtain ⟨h01, h02, h12⟩ := hd
  rw [freeChain_next hu.1 hl.next0.1, hl.next0.2,
    freeChain_next (by simpa [Function.update_of_ne h01.symm] using hu.2.1)
      (by simpa [Function.update_of_ne h01.symm] using hl.next1.1),
    show (Function.update d.desc i0 ⟨0, 0⟩ i1).next.toNat = i2 by
      rw [Function.update_of_ne h01.symm]
      exact hl.next1.2,
    freeChain_last (by simpa [Function.update_of_ne h02.symm, Function.update_of_ne h12.symm]
      using hu.2.2)
      (by simpa [Function.update_of_ne h02.symm, Function.update_of_ne h12.symm] using hl.last)]

end Spec

/-- Where `virtio_disk_rw` on a `buf` is: not called, asleep waiting for
free descriptors, or waiting for the device with the chain `i0 i1 i2`. -/
inductive Req where
  | idle
  | waitDesc (write : Bool)
  | inFlight (i0 i1 i2 : Fin NUM)
  deriving DecidableEq, Repr

/-- The descriptors a request holds. -/
def Req.chain : Req → List (Fin NUM)
  | .inFlight i0 i1 i2 => [i0, i1, i2]
  | _ => []

theorem Req.mem_chain {r : Req} {j : Fin NUM} :
    j ∈ r.chain ↔ ∃ i0 i1 i2, r = .inFlight i0 i1 i2 ∧ j ∈ [i0, i1, i2] := by
  cases r <;> simp [Req.chain]

/-- The driver and the device's rings, with each `buf`'s `b->disk` and where
`virtio_disk_rw` on it is. -/
structure VState (β : Type) where
  disk : Disk β
  bdisk : β → Bool
  req : β → Req
  pending : List (Fin NUM)
  used : List (Fin NUM)

section Accounting

variable {s s' : VState β}

/-- What `virtio_disk_rw` set up for an in-flight request of `b`. -/
structure Formatted (d : Disk β) (b : β) (i0 i1 i2 : Fin NUM) : Prop where
  distinct : i0 ≠ i1 ∧ i0 ≠ i2 ∧ i1 ≠ i2
  used : d.free i0 = false ∧ d.free i1 = false ∧ d.free i2 = false
  links : Links d i0 i1 i2
  info : (d.info i0).b = some b

theorem Formatted.not_free {d : Disk β} {b : β} {i0 i1 i2 j : Fin NUM}
    (h : Formatted d b i0 i1 i2) (hj : j ∈ [i0, i1, i2]) : d.free j = false := by
  simp only [List.mem_cons, List.not_mem_nil, or_false] at hj
  rcases hj with rfl | rfl | rfl
  exacts [h.used.1, h.used.2.1, h.used.2.2]

/-- A chain stays formatted while its descriptors and its `info` entry's
`buf` do. -/
theorem Formatted.congr {d d' : Disk β} {b : β} {i0 i1 i2 : Fin NUM}
    (h : Formatted d b i0 i1 i2)
    (he : ∀ j ∈ [i0, i1, i2], d'.desc j = d.desc j ∧ d'.free j = d.free j)
    (hi : (d'.info i0).b = (d.info i0).b) : Formatted d' b i0 i1 i2 where
  distinct := h.distinct
  used := by
    rw [(he i0 (by simp)).2, (he i1 (by simp)).2, (he i2 (by simp)).2]
    exact h.used
  links := h.links.congr fun j hj => (he j hj).1
  info := hi.trans h.info

/-- The descriptor accounting of the driver and the device: the chains of
in-flight requests are formatted and disjoint and cover every descriptor in
use; the rings hold the heads of chains whose `b->disk` is set, each once,
and the device has written status `0` for each used one. -/
structure VInv (s : VState β) : Prop where
  chain : ∀ b i0 i1 i2, s.req b = .inFlight i0 i1 i2 → Formatted s.disk b i0 i1 i2
  disjoint : ∀ b b' j, j ∈ (s.req b).chain → j ∈ (s.req b').chain → b = b'
  owned : ∀ j, s.disk.free j = false → ∃ b, j ∈ (s.req b).chain
  ring : ∀ id ∈ s.pending ++ s.used, ∃ b i1 i2, s.req b = .inFlight id i1 i2 ∧ s.bdisk b = true
  nodup : (s.pending ++ s.used).Nodup
  status : ∀ id ∈ s.used, (s.disk.info id).status = 0

theorem VInv.not_free (h : VInv s) {b : β} {j : Fin NUM} (hj : j ∈ (s.req b).chain) :
    s.disk.free j = false := by
  obtain ⟨i0, i1, i2, hreq, hj⟩ := Req.mem_chain.1 hj
  exact (h.chain b i0 i1 i2 hreq).not_free hj

/-- A queued chain head records the `buf` of its request. -/
theorem VInv.head_owner (h : VInv s) {id : Fin NUM} (hid : id ∈ s.pending ++ s.used) :
    ∃ b i1 i2, s.req b = .inFlight id i1 i2 ∧ s.bdisk b = true ∧ (s.disk.info id).b = some b := by
  obtain ⟨b, i1, i2, hreq, hbd⟩ := h.ring id hid
  exact ⟨b, i1, i2, hreq, hbd, (h.chain b id i1 i2 hreq).info⟩

/-- A descriptor one request holds is not in the chain of another. -/
theorem VInv.not_mem_other (h : VInv s) {b b' : β} {j : Fin NUM} (hb : b' ≠ b)
    (hj : j ∈ (s.req b).chain) : j ∉ (s.req b').chain :=
  fun hj' => hb (h.disjoint b' b j hj' hj)

end Accounting

variable [DecidableEq β]

/-- The rest of `virtio_disk_rw(b, write)` once `alloc3_desc` has found
`i0 i1 i2`: format the chain, record `b` in `info[i0]`, and give the chain
to the device. -/
def submit (s : VState β) (b : β) (write : Bool) (i0 i1 i2 : Fin NUM) (d : Disk β) : VState β :=
  let desc := Function.update d.desc i0 ⟨VRING_DESC_F_NEXT, UInt16.ofNat i1⟩
  let desc := Function.update desc i1
    ⟨(if write then 0 else VRING_DESC_F_WRITE) ||| VRING_DESC_F_NEXT, UInt16.ofNat i2⟩
  let desc := Function.update desc i2 ⟨VRING_DESC_F_WRITE, 0⟩
  { s with disk := { d with desc, info := Function.update d.info i0 ⟨some b, 0xff⟩ },
           bdisk := Function.update s.bdisk b true,
           req := Function.update s.req b (.inFlight i0 i1 i2),
           pending := s.pending ++ [i0] }

section SubmitFields

variable (s : VState β) (b : β) (write : Bool) (i0 i1 i2 : Fin NUM) (d : Disk β)

@[simp] theorem submit_free : (submit s b write i0 i1 i2 d).disk.free = d.free := rfl

@[simp] theorem submit_info :
    (submit s b write i0 i1 i2 d).disk.info = Function.update d.info i0 ⟨some b, 0xff⟩ := rfl

@[simp] theorem submit_bdisk :
    (submit s b write i0 i1 i2 d).bdisk = Function.update s.bdisk b true := rfl

@[simp] theorem submit_req :
    (submit s b write i0 i1 i2 d).req = Function.update s.req b (.inFlight i0 i1 i2) := rfl

@[simp] theorem submit_pending : (submit s b write i0 i1 i2 d).pending = s.pending ++ [i0] := rfl

@[simp] theorem submit_used : (submit s b write i0 i1 i2 d).used = s.used := rfl

theorem submit_desc_of_not_mem {j : Fin NUM} (hj : j ∉ [i0, i1, i2]) :
    (submit s b write i0 i1 i2 d).disk.desc j = d.desc j :=
  update3_of_not_mem d.desc _ _ _ hj

/-- `virtio_disk_rw` links `i0 → i1 → i2`, whatever `write` is. -/
theorem submit_links (hd : i0 ≠ i1 ∧ i0 ≠ i2 ∧ i1 ≠ i2) :
    Links (submit s b write i0 i1 i2 d).disk i0 i1 i2 := by
  obtain ⟨h01, h02, h12⟩ := hd
  have hnext : ∀ i : Fin NUM, (UInt16.ofNat i).toNat = i := fun i => by
    have : (i : Nat) < 8 := i.isLt
    rw [UInt16.toNat_ofNat']
    omega
  have hflags : ((if write then 0 else VRING_DESC_F_WRITE) ||| VRING_DESC_F_NEXT) &&&
      VRING_DESC_F_NEXT ≠ 0 := by
    cases write <;> decide
  refine ⟨⟨?_, ?_⟩, ⟨?_, ?_⟩, ?_⟩ <;>
    simp only [submit, Function.update_of_ne h01, Function.update_of_ne h02,
      Function.update_of_ne h12, Function.update_self]
  · decide
  · exact hnext i1
  · exact hflags
  · exact hnext i2
  · decide

end SubmitFields

/-- A pass of the loop of `virtio_disk_rw` around `alloc3_desc`: submit the
request, or sleep on `disk.free[0]`. -/
def tryAlloc (s : VState β) (b : β) (write : Bool) : Except String (VState β) :=
  match alloc3Desc s.disk with
  | .error e => .error e
  | .ok (none, d) => .ok { s with disk := d, req := Function.update s.req b (.waitDesc write) }
  | .ok (some (i0, i1, i2), d) => .ok (submit s b write i0 i1 i2 d)

/-- The end of `virtio_disk_rw` once `b->disk` is `0`:
`disk.info[idx[0]].b = 0; free_chain(idx[0]);` -/
def finish (s : VState β) (b : β) (i0 : Fin NUM) : Except String (VState β) :=
  let d := { s.disk with info := Function.update s.disk.info i0 { s.disk.info i0 with b := none } }
  (freeChain d (NUM + 1) i0).map fun d => { s with disk := d, req := Function.update s.req b .idle }

/-- The loop of `virtio_disk_intr` over the used ring entries `ids`. -/
def intrLoop : List (Fin NUM) → VState β → Except String (VState β)
  | [], s => .ok s
  | id :: ids, s =>
      if (s.disk.info id).status ≠ 0 then .error "virtio_disk_intr status"
      else
        match (s.disk.info id).b with
        | none => .error "b->disk through a null pointer"
        | some b => intrLoop ids { s with bdisk := Function.update s.bdisk b false }

/-- `virtio_disk_intr()` -/
def virtioDiskIntr (s : VState β) : Except String (VState β) :=
  (intrLoop s.used s).map fun s => { s with used := [] }

/-- The device uses a chain it was given: it writes status `0` through the
chain's last descriptor and puts the head on the used ring. -/
def devUse (s : VState β) (id : Fin NUM) : Option (VState β) :=
  if id ∈ s.pending then
    some { s with disk := { s.disk with
                    info := Function.update s.disk.info id { s.disk.info id with status := 0 } },
                  pending := s.pending.erase id, used := s.used ++ [id] }
  else none

/-- A call of `virtio_disk_rw` on a `buf` (whose sleeplock its caller holds,
so no other request for it is under way), a sleeping one going on, the
device, or an interrupt. -/
inductive VEv (β : Type) where
  | rw (b : β) (write : Bool)
  | retry (b : β)
  | done (b : β)
  | use (id : Fin NUM)
  | intr

/-- One step; a panic, or a sleeping call not woken, is no step. -/
def vStep (s : VState β) : VEv β → Option (VState β)
  | .rw b write => if s.req b = .idle then (tryAlloc s b write).toOption else none
  | .retry b =>
      match s.req b with
      | .waitDesc write => (tryAlloc s b write).toOption
      | _ => none
  | .done b =>
      match s.req b with
      | .inFlight i0 _ _ => if s.bdisk b = false then (finish s b i0).toOption else none
      | _ => none
  | .use id => devUse s id
  | .intr => (virtioDiskIntr s).toOption

/-- The disk from `virtio_disk_init`: every descriptor free, `disk` zero. -/
def virtioSystem : System (VState β) (VEv β) :=
  ⟨⟨⟨fun _ => ⟨0, 0⟩, fun _ => true, fun _ => ⟨none, 0⟩⟩, fun _ => false, fun _ => .idle, [], []⟩,
    vStep⟩

section Invariant

variable {s s' : VState β}

/-- Giving `b` a chain that no other request holds keeps the chains
disjoint. -/
theorem disjoint_update {req : β → Req}
    (h : ∀ b b' j, j ∈ (req b).chain → j ∈ (req b').chain → b = b') {b : β} {r : Req}
    (hr : ∀ b' j, b' ≠ b → j ∈ r.chain → j ∉ (req b').chain) :
    ∀ b1 b2 j, j ∈ (Function.update req b r b1).chain →
      j ∈ (Function.update req b r b2).chain → b1 = b2 := by
  intro b1 b2 j h1 h2
  by_cases e1 : b1 = b <;> by_cases e2 : b2 = b
  · exact e1.trans e2.symm
  · subst e1
    rw [Function.update_self] at h1
    rw [Function.update_of_ne e2] at h2
    exact absurd h2 (hr b2 j e2 h1)
  · subst e2
    rw [Function.update_self] at h2
    rw [Function.update_of_ne e1] at h1
    exact absurd h1 (hr b1 j e1 h2)
  · rw [Function.update_of_ne e1] at h1
    rw [Function.update_of_ne e2] at h2
    exact h b1 b2 j h1 h2

/-- A descriptor another request holds keeps its owner when `b`'s request
changes. -/
theorem mem_chain_update {req : β → Req} {b b' : β} {j : Fin NUM} (r : Req)
    (hj : j ∈ (req b').chain) (hb : j ∉ (req b).chain) :
    j ∈ (Function.update req b r b').chain := by
  have hne : b' ≠ b := by
    rintro rfl
    exact hb hj
  rwa [Function.update_of_ne hne]

/-- Submitting a request for `b`, which holds no chain, on three descriptors
that were free. -/
theorem VInv.of_submit (h : VInv s) {b : β} (hb : (s.req b).chain = []) (write : Bool)
    {i0 i1 i2 : Fin NUM} (hd : i0 ≠ i1 ∧ i0 ≠ i2 ∧ i1 ≠ i2)
    (hf : s.disk.free i0 = true ∧ s.disk.free i1 = true ∧ s.disk.free i2 = true) :
    VInv (submit s b write i0 i1 i2 ⟨s.disk.desc, Function.update (Function.update
      (Function.update s.disk.free i0 false) i1 false) i2 false, s.disk.info⟩) := by
  -- the three descriptors were free, so no request held them
  have hfresh : ∀ b' j, j ∈ (s.req b').chain → j ∉ [i0, i1, i2] := by
    intro b' j hj hmem
    have := h.not_free hj
    simp only [List.mem_cons, List.not_mem_nil, or_false] at hmem
    rcases hmem with rfl | rfl | rfl <;> simp_all
  have hother : ∀ b' i0' i1' i2', s.req b' = .inFlight i0' i1' i2' → b' ≠ b := by
    rintro b' _ _ _ hreq rfl
    simp [hreq, Req.chain] at hb
  -- a queued head is one of those chains
  have hhead : ∀ id ∈ s.pending ++ s.used, id ∉ [i0, i1, i2] := by
    intro id hid
    obtain ⟨b', j1, j2, hreq, -⟩ := h.ring id hid
    exact hfresh b' id (by simp [hreq, Req.chain])
  constructor
  · intro b' j0 j1 j2 hreq
    by_cases hbb : b' = b
    · subst hbb
      simp only [submit_req, Function.update_self, Req.inFlight.injEq] at hreq
      obtain ⟨rfl, rfl, rfl⟩ := hreq
      exact ⟨hd, by simp [update3_eq_of_mem], submit_links _ _ _ _ _ _ _ hd, by simp⟩
    · rw [submit_req, Function.update_of_ne hbb] at hreq
      have hj : ∀ j ∈ [j0, j1, j2], j ∉ [i0, i1, i2] := fun j hj =>
        hfresh b' j (by simpa [hreq, Req.chain] using hj)
      have hj0 : j0 ≠ i0 := fun e => hj j0 (by simp) (by simp [e])
      refine (h.chain b' j0 j1 j2 hreq).congr
        (fun j hj' => ⟨submit_desc_of_not_mem _ _ _ _ _ _ _ (hj j hj'), ?_⟩) ?_
      · simp only [submit_free]
        exact update3_of_not_mem _ _ _ _ (hj j hj')
      · simp [Function.update_of_ne hj0]
  · rw [submit_req]
    exact disjoint_update h.disjoint fun b' j _ hj hj' => hfresh b' j hj' (by simpa [Req.chain] using hj)
  · intro j hj
    simp only [submit_free] at hj
    by_cases hmem : j ∈ [i0, i1, i2]
    · exact ⟨b, by simpa [Req.chain] using hmem⟩
    · rw [update3_of_not_mem _ _ _ _ hmem] at hj
      obtain ⟨b', hb'⟩ := h.owned j hj
      exact ⟨b', by rw [submit_req]; exact mem_chain_update _ hb' (by simp [hb])⟩
  · intro id hid
    simp only [submit_pending, submit_used, List.mem_append, List.mem_singleton] at hid
    rcases hid with (hid | rfl) | hid
    · obtain ⟨b', j1, j2, hreq, hbd⟩ := h.ring id (List.mem_append_left _ hid)
      have hne := hother b' _ _ _ hreq
      exact ⟨b', j1, j2, by simp [Function.update_of_ne hne, hreq],
        by simp [Function.update_of_ne hne, hbd]⟩
    · exact ⟨b, i1, i2, by simp, by simp⟩
    · obtain ⟨b', j1, j2, hreq, hbd⟩ := h.ring id (List.mem_append_right _ hid)
      have hne := hother b' _ _ _ hreq
      exact ⟨b', j1, j2, by simp [Function.update_of_ne hne, hreq],
        by simp [Function.update_of_ne hne, hbd]⟩
  · have hi0 : i0 ∉ s.pending ++ s.used := fun hm => hhead i0 hm (by simp)
    simp only [submit_pending, submit_used, List.append_assoc, List.singleton_append]
    exact List.nodup_middle.mpr (List.nodup_cons.mpr ⟨hi0, h.nodup⟩)
  · intro id hid
    simp only [submit_used] at hid
    have hne : id ≠ i0 := fun e => hhead id (List.mem_append_right _ hid) (by simp [e])
    simp [Function.update_of_ne hne, h.status id hid]

/-- A request for `b` that found too few free descriptors goes to sleep;
`alloc3_desc` has given back what it took. -/
theorem VInv.of_wait (h : VInv s) {b : β} (hb : (s.req b).chain = []) (write : Bool) {d : Disk β}
    (hfree : d.free = s.disk.free) (hinfo : d.info = s.disk.info)
    (hdesc : ∀ j, s.disk.free j = false → d.desc j = s.disk.desc j) :
    VInv { s with disk := d, req := Function.update s.req b (.waitDesc write) } := by
  have hother : ∀ b' i0 i1 i2, s.req b' = .inFlight i0 i1 i2 → b' ≠ b := by
    rintro b' _ _ _ hreq rfl
    simp [hreq, Req.chain] at hb
  constructor
  · intro b' j0 j1 j2 hreq
    have hne : b' ≠ b := by
      rintro rfl
      simp at hreq
    simp only [Function.update_of_ne hne] at hreq
    have hf := h.chain b' j0 j1 j2 hreq
    exact hf.congr (fun j hj => ⟨hdesc j (hf.not_free hj), by rw [hfree]⟩) (by rw [hinfo])
  · exact disjoint_update h.disjoint fun _ _ _ hj => by simp [Req.chain] at hj
  · intro j hj
    obtain ⟨b', hb'⟩ := h.owned j (hfree ▸ hj)
    exact ⟨b', mem_chain_update _ hb' (by simp [hb])⟩
  · intro id hid
    obtain ⟨b', j1, j2, hreq, hbd⟩ := h.ring id hid
    exact ⟨b', j1, j2, by simp only [Function.update_of_ne (hother _ _ _ _ hreq), hreq], hbd⟩
  · exact h.nodup
  · intro id hid
    simp only [hinfo]
    exact h.status id hid

/-- A pass of `virtio_disk_rw`'s loop around `alloc3_desc` for `b`. -/
theorem VInv.of_tryAlloc (h : VInv s) {b : β} (hb : (s.req b).chain = []) {write : Bool}
    (ht : tryAlloc s b write = .ok s') : VInv s' := by
  rcases alloc3Desc_spec s.disk with
    ⟨d, hd, hfree, hinfo, hdesc⟩ | ⟨i0, i1, i2, d, hd, hdist, hf, rfl⟩
  · simp only [tryAlloc, hd, Except.ok.injEq] at ht
    subst ht
    exact h.of_wait hb write hfree hinfo hdesc
  · simp only [tryAlloc, hd, Except.ok.injEq] at ht
    subst ht
    exact h.of_submit hb write hdist hf

/-- The end of `virtio_disk_rw` on a formatted chain: `free_chain` frees its
three descriptors, and `b`'s request is over. -/
theorem finish_eq {b : β} {i0 i1 i2 : Fin NUM} (hd : i0 ≠ i1 ∧ i0 ≠ i2 ∧ i1 ≠ i2)
    (hu : s.disk.free i0 = false ∧ s.disk.free i1 = false ∧ s.disk.free i2 = false)
    (hl : Links s.disk i0 i1 i2) :
    finish s b i0 = .ok
      ⟨⟨Function.update (Function.update (Function.update s.disk.desc i0 ⟨0, 0⟩) i1 ⟨0, 0⟩) i2 ⟨0, 0⟩,
        Function.update (Function.update (Function.update s.disk.free i0 true) i1 true) i2 true,
        Function.update s.disk.info i0 { s.disk.info i0 with b := none }⟩,
      s.bdisk, Function.update s.req b .idle, s.pending, s.used⟩ := by
  simp only [finish]
  rw [show NUM + 1 = 6 + 3 from rfl, @freeChain_chain β
    ⟨s.disk.desc, s.disk.free, Function.update s.disk.info i0 { s.disk.info i0 with b := none }⟩
    i0 i1 i2 hd hu (hl.congr fun _ _ => rfl) 6]
  rfl

/-- `b`'s request ends once `virtio_disk_intr` has cleared `b->disk`. -/
theorem VInv.of_finish (h : VInv s) {b : β} {i0 i1 i2 : Fin NUM}
    (hreq : s.req b = .inFlight i0 i1 i2) (hbd : s.bdisk b = false)
    (hs : finish s b i0 = .ok s') : VInv s' := by
  have hf := h.chain b i0 i1 i2 hreq
  rw [finish_eq hf.distinct hf.used hf.links, Except.ok.injEq] at hs
  subst hs
  -- the freed descriptors were `b`'s alone
  have hmine : ∀ b' j, b' ≠ b → j ∈ (s.req b').chain → j ∉ [i0, i1, i2] :=
    fun b' j hne hj hmem => h.not_mem_other hne (by rw [hreq]; exact hmem) hj
  constructor
  · intro b' j0 j1 j2 hreq'
    have hne : b' ≠ b := by
      rintro rfl
      simp at hreq'
    simp only [Function.update_of_ne hne] at hreq'
    have hj : ∀ j ∈ [j0, j1, j2], j ∉ [i0, i1, i2] := fun j hj =>
      hmine b' j hne (by simpa [hreq', Req.chain] using hj)
    have hj0 : j0 ≠ i0 := fun e => hj j0 (by simp) (by simp [e])
    exact (h.chain b' j0 j1 j2 hreq').congr
      (fun j hj' => ⟨update3_of_not_mem _ _ _ _ (hj j hj'), update3_of_not_mem _ _ _ _ (hj j hj')⟩)
      (by simp [Function.update_of_ne hj0])
  · exact disjoint_update h.disjoint fun _ _ _ hj => by simp [Req.chain] at hj
  · intro j hj
    by_cases hmem : j ∈ [i0, i1, i2]
    · simp [update3_eq_of_mem _ _ hmem] at hj
    · simp only [update3_of_not_mem _ _ _ _ hmem] at hj
      obtain ⟨b', hb'⟩ := h.owned j hj
      exact ⟨b', mem_chain_update _ hb' (by rw [hreq]; exact hmem)⟩
  · intro id hid
    obtain ⟨b', j1, j2, hreq', hbd'⟩ := h.ring id hid
    have hne : b' ≠ b := by
      rintro rfl
      simp [hbd] at hbd'
    exact ⟨b', j1, j2, by simp only [Function.update_of_ne hne, hreq'], hbd'⟩
  · exact h.nodup
  · intro id hid
    rw [update_info_status]
    exact h.status id hid

omit [DecidableEq β] in
/-- The device uses a chain it was given. -/
theorem VInv.of_use (h : VInv s) {id : Fin NUM} (hs : devUse s id = some s') : VInv s' := by
  unfold devUse at hs
  split_ifs at hs with hid
  cases hs
  have hperm : List.Perm (s.pending ++ s.used) (s.pending.erase id ++ (s.used ++ [id])) :=
    calc List.Perm (s.pending ++ s.used) (id :: s.pending.erase id ++ s.used) :=
          (List.perm_cons_erase hid).append_right _
      _ = id :: (s.pending.erase id ++ s.used) := rfl
      List.Perm _ ((s.pending.erase id ++ s.used) ++ [id]) := (List.perm_append_singleton _ _).symm
      _ = s.pending.erase id ++ (s.used ++ [id]) := List.append_assoc _ _ _
  constructor
  · intro b j0 j1 j2 hreq
    exact (h.chain b j0 j1 j2 hreq).congr (fun _ _ => ⟨rfl, rfl⟩) (update_info_b _ _ _ _)
  · exact h.disjoint
  · exact h.owned
  · intro id' hid'
    exact h.ring id' (hperm.symm.subset hid')
  · exact h.nodup.perm hperm
  · intro id' hid'
    rcases List.mem_append.mp hid' with hid' | hid'
    · by_cases he : id' = id
      · subst he
        simp
      · simp only [Function.update_of_ne he]
        exact h.status id' hid'
    · rw [List.mem_singleton.mp hid']
      simp

/-- The loop of `virtio_disk_intr` over used entries whose status is `0`
and whose `info` records a `buf` clears `b->disk` of exactly those. -/
theorem intrLoop_spec (ids : List (Fin NUM)) (s : VState β)
    (hok : ∀ id ∈ ids, (s.disk.info id).status = 0 ∧ (s.disk.info id).b ≠ none) :
    intrLoop ids s = .ok { s with
      bdisk := fun b => s.bdisk b && !ids.any fun id => (s.disk.info id).b == some b } := by
  induction ids generalizing s with
  | nil =>
      simp only [intrLoop, List.any_nil, Bool.not_false, Bool.and_true]
  | cons id ids ih =>
      obtain ⟨hst, hb⟩ := hok id List.mem_cons_self
      obtain ⟨b, hb⟩ := Option.ne_none_iff_exists'.mp hb
      simp only [intrLoop, hst, ne_eq, not_true_eq_false, if_false, hb]
      rw [ih { s with bdisk := Function.update s.bdisk b false }
        fun id' h' => hok id' (List.mem_cons_of_mem _ h')]
      congr 2
      funext b'
      by_cases hb' : b' = b
      · subst hb'
        simp [hb]
      · simp [Function.update_of_ne hb', hb, beq_false_of_ne (Ne.symm hb')]

omit [DecidableEq β] in
/-- Every used entry may be processed. -/
theorem VInv.intr_ok (h : VInv s) :
    ∀ id ∈ s.used, (s.disk.info id).status = 0 ∧ (s.disk.info id).b ≠ none := by
  intro id hid
  obtain ⟨b, -, -, -, -, hb⟩ := h.head_owner (List.mem_append_right _ hid)
  exact ⟨h.status id hid, by simp [hb]⟩

theorem virtioDiskIntr_eq (hok : ∀ id ∈ s.used, (s.disk.info id).status = 0 ∧ (s.disk.info id).b ≠ none) :
    virtioDiskIntr s = .ok ⟨s.disk,
      fun b => s.bdisk b && !s.used.any fun id => (s.disk.info id).b == some b,
      s.req, s.pending, []⟩ := by
  simp only [virtioDiskIntr, intrLoop_spec _ _ hok]
  rfl

/-- `virtio_disk_intr` hands every used chain back to its sleeping request. -/
theorem VInv.of_intr (h : VInv s) (hs : virtioDiskIntr s = .ok s') : VInv s' := by
  rw [virtioDiskIntr_eq h.intr_ok, Except.ok.injEq] at hs
  subst hs
  constructor
  · exact h.chain
  · exact h.disjoint
  · exact h.owned
  · intro id hid
    rw [List.append_nil] at hid
    obtain ⟨b, i1, i2, hreq, hbd⟩ := h.ring id (List.mem_append_left _ hid)
    refine ⟨b, i1, i2, hreq, ?_⟩
    -- a used entry recording `b` would be `b`'s head, which is still pending
    simp only [hbd, Bool.true_and, Bool.not_eq_eq_eq_not, Bool.not_true, List.any_eq_false,
      beq_iff_eq]
    intro id' hid' hinfo
    obtain ⟨b', j1, j2, hreq', -, hinfo'⟩ := h.head_owner (List.mem_append_right _ hid')
    obtain rfl : b' = b := Option.some.inj (hinfo'.symm.trans hinfo)
    rw [hreq] at hreq'
    cases hreq'
    exact List.disjoint_of_nodup_append h.nodup hid hid'
  · simpa using (List.nodup_append.mp h.nodup).1
  · intro id hid
    simp at hid

theorem VInv.step (h : VInv s) {e : VEv β} (hs : vStep s e = some s') : VInv s' := by
  cases e with
  | rw b write =>
      simp only [vStep] at hs
      split_ifs at hs with hidle
      exact h.of_tryAlloc (by simp [hidle, Req.chain]) (ok_of_toOption hs)
  | retry b =>
      simp only [vStep] at hs
      split at hs
      · exact h.of_tryAlloc (by simp [*, Req.chain]) (ok_of_toOption hs)
      · cases hs
  | done b =>
      simp only [vStep] at hs
      split at hs
      · split_ifs at hs with hbd
        exact h.of_finish ‹_› hbd (ok_of_toOption hs)
      · cases hs
  | use id => exact h.of_use hs
  | intr => exact h.of_intr (ok_of_toOption hs)

omit [DecidableEq β] in
/-- Each descriptor is free and held by no request, or in use and held by
exactly one. -/
theorem VInv.free_or_held (h : VInv s) (j : Fin NUM) :
    (s.disk.free j = true ∧ ∀ b, j ∉ (s.req b).chain) ∨
      (s.disk.free j = false ∧ ∃! b, j ∈ (s.req b).chain) := by
  cases hj : s.disk.free j
  · obtain ⟨b, hb⟩ := h.owned j hj
    exact .inr ⟨rfl, b, hb, fun b' hb' => h.disjoint b' b j hb' hb⟩
  · refine .inl ⟨rfl, fun b hb => ?_⟩
    simp [h.not_free hb] at hj

theorem vInv_init : VInv (virtioSystem : System (VState β) (VEv β)).init where
  chain _ _ _ _ h := by cases h
  disjoint _ _ _ h := by simp [virtioSystem, Req.chain] at h
  owned _ h := by cases h
  ring _ h := by simp [virtioSystem] at h
  nodup := List.nodup_nil
  status _ h := by cases h

theorem vInv_reachable : (virtioSystem : System (VState β) (VEv β)).Invariant VInv :=
  virtioSystem.invariant_of_step vInv_init fun _ _ _ h hs => h.step hs

end Invariant

end Virtio
end Xv6
