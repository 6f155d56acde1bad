import Mathlib.Data.Fintype.Card
import Xv6.Fs.Bio
import Xv6.Support.DList
import Xv6.Support.System

/-!
# The buffer cache's linked list

`kernel/bio.c` keeps its buffers on a circular doubly linked list through
the sentinel `bcache.head`, and `bget` scans it forwards for the block and
backwards for a buffer to recycle.  Here the list is the `next` and `prev`
links of every node, updated by the pointer writes of `binit` and `brelse`,
and the scans are the loops that follow them.

The link-level cache refines `Bio.BCache`, whose `lru` is the list in order
(`Refines`): each call on the links does what the list-level call does.  The
calls of the kernel then keep the invariant `BufInv` from `binit()`, over
any sequence of `bread`, `brelse`, `bpin` and `bunpin` of devices other
than `0`, each `brelse` of a buffer its caller holds from `bread` (the
sleep-lock `brelse` checks) and each `bunpin` of a buffer `bpin` pinned.

`bcache_list_safe` collects what the invariant gives.
-/

namespace Xv6
namespace Bio

open DList

variable {n : Nat} {β : Type}

/-- A node of the list: `none` is `bcache.head`, `some i` is `bcache.buf[i]`. -/
abbrev Node (n : Nat) := Option (Fin n)

/-- `bcache` with the links of every node. -/
structure BList (n : Nat) (β : Type) where
  buf : Fin n → Buf β
  next : Node n → Node n
  prev : Node n → Node n

/-- A change to one buffer's fields. -/
def BList.modify (c : BList n β) (i : Fin n) (f : Buf β → Buf β) : BList n β :=
  { c with buf := Function.update c.buf i (f (c.buf i)) }

/-- `binit`: the head linked to itself, then each buffer in turn put after
it. -/
def binitL (zero : β) : BList n β :=
  let links := (List.finRange n).foldl
    (fun (r : (Node n → Node n) × (Node n → Node n)) i => pushFront none (some i) r.1 r.2)
    (fun _ => none, fun _ => none)
  ⟨fun _ => ⟨false, 0, 0, 0, zero⟩, links.1, links.2⟩

/-- `bget(dev, blockno)`: the scan from `head.next` for the block's buffer,
then the scan from `head.prev` for a buffer nobody refers to; `none` is the
panic.  Each scan stops at the head, after at most the `n + 1` nodes. -/
def bgetL (c : BList n β) (dev : Nat) (blockno : UInt32) : Option (BList n β × Fin n) :=
  match walk c.next none (fun x => x.any fun i => (c.buf i).holds dev blockno) (n + 1)
      (c.next none) with
  | some (some i) => some (c.modify i fun b => { b with refcnt := b.refcnt + 1 }, i)
  | _ =>
      match walk c.prev none (fun x => x.any fun i => (c.buf i).refcnt == 0) (n + 1)
          (c.prev none) with
      | some (some i) =>
          some (c.modify i fun b =>
            { b with dev := dev, blockno := blockno, valid := false, refcnt := 1 }, i)
      | _ => none

/-- `bread(dev, blockno)`. -/
def breadL (c : BList n β) (disk : Disk β) (dev : Nat) (blockno : UInt32) :
    Option (BList n β × Fin n) :=
  match bgetL c dev blockno with
  | none => none
  | some (c, i) =>
      if (c.buf i).valid then some (c, i)
      else some (c.modify i fun b => { b with data := disk blockno.toNat, valid := true }, i)

/-- `brelse(b)`: one reference less; a buffer left with none is unlinked and
linked again after the head. -/
def brelseL (c : BList n β) (i : Fin n) : BList n β :=
  let c := c.modify i fun b => { b with refcnt := b.refcnt - 1 }
  if (c.buf i).refcnt = 0 then
    let l := unlink (some i) c.next c.prev
    let l := pushFront none (some i) l.1 l.2
    { c with next := l.1, prev := l.2 }
  else c

/-- `bpin(b)` -/
def bpinL (c : BList n β) (i : Fin n) : BList n β :=
  c.modify i fun b => { b with refcnt := b.refcnt + 1 }

/-- `bunpin(b)` -/
def bunpinL (c : BList n β) (i : Fin n) : BList n β :=
  c.modify i fun b => { b with refcnt := b.refcnt - 1 }

/-! ## The links refine the list -/

/-- The links hold the list `a.lru` after the head, and the buffers are
`a`'s. -/
def Refines (c : BList n β) (a : BCache n β) : Prop :=
  c.buf = a.buf ∧ DRing c.next c.prev none (a.lru.map some)

/-- The links of `c` around `a`'s buffers. -/
def BList.withBuf (c : BList n β) (a : BCache n β) : BList n β := ⟨a.buf, c.next, c.prev⟩

theorem Refines.lru_nodup {c : BList n β} {a : BCache n β} (h : Refines c a) : a.lru.Nodup :=
  (List.nodup_cons.mp h.2.2).2.of_map _

/-- The scans' fuel covers the list. -/
theorem Refines.length_lt {c : BList n β} {a : BCache n β} (h : Refines c a) :
    (a.lru.map some).length < n + 1 := by
  have := h.lru_nodup.length_le_card
  rw [Fintype.card_fin] at this
  simp only [List.length_map]
  omega

/-- The scans over the links find what `find?` finds over the list. -/
theorem bgetL_eq {c : BList n β} {a : BCache n β} (h : Refines c a) (dev : Nat) (blockno : UInt32) :
    bgetL c dev blockno = (bget a dev blockno).map fun r => (c.withBuf r.1, r.2) := by
  have hf := h.length_lt
  obtain ⟨buf, next, prev⟩ := c
  obtain ⟨hbuf, hr⟩ := h
  dsimp only at hbuf hr
  subst hbuf
  unfold bgetL bget
  dsimp only
  rw [hr.walk_next _ hf, hr.walk_prev _ (by simpa using hf), ← List.map_reverse, List.find?_map,
    List.find?_map]
  simp only [Function.comp_def, Option.any_some]
  cases a.lru.find? fun i => (a.buf i).holds dev blockno with
  | some i => rfl
  | none =>
      cases a.lru.reverse.find? fun i => (a.buf i).refcnt == 0 with
      | some i => rfl
      | none => rfl

theorem breadL_eq {c : BList n β} {a : BCache n β} (h : Refines c a) (disk : Disk β) (dev : Nat)
    (blockno : UInt32) :
    breadL c disk dev blockno = (bread a disk dev blockno).map fun r => (c.withBuf r.1, r.2) := by
  unfold breadL bread
  rw [bgetL_eq h]
  cases bget a dev blockno with
  | none => rfl
  | some r =>
      obtain ⟨a', i⟩ := r
      by_cases hv : (a'.buf i).valid <;> simp [hv, BList.withBuf, BList.modify, BCache.modify]

/-- `bread` moves no link. -/
theorem Refines.bread {c c' : BList n β} {a : BCache n β} (h : Refines c a) {disk : Disk β}
    {dev : Nat} {blockno : UInt32} {i : Fin n} (hb : breadL c disk dev blockno = some (c', i)) :
    ∃ a', Bio.bread a disk dev blockno = some (a', i) ∧ Refines c' a' := by
  rw [breadL_eq h] at hb
  obtain ⟨⟨a', j⟩, ha, he⟩ := Option.map_eq_some_iff.mp hb
  obtain ⟨rfl, rfl⟩ := Prod.mk.inj he
  exact ⟨a', ha, rfl, (bread_spec ha).lru_eq ▸ h.2⟩

/-- `brelse` moves the buffer to the front of the list exactly when it
moves it after the head. -/
theorem Refines.brelse {c : BList n β} {a : BCache n β} (h : Refines c a) {i : Fin n}
    (hi : i ∈ a.lru) : Refines (brelseL c i) (Bio.brelse a i) := by
  obtain ⟨buf, next, prev⟩ := c
  obtain ⟨hbuf, hr⟩ := h
  dsimp only at hbuf hr
  subst hbuf
  unfold brelseL Bio.brelse BList.modify BCache.modify
  dsimp only
  split_ifs with h0
  · refine ⟨rfl, ?_⟩
    have := hr.moveFront (List.mem_map_of_mem hi)
    rw [← @List.map_erase _ _ _ _ instBEqOfDecidableEq _ some (Option.some_injective _) i a.lru,
      ← List.map_cons] at this
    exact this
  · exact ⟨rfl, hr⟩

theorem Refines.bpin {c : BList n β} {a : BCache n β} (h : Refines c a) (i : Fin n) :
    Refines (bpinL c i) (Bio.bpin a i) := by
  obtain ⟨buf, next, prev⟩ := c
  obtain ⟨hbuf, hr⟩ := h
  dsimp only at hbuf
  subst hbuf
  exact ⟨rfl, hr⟩

theorem Refines.bunpin {c : BList n β} {a : BCache n β} (h : Refines c a) (i : Fin n) :
    Refines (bunpinL c i) (Bio.bunpin a i) := by
  obtain ⟨buf, next, prev⟩ := c
  obtain ⟨hbuf, hr⟩ := h
  dsimp only at hbuf
  subst hbuf
  exact ⟨rfl, hr⟩

/-- `binit`'s links hold the buffers from the last to the first. -/
theorem refines_binit (zero : β) : Refines (binitL (n := n) zero) (binit zero) := by
  have hr₀ : DRing (fun _ : Node n => none) (fun _ => none) none [] := ⟨⟨rfl, rfl⟩, by simp⟩
  have hnew : ∀ b ∈ (List.finRange n).map some, b ∉ [none] := by simp
  have := hr₀.pushFronts ((List.nodup_finRange n).map (Option.some_injective _)) hnew
  rw [List.foldl_map, List.append_nil, ← List.map_reverse] at this
  exact ⟨rfl, this⟩

/-! ## What the list keeps -/

/-- What the calls keep of the list-level cache, given who holds and who
pinned each buffer: every buffer is on the list, no two buffers hold one
block of a device other than `0`, and a buffer's reference count is its
holders and its pins. -/
structure CacheOk (a : BCache n β) (held pinned : List (Fin n)) : Prop where
  all : ∀ i, i ∈ a.lru
  unique : ∀ i j, (a.buf i).dev ≠ 0 → (a.buf i).dev = (a.buf j).dev →
    (a.buf i).blockno = (a.buf j).blockno → i = j
  refcnt : ∀ i, (a.buf i).refcnt = held.count i + pinned.count i

theorem holds_iff {b : Buf β} {dev : Nat} {blockno : UInt32} :
    b.holds dev blockno = true ↔ b.dev = dev ∧ b.blockno = blockno := by
  simp [Buf.holds]

theorem cacheOk_binit (zero : β) : CacheOk (binit (n := n) zero) [] [] where
  all i := by simp [binit]
  unique i j h := absurd rfl h
  refcnt i := rfl

/-- A call that keeps the list's members and every buffer's block keeps
the invariant once the counts are right. -/
theorem CacheOk.recount {a a' : BCache n β} {held pinned held' pinned' : List (Fin n)}
    (h : CacheOk a held pinned) (hall : ∀ j, j ∈ a'.lru)
    (hkey : ∀ j, (a'.buf j).dev = (a.buf j).dev ∧ (a'.buf j).blockno = (a.buf j).blockno)
    (hcnt : ∀ j, (a'.buf j).refcnt = held'.count j + pinned'.count j) : CacheOk a' held' pinned' where
  all := hall
  unique i j hi hd hb := by
    rw [(hkey i).1, (hkey j).1] at hd
    rw [(hkey i).2, (hkey j).2] at hb
    exact h.unique i j ((hkey i).1 ▸ hi) hd hb
  refcnt := hcnt

/-- No buffer but the one `bread` returns holds the block afterwards: it
held it already, or none did. -/
theorem CacheOk.bread {a a' : BCache n β} {held pinned : List (Fin n)} (h : CacheOk a held pinned)
    {disk : Disk β} {dev : Nat} {blockno : UInt32} {i : Fin n} (hdev : dev ≠ 0)
    (hb : Bio.bread a disk dev blockno = some (a', i)) : CacheOk a' (i :: held) pinned := by
  have sp := bread_spec hb
  have hother : ∀ k, k ≠ i → ¬((a.buf k).dev = dev ∧ (a.buf k).blockno = blockno) := by
    rintro k hki ⟨hd, hbn⟩
    rcases sp.hit_or_free with hit | ⟨-, hnone⟩
    · obtain ⟨hd', hb'⟩ := holds_iff.1 hit
      exact hki (h.unique k i (hd ▸ hdev) (hd.trans hd'.symm) (hbn.trans hb'.symm))
    · exact absurd (holds_iff.2 ⟨hd, hbn⟩) (by simp [hnone k (h.all k)])
  have hi := sp.buf_eq
  refine ⟨fun j => sp.lru_eq ▸ h.all j, fun j k hj hd hbn => ?_, fun j => ?_⟩
  · by_cases hji : j = i
    · subst hji
      by_contra hkj
      rw [hi, sp.buf_of_ne k (Ne.symm hkj)] at hd hbn
      exact hother k (Ne.symm hkj) ⟨hd.symm, hbn.symm⟩
    · by_cases hki : k = i
      · subst hki
        rw [hi, sp.buf_of_ne j hji] at hd hbn
        exact absurd ⟨hd, hbn⟩ (hother j hji)
      · rw [sp.buf_of_ne j hji, sp.buf_of_ne k hki] at hd hbn
        rw [sp.buf_of_ne j hji] at hj
        exact h.unique j k hj hd hbn
  · by_cases hji : j = i
    · subst hji
      rw [hi, List.count_cons_self, h.refcnt]
      dsimp only
      omega
    · rw [sp.buf_of_ne j hji, List.count_cons_of_ne (Ne.symm hji), h.refcnt]

/-- A call that changes one buffer's count, and neither a block nor the
list's members, keeps the invariant when the new count follows the holders
and pins. -/
theorem CacheOk.recount_one {a a' : BCache n β} {held pinned held' pinned' : List (Fin n)}
    (h : CacheOk a held pinned) (hall : ∀ j, j ∈ a'.lru) {i : Fin n} {g : Nat → Nat}
    (hbuf : a'.buf = (a.modify i fun b => { b with refcnt := g b.refcnt }).buf)
    (hi : g (held.count i + pinned.count i) = held'.count i + pinned'.count i)
    (hj : ∀ j, j ≠ i → held'.count j + pinned'.count j = held.count j + pinned.count j) :
    CacheOk a' held' pinned' := by
  refine h.recount hall (fun j => ?_) fun j => ?_
  · rw [hbuf, modify_buf]
    split
    · subst j
      exact ⟨rfl, rfl⟩
    · exact ⟨rfl, rfl⟩
  · rw [hbuf, modify_buf]
    split
    · subst j
      rw [← hi, ← h.refcnt]
    · rename_i hji
      rw [hj j hji, h.refcnt]

theorem CacheOk.brelse {a : BCache n β} {held pinned : List (Fin n)} (h : CacheOk a held pinned)
    {i : Fin n} (hi : i ∈ held) : CacheOk (Bio.brelse a i) (held.erase i) pinned := by
  have hpos := List.count_pos_iff.mpr hi
  refine h.recount_one (fun j => (mem_brelse_lru a i j (h.all i)).mpr (h.all j)) (g := (· - 1))
    (brelse_buf a i) ?_ fun j hji => by rw [List.count_erase_of_ne hji]
  rw [List.count_erase_self]
  omega

theorem CacheOk.bpin {a : BCache n β} {held pinned : List (Fin n)} (h : CacheOk a held pinned)
    (i : Fin n) : CacheOk (Bio.bpin a i) held (i :: pinned) := by
  refine h.recount_one (fun j => h.all j) (g := (· + 1)) rfl ?_
    fun j hji => by rw [List.count_cons_of_ne (Ne.symm hji)]
  rw [List.count_cons_self]
  omega

theorem CacheOk.bunpin {a : BCache n β} {held pinned : List (Fin n)} (h : CacheOk a held pinned)
    {i : Fin n} (hi : i ∈ pinned) : CacheOk (Bio.bunpin a i) held (pinned.erase i) := by
  have hpos := List.count_pos_iff.mpr hi
  refine h.recount_one (fun j => h.all j) (g := (· - 1)) rfl ?_
    fun j hji => by rw [List.count_erase_of_ne hji]
  rw [List.count_erase_self]
  omega

/-- `bget` returns the buffer that holds the block, and when none does, the
one nearest the tail of the list among those nobody refers to. -/
theorem CacheOk.bget_policy {a a' : BCache n β} {held pinned : List (Fin n)}
    (h : CacheOk a held pinned) {dev : Nat} {blockno : UInt32} {i : Fin n} (hdev : dev ≠ 0)
    (hb : bget a dev blockno = some (a', i)) :
    (∀ j, (a.buf j).holds dev blockno = true → i = j) ∧
      ((∀ j, (a.buf j).holds dev blockno = false) →
        (a.buf i).refcnt = 0 ∧ ∃ l₁ l₂, a.lru = l₁ ++ i :: l₂ ∧ ∀ j ∈ l₂, (a.buf j).refcnt ≠ 0) := by
  unfold bget at hb
  refine ⟨fun j hj => ?_, fun hnone => ?_⟩
  · -- the forward scan finds a buffer holding the block, which is `j`'s
    cases hf : a.lru.find? fun i => (a.buf i).holds dev blockno with
    | none => exact absurd hj (by simpa using List.find?_eq_none.mp hf j (h.all j))
    | some k =>
        rw [hf] at hb
        obtain ⟨-, rfl⟩ := Prod.mk.inj (Option.some.inj hb)
        have hk := List.find?_some hf
        beta_reduce at hk
        obtain ⟨hd, hbn⟩ := holds_iff.1 hk
        obtain ⟨hd', hbn'⟩ := holds_iff.1 hj
        exact h.unique _ j (hd ▸ hdev) (hd.trans hd'.symm) (hbn.trans hbn'.symm)
  · have hf : (a.lru.find? fun i => (a.buf i).holds dev blockno) = none :=
      List.find?_eq_none.mpr fun j _ => by simp [hnone j]
    rw [hf] at hb
    dsimp only at hb
    cases hg : a.lru.reverse.find? fun i => (a.buf i).refcnt == 0 with
    | none => rw [hg] at hb; cases hb
    | some k =>
        rw [hg] at hb
        obtain ⟨-, rfl⟩ := Prod.mk.inj (Option.some.inj hb)
        -- the backward scan passed only referenced buffers
        obtain ⟨h0, as, bs, hrev, has⟩ := List.find?_eq_some_iff_append.mp hg
        refine ⟨by simpa using h0, bs.reverse, as.reverse, ?_, fun j hj => ?_⟩
        · rw [List.reverse_eq_append_iff] at hrev
          simpa using hrev
        · simpa using has j (List.mem_reverse.mp hj)

/-! ## The calls of the kernel -/

/-- The cache, with a ghost record of the buffers `bread` handed out and
nobody released yet, and of the pins not yet undone. -/
structure BioState (n : Nat) (β : Type) where
  c : BList n β
  held : List (Fin n)
  pinned : List (Fin n)

/-- The calls on the cache. -/
inductive BioEv (n : Nat)
  /-- `bread(dev, blockno)` -/
  | bread (dev : Nat) (blockno : UInt32)
  /-- `brelse(b)` -/
  | brelse (i : Fin n)
  /-- `bpin(b)` -/
  | bpin (i : Fin n)
  /-- `bunpin(b)` -/
  | bunpin (i : Fin n)

/-- One call: `bread` of a device other than `0`, disabled when `bget`
panics, and `brelse` by a holder of the buffer, the sleep-lock it checks.
`bpin` and `bunpin` check nothing. -/
def bioStep (disk : Disk β) (s : BioState n β) : BioEv n → Option (BioState n β)
  | .bread dev blockno =>
      if dev = 0 then none
      else (breadL s.c disk dev blockno).map fun r => { s with c := r.1, held := r.2 :: s.held }
  | .brelse i =>
      if i ∈ s.held then some { s with c := brelseL s.c i, held := s.held.erase i } else none
  | .bpin i => some { s with c := bpinL s.c i, pinned := i :: s.pinned }
  | .bunpin i => some { s with c := bunpinL s.c i, pinned := s.pinned.erase i }

/-- The cache from `binit()`, under any sequence of calls. -/
def bioSystem (zero : β) (disk : Disk β) : System (BioState n β) (BioEv n) :=
  ⟨⟨binitL zero, [], []⟩, bioStep disk⟩

/-- The call decrements a `refcnt` of `0`, which the `uint` wraps. -/
def Underflows (s : BioState n β) : BioEv n → Prop
  | .brelse i | .bunpin i => (s.c.buf i).refcnt = 0
  | _ => False

/-- What the callers keep that `bunpin` does not check: each `bunpin`
undoes a `bpin`, as `install_trans` undoes those of `log_write`. -/
def pinsPaired (s : BioState n β) : BioEv n → Bool
  | .bunpin i => decide (i ∈ s.pinned)
  | _ => true

/-- The cache from `binit()` under the calls of callers that pair their
pins. -/
def bioSystemPaired (zero : β) (disk : Disk β) : System (BioState n β) (BioEv n) :=
  ⟨⟨binitL zero, [], []⟩, fun s e => if pinsPaired s e then bioStep disk s e else none⟩

/-- The links hold a list the calls keep. -/
def BufInv (s : BioState n β) : Prop :=
  ∃ a, Refines s.c a ∧ CacheOk a s.held s.pinned

theorem BufInv.step {disk : Disk β} {s s' : BioState n β} {e : BioEv n} (hs : BufInv s)
    (hp : pinsPaired s e) (he : bioStep disk s e = some s') : BufInv s' := by
  obtain ⟨a, hr, hok⟩ := hs
  cases e with
  | bread dev blockno =>
      dsimp only [bioStep] at he
      split_ifs at he with hdev
      obtain ⟨⟨c', i⟩, hb, rfl⟩ := Option.map_eq_some_iff.mp he
      obtain ⟨a', ha, hr'⟩ := hr.bread hb
      exact ⟨a', hr', hok.bread hdev ha⟩
  | brelse i =>
      dsimp only [bioStep] at he
      split_ifs at he with hi
      cases he
      exact ⟨_, hr.brelse (hok.all i), hok.brelse hi⟩
  | bpin i =>
      cases he
      exact ⟨_, hr.bpin i, hok.bpin i⟩
  | bunpin i =>
      have hi : i ∈ s.pinned := by simpa [pinsPaired] using hp
      cases he
      exact ⟨_, hr.bunpin i, hok.bunpin hi⟩

theorem bufInv_reachable (zero : β) (disk : Disk β) :
    (bioSystemPaired (n := n) zero disk).Invariant BufInv :=
  System.invariant_of_step _ ⟨binit zero, refines_binit zero, cacheOk_binit zero⟩
    fun s e _ hs he => by
      dsimp only [bioSystemPaired] at he
      split_ifs at he with hp
      exact hs.step hp he

/-! ## What the invariant gives -/

/-- Once every buffer is on the ring, `next` and `prev` are inverse at every
node. -/
theorem Refines.links_inv {c : BList n β} {a : BCache n β} (h : Refines c a)
    (hall : ∀ i, i ∈ a.lru) (x : Node n) : c.prev (c.next x) = x ∧ c.next (c.prev x) = x :=
  h.2.links (by cases x <;> simp [hall])

/-- The scans hand out what the list-level `bget` hands out. -/
theorem Refines.bget {c c' : BList n β} {a : BCache n β} (h : Refines c a) {dev : Nat}
    {blockno : UInt32} {i : Fin n} (hb : bgetL c dev blockno = some (c', i)) :
    ∃ a', Bio.bget a dev blockno = some (a', i) ∧ c'.buf = a'.buf := by
  rw [bgetL_eq h] at hb
  obtain ⟨⟨a', j⟩, ha, he⟩ := Option.map_eq_some_iff.mp hb
  obtain ⟨rfl, rfl⟩ := Prod.mk.inj he
  exact ⟨a', ha, rfl⟩

theorem bgetL_eq_none_iff {c : BList n β} {a : BCache n β} (h : Refines c a)
    (hall : ∀ i, i ∈ a.lru) {dev : Nat} {blockno : UInt32} :
    bgetL c dev blockno = none ↔
      (∀ j, (c.buf j).holds dev blockno = false) ∧ ∀ j, (c.buf j).refcnt ≠ 0 := by
  rw [bgetL_eq h, Option.map_eq_none_iff, bget_eq_none_iff, h.1]
  simp [hall]

/-- A call that decrements a count is of a buffer its caller holds or
pinned, and so counted. -/
theorem CacheOk.not_underflows {s s' : BioState n β} {a : BCache n β} (hbuf : s.c.buf = a.buf)
    (h : CacheOk a s.held s.pinned) {disk : Disk β} {e : BioEv n} (hp : pinsPaired s e)
    (he : bioStep disk s e = some s') : ¬ Underflows s e := by
  cases e with
  | bread dev blockno => exact id
  | bpin i => exact id
  | brelse i =>
      dsimp only [bioStep] at he
      split_ifs at he with hi
      have hpos := List.count_pos_iff.mpr hi
      simp only [Underflows, hbuf, h.refcnt]
      omega
  | bunpin i =>
      have hi : i ∈ s.pinned := by simpa [pinsPaired] using hp
      have hpos := List.count_pos_iff.mpr hi
      simp only [Underflows, hbuf, h.refcnt]
      omega

end Bio
end Xv6
