import Mathlib.Data.List.DropRight
import Xv6.Fs.Dir

/-!
# Path names

`namex` (`kernel/fs.c`) resolves a path one element at a time: `skipelem`
copies the next element into the `DIRSIZ`-byte buffer `name` and returns
the rest of the path, and the loop looks the element up in the directory
it has reached, from the root for a path that starts with `/` and from the
current directory otherwise.  `nameiparent` stops one element early.

A path is the bytes from `path` on, read up to its `0` as C reads them.  Its
elements are the non-empty pieces of that string between slashes
(`components`).  Repeated `skipelem` returns exactly these, each stored as
`NameHolds` says (`skipelems_holds`), and `namex` walks them
(`namexLoop_walk`, `namexLoop_parent`).  What `ilock` and `dirlookup` find
is given by an `Fsys`, whose lookup sees a name only as `namecmp` does;
`Fsys.ofDisk` is the one the inodes on a disk give (`dirlookup_ofDisk`).
-/

namespace Xv6
namespace Fs

open Records

/-! ## The model -/

/-- `'/'`. -/
def slash : UInt8 := 47

/-- `skipelem(path, name)`: the rest of the path and the name buffer after
the copy, or `none` for the `0` it returns when no element is left. -/
def skipelem (path name : List UInt8) : Option (List UInt8 × List UInt8) :=
  let path := path.dropWhile (· = slash)
  if path.headD 0 = 0 then none
  else
    let elem := path.takeWhile fun c => c ≠ slash ∧ c ≠ 0
    let path := path.dropWhile fun c => c ≠ slash ∧ c ≠ 0
    -- `memmove(name, s, DIRSIZ)`, or the element and `name[len] = 0`
    let name := if DIRSIZ ≤ elem.length then splice name 0 (elem.take DIRSIZ)
      else splice name 0 (elem ++ [0])
    some (path.dropWhile (· = slash), name)

/-- Every element `skipelem` finds moves the path on. -/
theorem skipelem_advance {path name rest name' : List UInt8}
    (h : skipelem path name = some (rest, name')) :
    rest <:+ path ∧ rest.length < path.length := by
  dsimp only [skipelem] at h
  split at h
  · cases h
  · next h0 =>
    obtain ⟨rfl, -⟩ := Prod.mk.inj (Option.some.inj h)
    refine ⟨((List.dropWhile_suffix _).trans (List.dropWhile_suffix _)).trans
      (List.dropWhile_suffix _), ?_⟩
    -- the element is not empty: the first byte left is neither `/` nor `0`
    obtain ⟨a, t, hl⟩ : ∃ a t, path.dropWhile (· = slash) = a :: t := by
      cases hp : path.dropWhile (· = slash) with
      | nil => simp [hp] at h0
      | cons a t => exact ⟨a, t, rfl⟩
    have ha : a ≠ slash := by
      have := List.head_dropWhile_not (fun c : UInt8 => decide (c = slash))
        (l := path) (by simp [hl])
      simpa [hl] using this
    have ha0 : a ≠ 0 := by simpa [hl] using h0
    calc _ ≤ (t.dropWhile fun c => c ≠ slash ∧ c ≠ 0).length := by
            rw [hl, List.dropWhile_cons_of_pos (by simp [ha, ha0])]
            exact List.length_dropWhile_le _ _
      _ ≤ t.length := List.length_dropWhile_le _ _
      _ < (path.dropWhile (· = slash)).length := by simp [hl]
      _ ≤ path.length := List.length_dropWhile_le _ _

/-- What `ilock` and `dirlookup` find: whether an inode is a directory, and
the inode number a directory's entry for a name holds.  `dirlookup`
compares names with `namecmp`, so a lookup sees only the `nameKey` of a
name. -/
structure Fsys where
  isDir : Nat → Bool
  lookup : Nat → List UInt8 → Option Nat
  lookup_nameKey : ∀ ip s t, nameKey s = nameKey t → lookup ip s = lookup ip t

/-- The loop of `namex` from the inode `ip`: the inode it returns (`none`
for `0`) and the name buffer. -/
def namexLoop (fs : Fsys) (nameiparent : Bool) (ip : Nat) (path name : List UInt8) :
    Option Nat × List UInt8 :=
  match h : skipelem path name with
  | none => (if nameiparent then none else some ip, name)
  | some (path', name') =>
    if fs.isDir ip = false then (none, name')
    -- stop one level early
    else if nameiparent = true ∧ path'.headD 0 = 0 then (some ip, name')
    else
      match fs.lookup ip name' with
      | none => (none, name')
      | some next => namexLoop fs nameiparent next path' name'
termination_by path.length
decreasing_by exact (skipelem_advance h).2

/-- `namex(path, nameiparent, name)` with the current directory `cwd`. -/
def namex (fs : Fsys) (cwd : Nat) (path : List UInt8) (nameiparent : Bool)
    (name : List UInt8) : Option Nat × List UInt8 :=
  namexLoop fs nameiparent (if path.headD 0 = slash then ROOTINO else cwd) path name

/-- `namei(path)`; its `name` buffer is not read before `skipelem` writes it. -/
def namei (fs : Fsys) (cwd : Nat) (path : List UInt8) : Option Nat :=
  (namex fs cwd path false (List.replicate DIRSIZ 0)).1

/-- `nameiparent(path, name)`. -/
def nameiparent (fs : Fsys) (cwd : Nat) (path name : List UInt8) : Option Nat × List UInt8 :=
  namex fs cwd path true name

/-- `dirlookup` over the contents sees a name only as `namecmp` does. -/
theorem lookup_congr_nameKey {data s t : List UInt8} (h : nameKey s = nameKey t) :
    Fs.lookup data s = Fs.lookup data t := by
  have : entryMatch data s = entryMatch data t := by
    funext off
    simp only [entryMatch, namecmp_eq_zero_iff, h]
  rw [Fs.lookup, this, Fs.lookup]

/-- The file system the inodes `it` on the disk `d` make. -/
def Fsys.ofDisk (d : Disk Log.Block) (it : Nat → DInode) : Fsys where
  isDir i := (it i).type = T_DIR
  lookup i name := (Fs.lookup (contents d (it i)) name).map Prod.snd
  lookup_nameKey _ _ _ h := by rw [lookup_congr_nameKey h]

/-- On a directory with no holes, made of whole entries, the inode number
`dirlookup` finds is the lookup of `Fsys.ofDisk`. -/
theorem dirlookup_ofDisk {sb : SuperBlock} {d : Disk Log.Block} {dp : Inode}
    {it : Nat → DInode} (hit : it dp.inum = dp.toDInode)
    (hholes : NoHoles d dp.toDInode dp.size.toNat) (hwhole : dp.size.toNat % direntSize = 0)
    (hdir : dp.type = T_DIR) (name : List UInt8) :
    (dirlookup sb d dp name).map (fun r => r.1.map Prod.snd) =
      some ((Fsys.ofDisk d it).lookup dp.inum name) := by
  rw [dirlookup_eq hholes hwhole hdir]
  simp [Fsys.ofDisk, hit]

/-! ## Path elements -/

/-- The non-empty pieces between slashes of the string at `path`. -/
def components (path : List UInt8) : List (List UInt8) :=
  ((cstr path).splitOn slash).filter (· ≠ [])

/-- The buffer `name` holds the element `c` as `skipelem` stores it: the
first `DIRSIZ` bytes of the element with no `0` among them when it is that
long, and otherwise the element and a `0`. -/
def NameHolds (name c : List UInt8) : Prop :=
  0 ∉ c ∧
    if DIRSIZ ≤ c.length then name.take DIRSIZ = c.take DIRSIZ
    else name.take (c.length + 1) = c ++ [0]

/-- The names `skipelem` leaves in the buffer, one per call, until it
returns `0`. -/
def skipelems (path name : List UInt8) : List (List UInt8) :=
  match h : skipelem path name with
  | none => []
  | some (rest, name') => name' :: skipelems rest name'
termination_by path.length
decreasing_by exact (skipelem_advance h).2

/-- The walk `namex` makes: from `ip`, look the components `cs` up one by
one, each in a directory. -/
def walk (fs : Fsys) : Nat → List (List UInt8) → Option Nat
  | ip, [] => some ip
  | ip, c :: cs => if fs.isDir ip then (fs.lookup ip c).bind fun next => walk fs next cs else none

/-! ## The elements of a path -/

section Elements

variable {path name rest name' : List UInt8}

theorem slash_ne_zero : slash ≠ 0 := by decide

@[simp] theorem cstr_cons_of_ne {a : UInt8} (t : List UInt8) (h : a ≠ 0) :
    cstr (a :: t) = a :: cstr t := by
  simp [cstr, h]

@[simp] theorem cstr_cons_zero (t : List UInt8) : cstr (0 :: t) = [] := rfl

/-- A `/` in front adds no element. -/
theorem components_cons_slash (l : List UInt8) : components (slash :: l) = components l := by
  simp [components, slash_ne_zero, List.splitOn_cons_eq_if_modifyHead]

/-- Nor do leading slashes. -/
theorem components_dropWhile_slash (l : List UInt8) :
    components (l.dropWhile (· = slash)) = components l := by
  induction l with
  | nil => rfl
  | cons a t ih =>
    by_cases ha : a = slash
    · subst ha
      rw [List.dropWhile_cons_of_pos (by simp), ih, components_cons_slash]
    · rw [List.dropWhile_cons_of_neg (by simpa using ha)]

/-- No element is left where the string ends. -/
theorem components_of_headD_eq_zero {l : List UInt8} (h : l.headD 0 = 0) :
    components l = [] := by
  cases l with
  | nil => simp [components, cstr]
  | cons a t =>
    obtain rfl : a = 0 := h
    simp [components]

/-- The string at `l` is the element at its front and the string after it. -/
theorem cstr_eq_elem_append (l : List UInt8) :
    cstr l = l.takeWhile (fun c => c ≠ slash ∧ c ≠ 0) ++
      cstr (l.dropWhile fun c => c ≠ slash ∧ c ≠ 0) := by
  induction l with
  | nil => rfl
  | cons a t ih =>
    by_cases hq : a ≠ slash ∧ a ≠ 0
    · rw [List.takeWhile_cons_of_pos (by simpa using hq),
        List.dropWhile_cons_of_pos (by simpa using hq), cstr_cons_of_ne t hq.2, ih]
      rfl
    · rw [List.takeWhile_cons_of_neg (by simpa using hq),
        List.dropWhile_cons_of_neg (by simpa using hq)]
      rfl

/-- After the element the string ends or goes on with a `/`. -/
theorem cstr_after_elem (l : List UInt8) :
    cstr (l.dropWhile fun c => c ≠ slash ∧ c ≠ 0) = [] ∨
      ∃ t, cstr (l.dropWhile fun c => c ≠ slash ∧ c ≠ 0) = slash :: cstr t := by
  induction l with
  | nil => exact Or.inl rfl
  | cons a t ih =>
    by_cases hq : a ≠ slash ∧ a ≠ 0
    · rwa [List.dropWhile_cons_of_pos (by simpa using hq)]
    · rw [List.dropWhile_cons_of_neg (by simpa using hq)]
      by_cases h0 : a = 0
      · subst h0
        exact Or.inl rfl
      · obtain rfl : a = slash := by tauto
        exact Or.inr ⟨t, cstr_cons_of_ne t slash_ne_zero⟩

/-- The elements of a string with an element at its front: that element,
then those after it. -/
theorem components_of_elem {l : List UInt8} (h0 : l.headD 0 ≠ 0) (hs : l.headD 0 ≠ slash) :
    components l = l.takeWhile (fun c => c ≠ slash ∧ c ≠ 0) ::
      components (l.dropWhile fun c => c ≠ slash ∧ c ≠ 0) := by
  obtain ⟨a, t, rfl⟩ : ∃ a t, l = a :: t := by
    cases l with
    | nil => exact absurd rfl h0
    | cons a t => exact ⟨a, t, rfl⟩
  have hne : (a :: t).takeWhile (fun c => c ≠ slash ∧ c ≠ 0) ≠ [] := by
    rw [List.takeWhile_cons_of_pos (by simpa using And.intro hs h0)]
    simp
  have hslash : slash ∉ (a :: t).takeWhile fun c => c ≠ slash ∧ c ≠ 0 := fun h => by
    simpa using List.mem_takeWhile_imp h
  rw [components, cstr_eq_elem_append]
  rcases cstr_after_elem (a :: t) with hr | ⟨u, hr⟩
  · rw [hr, List.append_nil, List.splitOn_eq_singleton hslash, components, hr,
      List.filter_cons_of_pos (by simpa using hne)]
    simp
  · rw [hr, List.splitOn_append_cons_self_of_not_mem hslash, components, hr,
      List.splitOn_cons_eq_if_modifyHead, List.filter_cons_of_pos (by simpa using hne)]
    simp

/-- The first byte after the leading slashes is not one. -/
theorem headD_dropWhile_slash (l : List UInt8) : (l.dropWhile (· = slash)).headD 0 ≠ slash := by
  induction l with
  | nil => exact Ne.symm slash_ne_zero
  | cons a t ih =>
    by_cases ha : a = slash
    · rwa [List.dropWhile_cons_of_pos (by simpa using ha)]
    · rwa [List.dropWhile_cons_of_neg (by simpa using ha)]

/-- Nothing but a `0` after the leading slashes: the string is only slashes. -/
theorem headD_dropWhile_eq_zero_iff (l : List UInt8) :
    (l.dropWhile (· = slash)).headD 0 = 0 ↔ ∀ c ∈ cstr l, c = slash := by
  induction l with
  | nil => simp [cstr]
  | cons a t ih =>
    by_cases ha : a = slash
    · subst ha
      rw [List.dropWhile_cons_of_pos (by simp), ih, cstr_cons_of_ne t slash_ne_zero]
      simp
    · rw [List.dropWhile_cons_of_neg (by simpa using ha)]
      by_cases h0 : a = 0
      · subst h0
        simp
      · simp [h0, ha]

theorem skipelem_eq_none_iff_headD :
    skipelem path name = none ↔ (path.dropWhile (· = slash)).headD 0 = 0 := by
  dsimp only [skipelem]
  split <;> simp_all

/-- `skipelem` returns `0` exactly when the string at the path is only
slashes, or empty. -/
theorem skipelem_eq_none_iff_slashes : skipelem path name = none ↔ ∀ c ∈ cstr path, c = slash := by
  rw [skipelem_eq_none_iff_headD, headD_dropWhile_eq_zero_iff]

/-- It returns `0` exactly when no element is left. -/
theorem skipelem_eq_none_iff : skipelem path name = none ↔ components path = [] := by
  rw [skipelem_eq_none_iff_headD, ← components_dropWhile_slash]
  constructor
  · exact components_of_headD_eq_zero
  · intro h
    by_contra h0
    rw [components_of_elem h0 (headD_dropWhile_slash path)] at h
    exact List.cons_ne_nil _ _ h

/-- What `skipelem` stores in `name`. -/
theorem nameHolds_store (name : List UInt8) {c : List UInt8} (hc : 0 ∉ c) :
    NameHolds (if DIRSIZ ≤ c.length then splice name 0 (c.take DIRSIZ)
      else splice name 0 (c ++ [0])) c := by
  refine ⟨hc, ?_⟩
  split_ifs with hlen
  · rw [splice, List.take_zero, List.nil_append, List.take_left' (List.length_take_of_le hlen)]
  · rw [splice, List.take_zero, List.nil_append, List.take_left' (by simp)]

/-- Otherwise it returns the first element, stored in `name`, and the path
after it. -/
theorem skipelem_eq_some (h : skipelem path name = some (rest, name')) :
    ∃ c, components path = c :: components rest ∧ NameHolds name' c := by
  dsimp only [skipelem] at h
  split at h
  · cases h
  · next h0 =>
    obtain ⟨rfl, rfl⟩ := Prod.mk.inj (Option.some.inj h)
    refine ⟨_, ?_, nameHolds_store name fun h => by simpa using List.mem_takeWhile_imp h⟩
    rw [← components_dropWhile_slash path, components_of_elem h0 (headD_dropWhile_slash path),
      components_dropWhile_slash]

-- `skipelem("///a//bb", name) = "bb"`, setting `name = "a"`
example : skipelem [47, 47, 47, 97, 47, 47, 98, 98, 0] (List.replicate DIRSIZ 1) =
    some ([98, 98, 0], [97, 0] ++ List.replicate 12 1) := by decide

/-- The path `skipelem` returns has no leading slash. -/
theorem skipelem_rest (h : skipelem path name = some (rest, name')) :
    rest.dropWhile (· = slash) = rest := by
  dsimp only [skipelem] at h
  split at h
  · cases h
  · obtain ⟨rfl, -⟩ := Prod.mk.inj (Option.some.inj h)
    exact List.dropWhile_idempotent _ _

/-- So after it, no element is left exactly when the string ends. -/
theorem components_rest_eq_nil_iff (h : skipelem path name = some (rest, name')) :
    components rest = [] ↔ rest.headD 0 = 0 := by
  rw [← @skipelem_eq_none_iff rest name', skipelem_eq_none_iff_headD, skipelem_rest h]

/-- The name `skipelem` stores is the element as `namecmp` sees it. -/
theorem nameKey_of_nameHolds {name c : List UInt8} (h : NameHolds name c) :
    nameKey name = nameKey c := by
  obtain ⟨hc, h⟩ := h
  have hcs : cstr c = c := List.takeWhile_eq_self_iff.mpr fun x hx => by
    simpa using ne_of_mem_of_not_mem hx hc
  split_ifs at h with hlen
  · have hpre : ∀ x ∈ c.take DIRSIZ, x ≠ 0 := fun x hx => ne_of_mem_of_not_mem (List.mem_of_mem_take hx) hc
    rw [nameKey, nameKey, hcs, ← List.take_append_drop DIRSIZ name, h, cstr,
      List.takeWhile_append_of_pos (by simpa using hpre),
      List.take_left' (List.length_take_of_le hlen)]
  · rw [nameKey, nameKey, hcs, ← List.take_append_drop (c.length + 1) name, h, List.append_assoc,
      cstr, List.takeWhile_append_of_pos (by simpa using fun x hx => ne_of_mem_of_not_mem hx hc)]
    simp [List.take_of_length_le (by omega : c.length ≤ DIRSIZ)]

end Elements

/-! ## Repeated `skipelem`, and the walk of `namex` -/

/-- Repeated `skipelem` stores the elements of the path in `name`, in order,
one per call. -/
theorem skipelems_holds (path name : List UInt8) :
    List.Forall₂ NameHolds (skipelems path name) (components path) := by
  fun_induction skipelems path name with
  | case1 path name h =>
    rw [skipelem_eq_none_iff.1 h]
    exact .nil
  | case2 path name rest name' h ih =>
    obtain ⟨c, hc, hold⟩ := skipelem_eq_some h
    rw [hc]
    exact .cons hold ih

section Walk

variable (fs : Fsys)

/-- A lookup of the buffer is one of the element it holds. -/
theorem Fsys.lookup_of_nameHolds {name c : List UInt8} (h : NameHolds name c) (ip : Nat) :
    fs.lookup ip name = fs.lookup ip c :=
  fs.lookup_nameKey ip name c (nameKey_of_nameHolds h)

/-- One step of the walk, looking the element up by the buffer that holds it. -/
theorem walk_cons_of_nameHolds {name c : List UInt8} (h : NameHolds name c) (ip : Nat)
    (cs : List (List UInt8)) :
    walk fs ip (c :: cs) =
      if fs.isDir ip then (fs.lookup ip name).bind fun next => walk fs next cs else none := by
  rw [walk, fs.lookup_of_nameHolds h]

/-- `namex(path, 0, name)` from `ip` walks the elements of the path. -/
theorem namexLoop_walk (ip : Nat) (path name : List UInt8) :
    (namexLoop fs false ip path name).1 = walk fs ip (components path) := by
  fun_induction namexLoop fs false ip path name with
  | case1 ip path name h => simp [skipelem_eq_none_iff.1 h, walk]
  | case2 ip path name path' name' h hdir =>
    obtain ⟨c, hc, -⟩ := skipelem_eq_some h
    simp [hc, walk, hdir]
  | case3 _ _ _ _ _ _ _ hstop => exact absurd hstop.1 Bool.false_ne_true
  | case4 ip path name path' name' h hdir _ hlook =>
    obtain ⟨c, hc, hold⟩ := skipelem_eq_some h
    rw [hc, walk_cons_of_nameHolds fs hold, if_pos (by simpa using hdir), hlook]
    rfl
  | case5 ip path name path' name' h hdir _ next hlook ih =>
    obtain ⟨c, hc, hold⟩ := skipelem_eq_some h
    rw [ih, hc, walk_cons_of_nameHolds fs hold, if_pos (by simpa using hdir), hlook]
    rfl

/-- `namex(path, 1, name)` from `ip` returns `0` when the path has no
element. -/
theorem namexLoop_parent_nil (ip : Nat) {path : List UInt8} (name : List UInt8)
    (h : components path = []) : (namexLoop fs true ip path name).1 = none := by
  unfold namexLoop
  split
  · rfl
  · next path' name' hs =>
    obtain ⟨c, hc, -⟩ := skipelem_eq_some hs
    exact absurd (hc.symm.trans h) (List.cons_ne_nil _ _)

/-- With the elements `cs ++ [c]`, `namex(path, 1, name)` from `ip` returns
the directory the walk over `cs` reaches, and has `c` in `name` once that
walk succeeds. -/
theorem namexLoop_parent (ip : Nat) (path name : List UInt8) {cs : List (List UInt8)}
    {c : List UInt8} (h : components path = cs ++ [c]) :
    (namexLoop fs true ip path name).1 = (walk fs ip cs).filter fs.isDir ∧
      ((walk fs ip cs).isSome → NameHolds (namexLoop fs true ip path name).2 c) := by
  fun_induction namexLoop fs true ip path name generalizing cs with
  | case1 ip path name hs =>
    rw [skipelem_eq_none_iff.1 hs] at h
    simp at h
  | case2 ip path name path' name' hs hdir =>
    obtain ⟨c₀, hc, hold⟩ := skipelem_eq_some hs
    rw [hc] at h
    cases cs with
    | nil =>
      obtain ⟨rfl, -⟩ : c₀ = c ∧ components path' = [] := by simpa using h
      simp [walk, Option.filter, hdir, hold]
    | cons c₁ cs => simp [walk, hdir]
  | case3 ip path name path' name' hs hdir hstop =>
    obtain ⟨c₀, hc, hold⟩ := skipelem_eq_some hs
    rw [hc, (components_rest_eq_nil_iff hs).mpr hstop.2] at h
    cases cs with
    | nil =>
      obtain rfl : c₀ = c := by simpa using h
      simp [walk, hold, Option.filter, hdir]
    | cons c₁ cs => simp at h
  | case4 ip path name path' name' hs hdir hgo hlook =>
    obtain ⟨c₀, hc, hold⟩ := skipelem_eq_some hs
    -- not the last element: the string goes on after it
    have hmore : components path' ≠ [] := fun hn => hgo ⟨rfl, (components_rest_eq_nil_iff hs).mp hn⟩
    rw [hc] at h
    cases cs with
    | nil => exact absurd (List.cons.inj h).2 hmore
    | cons c₁ cs =>
      obtain ⟨rfl, -⟩ : c₀ = c₁ ∧ _ := by simpa using h
      rw [walk_cons_of_nameHolds fs hold, if_pos (by simpa using hdir), hlook]
      simp
  | case5 ip path name path' name' hs hdir hgo next hlook ih =>
    obtain ⟨c₀, hc, hold⟩ := skipelem_eq_some hs
    have hmore : components path' ≠ [] := fun hn => hgo ⟨rfl, (components_rest_eq_nil_iff hs).mp hn⟩
    rw [hc] at h
    cases cs with
    | nil => exact absurd (List.cons.inj h).2 hmore
    | cons c₁ cs =>
      obtain ⟨rfl, hrest⟩ : c₀ = c₁ ∧ components path' = cs ++ [c] := by simpa using h
      rw [walk_cons_of_nameHolds fs hold, if_pos (by simpa using hdir), hlook]
      exact ih hrest

/-- `namex` over every path: `skipelem` finds the elements one by one, each
call moving the path on, and `namex` walks them from the root or from `cwd`;
with `nameiparent` it stops before the last element and leaves that in
`name`. -/
theorem namex_resolves_components (cwd : Nat) (path name : List UInt8) :
    (skipelem path name = none ↔ ∀ c ∈ cstr path, c = slash) ∧
    (∀ rest name', skipelem path name = some (rest, name') →
      rest <:+ path ∧ rest.length < path.length) ∧
    List.Forall₂ NameHolds (skipelems path name) (components path) ∧
    (namex fs cwd path false name).1 =
      walk fs (if path.headD 0 = slash then ROOTINO else cwd) (components path) ∧
    (components path = [] → (namex fs cwd path true name).1 = none) ∧
    ∀ cs c, components path = cs ++ [c] →
      (namex fs cwd path true name).1 =
          (walk fs (if path.headD 0 = slash then ROOTINO else cwd) cs).filter fs.isDir ∧
        ((walk fs (if path.headD 0 = slash then ROOTINO else cwd) cs).isSome →
          NameHolds (namex fs cwd path true name).2 c) :=
  ⟨skipelem_eq_none_iff_slashes, fun _ _ h => skipelem_advance h, skipelems_holds path name,
    namexLoop_walk fs _ path name, namexLoop_parent_nil fs _ name,
    fun _ _ h => namexLoop_parent fs _ path name h⟩

end Walk

end Fs
end Xv6
