import Mathlib

/-!
# grep's matcher

`match`, `matchhere` and `matchstar` of `user/grep.c` (Kernighan and Pike's
matcher), over the characters of the pattern and the text before their
terminators.

What a pattern means is given apart from the matcher: `parse` reads it as
a list of elements (a character or `.`, possibly starred: a character
followed by `*` is starred) and a flag for a `$` that ends it, and `Lang`
says which strings a list of elements matches: a starred element any run
of characters it accepts.  `Here re t` holds when some prefix of `t`
matches `re`, the whole of `t` for a pattern ending in `$`.  `match re
text` holds exactly when `Here` holds at some suffix of `text`, only at
`text` itself for a pattern starting with `^` (`match_iff`).
-/

namespace Xv6
namespace Grep

/-! ## The matcher -/

mutual

/-- `matchhere(re, text)`: search for `re` at the beginning of `text`. -/
def matchhere : List Char → List Char → Bool
  | [], _ => true
  | c :: '*' :: re, text => matchstar c re text
  | ['$'], text => text.isEmpty
  | c :: re, x :: text => if c = '.' ∨ c = x then matchhere re text else false
  | _ :: _, [] => false
termination_by re text => (re.length, 0, text.length)

/-- `matchstar(c, re, text)`: search for `c*re` at the beginning of `text`,
trying `re` after each run of `c` (of any character for `.`). -/
def matchstar (c : Char) (re : List Char) : List Char → Bool
  | [] => matchhere re []
  | x :: text => matchhere re (x :: text) || ((x = c ∨ c = '.') && matchstar c re text)
termination_by text => (re.length, 1, text.length)

end

/-- The loop of `match` for a pattern without `^`: `matchhere` at each
position of `text`, its end included. -/
def matchLoop (re : List Char) : List Char → Bool
  | [] => matchhere re []
  | x :: text => matchhere re (x :: text) || matchLoop re text

theorem matchLoop_nil (re : List Char) : matchLoop re [] = matchhere re [] := rfl

theorem matchLoop_cons (re : List Char) (x : Char) (text : List Char) :
    matchLoop re (x :: text) = (matchhere re (x :: text) || matchLoop re text) := rfl

/-- `match(re, text)` -/
def «match» (re text : List Char) : Bool :=
  match re with
  | '^' :: re => matchhere re text
  | _ => matchLoop re text

/-! ## What a pattern means -/

/-- What one pattern character matches: `.` any character, another
character itself. -/
inductive Atom where
  | any
  | lit (c : Char)
  deriving DecidableEq

def Atom.ofChar (c : Char) : Atom := if c = '.' then .any else .lit c

def Atom.Accepts : Atom → Char → Prop
  | .any, _ => True
  | .lit c, x => x = c

theorem Atom.ofChar_dot : Atom.ofChar '.' = .any := rfl

theorem Atom.ofChar_of_ne {c : Char} (h : c ≠ '.') : Atom.ofChar c = .lit c := if_neg h

theorem Atom.accepts_lit (c x : Char) : (Atom.lit c).Accepts x ↔ x = c := Iff.rfl

/-- An element of a pattern: one character, or any run of them. -/
inductive Elem where
  | one (a : Atom)
  | star (a : Atom)
  deriving DecidableEq

/-- A pattern as its elements, and whether a final `$` anchors it at the
end of the text. -/
def parse : List Char → List Elem × Bool
  | [] => ([], false)
  | c :: '*' :: re => ((parse re).1.cons (.star (.ofChar c)), (parse re).2)
  | ['$'] => ([], true)
  | c :: re => ((parse re).1.cons (.one (.ofChar c)), (parse re).2)

theorem parse_nil : parse [] = ([], false) := rfl

theorem parse_star (c : Char) (re : List Char) :
    parse (c :: '*' :: re) = ((parse re).1.cons (.star (.ofChar c)), (parse re).2) := rfl

theorem parse_dollar : parse ['$'] = ([], true) := rfl

/-- A character that is neither starred nor a final `$`. -/
theorem parse_one {c : Char} {re : List Char} (h₁ : ∀ re', re = '*' :: re' → False)
    (h₂ : c = '$' → re = [] → False) :
    parse (c :: re) = ((parse re).1.cons (.one (.ofChar c)), (parse re).2) :=
  parse.eq_4 c re h₁ h₂

/-- The strings a list of elements matches. -/
def Lang : List Elem → List Char → Prop
  | [], s => s = []
  | .one a :: es, s => ∃ x t, s = x :: t ∧ a.Accepts x ∧ Lang es t
  | .star a :: es, s => ∃ u t, s = u ++ t ∧ (∀ x ∈ u, a.Accepts x) ∧ Lang es t

theorem lang_nil (s : List Char) : Lang [] s ↔ s = [] := Iff.rfl

theorem lang_one (a : Atom) (es : List Elem) (s : List Char) :
    Lang (.one a :: es) s ↔ ∃ x t, s = x :: t ∧ a.Accepts x ∧ Lang es t := Iff.rfl

theorem lang_star (a : Atom) (es : List Elem) (s : List Char) :
    Lang (.star a :: es) s ↔ ∃ u t, s = u ++ t ∧ (∀ x ∈ u, a.Accepts x) ∧ Lang es t := Iff.rfl

/-- Some prefix of `t` matches `re`; all of `t` if `re` ends in `$`. -/
def Here (re t : List Char) : Prop :=
  ∃ s r, t = s ++ r ∧ Lang (parse re).1 s ∧ ((parse re).2 = true → r = [])

theorem here_iff (re t : List Char) :
    Here re t ↔ ∃ s r, t = s ++ r ∧ Lang (parse re).1 s ∧ ((parse re).2 = true → r = []) :=
  Iff.rfl

/-- `re` matches `text`: at some position of `text`, only at its start for
a pattern beginning with `^`. -/
def Matches (re text : List Char) : Prop :=
  match re with
  | '^' :: re => Here re text
  | _ => ∃ i ≤ text.length, Here re (text.drop i)

/-! ## The meaning, one pattern character at a time -/

theorem accepts_ofChar (c x : Char) : (Atom.ofChar c).Accepts x ↔ c = '.' ∨ c = x := by
  by_cases hc : c = '.'
  · -- `.` accepts every character
    subst hc
    rw [Atom.ofChar_dot]
    exact iff_of_true trivial (.inl rfl)
  · rw [Atom.ofChar_of_ne hc, Atom.accepts_lit, eq_comm]
    simp [hc]

/-- A starred element matches nothing, or one accepted character and then
itself again. -/
theorem lang_star_iff (a : Atom) (es : List Elem) (s : List Char) :
    Lang (.star a :: es) s ↔ Lang es s ∨ ∃ x t, s = x :: t ∧ a.Accepts x ∧ Lang (.star a :: es) t := by
  constructor
  · rintro ⟨u, t, rfl, hu, ht⟩
    rcases u with _ | ⟨x, u⟩
    · exact .inl ht
    · exact .inr ⟨x, u ++ t, rfl, hu x (by simp), u, t, rfl, fun y hy => hu y (by simp [hy]), ht⟩
  · rintro (hs | ⟨x, t, rfl, hx, u, t', rfl, hu, ht⟩)
    · exact ⟨[], s, rfl, by simp, hs⟩
    · exact ⟨x :: u, t', rfl, by simpa [hx] using hu, ht⟩

theorem here_nil (t : List Char) : Here [] t := ⟨[], t, rfl, rfl, fun h => absurd h (by decide)⟩

theorem here_dollar (t : List Char) : Here ['$'] t ↔ t = [] := by
  simp only [here_iff, parse_dollar, lang_nil, forall_const]
  constructor
  · rintro ⟨s, r, rfl, rfl, rfl⟩
    rfl
  · rintro rfl
    exact ⟨[], [], rfl, rfl, rfl⟩

section One

variable {c : Char} {re : List Char} (h₁ : ∀ re', re = '*' :: re' → False)
  (h₂ : c = '$' → re = [] → False)
include h₁ h₂

/-- A character that is not starred matches the first character of the
text, and the rest of the pattern the rest. -/
theorem here_cons_one (x : Char) (t : List Char) :
    Here (c :: re) (x :: t) ↔ (c = '.' ∨ c = x) ∧ Here re t := by
  simp only [here_iff, parse_one h₁ h₂, lang_one, ← accepts_ofChar]
  constructor
  · rintro ⟨s, r, hs, ⟨y, s', rfl, hy, hs'⟩, hr⟩
    obtain ⟨rfl, rfl⟩ := List.cons_eq_cons.mp hs
    exact ⟨hy, s', r, rfl, hs', hr⟩
  · rintro ⟨hx, s, r, rfl, hs, hr⟩
    exact ⟨x :: s, r, rfl, ⟨x, s, rfl, hx, hs⟩, hr⟩

theorem not_here_cons_nil : ¬ Here (c :: re) [] := by
  simp only [here_iff, parse_one h₁ h₂, lang_one]
  rintro ⟨s, r, hs, ⟨y, s', rfl, -⟩, -⟩
  simp at hs

end One

theorem here_star_nil (c : Char) (re : List Char) : Here (c :: '*' :: re) [] ↔ Here re [] := by
  simp only [here_iff, parse_star, List.nil_eq_append_iff]
  constructor
  · rintro ⟨s, r, ⟨rfl, rfl⟩, hs, hr⟩
    rcases (lang_star_iff _ _ _).mp hs with hs | ⟨x, t, h, -⟩
    · exact ⟨[], [], ⟨rfl, rfl⟩, hs, hr⟩
    · simp at h
  · rintro ⟨s, r, ⟨rfl, rfl⟩, hs, hr⟩
    exact ⟨[], [], ⟨rfl, rfl⟩, (lang_star_iff _ _ _).mpr (.inl hs), hr⟩

/-- `c*re` at a nonempty text: `re` right away, or one accepted character
and `c*re` again. -/
theorem here_star_cons (c x : Char) (re t : List Char) :
    Here (c :: '*' :: re) (x :: t) ↔
      Here re (x :: t) ∨ ((x = c ∨ c = '.') ∧ Here (c :: '*' :: re) t) := by
  have hacc : (Atom.ofChar c).Accepts x ↔ (x = c ∨ c = '.') := by
    rw [accepts_ofChar]
    tauto
  simp only [here_iff, parse_star]
  constructor
  · rintro ⟨s, r, hxt, hs, hr⟩
    rcases (lang_star_iff _ _ _).mp hs with hs | ⟨y, s', rfl, hy, hs'⟩
    · exact .inl ⟨s, r, hxt, hs, hr⟩
    · obtain ⟨rfl, rfl⟩ := List.cons_eq_cons.mp hxt
      exact .inr ⟨hacc.mp hy, s', r, rfl, hs', hr⟩
  · rintro (⟨s, r, hxt, hs, hr⟩ | ⟨hx, s, r, rfl, hs, hr⟩)
    · exact ⟨s, r, hxt, (lang_star_iff _ _ _).mpr (.inl hs), hr⟩
    · exact ⟨x :: s, r, rfl, (lang_star_iff _ _ _).mpr (.inr ⟨x, s, rfl, hacc.mpr hx, hs⟩), hr⟩

/-! ## The matcher decides the meaning -/

/-- `matchhere` finds a prefix matching the pattern, and `matchstar` one
matching `c*re`: by the two functions' own induction. -/
theorem matchhere_matchstar_iff :
    (∀ re t, matchhere re t = true ↔ Here re t) ∧
      ∀ c re t, matchstar c re t = true ↔ Here (c :: '*' :: re) t := by
  refine matchhere.mutual_induct (fun re t => matchhere re t = true ↔ Here re t)
    (fun c re t => matchstar c re t = true ↔ Here (c :: '*' :: re) t) ?_ ?_ ?_ ?_ ?_ ?_ ?_ ?_
  · -- the empty pattern matches at once
    intro t
    simp [matchhere.eq_1, here_nil]
  · -- a starred first character is `matchstar`'s
    intro c re t ih
    rw [matchhere.eq_2]
    exact ih
  · intro t
    rw [matchhere.eq_3, here_dollar]
    simp
  · -- a first character that matches
    intro c re x t h₁ h₂ hc ih
    rw [matchhere.eq_4 c re x t h₁ h₂, if_pos hc, ih, here_cons_one h₁ h₂]
    simp [hc]
  · -- a first character that does not
    intro c re x t h₁ h₂ hc
    rw [matchhere.eq_4 c re x t h₁ h₂, if_neg hc, here_cons_one h₁ h₂]
    simp [hc]
  · -- a character against the end of the text
    intro c re h₁ h₂
    rw [matchhere.eq_5 c re h₁ h₂]
    simp [not_here_cons_nil h₁ h₂]
  · intro c re ih
    rw [matchstar.eq_1, ih, here_star_nil]
  · intro c re x t ih₁ ih₂
    rw [matchstar.eq_2, Bool.or_eq_true, ih₁, Bool.and_eq_true, decide_eq_true_eq, ih₂,
      here_star_cons]

theorem matchhere_iff (re t : List Char) : matchhere re t = true ↔ Here re t :=
  matchhere_matchstar_iff.1 re t

/-- The loop of `match` tries every position, the end of the text
included. -/
theorem matchLoop_iff (re t : List Char) :
    matchLoop re t = true ↔ ∃ i ≤ t.length, Here re (t.drop i) := by
  induction t with
  | nil => simp [matchLoop_nil, matchhere_iff]
  | cons x t ih =>
      rw [matchLoop_cons, Bool.or_eq_true, matchhere_iff, ih]
      constructor
      · rintro (h | ⟨i, hi, h⟩)
        · exact ⟨0, by simp, h⟩
        · exact ⟨i + 1, by simp [hi], h⟩
      · rintro ⟨_ | i, hi, h⟩
        · exact .inl h
        · exact .inr ⟨i, by simpa using hi, h⟩

/-- grep's matcher is correct: `match re text` is `1` exactly when `re`
matches `text` at some position, only at the start for `^`. -/
theorem match_iff (re text : List Char) : «match» re text = true ↔ Matches re text := by
  unfold «match» Matches
  split
  · exact matchhere_iff _ _
  · exact matchLoop_iff _ _

/-! ## The lines grep reads -/

/-- `strchr(s, c)` of `user/ulib.c`: the index of the first `c` before the
terminator. -/
def strchr : List Char → Char → Option Nat
  | [], _ => none
  | x :: s, c => if x = '\x00' then none else if x = c then some 0 else (strchr s c).map (· + 1)

theorem strchr_cons (x : Char) (s : List Char) (c : Char) :
    strchr (x :: s) c =
      if x = '\x00' then none else if x = c then some 0 else (strchr s c).map (· + 1) := rfl

theorem strchr_lt {s : List Char} {c : Char} {j : Nat} (h : strchr s c = some j) : j < s.length := by
  induction s generalizing j with
  | nil => cases h
  | cons x s ih =>
      rw [strchr_cons] at h
      split at h
      · simp at h
      · split at h
        · simp only [Option.some.injEq] at h
          subst h
          simp
        · obtain ⟨j', hj', rfl⟩ := Option.map_eq_some_iff.mp h
          simpa using ih hj'

/-- The inner loop of `grep`: while `strchr(p, '\n')` finds a newline, the
line before it is written with its newline if it matches; what is left
from `p` is what the buffer keeps. -/
def scanLines (pat b : List Char) : List Char × List Char :=
  match h : strchr b '\n' with
  | none => ([], b)
  | some j =>
      ((if «match» pat (b.take j) then b.take j ++ ['\n'] else []) ++ (scanLines pat (b.drop (j + 1))).1,
        (scanLines pat (b.drop (j + 1))).2)
termination_by b.length
decreasing_by
  have := strchr_lt h
  simp only [List.length_drop]
  omega

/-- `sizeof(buf)`: `char buf[1024]`. -/
def BUFSIZE : Nat := 1024

theorem BUFSIZE_eq : BUFSIZE = 1024 := rfl

/-- What `read(fd, buf+m, n)` returns on an input with `rest` left: `0` at
its end or for `n = 0`, else between `1` and `n` bytes, as many as `chunk`
asks. -/
def readCount (chunk n : Nat) (rest : List Char) : Nat := min n (min rest.length (max 1 chunk))

theorem readCount_eq (chunk n : Nat) (rest : List Char) :
    readCount chunk n rest = min n (min rest.length (max 1 chunk)) := rfl

/-- The loop of `grep(pattern, fd)`: `buf` holds the `m` bytes carried
over, `rest` the input still unread, `out` what was written to fd 1; the
`i`-th `read` returns `readCount (chunk i)` bytes.  The result is the
output and the input left unread. -/
def grepLoop (pat : List Char) (chunk : Nat → Nat) (i : Nat) (buf rest out : List Char) :
    List Char × List Char :=
  if h : readCount (chunk i) (BUFSIZE - buf.length - 1) rest = 0 then (out, rest)
  else
    let n := readCount (chunk i) (BUFSIZE - buf.length - 1) rest
    grepLoop pat chunk (i + 1) (scanLines pat (buf ++ rest.take n)).2 (rest.drop n)
      (out ++ (scanLines pat (buf ++ rest.take n)).1)
termination_by rest.length
decreasing_by
  have : 0 < rest.length := by
    unfold readCount at h
    omega
  simp only [List.length_drop]
  omega

/-- `grep(pattern, fd)` on the input `input`, read in the chunks `chunk`
asks for. -/
def grep (pat : List Char) (chunk : Nat → Nat) (input : List Char) : List Char × List Char :=
  grepLoop pat chunk 0 [] input []

/-! ## What grep should print -/

/-- The complete lines of the input that `match` the pattern, each with its
newline, in order; `cur` is the line begun before the input. -/
def matchingLines (pat : List Char) (cur : List Char) : List Char → List Char
  | [] => []
  | x :: s =>
      if x = '\n' then (if «match» pat cur then cur ++ ['\n'] else []) ++ matchingLines pat [] s
      else matchingLines pat (cur ++ [x]) s

theorem matchingLines_nil (pat cur : List Char) : matchingLines pat cur [] = [] := rfl

theorem matchingLines_cons (pat cur : List Char) (x : Char) (s : List Char) :
    matchingLines pat cur (x :: s) =
      if x = '\n' then (if «match» pat cur then cur ++ ['\n'] else []) ++ matchingLines pat [] s
      else matchingLines pat (cur ++ [x]) s := rfl

/-- Every line of the input, its newline included, fits in `buf` with the
terminator after it, and so does its unterminated end; `c` bytes of the
first line came before the input. -/
def Fits : Nat → List Char → Prop
  | c, [] => c ≤ BUFSIZE - 1
  | c, x :: s => if x = '\n' then c + 1 ≤ BUFSIZE - 1 ∧ Fits 0 s else Fits (c + 1) s

theorem fits_nil (c : Nat) : Fits c [] ↔ c ≤ BUFSIZE - 1 := Iff.rfl

theorem fits_cons_eq (c : Nat) (x : Char) (s : List Char) :
    Fits c (x :: s) = if x = '\n' then c + 1 ≤ BUFSIZE - 1 ∧ Fits 0 s else Fits (c + 1) s := rfl

/-! ## grep prints the matching lines -/

/-- Bytes without a newline continue the current line. -/
theorem matchingLines_append (pat c d s : List Char) (hd : '\n' ∉ d) :
    matchingLines pat c (d ++ s) = matchingLines pat (c ++ d) s := by
  induction d generalizing c with
  | nil => simp
  | cons x d ih =>
      have hx : x ≠ '\n' := fun h => hd (by simp [h])
      rw [List.cons_append, matchingLines_cons, if_neg hx, ih _ (fun h => hd (by simp [h]))]
      simp

/-- Without a NUL, `strchr` finds the first newline, if there is one. -/
theorem strchr_newline {l r : List Char} (hl : '\x00' ∉ l) (hn : '\n' ∉ l) :
    strchr (l ++ '\n' :: r) '\n' = some l.length := by
  induction l with
  | nil => rfl
  | cons x l ih =>
      have h0 : x ≠ '\x00' := fun h => hl (by simp [h])
      have h1 : x ≠ '\n' := fun h => hn (by simp [h])
      rw [List.cons_append, strchr_cons, if_neg h0, if_neg h1,
        ih (fun h => hl (by simp [h])) (fun h => hn (by simp [h]))]
      simp

theorem strchr_none {b : List Char} (hb : '\x00' ∉ b) (hn : '\n' ∉ b) : strchr b '\n' = none := by
  induction b with
  | nil => rfl
  | cons x b ih =>
      have h0 : x ≠ '\x00' := fun h => hb (by simp [h])
      have h1 : x ≠ '\n' := fun h => hn (by simp [h])
      rw [strchr_cons, if_neg h0, if_neg h1,
        ih (fun h => hb (by simp [h])) (fun h => hn (by simp [h]))]
      rfl

/-- Where `strchr` finds `c`, the string splits at its first `c`. -/
theorem strchr_some {b : List Char} {c : Char} {j : Nat} (h : strchr b c = some j) :
    b = b.take j ++ c :: b.drop (j + 1) ∧ c ∉ b.take j := by
  induction b generalizing j with
  | nil => cases h
  | cons x b ih =>
      rw [strchr_cons] at h
      split at h
      · simp at h
      · split at h
        next h0 hc =>
          simp only [Option.some.injEq] at h
          subst h hc
          simp
        next h0 hc =>
          obtain ⟨j', hj', rfl⟩ := Option.map_eq_some_iff.mp h
          obtain ⟨h₁, h₂⟩ := ih hj'
          refine ⟨by simpa using h₁, ?_⟩
          simp only [List.take_succ_cons, List.mem_cons, not_or]
          exact ⟨fun h' => hc h'.symm, h₂⟩

/-- Without a NUL, `strchr` fails only when there is no `c`. -/
theorem not_mem_of_strchr_none {b : List Char} {c : Char} (hb : '\x00' ∉ b) (h : strchr b c = none) :
    c ∉ b := by
  induction b with
  | nil => simp
  | cons x b ih =>
      have h0 : x ≠ '\x00' := fun h => hb (by simp [h])
      rw [strchr_cons, if_neg h0] at h
      split at h
      · simp at h
      · simp only [Option.map_eq_none_iff] at h
        simp only [List.mem_cons, not_or]
        exact ⟨fun h' => by simp_all, ih (fun h' => hb (by simp [h'])) h⟩

theorem scanLines_of_no_newline (pat : List Char) {b : List Char} (hb : '\x00' ∉ b)
    (hn : '\n' ∉ b) : scanLines pat b = ([], b) := by
  rw [scanLines]
  split
  · rfl
  · next j h => simp [strchr_none hb hn] at h

/-- Over bytes without a NUL, the inner loop writes the matching complete
lines and keeps the line begun after the last newline. -/
theorem scanLines_spec (pat b : List Char) (hb : '\x00' ∉ b) :
    (∀ s, (scanLines pat b).1 ++ matchingLines pat [] ((scanLines pat b).2 ++ s) =
      matchingLines pat [] (b ++ s)) ∧
    '\n' ∉ (scanLines pat b).2 ∧
    ∃ p, b = p ++ (scanLines pat b).2 ∧ (p = [] ∨ ∃ p', p = p' ++ ['\n']) := by
  fun_induction scanLines pat b with
  | case1 b h =>
      -- no newline: the whole buffer is the line begun
      exact ⟨fun s => rfl, not_mem_of_strchr_none hb h, [], rfl, .inl rfl⟩
  | case2 b j h ih =>
      -- a line up to the first newline, then the rest of the buffer
      obtain ⟨hsplit, hn⟩ := strchr_some h
      obtain ⟨ih₁, ih₂, p, hp, hp'⟩ := ih (fun h' => hb (List.mem_of_mem_drop h'))
      refine ⟨fun s => ?_, ih₂, b.take j ++ '\n' :: p, ?_, .inr ?_⟩
      · rw [List.append_assoc, ih₁ s]
        conv => rhs; rw [hsplit]
        rw [List.append_assoc, matchingLines_append pat [] _ _ hn, List.nil_append, List.cons_append,
          matchingLines_cons, if_pos rfl]
      · conv => lhs; rw [hsplit, hp]
        simp
      · rcases hp' with rfl | ⟨p', rfl⟩
        · exact ⟨b.take j, rfl⟩
        · exact ⟨b.take j ++ '\n' :: p', by simp⟩

theorem fits_le {c : Nat} {s : List Char} (h : Fits c s) : c ≤ BUFSIZE - 1 := by
  induction s generalizing c with
  | nil => exact h
  | cons x s ih =>
      rw [fits_cons_eq] at h
      split at h
      · omega
      · have := ih h
        omega

/-- Bytes without a newline lengthen the line begun. -/
theorem fits_append {c : Nat} {d : List Char} (s : List Char) (hd : '\n' ∉ d) :
    Fits c (d ++ s) ↔ Fits (c + d.length) s := by
  induction d generalizing c with
  | nil => simp
  | cons x d ih =>
      have hx : x ≠ '\n' := fun h => hd (by simp [h])
      rw [List.cons_append, fits_cons_eq, if_neg hx, ih (fun h => hd (by simp [h]))]
      simp [Nat.add_assoc, Nat.add_comm 1]

theorem fits_after_newline {c : Nat} {x : List Char} (p : List Char) (h : Fits c (p ++ '\n' :: x)) :
    Fits 0 x := by
  induction p generalizing c with
  | nil =>
      rw [List.nil_append, fits_cons_eq, if_pos rfl] at h
      exact h.2
  | cons y p ih =>
      rw [List.cons_append, fits_cons_eq] at h
      split at h
      · exact ih h.2
      · exact ih h

/-- While input is left, the line begun leaves room in `buf` for a byte. -/
theorem fits_cons {c : Nat} {x : Char} {s : List Char} (h : Fits c (x :: s)) : c + 1 ≤ BUFSIZE - 1 := by
  rw [fits_cons_eq] at h
  split at h
  · exact h.1
  · exact fits_le h

/-- Each pass of `grep`'s loop writes the matching lines it completes, and
the loop reads to the end of the input, as long as the line begun (kept
in `buf`, without a newline) and every line after it fit in `buf` and no
byte is a NUL. -/
theorem grepLoop_spec (pat : List Char) (chunk : Nat → Nat) (i : Nat) (buf rest out : List Char)
    (hn : '\n' ∉ buf) (hnul : '\x00' ∉ buf ++ rest) (hfit : Fits 0 (buf ++ rest)) :
    grepLoop pat chunk i buf rest out = (out ++ matchingLines pat [] (buf ++ rest), []) := by
  fun_induction grepLoop pat chunk i buf rest out with
  | case1 i buf rest out h =>
      -- `read` returned `0`: the input is all read, since `buf` has room
      cases rest with
      | nil =>
          rw [matchingLines_append pat [] buf [] hn]
          simp [matchingLines_nil]
      | cons x rest =>
          have := fits_cons ((fits_append _ hn).mp hfit)
          simp only [readCount_eq, BUFSIZE_eq] at h this
          simp at h
          omega
  | case2 i buf rest out h n ih =>
      obtain ⟨hscan, hn', p, hp, hp'⟩ := scanLines_spec pat (buf ++ rest.take n)
        (fun h' => hnul (by
          rw [← List.take_append_drop n rest, ← List.append_assoc]
          exact List.mem_append_left _ h'))
      -- what the buffer keeps and the unread input are the input from the
      -- start of a line
      have hsuffix : buf ++ rest = p ++ ((scanLines pat (buf ++ rest.take n)).2 ++ rest.drop n) := by
        rw [← List.append_assoc, ← hp, List.append_assoc, List.take_append_drop]
      rw [ih hn' (fun h' => hnul (by rw [hsuffix]; exact List.mem_append_right _ h'))
        (by
          rw [hsuffix] at hfit
          rcases hp' with rfl | ⟨p', rfl⟩
          · exact hfit
          · rw [List.append_assoc, List.singleton_append] at hfit
            exact fits_after_newline p' hfit),
        List.append_assoc, hscan, List.append_assoc, List.take_append_drop]

/-- grep prints exactly the matching newline-terminated lines of its input,
in order, and reads all of it, however `read` splits it, when no byte is a
NUL and every line, its newline included, fits in the 1023 bytes of `buf`
before the terminator (its unterminated end too). -/
theorem grep_prints_matching_lines (pat input : List Char) (chunk : Nat → Nat)
    (hnul : '\x00' ∉ input) (hfit : Fits 0 input) :
    grep pat chunk input = (matchingLines pat [] input, []) :=
  grepLoop_spec pat chunk 0 [] input [] (by simp) (by simpa using hnul) (by simpa using hfit)

theorem grep_prints_two_lines :
    '\x00' ∉ "ab\nb\n".toList ∧ Fits 0 "ab\nb\n".toList ∧
      grep "b".toList (fun _ => 1) "ab\nb\n".toList =
        (matchingLines "b".toList [] "ab\nb\n".toList, []) :=
  ⟨by decide, by simp [fits_cons_eq, fits_nil, BUFSIZE_eq],
    grep_prints_matching_lines _ _ _ (by decide) (by simp [fits_cons_eq, fits_nil, BUFSIZE_eq])⟩

/-- A first line of 1023 bytes fills `buf` with no newline in it: the next
`read` asks for `0` bytes, gets `0`, and grep stops, without printing the
matching line `b` after it. -/
theorem grep_long_line_counterexample :
    grep ['^', 'b'] (fun _ => 1023) (List.replicate 1023 'a' ++ ['\n', 'b', '\n']) =
        ([], ['\n', 'b', '\n']) ∧
      matchingLines ['^', 'b'] [] (List.replicate 1023 'a' ++ ['\n', 'b', '\n']) = ['b', '\n'] := by
  -- the long line, kept abstract so that nothing computes with its bytes
  generalize hL : List.replicate 1023 'a' = L
  have hlen : L.length = 1023 := by rw [← hL, List.length_replicate]
  have hnul : '\x00' ∉ L := fun h => by
    rw [← hL] at h
    exact absurd (List.eq_of_mem_replicate h) (by decide)
  have hn : '\n' ∉ L := fun h => by
    rw [← hL] at h
    exact absurd (List.eq_of_mem_replicate h) (by decide)
  have hread : readCount 1023 (BUFSIZE - ([] : List Char).length - 1) (L ++ ['\n', 'b', '\n']) = 1023 := by
    simp only [readCount_eq, BUFSIZE_eq, List.length_append, hlen, List.length_nil]
    rfl
  constructor
  · -- the first read fills the buffer with the line, the second asks for nothing
    rw [grep, grepLoop, dif_neg (by rw [hread]; decide)]
    simp only [hread]
    rw [List.take_left' hlen, List.drop_left' hlen, List.nil_append, scanLines_of_no_newline _ hnul hn,
      grepLoop, dif_pos (by simp [readCount_eq, BUFSIZE_eq, hlen])]
    rfl
  · -- the long line does not start with `b`; the line `b` does
    obtain ⟨L', rfl⟩ : ∃ L', L = 'a' :: L' := ⟨List.replicate 1022 'a', by rw [← hL]; rfl⟩
    have hnil : ∀ re_1 : List Char, ([] : List Char) = '*' :: re_1 → False := by simp
    rw [matchingLines_append _ [] _ _ hn, List.nil_append, matchingLines_cons, if_pos rfl, «match»,
      matchhere.eq_4 'b' [] 'a' L' hnil (by decide),
      if_neg (show ¬('b' = '.' ∨ 'b' = 'a') by decide)]
    simp only [Bool.false_eq_true, if_false, List.nil_append]
    rw [matchingLines_cons, if_neg (by decide), matchingLines_cons, if_pos rfl, List.nil_append, «match»,
      matchhere.eq_4 'b' [] 'b' [] hnil (by decide), if_pos (show 'b' = '.' ∨ 'b' = 'b' by decide),
      matchhere.eq_1]
    simp [matchingLines_nil]

end Grep
end Xv6
