import Xv6.Kernel.SysFile

/-!
# The shell's parser

`parsecmd` of `user/sh.c` and what it calls: `gettoken` and `peek`, which
scan the command line through a cursor `*ps`, the five parsing functions,
and `nulterminate`, which writes a NUL after every word once the tree is
built.  A command line is the list of its characters up to its NUL; the
cursor and the pointers the tree keeps into the line (`argv[i]`,
`eargv[i]`, `file`, `efile`) are positions in it.  The shell's `panic`
(print and `exit(1)`) is an error carrying its message; `malloc` in the
node constructors is taken to succeed.

Every function terminates: each recursive call of `parseline`, `parsepipe`
and `parseblock`, and each iteration of the loops, comes after a token has
been read (the `decreasing_by` proofs).  The four mutually recursive
functions return `Parsed ps`, which records that the cursor did not move
back; that is what their own termination proofs use.
-/

namespace Xv6
namespace Sh

open Kernel (O_RDONLY O_WRONLY O_CREATE O_TRUNC)

/-- `MAXARGS` -/
def MAXARGS : Nat := 10

/-- `whitespace[]` -/
def whitespace : List Char := [' ', '\t', '\r', '\n', '\x0B']

/-- `symbols[]` -/
def symbols : List Char := ['<', '|', '>', '&', ';', '(', ')']

/-- `strchr(s, c) != 0`: the NUL that ends `s` is found too. -/
def strchr (s : List Char) (c : Char) : Bool := c == '\x00' || s.contains c

/-- `*s` for a cursor `s` into the command line; its NUL is at
`es = buf.length`. -/
def deref (buf : List Char) (s : Nat) : Char := buf.getD s '\x00'

/-- `while(s < es && strchr(whitespace, *s)) s++;` -/
def skipWhitespace (buf : List Char) (s : Nat) : Nat :=
  if s < buf.length ∧ strchr whitespace (deref buf s) = true then skipWhitespace buf (s + 1)
  else s
termination_by buf.length - s

/-- The word loop of `gettoken`:
`while(s < es && !strchr(whitespace, *s) && !strchr(symbols, *s)) s++;` -/
def skipWord (buf : List Char) (s : Nat) : Nat :=
  if s < buf.length ∧ strchr whitespace (deref buf s) = false ∧
      strchr symbols (deref buf s) = false then skipWord buf (s + 1)
  else s
termination_by buf.length - s

/-- The `switch(*s)` of `gettoken`: the token's `ret` and where it ends. -/
def scan (buf : List Char) (s : Nat) : Char × Nat :=
  match deref buf s with
  | '\x00' => ('\x00', s)
  | '|' | '(' | ')' | ';' | '&' | '<' => (deref buf s, s + 1)
  | '>' => if deref buf (s + 1) = '>' then ('+', s + 2) else ('>', s + 1)
  | _ => ('a', skipWord buf s)

/-- What `gettoken` returns and writes: `ret`, `*q`, `*eq` and `*ps`. -/
structure Token where
  ret : Char
  q : Nat
  eq : Nat
  s : Nat

/-- `gettoken(ps, es, q, eq)` -/
def gettoken (buf : List Char) (ps : Nat) : Token :=
  let s := skipWhitespace buf ps
  let r := scan buf s
  ⟨r.1, s, r.2, skipWhitespace buf r.2⟩

/-- `peek(ps, es, toks)`: whether the next token starts with one of `toks`,
and `*ps` moved past the whitespace. -/
def peek (buf : List Char) (ps : Nat) (toks : List Char) : Bool × Nat :=
  let s := skipWhitespace buf ps
  (deref buf s != '\x00' && strchr toks (deref buf s), s)

/-! ## The scanner -/

theorem deref_of_le {buf : List Char} {s : Nat} (h : buf.length ≤ s) : deref buf s = '\x00' := by
  simp [deref, List.getElem?_eq_none h]

theorem lt_of_deref_ne {buf : List Char} {s : Nat} (h : deref buf s ≠ '\x00') : s < buf.length := by
  by_contra hs
  exact h (deref_of_le (by omega))

@[simp] theorem strchr_nul (s : List Char) : strchr s '\x00' = true := by
  simp [strchr]

theorem skipWhitespace_le (buf : List Char) (s : Nat) : s ≤ skipWhitespace buf s := by
  fun_induction skipWhitespace buf s <;> omega

/-- Whitespace ends at the NUL or at a character that is neither whitespace
nor NUL. -/
theorem skipWhitespace_stop (buf : List Char) (s : Nat) (h : skipWhitespace buf s < buf.length) :
    strchr whitespace (deref buf (skipWhitespace buf s)) = false := by
  fun_induction skipWhitespace buf s with
  | case1 s _ ih => exact ih h
  | case2 s hc => simp_all

theorem skipWhitespace_of_stop {buf : List Char} {s : Nat}
    (h : ¬(s < buf.length ∧ strchr whitespace (deref buf s) = true)) : skipWhitespace buf s = s := by
  rw [skipWhitespace, if_neg h]

theorem skipWhitespace_idem (buf : List Char) (s : Nat) :
    skipWhitespace buf (skipWhitespace buf s) = skipWhitespace buf s :=
  skipWhitespace_of_stop fun h => by simp [skipWhitespace_stop buf s h.1] at h

theorem skipWord_le (buf : List Char) (s : Nat) : s ≤ skipWord buf s := by
  fun_induction skipWord buf s <;> omega

theorem skipWord_advance {buf : List Char} {s : Nat} (h : s < buf.length ∧
    strchr whitespace (deref buf s) = false ∧ strchr symbols (deref buf s) = false) :
    s < skipWord buf s := by
  rw [skipWord, if_pos h]
  have := skipWord_le buf (s + 1)
  omega

/-- Every character of a word is in the line and is neither whitespace nor
a symbol. -/
theorem skipWord_word (buf : List Char) (s : Nat) : ∀ i, s ≤ i → i < skipWord buf s →
    i < buf.length ∧ strchr whitespace (deref buf i) = false ∧ strchr symbols (deref buf i) = false := by
  fun_induction skipWord buf s with
  | case1 s hc ih =>
      intro i hi hlt
      rcases Nat.eq_or_lt_of_le hi with rfl | hi
      · exact hc
      · exact ih i hi hlt
  | case2 s _ => intro i hi hlt; omega

/-- A word ends at the NUL, at whitespace or at a symbol. -/
theorem skipWord_stop (buf : List Char) (s : Nat) :
    ¬(skipWord buf s < buf.length ∧ strchr whitespace (deref buf (skipWord buf s)) = false ∧
      strchr symbols (deref buf (skipWord buf s)) = false) := by
  fun_induction skipWord buf s with
  | case1 s _ ih => exact ih
  | case2 s hc => exact hc

/-- The `switch` of `gettoken`, by the character it starts at. -/
theorem scan_cases (buf : List Char) (s : Nat) :
    (deref buf s = '\x00' ∧ scan buf s = ('\x00', s)) ∨
    (deref buf s ∈ ['|', '(', ')', ';', '&', '<'] ∧ scan buf s = (deref buf s, s + 1)) ∨
    (deref buf s = '>' ∧ deref buf (s + 1) = '>' ∧ scan buf s = ('+', s + 2)) ∨
    (deref buf s = '>' ∧ deref buf (s + 1) ≠ '>' ∧ scan buf s = ('>', s + 1)) ∨
    (deref buf s ∉ symbols ∧ deref buf s ≠ '\x00' ∧ scan buf s = ('a', skipWord buf s)) := by
  unfold scan
  split <;> simp_all [symbols, em]

theorem gettoken_q (buf : List Char) (ps : Nat) : (gettoken buf ps).q = skipWhitespace buf ps := rfl

theorem gettoken_skipWhitespace (buf : List Char) (ps : Nat) :
    gettoken buf (skipWhitespace buf ps) = gettoken buf ps := by
  simp only [gettoken, skipWhitespace_idem]

/-- `gettoken` returns 0 exactly when the token it is at starts with the
NUL. -/
theorem gettoken_ret_eq_nul_iff (buf : List Char) (ps : Nat) :
    (gettoken buf ps).ret = '\x00' ↔ deref buf (gettoken buf ps).q = '\x00' := by
  simp only [gettoken]
  rcases scan_cases buf (skipWhitespace buf ps) with ⟨hc, hs⟩ | ⟨hc, hs⟩ | ⟨hc, _, hs⟩ | ⟨hc, _, hs⟩ | ⟨_, hc, hs⟩ <;>
    rw [hs] <;> simp_all

theorem gettoken_le (buf : List Char) (ps : Nat) :
    ps ≤ (gettoken buf ps).q ∧ (gettoken buf ps).q ≤ (gettoken buf ps).eq ∧
      (gettoken buf ps).eq ≤ (gettoken buf ps).s := by
  simp only [gettoken]
  refine ⟨skipWhitespace_le buf ps, ?_, skipWhitespace_le buf _⟩
  rcases scan_cases buf (skipWhitespace buf ps) with ⟨_, hs⟩ | ⟨_, hs⟩ | ⟨_, _, hs⟩ | ⟨_, _, hs⟩ | ⟨_, _, hs⟩ <;>
    rw [hs] <;> simp [skipWord_le]

/-- A token other than the end starts in the line and is not empty. -/
theorem gettoken_ne_nul {buf : List Char} {ps : Nat} (h : (gettoken buf ps).ret ≠ '\x00') :
    (gettoken buf ps).q < buf.length ∧ (gettoken buf ps).q < (gettoken buf ps).eq := by
  have hq : deref buf (gettoken buf ps).q ≠ '\x00' := fun h' => h ((gettoken_ret_eq_nul_iff buf ps).2 h')
  have hlt := lt_of_deref_ne hq
  refine ⟨hlt, ?_⟩
  simp only [gettoken] at hq hlt ⊢
  rcases scan_cases buf (skipWhitespace buf ps) with ⟨hc, hs⟩ | ⟨_, hs⟩ | ⟨_, _, hs⟩ | ⟨_, _, hs⟩ | ⟨hc, hn, hs⟩ <;>
    rw [hs] <;> simp only
  · exact absurd hc hq
  · omega
  · omega
  · omega
  · -- a word: its first character is neither whitespace nor a symbol
    apply skipWord_advance
    refine ⟨hlt, skipWhitespace_stop buf ps hlt, ?_⟩
    simpa [strchr, hn] using hc

theorem peek_le (buf : List Char) (ps : Nat) (toks : List Char) : ps ≤ (peek buf ps toks).2 :=
  skipWhitespace_le buf ps

/-- When `peek` sees one of `toks`, a token follows: the cursor is in the
line and `gettoken` moves it on. -/
theorem peek_advance {buf : List Char} {ps : Nat} {toks : List Char} (h : (peek buf ps toks).1 = true) :
    (peek buf ps toks).2 < buf.length ∧ (peek buf ps toks).2 < (gettoken buf (peek buf ps toks).2).s := by
  have hc : deref buf (skipWhitespace buf ps) ≠ '\x00' := by
    simp only [peek, Bool.and_eq_true, bne_iff_ne] at h
    exact h.1
  have hret : (gettoken buf (skipWhitespace buf ps)).ret ≠ '\x00' := by
    rw [Ne, gettoken_ret_eq_nul_iff, gettoken_q, skipWhitespace_idem]
    exact hc
  have hle := gettoken_le buf (skipWhitespace buf ps)
  have hne := gettoken_ne_nul hret
  rw [gettoken_q, skipWhitespace_idem] at hne
  exact ⟨lt_of_deref_ne hc, by simp only [peek]; omega⟩

theorem gettoken_s_le (buf : List Char) (ps : Nat) : ps ≤ (gettoken buf ps).s := by
  have := gettoken_le buf ps
  omega

/-- A token other than the end moves the cursor on, from a position in the
line. -/
theorem gettoken_advance {buf : List Char} {ps : Nat} (h : (gettoken buf ps).ret ≠ '\x00') :
    ps < buf.length ∧ ps < (gettoken buf ps).s := by
  have := gettoken_le buf ps
  have := gettoken_ne_nul h
  omega

/-! ## The parser -/

/-- `struct cmd` and its five kinds.  A word is the pair of pointers
`(argv[i], eargv[i])`, or `(file, efile)`, into the command line. -/
inductive Cmd where
  | exec (argv : List (Nat × Nat))
  | redir (cmd : Cmd) (file efile : Nat) (mode : Int32) (fd : Nat)
  | pipe (left right : Cmd)
  | list (left right : Cmd)
  | back (cmd : Cmd)
  deriving DecidableEq, Repr

/-- The `switch(tok)` of `parseredirs`: `redircmd` for `<`, `>` and `>>`. -/
def redirFor (tok : Char) (cmd : Cmd) (q eq : Nat) : Cmd :=
  match tok with
  | '<' => .redir cmd q eq O_RDONLY 0
  | '>' => .redir cmd q eq (O_WRONLY ||| O_CREATE ||| O_TRUNC) 1
  | '+' => .redir cmd q eq (O_WRONLY ||| O_CREATE) 1
  | _ => cmd

/-- `parseredirs(cmd, ps, es)` -/
def parseredirs (buf : List Char) (cmd : Cmd) (ps : Nat) : Except String (Cmd × Nat) :=
  let p := peek buf ps ['<', '>']
  if p.1 = true then
    let tok := gettoken buf p.2
    let f := gettoken buf tok.s
    if f.ret ≠ 'a' then .error "missing file for redirection"
    else parseredirs buf (redirFor tok.ret cmd f.q f.eq) f.s
  else .ok (cmd, p.2)
termination_by buf.length - ps
decreasing_by
  rename_i hf
  have hf' : (gettoken buf (gettoken buf (peek buf ps ['<', '>']).2).s).ret = 'a' := not_not.mp hf
  have h₁ := gettoken_advance (by rw [hf']; decide)
  have h₂ := peek_le buf ps ['<', '>']
  have h₃ := gettoken_s_le buf (peek buf ps ['<', '>']).2
  omega

theorem peek_gettoken_le (buf : List Char) (ps : Nat) (toks : List Char) :
    ps ≤ (gettoken buf (peek buf ps toks).2).s :=
  (peek_le buf ps toks).trans (gettoken_s_le buf _)

theorem parseredirs_le {buf : List Char} {cmd : Cmd} {ps : Nat} {r : Cmd × Nat}
    (h : parseredirs buf cmd ps = .ok r) : ps ≤ r.2 := by
  fun_induction parseredirs buf cmd ps with
  | case1 => simp at h
  | case2 cmd ps =>
      rename_i ih
      -- the cursor after the file name, as the recursive call starts from it
      have : (gettoken buf (gettoken buf (peek buf ps ['<', '>']).2).s).s ≤ r.2 := ih h
      have := peek_gettoken_le buf ps ['<', '>']
      have := gettoken_s_le buf (gettoken buf (peek buf ps ['<', '>']).2).s
      omega
  | case3 cmd ps => cases h; exact peek_le buf ps ['<', '>']

/-- The `while(peek(ps, es, "&"))` loop of `parseline`: a `backcmd` around
the command for every `&`. -/
def backLoop (buf : List Char) (cmd : Cmd) (ps : Nat) : Cmd × Nat :=
  let p := peek buf ps ['&']
  if p.1 = true then backLoop buf (.back cmd) (gettoken buf p.2).s
  else (cmd, p.2)
termination_by buf.length - ps
decreasing_by
  rename_i hp
  have := @peek_advance buf ps ['&'] hp
  have := peek_le buf ps ['&']
  omega

theorem backLoop_le (buf : List Char) (cmd : Cmd) (ps : Nat) : ps ≤ (backLoop buf cmd ps).2 := by
  fun_induction backLoop buf cmd ps with
  | case1 cmd ps _ _ ih => exact (peek_gettoken_le buf ps ['&']).trans ih
  | case2 cmd ps => exact peek_le buf ps ['&']

/-- The `while(!peek(ps, es, "|)&;"))` loop of `parseexec`: the words so far
(`argv`, in order) and the command with the redirections so far (`ret`). -/
def execLoop (buf : List Char) (argv : List (Nat × Nat)) (ret : Cmd) (ps : Nat) :
    Except String (List (Nat × Nat) × Cmd × Nat) :=
  let p := peek buf ps ['|', ')', '&', ';']
  if p.1 = true then .ok (argv, ret, p.2)
  else
    let t := gettoken buf p.2
    if t.ret = '\x00' then .ok (argv, ret, t.s)
    else if t.ret ≠ 'a' then .error "syntax"
    else
      let argv := argv ++ [(t.q, t.eq)]
      if argv.length ≥ MAXARGS then .error "too many args"
      else
        match h : parseredirs buf ret t.s with
        | .error e => .error e
        | .ok r => execLoop buf argv r.1 r.2
termination_by buf.length - ps
decreasing_by
  have ht : (gettoken buf (peek buf ps ['|', ')', '&', ';']).2).ret ≠ '\x00' := by
    assumption
  have := gettoken_advance ht
  have := @parseredirs_le buf ret (gettoken buf (peek buf ps ['|', ')', '&', ';']).2).s r h
  have := peek_le buf ps ['|', ')', '&', ';']
  omega

theorem execLoop_le {buf : List Char} {argv : List (Nat × Nat)} {ret : Cmd} {ps : Nat}
    {r : List (Nat × Nat) × Cmd × Nat} (h : execLoop buf argv ret ps = .ok r) : ps ≤ r.2.2 := by
  fun_induction execLoop buf argv ret ps with
  | case1 argv ret ps => cases h; exact peek_le buf ps ['|', ')', '&', ';']
  | case2 argv ret ps => cases h; exact peek_gettoken_le buf ps ['|', ')', '&', ';']
  | case3 => simp at h
  | case4 => simp at h
  | case5 => simp at h
  | case6 argv ret ps =>
      rename_i r hr ih
      have := ih h
      have : (gettoken buf (peek buf ps ['|', ')', '&', ';']).2).s ≤ r.2 := parseredirs_le hr
      have := peek_gettoken_le buf ps ['|', ')', '&', ';']
      omega

/-- `cmd->argv[argc] = q` in `parseexec`: the words go into the `execcmd`
the redirections were built around, the innermost node of the chain. -/
def setArgv (argv : List (Nat × Nat)) : Cmd → Cmd
  | .exec _ => .exec argv
  | .redir c file efile mode fd => .redir (setArgv argv c) file efile mode fd
  | c => c

/-- What a parsing function returns: the command, and where `*ps` stopped,
never before where it started. -/
structure Parsed (ps : Nat) where
  cmd : Cmd
  s : Nat
  le : ps ≤ s

mutual

/-- `parseline(ps, es)` -/
def parseline (buf : List Char) (ps : Nat) : Except String (Parsed ps) :=
  match parsepipe buf ps with
  | .error e => .error e
  | .ok r =>
    let b := backLoop buf r.cmd r.s
    let p := peek buf b.2 [';']
    if p.1 = true then
      match parseline buf (gettoken buf p.2).s with
      | .error e => .error e
      | .ok r₂ =>
        .ok ⟨.list b.1 r₂.cmd, r₂.s,
          r.le.trans ((backLoop_le buf r.cmd r.s).trans ((peek_gettoken_le buf b.2 [';']).trans r₂.le))⟩
    else .ok ⟨b.1, p.2, r.le.trans ((backLoop_le buf r.cmd r.s).trans (peek_le buf b.2 [';']))⟩
termination_by 4 * (buf.length - ps) + 3
decreasing_by
  · omega
  · rename_i hp
    have := @peek_advance buf (backLoop buf r.cmd r.s).2 [';'] hp
    have := peek_le buf (backLoop buf r.cmd r.s).2 [';']
    have := backLoop_le buf r.cmd r.s
    have := r.le
    omega

/-- `parsepipe(ps, es)` -/
def parsepipe (buf : List Char) (ps : Nat) : Except String (Parsed ps) :=
  match parseexec buf ps with
  | .error e => .error e
  | .ok r =>
    let p := peek buf r.s ['|']
    if p.1 = true then
      match parsepipe buf (gettoken buf p.2).s with
      | .error e => .error e
      | .ok r₂ => .ok ⟨.pipe r.cmd r₂.cmd, r₂.s, r.le.trans ((peek_gettoken_le buf r.s ['|']).trans r₂.le)⟩
    else .ok ⟨r.cmd, p.2, r.le.trans (peek_le buf r.s ['|'])⟩
termination_by 4 * (buf.length - ps) + 2
decreasing_by
  · omega
  · rename_i hp
    have := @peek_advance buf r.s ['|'] hp
    have := peek_le buf r.s ['|']
    have := r.le
    omega

/-- `parseexec(ps, es)` -/
def parseexec (buf : List Char) (ps : Nat) : Except String (Parsed ps) :=
  let p := peek buf ps ['(']
  if p.1 = true then
    match parseblock buf p.2 with
    | .error e => .error e
    | .ok r => .ok ⟨r.cmd, r.s, (peek_le buf ps ['(']).trans r.le⟩
  else
    match h₁ : parseredirs buf (.exec []) p.2 with
    | .error e => .error e
    | .ok r =>
      match h₂ : execLoop buf [] r.1 r.2 with
      | .error e => .error e
      | .ok (argv, ret, s) =>
        .ok ⟨setArgv argv ret, s, (peek_le buf ps ['(']).trans ((parseredirs_le h₁).trans (execLoop_le h₂))⟩
termination_by 4 * (buf.length - ps) + 1
decreasing_by
  have := peek_le buf ps ['(']
  omega

/-- `parseblock(ps, es)` -/
def parseblock (buf : List Char) (ps : Nat) : Except String (Parsed ps) :=
  let p := peek buf ps ['(']
  if p.1 = true then
    match parseline buf (gettoken buf p.2).s with
    | .error e => .error e
    | .ok r =>
      let p' := peek buf r.s [')']
      if p'.1 = true then
        match h : parseredirs buf r.cmd (gettoken buf p'.2).s with
        | .error e => .error e
        | .ok r' =>
          .ok ⟨r'.1, r'.2, (peek_gettoken_le buf ps ['(']).trans
            (r.le.trans ((peek_gettoken_le buf r.s [')']).trans (parseredirs_le h)))⟩
      else .error "syntax - missing )"
  else .error "parseblock"
termination_by 4 * (buf.length - ps)
decreasing_by
  rename_i hp
  have := @peek_advance buf ps ['('] hp
  have := peek_le buf ps ['(']
  omega

end

/-- `nulterminate(cmd)`: a NUL after every word of the tree. -/
def nulterminate : Cmd → (Nat → Char) → Nat → Char
  | .exec argv, mem => argv.foldl (fun m w => Function.update m w.2 '\x00') mem
  | .redir c _ efile _ _, mem => Function.update (nulterminate c mem) efile '\x00'
  | .pipe l r, mem => nulterminate r (nulterminate l mem)
  | .list l r, mem => nulterminate r (nulterminate l mem)
  | .back c, mem => nulterminate c mem

/-- `parsecmd(s)`: the command, and the line as `nulterminate` leaves it. -/
def parsecmd (buf : List Char) : Except String (Cmd × (Nat → Char)) :=
  match parseline buf 0 with
  | .error e => .error e
  | .ok r =>
    -- `peek(&s, es, "")` only moves past whitespace; what is left is reported
    if (peek buf r.s []).2 ≠ buf.length then .error "syntax"
    else .ok (r.cmd, nulterminate r.cmd (deref buf))

/-! ## Tokens -/

/-- A token of the line as `gettoken` reports it: what it returned and
where the token starts and ends. -/
structure Tok where
  ret : Char
  q : Nat
  eq : Nat
  deriving DecidableEq, Repr

/-- The token a `gettoken` call read. -/
def Token.tok (t : Token) : Tok := ⟨t.ret, t.q, t.eq⟩

/-- The tokens `gettoken` returns from `s` on, until it returns 0. -/
def lexFrom (buf : List Char) (s : Nat) : List Tok :=
  if (gettoken buf s).ret = '\x00' then []
  else (gettoken buf s).tok :: lexFrom buf (gettoken buf s).s
termination_by buf.length - s
decreasing_by
  have := gettoken_advance ‹_›
  omega

theorem lexFrom_of_nul {buf : List Char} {s : Nat} (h : (gettoken buf s).ret = '\x00') :
    lexFrom buf s = [] := by
  rw [lexFrom, if_pos h]

theorem lexFrom_of_ne {buf : List Char} {s : Nat} (h : (gettoken buf s).ret ≠ '\x00') :
    lexFrom buf s = (gettoken buf s).tok :: lexFrom buf (gettoken buf s).s := by
  rw [lexFrom, if_neg h]

/-- Whitespace before a token does not change what is read. -/
theorem lexFrom_skipWhitespace (buf : List Char) (s : Nat) :
    lexFrom buf (skipWhitespace buf s) = lexFrom buf s := by
  by_cases h : (gettoken buf s).ret = '\x00'
  · rw [lexFrom_of_nul h, lexFrom_of_nul (by rw [gettoken_skipWhitespace]; exact h)]
  · rw [lexFrom_of_ne h, lexFrom_of_ne (by rw [gettoken_skipWhitespace]; exact h),
      gettoken_skipWhitespace]

/-- Nothing is read after the end. -/
theorem lexFrom_after_nul {buf : List Char} {s : Nat} (h : (gettoken buf s).ret = '\x00') :
    lexFrom buf (gettoken buf s).s = [] := by
  apply lexFrom_of_nul
  have hq := (gettoken_ret_eq_nul_iff buf s).1 h
  -- at the NUL `gettoken` does not move
  have hs : (gettoken buf s).s = (gettoken buf s).q := by
    simp only [gettoken] at hq ⊢
    rcases scan_cases buf (skipWhitespace buf s) with ⟨_, hsc⟩ | ⟨hc, _⟩ | ⟨hc, _⟩ | ⟨hc, _⟩ | ⟨_, hc, _⟩
    · rw [hsc, skipWhitespace_idem]
    all_goals simp_all
  rw [hs, gettoken_q, gettoken_skipWhitespace]
  exact h

/-- What `gettoken` returns, by the character the token starts with. -/
theorem gettoken_ret_cases (buf : List Char) (s : Nat) :
    ((gettoken buf s).ret = '\x00' ∧ deref buf (gettoken buf s).q = '\x00') ∨
    ((gettoken buf s).ret = deref buf (gettoken buf s).q ∧
      (gettoken buf s).ret ∈ ['|', '(', ')', ';', '&', '<']) ∨
    (deref buf (gettoken buf s).q = '>' ∧ ((gettoken buf s).ret = '>' ∨ (gettoken buf s).ret = '+')) ∨
    ((gettoken buf s).ret = 'a' ∧ deref buf (gettoken buf s).q ∉ symbols) := by
  simp only [gettoken]
  rcases scan_cases buf (skipWhitespace buf s) with ⟨hc, hs⟩ | ⟨hc, hs⟩ | ⟨hc, _, hs⟩ | ⟨hc, _, hs⟩ | ⟨hc, _, hs⟩ <;>
    rw [hs] <;> simp_all

/-- When `peek` sees one of `toks`, the next token starts with it, and
`gettoken` from the moved cursor reads it. -/
theorem lexFrom_of_peek {buf : List Char} {ps : Nat} {toks : List Char}
    (h : (peek buf ps toks).1 = true) :
    lexFrom buf ps = (gettoken buf (peek buf ps toks).2).tok :: lexFrom buf (gettoken buf (peek buf ps toks).2).s ∧
      deref buf (gettoken buf (peek buf ps toks).2).q ∈ toks := by
  have hc : deref buf (skipWhitespace buf ps) ≠ '\x00' ∧ deref buf (skipWhitespace buf ps) ∈ toks := by
    simp [peek, strchr] at h
    exact ⟨h.1, h.2.resolve_left h.1⟩
  have hq : (gettoken buf (peek buf ps toks).2).q = skipWhitespace buf ps := by
    rw [gettoken_q]; exact skipWhitespace_idem buf ps
  have hret : (gettoken buf (peek buf ps toks).2).ret ≠ '\x00' := by
    rw [Ne, gettoken_ret_eq_nul_iff, hq]; exact hc.1
  refine ⟨?_, hq ▸ hc.2⟩
  rw [← lexFrom_skipWhitespace buf ps]
  exact lexFrom_of_ne hret

/-- When `peek` sees a token starting with one of `cs`, none of them `>`,
`gettoken` returns that character. -/
theorem peek_ret {buf : List Char} {ps : Nat} {toks : List Char} (h : (peek buf ps toks).1 = true)
    (hs : ∀ c ∈ toks, c ∈ ['|', '(', ')', ';', '&', '<']) :
    (gettoken buf (peek buf ps toks).2).ret = deref buf (gettoken buf (peek buf ps toks).2).q := by
  have hm := (lexFrom_of_peek h).2
  rcases gettoken_ret_cases buf (peek buf ps toks).2 with ⟨_, hc⟩ | ⟨hc, _⟩ | ⟨hc, _⟩ | ⟨_, hc⟩
  · have := hs _ hm; simp_all
  · exact hc
  · have := hs _ hm; simp_all
  · have := hs _ hm; simp_all [symbols]

/-! ## The grammar -/

/-- The nonterminals of the shell's grammar. -/
inductive Nt where
  | line
  | pipe
  | exec
  deriving DecidableEq

/-- The redirections `rs` around `c`, each wrapping what came before, as
`parseredirs` builds them. -/
def wrap (rs : List (Tok × Tok)) (c : Cmd) : Cmd :=
  rs.foldl (fun c r => redirFor r.1.ret c r.2.q r.2.eq) c

/-- `backcmd` applied `n` times. -/
def backs (n : Nat) (c : Cmd) : Cmd := Cmd.back^[n] c

/-- `redirs {word redirs}`: a run of words and redirections; `argv` holds
the words in order and `rs` the redirections in order, each an operator
and the word after it. -/
inductive Segment : List Tok → List (Nat × Nat) → List (Tok × Tok) → Prop
  | nil : Segment [] [] []
  | word {w : Tok} {ts argv rs} : w.ret = 'a' → Segment ts argv rs →
      Segment (w :: ts) ((w.q, w.eq) :: argv) rs
  | redir {t w : Tok} {ts argv rs} : t.ret ∈ ['<', '>', '+'] → w.ret = 'a' → Segment ts argv rs →
      Segment (t :: w :: ts) argv ((t, w) :: rs)

/-- Derivations of the shell's grammar, each with the command it builds:
`line := pipe {'&'} [';' line]`, `pipe := exec ['|' pipe]` and
`exec := '(' line ')' redirs | redirs {word redirs}`. -/
inductive Derives : Nt → List Tok → Cmd → Prop
  | line {ts as c} : Derives .pipe ts c → (∀ a ∈ as, a.ret = '&') →
      Derives .line (ts ++ as) (backs as.length c)
  | list {ts as ts₂ c c₂} {t : Tok} : Derives .pipe ts c → (∀ a ∈ as, a.ret = '&') → t.ret = ';' →
      Derives .line ts₂ c₂ → Derives .line (ts ++ as ++ t :: ts₂) (.list (backs as.length c) c₂)
  | pipe {ts c} : Derives .exec ts c → Derives .pipe ts c
  | pipeCons {ts ts₂ c c₂} {t : Tok} : Derives .exec ts c → t.ret = '|' → Derives .pipe ts₂ c₂ →
      Derives .pipe (ts ++ t :: ts₂) (.pipe c c₂)
  | block {ts ts₂ c rs} {l r : Tok} : l.ret = '(' → Derives .line ts c → r.ret = ')' →
      Segment ts₂ [] rs → Derives .exec (l :: ts ++ r :: ts₂) (wrap rs c)
  | exec {ts argv rs} : Segment ts argv rs → Derives .exec ts (wrap rs (.exec argv))

theorem wrap_append (rs₁ rs₂ : List (Tok × Tok)) (c : Cmd) :
    wrap (rs₁ ++ rs₂) c = wrap rs₂ (wrap rs₁ c) :=
  List.foldl_append

theorem Segment.append_redirs {ts₁ ts₂ : List Tok} {argv : List (Nat × Nat)} {rs₁ rs₂ : List (Tok × Tok)}
    (h₁ : Segment ts₁ [] rs₁) (h₂ : Segment ts₂ argv rs₂) :
    Segment (ts₁ ++ ts₂) argv (rs₁ ++ rs₂) := by
  generalize ha : ([] : List (Nat × Nat)) = a at h₁
  induction h₁ with
  | nil => exact h₂
  | word _ _ _ => cases ha
  | redir ht hw _ ih => exact .redir ht hw (ih ha)

theorem wrap_cons (r : Tok × Tok) (rs : List (Tok × Tok)) (c : Cmd) :
    wrap (r :: rs) c = wrap rs (redirFor r.1.ret c r.2.q r.2.eq) := rfl

theorem setArgv_redirFor (argv : List (Nat × Nat)) (tok : Char) (c : Cmd) (q eq : Nat) :
    setArgv argv (redirFor tok c q eq) = redirFor tok (setArgv argv c) q eq := by
  unfold redirFor
  split <;> rfl

/-- `setArgv` goes through the redirections to the `execcmd` inside. -/
theorem setArgv_wrap (argv : List (Nat × Nat)) (rs : List (Tok × Tok)) (c : Cmd) :
    setArgv argv (wrap rs c) = wrap rs (setArgv argv c) := by
  induction rs generalizing c with
  | nil => rfl
  | cons r rs ih => rw [wrap_cons, ih, wrap_cons, setArgv_redirFor]

theorem backs_succ (n : Nat) (c : Cmd) : backs (n + 1) c = backs n (.back c) :=
  Function.iterate_succ_apply Cmd.back n c

/-! ## `parseredirs` and the loops -/

/-- A redirection `peek` saw is `<`, `>` or `>>`. -/
theorem redir_ret {buf : List Char} {ps : Nat} (h : (peek buf ps ['<', '>']).1 = true) :
    (gettoken buf (peek buf ps ['<', '>']).2).ret ∈ ['<', '>', '+'] := by
  have hm := (lexFrom_of_peek h).2
  rcases gettoken_ret_cases buf (peek buf ps ['<', '>']).2 with ⟨_, hc⟩ | ⟨hc, hr⟩ | ⟨_, hr⟩ | ⟨_, hc⟩
  · simp_all
  · rw [hc]
    simp only [List.mem_cons, List.not_mem_nil, or_false] at hm
    rcases hm with h | h <;> simp [h]
  · rcases hr with h | h <;> simp [h]
  · simp_all [symbols]

/-- `parseredirs` reads a run of redirections and wraps the command in
them. -/
theorem parseredirs_ok {buf : List Char} {cmd : Cmd} {ps : Nat} :
    ∀ r, parseredirs buf cmd ps = .ok r →
      ∃ ts rs, lexFrom buf ps = ts ++ lexFrom buf r.2 ∧ Segment ts [] rs ∧ r.1 = wrap rs cmd := by
  fun_induction parseredirs buf cmd ps with
  | case1 => intro r h; simp at h
  | case2 cmd ps p hp tok f hf ih =>
      intro r h
      obtain ⟨ts, rs, hts, hseg, hr⟩ := ih r h
      have hf' : f.ret = 'a' := not_not.mp hf
      have hlex := (@lexFrom_of_peek buf ps ['<', '>'] hp).1
      have hlex' : lexFrom buf tok.s = f.tok :: lexFrom buf f.s := lexFrom_of_ne (by rw [hf']; decide)
      refine ⟨tok.tok :: f.tok :: ts, (tok.tok, f.tok) :: rs, ?_, .redir (redir_ret hp) hf' hseg, hr⟩
      rw [hlex]
      show tok.tok :: lexFrom buf tok.s = _
      rw [hlex', hts]
      rfl
  | case3 cmd ps p hp =>
      intro r h
      cases h
      exact ⟨[], [], (lexFrom_skipWhitespace buf ps).symm, .nil, rfl⟩

theorem parseredirs_error {buf : List Char} {cmd : Cmd} {ps : Nat} :
    ∀ e, parseredirs buf cmd ps = .error e → e = "missing file for redirection" := by
  fun_induction parseredirs buf cmd ps with
  | case1 => intro e h; cases h; rfl
  | case2 cmd ps p hp tok f hf ih => exact ih
  | case3 => intro e h; cases h

/-- The `&` loop reads a run of `&` and puts a `backcmd` around the command
for each. -/
theorem backLoop_spec (buf : List Char) (cmd : Cmd) (ps : Nat) :
    ∃ as, lexFrom buf ps = as ++ lexFrom buf (backLoop buf cmd ps).2 ∧ (∀ a ∈ as, a.ret = '&') ∧
      (backLoop buf cmd ps).1 = backs as.length cmd := by
  fun_induction backLoop buf cmd ps with
  | case1 cmd ps p hp ih =>
      obtain ⟨as, hl, ha, hc⟩ := ih
      have hlex : lexFrom buf ps = (gettoken buf p.2).tok :: lexFrom buf (gettoken buf p.2).s :=
        (lexFrom_of_peek hp).1
      have hret : (gettoken buf p.2).ret = '&' := by
        have h := (@lexFrom_of_peek buf ps ['&'] hp).2
        rw [peek_ret hp (by simp)]
        simpa using h
      refine ⟨(gettoken buf p.2).tok :: as, ?_, ?_, ?_⟩
      · rw [hlex, hl]; rfl
      · intro a ha'
        rcases List.mem_cons.1 ha' with rfl | h
        · exact hret
        · exact ha a h
      · rw [hc, List.length_cons, backs_succ]
  | case2 cmd ps p hp => exact ⟨[], (lexFrom_skipWhitespace buf ps).symm, by simp, rfl⟩

theorem execLoop_ok {buf : List Char} {argv : List (Nat × Nat)} {ret : Cmd} {ps : Nat} :
    ∀ r, execLoop buf argv ret ps = .ok r → argv.length < MAXARGS →
      ∃ ts argv' rs, lexFrom buf ps = ts ++ lexFrom buf r.2.2 ∧ Segment ts argv' rs ∧
        r.1 = argv ++ argv' ∧ r.2.1 = wrap rs ret ∧ r.1.length < MAXARGS := by
  fun_induction execLoop buf argv ret ps with
  | case1 argv ret ps p hp =>
      intro r h hlen
      cases h
      exact ⟨[], [], [], (lexFrom_skipWhitespace buf ps).symm, .nil, by simp, rfl, hlen⟩
  | case2 argv ret ps p hp t ht =>
      intro r h hlen
      cases h
      have h₀ : lexFrom buf ps = [] := by
        rw [← lexFrom_skipWhitespace]
        exact lexFrom_of_nul ht
      exact ⟨[], [], [], by rw [h₀]; exact (lexFrom_after_nul ht).symm, .nil, by simp, rfl, hlen⟩
  | case3 => intro r h; cases h
  | case4 => intro r h; cases h
  | case5 => intro r h; cases h
  | case6 argv ret ps p hp t ht hta argv₁ hlen r₁ hr ih =>
      -- a word, then the redirections after it, then the rest of the loop
      intro r h _
      obtain ⟨ts₂, argv₂, rs₂, hts₂, hseg₂, hargv, hret, hfit⟩ := ih r h (by omega)
      obtain ⟨ts₁, rs₁, hts₁, hseg₁, hr₁⟩ := parseredirs_ok r₁ hr
      have hw : t.ret = 'a' := not_not.mp hta
      have hlex : lexFrom buf ps = t.tok :: lexFrom buf t.s := by
        rw [← lexFrom_skipWhitespace]
        exact lexFrom_of_ne ht
      refine ⟨t.tok :: (ts₁ ++ ts₂), (t.q, t.eq) :: argv₂, rs₁ ++ rs₂, ?_,
        .word hw (hseg₁.append_redirs hseg₂), ?_, ?_, hfit⟩
      · rw [hlex, hts₁, hts₂]
        simp
      · rw [hargv]
        show (argv ++ [(t.q, t.eq)]) ++ argv₂ = _
        simp
      · rw [hret, hr₁, wrap_append]

/-- The exec loop panics only on a symbol where a word belongs, on too many
words, or on a redirection without a file. -/
theorem execLoop_error {buf : List Char} {argv : List (Nat × Nat)} {ret : Cmd} {ps : Nat} :
    ∀ e, execLoop buf argv ret ps = .error e →
      e ∈ ["syntax", "too many args", "missing file for redirection"] := by
  fun_induction execLoop buf argv ret ps with
  | case1 => intro e h; cases h
  | case2 => intro e h; cases h
  | case3 => intro e h; cases h; simp
  | case4 => intro e h; cases h; simp
  | case5 argv ret ps p hp t ht hta argv₁ hlen e₁ hr =>
      intro e h
      cases h
      simp [parseredirs_error e₁ hr]
  | case6 argv ret ps p hp t ht hta argv₁ hlen r₁ hr ih => exact ih

/-! ## The four parsing functions -/

/-- Every `exec` of the tree holds fewer than `MAXARGS` words. -/
def Cmd.ArgsFit : Cmd → Prop
  | .exec argv => argv.length < MAXARGS
  | .redir c _ _ _ _ => c.ArgsFit
  | .pipe l r => l.ArgsFit ∧ r.ArgsFit
  | .list l r => l.ArgsFit ∧ r.ArgsFit
  | .back c => c.ArgsFit

/-- The messages the parser panics with. -/
def panics : List String :=
  ["syntax", "missing file for redirection", "too many args", "syntax - missing )"]

/-- What a parsing function that started at `ps` guarantees: a panic with
one of the parser's messages, or a command that `n` derives from the tokens
it read, each of its `exec`s with fewer than `MAXARGS` words. -/
def Sound (buf : List Char) (n : Nt) (ps : Nat) : Except String (Parsed ps) → Prop
  | .error e => e ∈ panics
  | .ok r => ∃ ts, lexFrom buf ps = ts ++ lexFrom buf r.s ∧ Derives n ts r.cmd ∧ r.cmd.ArgsFit

theorem argsFit_wrap (rs : List (Tok × Tok)) (c : Cmd) : (wrap rs c).ArgsFit ↔ c.ArgsFit := by
  induction rs generalizing c with
  | nil => rfl
  | cons r rs ih =>
      rw [wrap_cons, ih]
      unfold redirFor
      split <;> rfl

theorem argsFit_backs (n : Nat) (c : Cmd) : (backs n c).ArgsFit ↔ c.ArgsFit := by
  induction n generalizing c with
  | zero => rfl
  | succ n ih => rw [backs_succ, ih]; rfl

/-- A single-character token `peek` saw is the token `gettoken` reads. -/
theorem peek_tok {buf : List Char} {ps : Nat} {c : Char} (h : (peek buf ps [c]).1 = true)
    (hc : c ∈ ['|', '(', ')', ';', '&', '<']) :
    lexFrom buf ps = (gettoken buf (peek buf ps [c]).2).tok ::
        lexFrom buf (gettoken buf (peek buf ps [c]).2).s ∧
      (gettoken buf (peek buf ps [c]).2).tok.ret = c := by
  have hl := lexFrom_of_peek h
  refine ⟨hl.1, ?_⟩
  rw [Token.tok, peek_ret h (by simpa using hc)]
  simpa using hl.2

theorem lexFrom_peek (buf : List Char) (ps : Nat) (toks : List Char) :
    lexFrom buf (peek buf ps toks).2 = lexFrom buf ps :=
  lexFrom_skipWhitespace buf ps

theorem peek_peek (buf : List Char) (ps : Nat) (toks toks' : List Char) :
    peek buf (peek buf ps toks).2 toks' = peek buf ps toks' := by
  simp only [peek, skipWhitespace_idem]

theorem parseblock_sound {buf : List Char} {ps : Nat}
    (hline : ∀ ps', buf.length - ps' < buf.length - ps → Sound buf .line ps' (parseline buf ps'))
    (hp : (peek buf ps ['(']).1 = true) :
    Sound buf .exec ps (parseblock buf ps) := by
  obtain ⟨hlex, hl⟩ := peek_tok hp (by simp)
  have hadv := peek_advance hp
  have hle := peek_le buf ps ['(']
  have hsub := hline (gettoken buf (peek buf ps ['(']).2).s (by omega)
  rw [parseblock]
  dsimp only
  rw [if_pos hp]
  split
  · next e he => rw [he] at hsub; exact hsub
  · next r hr =>
      rw [hr] at hsub
      obtain ⟨ts, hts, hd, hfit⟩ := hsub
      by_cases hp' : (peek buf r.s [')']).1 = true
      · obtain ⟨hlex', hr'⟩ := peek_tok hp' (by simp)
        rw [if_pos hp']
        split
        · next e he => exact (by simp [Sound, panics, parseredirs_error e he])
        · next r' he =>
            -- `(` line `)` and the redirections after it
            obtain ⟨ts₂, rs, hts₂, hseg, hc⟩ := parseredirs_ok r' he
            refine ⟨(gettoken buf (peek buf ps ['(']).2).tok :: ts ++
              (gettoken buf (peek buf r.s [')']).2).tok :: ts₂, ?_, ?_, ?_⟩
            · rw [hlex, hts, hlex', hts₂]
              simp
            · rw [hc]
              exact .block hl hd hr' hseg
            · rw [hc, argsFit_wrap]
              exact hfit
      · rw [if_neg hp']
        simp [Sound, panics]

theorem parseexec_sound {buf : List Char} {ps : Nat}
    (hblock : ∀ ps', buf.length - ps' ≤ buf.length - ps → (peek buf ps' ['(']).1 = true →
      Sound buf .exec ps' (parseblock buf ps')) :
    Sound buf .exec ps (parseexec buf ps) := by
  have hle := peek_le buf ps ['(']
  have hskip := lexFrom_peek buf ps ['(']
  rw [parseexec]
  by_cases hp : (peek buf ps ['(']).1 = true
  · -- a block, parsed from where `peek` left the cursor
    rw [if_pos hp]
    have hb := hblock (peek buf ps ['(']).2 (Nat.sub_le_sub_left hle _) (by rw [peek_peek]; exact hp)
    split
    · next e he => rw [he] at hb; exact hb
    · next r hr =>
        rw [hr] at hb
        obtain ⟨ts, hts, hd, hfit⟩ := hb
        exact ⟨ts, hskip ▸ hts, hd, hfit⟩
  · rw [if_neg hp]
    split
    · next e he => simp [Sound, panics, parseredirs_error e he]
    · next r₁ h₁ =>
        split
        · next e he =>
            have := execLoop_error e he
            simp only [List.mem_cons, List.not_mem_nil, or_false] at this
            rcases this with h | h | h <;> simp [Sound, panics, h]
        · next argv ret s h₂ =>
            -- the redirections before the first word, then the loop
            obtain ⟨ts₁, rs₁, hts₁, hseg₁, hr₁⟩ := parseredirs_ok r₁ h₁
            obtain ⟨ts₂, argv₂, rs₂, hts₂, hseg₂, hargv, hret, hfit⟩ :=
              execLoop_ok (argv, ret, s) h₂ (by simp [MAXARGS])
            dsimp only at hts₂ hargv hret hfit
            have hc : setArgv argv ret = wrap (rs₁ ++ rs₂) (.exec argv) := by
              rw [hret, hr₁, ← wrap_append, setArgv_wrap]
              rfl
            refine ⟨ts₁ ++ ts₂, ?_, ?_, ?_⟩
            · rw [← hskip, hts₁, hts₂, List.append_assoc]
            · show Derives .exec (ts₁ ++ ts₂) (setArgv argv ret)
              rw [hc, hargv, List.nil_append]
              exact .exec (hseg₁.append_redirs hseg₂)
            · show (setArgv argv ret).ArgsFit
              rw [hc, argsFit_wrap]
              exact hfit

theorem parsepipe_sound {buf : List Char} {ps : Nat} (hexec : Sound buf .exec ps (parseexec buf ps))
    (hpipe : ∀ ps', buf.length - ps' < buf.length - ps → Sound buf .pipe ps' (parsepipe buf ps')) :
    Sound buf .pipe ps (parsepipe buf ps) := by
  rw [parsepipe]
  split
  · next e he => rw [he] at hexec; exact hexec
  · next r hr =>
      rw [hr] at hexec
      obtain ⟨ts, hts, hd, hfit⟩ := hexec
      dsimp only
      by_cases hp : (peek buf r.s ['|']).1 = true
      · -- `exec | pipe`
        rw [if_pos hp]
        obtain ⟨hlex, hbar⟩ := peek_tok hp (by simp)
        have hadv := peek_advance hp
        have hle := peek_le buf r.s ['|']
        have hsub := hpipe (gettoken buf (peek buf r.s ['|']).2).s (by have := r.le; omega)
        split
        · next e he => rw [he] at hsub; exact hsub
        · next r₂ hr₂ =>
            rw [hr₂] at hsub
            obtain ⟨ts₂, hts₂, hd₂, hfit₂⟩ := hsub
            refine ⟨ts ++ (gettoken buf (peek buf r.s ['|']).2).tok :: ts₂, ?_, .pipeCons hd hbar hd₂, ⟨hfit, hfit₂⟩⟩
            rw [hts, hlex, hts₂]
            simp
      · rw [if_neg hp]
        refine ⟨ts, ?_, .pipe hd, hfit⟩
        show _ = ts ++ lexFrom buf (peek buf r.s ['|']).2
        rw [hts, lexFrom_peek]

theorem parseline_sound {buf : List Char} {ps : Nat} (hpipe : Sound buf .pipe ps (parsepipe buf ps))
    (hline : ∀ ps', buf.length - ps' < buf.length - ps → Sound buf .line ps' (parseline buf ps')) :
    Sound buf .line ps (parseline buf ps) := by
  rw [parseline]
  split
  · next e he => rw [he] at hpipe; exact hpipe
  · next r hr =>
      rw [hr] at hpipe
      obtain ⟨ts, hts, hd, hfit⟩ := hpipe
      obtain ⟨as, has, hamp, hback⟩ := backLoop_spec buf r.cmd r.s
      have hfit' : (backLoop buf r.cmd r.s).1.ArgsFit := by rw [hback, argsFit_backs]; exact hfit
      dsimp only
      by_cases hp : (peek buf (backLoop buf r.cmd r.s).2 [';']).1 = true
      · -- `pipe {&} ; line`
        rw [if_pos hp]
        obtain ⟨hlex, hsemi⟩ := peek_tok hp (by simp)
        have hadv := peek_advance hp
        have hle := peek_le buf (backLoop buf r.cmd r.s).2 [';']
        have hle' := backLoop_le buf r.cmd r.s
        have hsub := hline (gettoken buf (peek buf (backLoop buf r.cmd r.s).2 [';']).2).s
          (by have := r.le; omega)
        split
        · next e he => rw [he] at hsub; exact hsub
        · next r₂ hr₂ =>
            rw [hr₂] at hsub
            obtain ⟨ts₂, hts₂, hd₂, hfit₂⟩ := hsub
            refine ⟨ts ++ as ++ (gettoken buf (peek buf (backLoop buf r.cmd r.s).2 [';']).2).tok :: ts₂,
              ?_, ?_, ⟨hfit', hfit₂⟩⟩
            · rw [hts, has, hlex, hts₂]
              simp
            · rw [hback]
              exact .list hd hamp hsemi hd₂
      · rw [if_neg hp]
        refine ⟨ts ++ as, ?_, ?_, hfit'⟩
        · show _ = ts ++ as ++ lexFrom buf (peek buf (backLoop buf r.cmd r.s).2 [';']).2
          rw [hts, has, lexFrom_peek, List.append_assoc]
        · show Derives .line (ts ++ as) (backLoop buf r.cmd r.s).1
          rw [hback]
          exact .line hd hamp

/-- The parser is sound from every position.  The induction is on the
unread input; at one position `parseexec` rests on `parseblock`,
`parsepipe` on `parseexec` and `parseline` on `parsepipe`, and every other
call starts further on. -/
theorem parse_sound (buf : List Char) (ps : Nat) :
    Sound buf .line ps (parseline buf ps) ∧ Sound buf .pipe ps (parsepipe buf ps) ∧
      Sound buf .exec ps (parseexec buf ps) := by
  obtain ⟨m, hm⟩ : ∃ m, buf.length - ps = m := ⟨_, rfl⟩
  induction m using Nat.strong_induction_on generalizing ps with
  | _ m ih =>
      have hexec : Sound buf .exec ps (parseexec buf ps) :=
        parseexec_sound fun ps' h' hp =>
          parseblock_sound (fun ps'' h'' => (ih _ (by omega) ps'' rfl).1) hp
      have hpipe : Sound buf .pipe ps (parsepipe buf ps) :=
        parsepipe_sound hexec fun ps' h' => (ih _ (by omega) ps' rfl).2.1
      exact ⟨parseline_sound hpipe fun ps' h' => (ih _ (by omega) ps' rfl).1, hpipe, hexec⟩

/-- Nothing is read at the end of the line. -/
theorem lexFrom_length (buf : List Char) : lexFrom buf buf.length = [] :=
  lexFrom_of_nul ((gettoken_ret_eq_nul_iff buf _).2 (deref_of_le (skipWhitespace_le buf _)))

theorem parsecmd_error {buf : List Char} {e : String} (h : parsecmd buf = .error e) : e ∈ panics := by
  have hs := (parse_sound buf 0).1
  unfold parsecmd at h
  split at h
  · next e' he => rw [he] at hs; cases h; exact hs
  · split at h
    · cases h; simp [panics]
    · cases h

/-- A command line `parsecmd` accepts is derived from `line`, as a whole. -/
theorem parsecmd_ok {buf : List Char} {cmd : Cmd} {mem : Nat → Char}
    (h : parsecmd buf = .ok (cmd, mem)) :
    Derives .line (lexFrom buf 0) cmd ∧ cmd.ArgsFit ∧ mem = nulterminate cmd (deref buf) := by
  have hs := (parse_sound buf 0).1
  unfold parsecmd at h
  split at h
  · cases h
  · next r hr =>
      rw [hr] at hs
      obtain ⟨ts, hts, hd, hfit⟩ := hs
      split at h
      · cases h
      · next hend =>
          cases h
          -- only whitespace follows what `parseline` read
          have hrest : lexFrom buf r.s = [] := by
            rw [← lexFrom_peek buf r.s [], not_not.mp hend, lexFrom_length]
          rw [hrest, List.append_nil] at hts
          exact ⟨hts ▸ hd, hfit, rfl⟩

/-! ## The words of the tree -/

/-- The words the tree points to: every `argv` entry and every
redirection's file. -/
def Cmd.words : Cmd → List (Nat × Nat)
  | .exec argv => argv
  | .redir c file efile _ _ => c.words ++ [(file, efile)]
  | .pipe l r => l.words ++ r.words
  | .list l r => l.words ++ r.words
  | .back c => c.words

/-- The word tokens of a token list, as pointer pairs. -/
def wordToks (ts : List Tok) : List (Nat × Nat) :=
  (ts.filter fun t => t.ret == 'a').map fun t => (t.q, t.eq)

@[simp] theorem wordToks_nil : wordToks [] = [] := rfl

@[simp] theorem wordToks_append (ts₁ ts₂ : List Tok) :
    wordToks (ts₁ ++ ts₂) = wordToks ts₁ ++ wordToks ts₂ := by
  simp [wordToks]

theorem wordToks_cons_word {t : Tok} (h : t.ret = 'a') (ts : List Tok) :
    wordToks (t :: ts) = (t.q, t.eq) :: wordToks ts := by
  simp [wordToks, h]

theorem wordToks_cons_sym {t : Tok} (h : t.ret ≠ 'a') (ts : List Tok) :
    wordToks (t :: ts) = wordToks ts := by
  simp [wordToks, h]

/-- The files of a run of redirections. -/
def files (rs : List (Tok × Tok)) : List (Nat × Nat) := rs.map fun r => (r.2.q, r.2.eq)

theorem words_wrap {rs : List (Tok × Tok)} (h : ∀ r ∈ rs, r.1.ret ∈ ['<', '>', '+']) (c : Cmd) :
    (wrap rs c).words = c.words ++ files rs := by
  induction rs generalizing c with
  | nil => simp [wrap, files]
  | cons r rs ih =>
      rw [wrap_cons, ih (fun r' hr' => h r' (List.mem_cons_of_mem r hr'))]
      have hr := h r List.mem_cons_self
      simp only [List.mem_cons, List.not_mem_nil, or_false] at hr
      -- each redirection adds its file after what it wraps
      rcases hr with hr | hr | hr <;> simp [redirFor, hr, Cmd.words, files]

theorem words_backs (n : Nat) (c : Cmd) : (backs n c).words = c.words := by
  induction n generalizing c with
  | zero => rfl
  | succ n ih => rw [backs_succ, ih]; rfl

/-- A segment's operators are redirections. -/
theorem Segment.redir_ops {ts : List Tok} {argv : List (Nat × Nat)} {rs : List (Tok × Tok)}
    (h : Segment ts argv rs) : ∀ r ∈ rs, r.1.ret ∈ ['<', '>', '+'] := by
  induction h with
  | nil => simp
  | word _ _ ih => exact ih
  | redir ht _ _ ih =>
      intro r hr
      rcases List.mem_cons.1 hr with rfl | hr
      · exact ht
      · exact ih r hr

/-- A segment's words and files are its word tokens. -/
theorem Segment.perm {ts : List Tok} {argv : List (Nat × Nat)} {rs : List (Tok × Tok)}
    (h : Segment ts argv rs) : (argv ++ files rs).Perm (wordToks ts) := by
  induction h with
  | nil => simp [files]
  | word hw _ ih =>
      rw [wordToks_cons_word hw, List.cons_append]
      exact ih.cons _
  | @redir t w ts argv rs ht hw _ ih =>
      have ht' : t.ret ≠ 'a' := by
        simp only [List.mem_cons, List.not_mem_nil, or_false] at ht
        rcases ht with h | h | h <;> rw [h] <;> decide
      rw [wordToks_cons_sym ht', wordToks_cons_word hw]
      simp only [files, List.map_cons]
      exact List.perm_middle.trans (ih.cons _)

/-- Every word token of a derivation is in the tree exactly once. -/
theorem Derives.words_perm {n : Nt} {ts : List Tok} {c : Cmd} (h : Derives n ts c) :
    c.words.Perm (wordToks ts) := by
  have hamp : ∀ as : List Tok, (∀ a ∈ as, a.ret = '&') → wordToks as = [] := by
    intro as has
    simp only [wordToks, List.map_eq_nil_iff, List.filter_eq_nil_iff]
    intro a ha
    simp [has a ha]
  induction h with
  | line _ has ih =>
      rw [words_backs, wordToks_append, hamp _ has, List.append_nil]
      exact ih
  | list _ has ht _ ih ih₂ =>
      rw [wordToks_append, wordToks_append, hamp _ has, List.append_nil,
        wordToks_cons_sym (by rw [ht]; decide)]
      simp only [Cmd.words, words_backs]
      exact ih.append ih₂
  | pipe _ ih => exact ih
  | pipeCons _ ht _ ih ih₂ =>
      rw [wordToks_append, wordToks_cons_sym (by rw [ht]; decide)]
      exact ih.append ih₂
  | block hl _ hr hseg ih =>
      rw [words_wrap hseg.redir_ops, List.cons_append, wordToks_cons_sym (by rw [hl]; decide),
        wordToks_append, wordToks_cons_sym (by rw [hr]; decide)]
      exact ih.append (by simpa using hseg.perm)
  | exec hseg =>
      rw [words_wrap hseg.redir_ops]
      exact hseg.perm

/-! ## Word tokens and `nulterminate` -/

/-- A word `gettoken` reads runs to where the word loop stops. -/
theorem gettoken_word {buf : List Char} {s : Nat} (h : (gettoken buf s).ret = 'a') :
    (gettoken buf s).eq = skipWord buf (gettoken buf s).q := by
  simp only [gettoken] at h ⊢
  rcases scan_cases buf (skipWhitespace buf s) with ⟨_, hs⟩ | ⟨hc, hs⟩ | ⟨_, _, hs⟩ | ⟨_, _, hs⟩ | ⟨_, _, hs⟩ <;>
    rw [hs] at h ⊢ <;> simp_all

/-- Every word token of the line is a maximal run of characters that are
neither whitespace, nor symbols, nor the NUL. -/
theorem lexFrom_word {buf : List Char} {s : Nat} {t : Tok} (ht : t ∈ lexFrom buf s) (ha : t.ret = 'a') :
    t.q < t.eq ∧
      (∀ i, t.q ≤ i → i < t.eq → i < buf.length ∧ strchr whitespace (deref buf i) = false ∧
        strchr symbols (deref buf i) = false) ∧
      ¬(t.eq < buf.length ∧ strchr whitespace (deref buf t.eq) = false ∧
        strchr symbols (deref buf t.eq) = false) := by
  fun_induction lexFrom buf s with
  | case1 s h => simp at ht
  | case2 s h ih =>
      rcases List.mem_cons.1 ht with rfl | ht
      · have hw : (gettoken buf s).eq = skipWord buf (gettoken buf s).q := gettoken_word ha
        refine ⟨(gettoken_ne_nul h).2, ?_, ?_⟩
        · show ∀ i, (gettoken buf s).q ≤ i → i < (gettoken buf s).eq → _
          rw [hw]
          exact skipWord_word buf _
        · show ¬((gettoken buf s).eq < buf.length ∧
            strchr whitespace (deref buf (gettoken buf s).eq) = false ∧
              strchr symbols (deref buf (gettoken buf s).eq) = false)
          rw [hw]
          exact skipWord_stop buf _
      · exact ih ht

theorem foldl_update_apply (argv : List (Nat × Nat)) (mem : Nat → Char) (a : Nat) :
    argv.foldl (fun m w => Function.update m w.2 '\x00') mem a =
      if a ∈ argv.map Prod.snd then '\x00' else mem a := by
  induction argv generalizing mem with
  | nil => simp
  | cons w argv ih =>
      rw [List.foldl_cons, ih, Function.update_apply]
      rw [List.map_cons]
      by_cases h : a = w.2 <;>
        simp only [List.mem_cons, h, true_or, false_or, if_true, if_false, ite_self]

/-- `nulterminate` writes a NUL at the end of every word of the tree and
nowhere else. -/
theorem nulterminate_apply (c : Cmd) (mem : Nat → Char) (a : Nat) :
    nulterminate c mem a = if a ∈ c.words.map Prod.snd then '\x00' else mem a := by
  induction c generalizing mem with
  | exec argv => exact foldl_update_apply argv mem a
  | redir c file efile mode fd ih =>
      rw [nulterminate, Function.update_apply, ih]
      by_cases h : a = efile <;>
        simp only [h, Cmd.words, List.map_append, List.mem_append, List.map_cons, List.map_nil,
          List.mem_singleton, or_true, or_false, if_true, if_false]
  | pipe l r ihl ihr =>
      rw [nulterminate, ihr, ihl]
      by_cases hr : a ∈ r.words.map Prod.snd <;>
        simp only [hr, Cmd.words, List.map_append, List.mem_append, or_true, or_false, if_true, if_false]
  | list l r ihl ihr =>
      rw [nulterminate, ihr, ihl]
      by_cases hr : a ∈ r.words.map Prod.snd <;>
        simp only [hr, Cmd.words, List.map_append, List.mem_append, or_true, or_false, if_true, if_false]
  | back c ih => exact ih mem

/-- The C string at `q` in `mem` is `w`: its characters, none of them NUL,
then a NUL. -/
def CStr (mem : Nat → Char) (q : Nat) (w : List Char) : Prop :=
  (∀ i (h : i < w.length), mem (q + i) = w[i] ∧ w[i] ≠ '\x00') ∧ mem (q + w.length) = '\x00'

theorem deref_eq_getElem {buf : List Char} {i : Nat} (h : i < buf.length) : deref buf i = buf[i] := by
  simp [deref, h]

/-- After `nulterminate`, each word of a tree derived from the whole line
reads, as a C string, as the characters of its token: every NUL written
ends a word and none falls inside one. -/
theorem nulterminate_words {buf : List Char} {cmd : Cmd} (h : Derives .line (lexFrom buf 0) cmd) :
    ∀ w ∈ cmd.words, CStr (nulterminate cmd (deref buf)) w.1 ((buf.drop w.1).take (w.2 - w.1)) := by
  have htok : ∀ w ∈ cmd.words, ∃ t ∈ lexFrom buf 0, t.ret = 'a' ∧ (t.q, t.eq) = w := by
    intro w hw
    have := h.words_perm.mem_iff.1 hw
    simp only [wordToks, List.mem_map, List.mem_filter, beq_iff_eq] at this
    obtain ⟨t, ⟨ht, hta⟩, htw⟩ := this
    exact ⟨t, ht, hta, htw⟩
  -- a NUL goes only where a word ends, which is not a word character
  have hends : ∀ a ∈ cmd.words.map Prod.snd, ¬(a < buf.length ∧
      strchr whitespace (deref buf a) = false ∧ strchr symbols (deref buf a) = false) := by
    intro a ha
    obtain ⟨w, hw, rfl⟩ := List.mem_map.1 ha
    obtain ⟨t, ht, hta, rfl⟩ := htok w hw
    exact (lexFrom_word ht hta).2.2
  intro w hw
  obtain ⟨t, ht, hta, rfl⟩ := htok _ hw
  obtain ⟨hlt, hchars, -⟩ := lexFrom_word ht hta
  have hlen : ((buf.drop t.q).take (t.eq - t.q)).length = t.eq - t.q := by
    have := (hchars (t.eq - 1) (by omega) (by omega)).1
    simp only [List.length_take, List.length_drop]
    omega
  refine ⟨fun i hi => ?_, ?_⟩
  · rw [hlen] at hi
    obtain ⟨hin, hws, hsym⟩ := hchars (t.q + i) (by omega) (by omega)
    have hget : ((buf.drop t.q).take (t.eq - t.q))[i] = buf[t.q + i] := by simp
    rw [hget, nulterminate_apply, if_neg (fun hm => hends _ hm ⟨hin, hws, hsym⟩), deref_eq_getElem hin]
    refine ⟨rfl, fun h0 => ?_⟩
    rw [deref_eq_getElem hin, h0, strchr_nul] at hws
    cases hws
  · rw [hlen, nulterminate_apply, if_pos]
    exact List.mem_map.2 ⟨_, hw, by simp; omega⟩

/-! ## The parser follows its grammar -/

end Sh
end Xv6
