import Mathlib.Data.List.Basic

/-!
# The parser of the shell (`user/sh.c`)

A pointer into the command line is the part of the line from there on, and what is before it is not needed until `nulterminate`. The
recursive procedures have a bound on their depth and the loops one on their rounds; an answer "more rounds" would be a run that has not
ended. `malloc` succeeds, and what is printed to the console is left out.
-/

namespace Xv6.Sh

def NUL : Char := '\x00'

/-- `MAXARGS` (`sh.c:14`). -/
def MAXARGS : Nat := 10

/-- `fcntl.h`. -/
def O_RDONLY : Nat := 0x000
def O_WRONLY : Nat := 0x001
def O_CREATE : Nat := 0x200
def O_TRUNC : Nat := 0x400

/-- `whitespace` and `symbols` (`sh.c:263`). -/
def whitespace : List Char := [' ', '\t', '\r', '\n', '\x0b']
def symbols : List Char := ['<', '|', '>', '&', ';', '(', ')']

abbrev Ptr := List Char

structure Redir where
  file : Ptr
  efile : Ptr
  mode : Nat
  fd : Nat

inductive Cmd
  | exec (argv : List (Option (Ptr × Ptr)))
  | redir (cmd : Cmd) (r : Redir)
  | pipe (left right : Cmd)
  | list (left right : Cmd)
  | back (cmd : Cmd)

/-! ## Tokens -/

/-- `while(s < es && strchr(whitespace, *s)) s++`. -/
def skip (s : Ptr) : Ptr := s.dropWhile (· ∈ whitespace)

def WordChar (c : Char) : Prop := c ∉ whitespace ∧ c ∉ symbols

instance (c : Char) : Decidable (WordChar c) := inferInstanceAs (Decidable (_ ∧ _))

/-- What `gettoken` returns, and where it leaves `*q`, `*eq` and `*ps`. -/
structure Got where
  tok : Char
  q : Ptr
  eq : Ptr
  ps : Ptr

/-- `sh.c:267`. -/
def gettoken (ps : Ptr) : Got :=
  let s := skip ps
  match s with
  | [] => ⟨NUL, s, s, s⟩
  | c :: r =>
    if c ∈ ['|', '(', ')', ';', '&', '<'] then ⟨c, s, r, skip r⟩
    else if c = '>' then
      if r.head? = some '>' then ⟨'+', s, r.tail, skip r.tail⟩ else ⟨'>', s, r, skip r⟩
    else ⟨'a', s, s.dropWhile (WordChar ·), skip (s.dropWhile (WordChar ·))⟩

/-- `sh.c:313`: the answer, and where it leaves `*ps`. -/
def peek (ps : Ptr) (toks : List Char) : Bool × Ptr := ((skip ps).head?.any (· ∈ toks), skip ps)

/-! ## Commands -/

/-- `redircmd` around a command, one after the other. -/
def wrap (cmd : Cmd) (rs : List Redir) : Cmd := rs.foldl .redir cmd

/-- The `switch` of `parseredirs` (`sh.c:387`). -/
def redirOf (tok : Char) (q eq : Ptr) : List Redir :=
  if tok = '<' then [⟨q, eq, O_RDONLY, 0⟩]
  else if tok = '>' then [⟨q, eq, O_WRONLY ||| O_CREATE ||| O_TRUNC, 1⟩]
  else if tok = '+' then [⟨q, eq, O_WRONLY ||| O_CREATE, 1⟩]
  else []

def redirLoop : Nat → List Redir → Ptr → Except String (List Redir × Ptr)
  | 0, _, _ => .error "more rounds"
  | fuel + 1, rs, ps =>
    let p := peek ps ['<', '>']
    if p.1 then
      let g := gettoken p.2
      let f := gettoken g.ps
      if f.tok ≠ 'a' then .error "missing file for redirection"
      else redirLoop fuel (rs ++ redirOf g.tok f.q f.eq) f.ps
    else .ok (rs, p.2)

/-- `sh.c:375`. -/
def parseredirs (rs : List Redir) (ps : Ptr) : Except String (List Redir × Ptr) := redirLoop (ps.length + 1) rs ps

/-- The loop of `parseexec` (`sh.c:431`) with the arguments stored so far. -/
def argLoop : Nat → List (Ptr × Ptr) → List Redir → Ptr → Except String (Cmd × Ptr)
  | 0, _, _, _ => .error "more rounds"
  | fuel + 1, args, rs, ps =>
    let p := peek ps ['|', ')', '&', ';']
    if p.1 then .ok (wrap (.exec (args.map some ++ [none])) rs, p.2)
    else
      let g := gettoken p.2
      if g.tok = NUL then .ok (wrap (.exec (args.map some ++ [none])) rs, g.ps)
      else if g.tok ≠ 'a' then .error "syntax"
      else if (args ++ [(g.q, g.eq)]).length ≥ MAXARGS then .error "too many args"
      else do
        let (rs, ps) ← parseredirs rs g.ps
        argLoop fuel (args ++ [(g.q, g.eq)]) rs ps

/-- The loop of `parseline` (`sh.c:352`). -/
def backLoop : Nat → Cmd → Ptr → Except String (Cmd × Ptr)
  | 0, _, _ => .error "more rounds"
  | fuel + 1, cmd, ps =>
    let p := peek ps ['&']
    if p.1 then backLoop fuel (.back cmd) (gettoken p.2).ps else .ok (cmd, p.2)

mutual

/-- `sh.c:346`. -/
def parseline : Nat → Ptr → Except String (Cmd × Ptr)
  | 0, _ => .error "more rounds"
  | fuel + 1, ps => do
    let (cmd, ps) ← parsepipe fuel ps
    let (cmd, ps) ← backLoop (ps.length + 1) cmd ps
    let p := peek ps [';']
    if p.1 then
      let (right, ps) ← parseline fuel (gettoken p.2).ps
      return (.list cmd right, ps)
    else return (cmd, p.2)

/-- `sh.c:363`. -/
def parsepipe : Nat → Ptr → Except String (Cmd × Ptr)
  | 0, _ => .error "more rounds"
  | fuel + 1, ps => do
    let (cmd, ps) ← parseexec fuel ps
    let p := peek ps ['|']
    if p.1 then
      let (right, ps) ← parsepipe fuel (gettoken p.2).ps
      return (.pipe cmd right, ps)
    else return (cmd, p.2)

/-- `sh.c:418`. -/
def parseexec : Nat → Ptr → Except String (Cmd × Ptr)
  | 0, _ => .error "more rounds"
  | fuel + 1, ps =>
    let p := peek ps ['(']
    if p.1 then parseblock fuel p.2
    else do
      let (rs, ps) ← parseredirs [] p.2
      argLoop (ps.length + 1) [] rs ps

/-- `sh.c:402`. -/
def parseblock : Nat → Ptr → Except String (Cmd × Ptr)
  | 0, _ => .error "more rounds"
  | fuel + 1, ps =>
    let p := peek ps ['(']
    if p.1 = false then .error "parseblock"
    else do
      let (cmd, ps) ← parseline fuel (gettoken p.2).ps
      let p := peek ps [')']
      if p.1 = false then .error "syntax - missing )"
      else
        let (rs, ps) ← parseredirs [] (gettoken p.2).ps
        return (wrap cmd rs, ps)

end

/-! ## The strings -/

def zero (n : Nat) (p : Ptr) (mem : List Char) : List Char := mem.set (n - p.length) NUL

/-- The loop over `argv` (`sh.c:468`). -/
def zeroArgs (n : Nat) : List (Option (Ptr × Ptr)) → List Char → List Char
  | some (_, e) :: argv, mem => zeroArgs n argv (zero n e mem)
  | _, mem => mem

/-- `sh.c:450`, with the line and the NUL behind it. -/
def nulterminate (n : Nat) : Cmd → List Char → List Char
  | .exec argv, mem => zeroArgs n argv mem
  | .redir cmd r, mem => zero n r.efile (nulterminate n cmd mem)
  | .pipe left right, mem => nulterminate n right (nulterminate n left mem)
  | .list left right, mem => nulterminate n right (nulterminate n left mem)
  | .back cmd, mem => nulterminate n cmd mem

/-- `sh.c:329`: the tree, and the characters of the line after the call. -/
def parsecmd (s : List Char) : Except String (Cmd × List Char) := do
  let (cmd, ps) ← parseline (4 * s.length + 4) s
  if (peek ps []).2 ≠ [] then .error "syntax" else return (cmd, nulterminate s.length cmd (s ++ [NUL]))

end Xv6.Sh
