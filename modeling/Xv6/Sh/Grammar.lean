import Mathlib.Logic.Function.Iterate
import Xv6.Sh.Parser

/-!
# The grammar of command lines

    line  ::= pipe '&'* [';' line]
    pipe  ::= exec ['|' pipe]
    exec  ::= '(' line ')' redir* | redir* (word redir*)*     with fewer than MAXARGS words
    redir ::= ('<' | '>' | '>>') word

A word is a maximal run of characters that are neither whitespace nor one of `<|>&;()`, and whitespace may stand between any two tokens.
A derivation denotes a tree of the words themselves, and `Cmd.read` is the tree that `runcmd` finds in memory.
-/

namespace Xv6.Sh

inductive Token
  | word (w : List Char)
  | bar | lpar | rpar | semi | amp | lt | gt | gtgt

/-- The tokens of one character. -/
def single : Char → Option Token
  | '|' => some .bar
  | '(' => some .lpar
  | ')' => some .rpar
  | ';' => some .semi
  | '&' => some .amp
  | '<' => some .lt
  | '>' => some .gt
  | _ => none

/-- The line can be read as these tokens. -/
inductive Lex : List Char → List Token → Prop
  | nil : Lex [] []
  | space {c : Char} {s : List Char} {ts : List Token} (hc : c ∈ whitespace) (h : Lex s ts) : Lex (c :: s) ts
  | single {c : Char} {s : List Char} {t : Token} {ts : List Token} (hc : single c = some t) (h : Lex s ts) : Lex (c :: s) (t :: ts)
  | gtgt {s : List Char} {ts : List Token} (h : Lex s ts) : Lex ('>' :: '>' :: s) (.gtgt :: ts)
  | word {w s : List Char} {ts : List Token} (hne : w ≠ []) (hw : ∀ c ∈ w, WordChar c) (hmax : ∀ c ∈ s.head?, ¬WordChar c)
    (h : Lex s ts) : Lex (w ++ s) (.word w :: ts)

inductive Tree
  | exec (argv : List (List Char))
  | redir (t : Tree) (file : List Char) (mode fd : Nat)
  | pipe (left right : Tree)
  | list (left right : Tree)
  | back (t : Tree)

/-- A redirection: the file, how it is opened, and the descriptor it replaces. -/
structure TRedir where
  file : List Char
  mode : Nat
  fd : Nat

/-- The first redirection is the innermost. -/
def Tree.wrap (t : Tree) (rs : List TRedir) : Tree := rs.foldl (fun t r => .redir t r.file r.mode r.fd) t

/-- How the file is opened, and for which descriptor. -/
def redirect : Token → Option (Nat × Nat)
  | .lt => some (O_RDONLY, 0)
  | .gt => some (O_WRONLY ||| O_CREATE ||| O_TRUNC, 1)
  | .gtgt => some (O_WRONLY ||| O_CREATE, 1)
  | _ => none

inductive Redirs : List Token → List TRedir → Prop
  | nil : Redirs [] []
  | cons {k : Token} {m : Nat × Nat} {w : List Char} {ts : List Token} {rs : List TRedir} (hk : redirect k = some m) (h : Redirs ts rs) :
    Redirs (k :: .word w :: ts) (⟨w, m.1, m.2⟩ :: rs)

inductive Args : List Token → List (List Char) → List TRedir → Prop
  | nil : Args [] [] []
  | cons {w : List Char} {ts ts' : List Token} {args : List (List Char)} {rs rs' : List TRedir} (hr : Redirs ts rs) (h : Args ts' args rs') :
    Args (.word w :: (ts ++ ts')) (w :: args) (rs ++ rs')

inductive Nt
  | line | pipe | exec

/-- The tokens derive from the nonterminal, and the derivation denotes the tree. -/
inductive Derives : Nt → List Token → Tree → Prop
  | line {ts : List Token} {t : Tree} (h : Derives .pipe ts t) (n : Nat) :
    Derives .line (ts ++ List.replicate n .amp) (Tree.back^[n] t)
  | seq {ts ts' : List Token} {t t' : Tree} (h : Derives .pipe ts t) (n : Nat) (h' : Derives .line ts' t') :
    Derives .line (ts ++ (List.replicate n .amp ++ .semi :: ts')) (.list (Tree.back^[n] t) t')
  | exec {ts : List Token} {t : Tree} (h : Derives .exec ts t) : Derives .pipe ts t
  | pipe {ts ts' : List Token} {t t' : Tree} (h : Derives .exec ts t) (h' : Derives .pipe ts' t') :
    Derives .pipe (ts ++ .bar :: ts') (.pipe t t')
  | block {ts ts' : List Token} {t : Tree} {rs : List TRedir} (h : Derives .line ts t) (hr : Redirs ts' rs) :
    Derives .exec (.lpar :: (ts ++ .rpar :: ts')) (t.wrap rs)
  | words {ts ts' : List Token} {args : List (List Char)} {rs rs' : List TRedir} (hr : Redirs ts rs) (h : Args ts' args rs')
    (hlen : args.length < MAXARGS) : Derives .exec (ts ++ ts') ((Tree.exec args).wrap (rs ++ rs'))

/-! ## Trees in memory -/

/-- The strings of `argv` up to the 0, if there is one. -/
def renderArgs (f : Ptr × Ptr → List Char) : List (Option (Ptr × Ptr)) → Option (List (List Char))
  | [] => none
  | none :: _ => some []
  | some x :: argv => (renderArgs f argv).map (f x :: ·)

def Cmd.render (f : Ptr × Ptr → List Char) : Cmd → Option Tree
  | .exec argv => (renderArgs f argv).map .exec
  | .redir cmd r => (cmd.render f).map fun t => .redir t (f (r.file, r.efile)) r.mode r.fd
  | .pipe left right => (left.render f).bind fun l => (right.render f).map fun r => .pipe l r
  | .list left right => (left.render f).bind fun l => (right.render f).map fun r => .list l r
  | .back cmd => (cmd.render f).map .back

/-- The string at a pointer into a line of `n` characters, up to the NUL. -/
def cstring (n : Nat) (mem : List Char) (p : Ptr) : List Char := (mem.drop (n - p.length)).takeWhile (· ≠ NUL)

/-- What `runcmd` finds. -/
def Cmd.read (n : Nat) (mem : List Char) (cmd : Cmd) : Option Tree := cmd.render fun x => cstring n mem x.1

end Xv6.Sh
