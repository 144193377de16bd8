import Xv6.Ipc.Pipe
import Xv6.Fs.Calls

/-!
# Open files (`kernel/file.c`)

The table of open files, the descriptors of the processes and the lifetime of pipes, as programs over the file system and
these tables. An access to the file table is one step, as under `ftable.lock`. A pipe is known by its page; whether a page can
be had from `kalloc`, and whether a `copyout` to the user succeeds, is chosen from outside.
-/

namespace Xv6.Fs

open Prog List
open Function (update)

def NOFILE : Nat := 16
def NDEV : Nat := 10

inductive FdType
  | none | pipe | inode | device
  deriving DecidableEq

/-- `struct file` (`file.h:1`). -/
@[ext] structure OpenFile where
  type : FdType := .none
  ref : Nat := 0
  readable : Bool := false
  writable : Bool := false
  pipe : Nat := 0
  ip : Nat := 0
  off : Nat := 0
  major : UInt16 := 0

abbrev Ftable := Nat → OpenFile

abbrev Ofile := Nat → Nat → Option Nat

abbrev Pipes := Nat → Option Ipc.Pipe

@[ext] structure Kernel where
  fs : FsState
  ftable : Ftable
  ofile : Ofile
  pipes : Pipes
  /-- What the next calls of `kalloc` and `copyout` come to. -/
  choices : List (Option Nat)

inductive FileOp : Type → Type
  /-- One access to a table; the answer is the table before it. -/
  | ftable (f : Ftable → Ftable) : FileOp Ftable
  | ofile (f : Ofile → Ofile) : FileOp Ofile
  | pipes (f : Pipes → Pipes) : FileOp Pipes
  /-- A page for a pipe. -/
  | kalloc : FileOp (Option Nat)
  /-- Does a `copyout` succeed? -/
  | copyout : FileOp Bool

abbrev KOp (β : Type) : Type := Op β ⊕ FileOp β

abbrev K := Prog KOp

/-- The page that `kalloc` returns is not in use. -/
def Kernel.page (k : Kernel) : Option Nat := (k.choices.headD none).filter fun pg => (k.pipes pg).isNone

/-- Without interference each operation acts on the state. -/
def kseq : Handler KOp Kernel
  | _, .inl e, k => match seq _ e k.fs with
    | .ok (b, s) => .ok (b, { k with fs := s })
    | .error m => .error m
  | _, .inr (.ftable f), k => .ok (k.ftable, { k with ftable := f k.ftable })
  | _, .inr (.ofile f), k => .ok (k.ofile, { k with ofile := f k.ofile })
  | _, .inr (.pipes f), k => .ok (k.pipes, { k with pipes := f k.pipes })
  | _, .inr .kalloc, k => .ok (k.page, { k with choices := k.choices.tail })
  | _, .inr .copyout, k => .ok ((k.choices.headD none).isSome, { k with choices := k.choices.tail })

def fat (f : Nat) : K OpenFile := do
  let t ← perform (.inr (.ftable id))
  return t f

def fset (f : Nat) (g : OpenFile → OpenFile) : K Unit := do
  let _ ← perform (.inr (.ftable fun t => update t f (g (t f))))
  return ()

def fdset (p fd : Nat) (v : Option Nat) : K Unit := do
  let _ ← perform (.inr (.ofile fun o => update o p (update (o p) fd v)))
  return ()

/-- `file.c:48`. -/
def filedup (f : Nat) : K Unit := do
  if (← fat f).ref < 1 then .panic "filedup" else fset f fun t => { t with ref := t.ref + 1 }

def fdFree (o : Nat → Option Nat) : Option Nat := (List.range NOFILE).find? fun fd => (o fd).isNone

section
variable {sb : Super} {k : Kernel} {X : String → Prop} {f p fd : Nat}

@[simp] theorem sat_fdset {v : Option Nat} {Q : Unit → Kernel → Prop} :
    Sat kseq (fdset p fd v) k Q X ↔
      Q () { k with ofile := update k.ofile p (update (k.ofile p) fd v) } := Iff.rfl

end

end Xv6.Fs
