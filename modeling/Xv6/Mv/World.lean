import Xv6.Lib.Walk
import Xv6.Fs.Ftable

/-!
# System calls as a program sees them

The tree of directories and files with the calls on it that `mv` and `cp` make, for a process that runs alone: inodes with
their entries and link counts, the current directory, and the descriptors of the process. A call for which something else
can be missing (a block on the disk, an entry of a table of the kernel) may fail at any time; `faults` says which of the
next calls do.

What a C program finds where it reads memory that it has not written comes from outside as well, and so does the room on its
stack, one page (`param.h:16`).
-/

namespace Xv6.Mv

open Prog (perform Handler)
open Fs (slash dot dotdot elems short dirents DIRENT ROOTINO NOFILE NDEV MAXFILE T_DIR T_FILE T_DEVICE)

/-- A string, without its NUL. -/
abbrev Path := List UInt8

abbrev Name := List UInt8

/-- `param.h:15`. -/
def MAXPATH : Nat := 128

/-- The entries that a directory has room for. -/
def MAXSLOTS : Nat := MAXFILE * BSIZE / DIRENT

/-! ## The tree -/

inductive Body
  | dir (slots : List (Option (Name × Nat)))
  | file (bytes : List UInt8)
  | device (major minor : UInt16)
  deriving DecidableEq

structure Node where
  nlink : UInt16
  body : Body
  deriving DecidableEq

def Body.type : Body → UInt16
  | dir _ => T_DIR
  | file _ => T_FILE
  | device .. => T_DEVICE

/-- What a reader finds who takes the contents for directory entries. -/
def Body.slots : Body → List (Option (Name × Nat))
  | dir slots => slots
  | file bytes => dirents bytes
  | device .. => []

structure World where
  node : Nat → Option Node
  ninodes : Nat
  cwd : Nat
  fds : Nat → Option (Nat × Nat)
  /-- Other processes refer to the inode. -/
  held : Nat → Bool
  /-- Which of the next calls fail for want of something. -/
  faults : List Bool
  stray : List Path
  /-- The byte in front of an empty string. -/
  below : UInt8
  stack : Nat

namespace World

def isDir (w : World) (i : Nat) : Bool :=
  match w.node i with
  | some ⟨_, .dir _⟩ => true
  | _ => false

def child (w : World) (i : Nat) (e : Name) : Option Nat :=
  match w.node i with
  | some ⟨_, .dir slots⟩ => Slots.lookup e slots
  | _ => none

def start (w : World) (path : Path) : Nat := if path.headD 0 = slash then ROOTINO else w.cwd

def target (w : World) (path : Path) : Option Nat := Walk.walk w.child (w.start path) (elems path)

def namei (w : World) (path : Path) : Option Nat := if path.length < MAXPATH then w.target path else none

def nameiparent (w : World) (path : Path) : Option (Nat × Name) :=
  if path.length < MAXPATH then Walk.walkParent w.child w.isDir (w.start path) (elems path) else none

/-- A current directory or a descriptor refers to the inode. -/
def referenced (w : World) (i : Nat) : Bool :=
  decide (w.cwd = i) || w.held i || (List.range NOFILE).any fun fd => decide ((w.fds fd).map Prod.fst = some i)

def set (w : World) (i : Nat) (n : Option Node) : World := { w with node := Function.update w.node i n }

/-- The end of `iput`: an inode without links and references is freed. -/
def reap (w : World) (i : Nat) : World :=
  match w.node i with
  | some n => if n.nlink = 0 ∧ w.referenced i = false then w.set i none else w
  | none => w

def addEntry (e : Name) (i : Nat) (slots : List (Option (Name × Nat))) : Option (List (Option (Name × Nat))) :=
  let slots := Slots.insert (e, i) slots
  if slots.length ≤ MAXSLOTS then some slots else none

/-- `ialloc` (`fs.c:199`). -/
def ialloc (w : World) : Option Nat := (List.range w.ninodes).find? fun i => decide (1 ≤ i) && (w.node i).isNone

/-! ## Calls -/

/-- `link` after the new name has been found free in the directory `d`. -/
def linkAt (w : World) (i d : Nat) (e : Name) : Option World :=
  match w.node i, w.node d with
  | some ⟨n, body⟩, some ⟨nd, .dir slots⟩ =>
    (addEntry e i slots).map fun slots => ((w.set i (some ⟨n + 1, body⟩)).set d (some ⟨nd, .dir slots⟩)).reap i
  | _, _ => none

/-- `sysfile.c:124`. -/
def link (w : World) (old new : Path) : Option World :=
  (w.namei old).bind fun i =>
    if w.isDir i then none
    else (w.nameiparent new).bind fun p =>
      if (w.child p.1 p.2).isSome then none else w.linkAt i p.1 p.2

/-- `mkdir` after the name has been found free in the directory `d`. -/
def mkdirAt (w : World) (i d : Nat) (e : Name) : Option World :=
  match w.node d with
  | some ⟨nd, .dir slots⟩ =>
    (addEntry e i slots).map fun slots =>
      ((w.set i (some ⟨1, .dir [some (dot, i), some (dotdot, d)]⟩)).set d (some ⟨nd + 1, .dir slots⟩)).reap d
  | _ => none

/-- `sysfile.c:373`. -/
def mkdir (w : World) (path : Path) : Option World :=
  (w.nameiparent path).bind fun p =>
    if (w.child p.1 p.2).isSome then none
    else w.ialloc.bind fun i => w.mkdirAt i p.1 p.2

/-- No entry but the first two is in use (`isdirempty`). -/
def isEmpty : Body → Bool
  | .dir slots => (slots.drop 2).all Option.isNone
  | _ => true

/-- The entry of the directory that `dirlookup` finds is cleared. -/
def clear (e : Name) : List (Option (Name × Nat)) → List (Option (Name × Nat))
  | [] => []
  | none :: t => none :: clear e t
  | some x :: t => if x.1 = e then none :: t else some x :: clear e t

/-- `unlink` after the entry `e` of the directory `d` has been found to name `i`. -/
def unlinkAt (w : World) (i d : Nat) (e : Name) : Option World :=
  match w.node i, w.node d with
  | some ⟨n, body⟩, some ⟨nd, .dir slots⟩ =>
    if isEmpty body then
      let nd := if body.type = T_DIR then nd - 1 else nd
      some ((((w.set d (some ⟨nd, .dir (clear e slots)⟩)).reap d).set i (some ⟨n - 1, body⟩)).reap i)
    else none
  | _, _ => none

def unlink (w : World) (path : Path) : Except String (Option World) :=
  match w.nameiparent path with
  | none => .ok none
  | some (d, e) =>
    if e = dot ∨ e = dotdot then .ok none
    else match w.child d e with
      | none => .ok none
      | some i =>
        if i = d then .error "acquiresleep: own lock"
        else match w.node i with
          | none => .error "ilock: no type"
          | some n => if short n.nlink < 1 then .error "unlink: nlink < 1" else .ok (w.unlinkAt i d e)

def fdFree (w : World) : Option Nat := (List.range NOFILE).find? fun fd => (w.fds fd).isNone

def setFd (w : World) (fd : Nat) (v : Option (Nat × Nat)) : World := { w with fds := Function.update w.fds fd v }

def canOpen : Body → Bool
  | .device major _ => !decide (short major < 0 ∨ (NDEV : Int) ≤ short major)
  | _ => true

/-- `open` with `O_RDONLY` (`sysfile.c:305`). -/
def openFile (w : World) (path : Path) : Option (Nat × World) :=
  (w.namei path).bind fun i => (w.node i).bind fun n =>
    if canOpen n.body then w.fdFree.map fun fd => (fd, w.setFd fd (some (i, 0))) else none

def closeFile (w : World) (fd : Nat) : World :=
  match w.fds fd with
  | some (i, _) => (w.setFd fd none).reap i
  | none => w

def fstat (w : World) (fd : Nat) : Option UInt16 :=
  (w.fds fd).bind fun f => (w.node f.1).map fun n => n.body.type

/-- `read` of the next entry; `none` at the end of the file. -/
def readEntry (w : World) (fd : Nat) : Option (Option (Name × Nat) × World) :=
  (w.fds fd).bind fun f => (w.node f.1).bind fun n =>
    n.body.slots[f.2]?.map fun slot => (slot, w.setFd fd (some (f.1, f.2 + 1)))

/-- The choice for the next call that may fail is used up. -/
def tick (w : World) : World := { w with faults := w.faults.tail }

/-- A call that returns `none` or fails has changed nothing. -/
def attempt {α : Type} (w : World) (f : World → Option (α × World)) : Option α × World :=
  if w.faults.headD false then (none, w.tick)
  else match f w.tick with
    | some (a, w') => (some a, w')
    | none => (none, w.tick)

end World

/-! ## Programs -/

inductive Call : Type → Type
  | mkdir (path : Path) : Call Bool
  | link (old new : Path) : Call Bool
  | unlink (path : Path) : Call Bool
  /-- `open` with `O_RDONLY`: the descriptor. -/
  | open (path : Path) : Call (Option Nat)
  | close (fd : Nat) : Call Unit
  /-- The type of the open file. -/
  | fstat (fd : Nat) : Call (Option UInt16)
  | read (fd : Nat) : Call (Option (Option (Name × Nat)))
  /-- A string in memory that the program has not written. -/
  | stray : Call Path
  /-- The byte in front of an empty string. -/
  | below : Call UInt8
  | push : Call Unit
  | pop : Call Unit

/-- A page fault below the stack ends the process (`trap.c:66`). -/
def World.push (w : World) : Except String (Unit × World) :=
  match w.stack with
  | 0 => .error "killed"
  | n + 1 => .ok ((), { w with stack := n })

def World.tryUnlink (w : World) (path : Path) : Except String (Bool × World) :=
  if w.faults.headD false then .ok (false, w.tick)
  else match w.tick.unlink path with
    | .error m => .error m
    | .ok (some w') => .ok (true, w')
    | .ok none => .ok (false, w.tick)

def World.tryMkdir (w : World) (path : Path) : Bool × World :=
  let r := w.attempt fun w => (w.mkdir path).map ((), ·)
  (r.1.isSome, r.2)

def World.tryLink (w : World) (old new : Path) : Bool × World :=
  let r := w.attempt fun w => (w.link old new).map ((), ·)
  (r.1.isSome, r.2)

def sys : Handler Call World
  | _, .mkdir path, w => .ok (w.tryMkdir path)
  | _, .link old new, w => .ok (w.tryLink old new)
  | _, .unlink path, w => w.tryUnlink path
  | _, .open path, w => .ok (w.attempt fun w => w.openFile path)
  | _, .close fd, w => .ok ((), w.closeFile fd)
  | _, .fstat fd, w => .ok (w.fstat fd, w)
  | _, .read fd, w => .ok (w.attempt fun w => w.readEntry fd)
  | _, .stray, w => .ok (w.stray.headD [], { w with stray := w.stray.tail })
  | _, .below, w => .ok (w.below, w)
  | _, .push, w => w.push
  | _, .pop, w => .ok ((), { w with stack := w.stack + 1 })

abbrev P := Prog Call

end Xv6.Mv
