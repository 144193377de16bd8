import Xv6.Lib.Run
import Xv6.Log.Basic
import Xv6.Fs.UserCopy
import Xv6.Bio.Marks

/-!
# Threads over the buffer cache (`kernel/bio.c`, `kernel/log.c`)

Any number of threads run the code of `fs.c` and `log.c`. A step of a thread is one critical section of `bcache.lock`,
`log.lock` or the lock of a sleep-lock, one transfer of a block, or one store into a buffer that it holds; the steps of the
threads interleave in any order. The first thing that runs is the recovery of the log. A panic stops the machine.
-/

namespace Xv6.Bio

open Prog Fs
open LogLayer (Log encodeHead decodeHead)

/-- Size of the disk block cache (`param.h:13`). -/
def NBUF : Nat := MAXOPBLOCKS * 3

/-! ## The code of `log.c` -/

/-- The operations of `log.c` that `fs.c` has not. -/
inductive LogOp : Type → Type
  | bwrite (b : Nat) : LogOp Unit
  | bunpin (b : Nat) : LogOp Unit
  /-- `begin_op`; it waits until there is room in the log. -/
  | beginOp : LogOp Unit
  | endOp : LogOp (Option (List Nat))
  /-- `read_head` sets the in-memory header. -/
  | loadHead (lh : List Nat) : LogOp Unit
  /-- `log.lh.n = 0`. -/
  | clearHead : LogOp Unit
  | finish : LogOp Unit

abbrev Kop (β : Type) : Type := Op β ⊕ LogOp β

abbrev K := Prog Kop

def kbread (b : Nat) : K Block := perform (.inl (.bread b))
def kstore (b : Nat) (x : Block) : K Unit := perform (.inl (.store b x))
def kbrelse (b : Nat) : K Unit := perform (.inl (.brelse b))
def bwrite (b : Nat) : K Unit := perform (.inr (.bwrite b))
def bunpin (b : Nat) : K Unit := perform (.inr (.bunpin b))
def clearHead : K Unit := perform (.inr .clearHead)
def finish : K Unit := perform (.inr .finish)

/-- The loop of `write_log` (`log.c:180`) over the blocks from `tail` on. -/
def writeLogFrom (start : Nat) : Nat → List Nat → K Unit
  | _, [] => return ()
  | tail, b :: bs => do
    let _ ← kbread (start + tail + 1)
    let x ← kbread b
    kstore (start + tail + 1) x
    bwrite (start + tail + 1)
    kbrelse b
    kbrelse (start + tail + 1)
    writeLogFrom start (tail + 1) bs

def writeHead (start : Nat) (lh : List Nat) : K Unit := do
  let h ← kbread start
  kstore start (encodeHead h lh)
  bwrite start
  kbrelse start

/-- The loop of `install_trans` (`log.c:68`) over the blocks from `tail` on. -/
def installFrom (start : Nat) (recovering : Bool) : Nat → List Nat → K Unit
  | _, [] => return ()
  | tail, b :: bs => do
    let x ← kbread (start + tail + 1)
    let _ ← kbread b
    kstore b x
    bwrite b
    if recovering = false then bunpin b
    kbrelse (start + tail + 1)
    kbrelse b
    installFrom start recovering (tail + 1) bs

def commit (start : Nat) (lh : List Nat) : K Unit := do
  if lh.length > 0 then
    writeLogFrom start 0 lh
    writeHead start lh
    installFrom start false 0 lh
    clearHead
    writeHead start []

def endOp (start : Nat) : K Unit := do
  match ← (perform (.inr .endOp) : K (Option (List Nat))) with
  | some lh =>
    commit start lh
    finish
  | none => return ()

/-- `log.c:116`. -/
def recoverFromLog (start : Nat) : K Unit := do
  let h ← kbread start
  perform (.inr (.loadHead (decodeHead h)))
  kbrelse start
  installFrom start true 0 (decodeHead h)
  clearHead
  writeHead start []
  finish

/-! ## What threads do -/

inductive Source where
  | kernel (src : Nat → UInt8)
  | user (u : UMem) (src : Nat)

def Source.src : Source → Src
  | .kernel f => kernelSrc f
  | .user u a => userSrc u a

inductive Call where
  | iget (inum : Nat)
  | idup (ip : Nat)
  | ialloc (type : UInt16)
  | iupdate (ip : Nat)
  | ilock (ip : Nat)
  | iunlock (ip : Nat)
  | iput (ip : Nat)
  | itrunc (ip : Nat)
  | readi (ip : Nat) (co : Nat → List UInt8 → Bool) (off n : UInt32)
  | writei (ip : Nat) (src : Source) (off n : UInt32)
  | dirlookup (dp : Nat) (name : List UInt8)
  | dirlink (dp : Nat) (name : List UInt8) (inum : Nat)
  | change (ip : Nat) (f : Dinode → Dinode)

def Call.prog (sb : Super) : Call → M Unit
  | .iget inum => do let _ ← Fs.iget inum
  | .idup ip => do let _ ← Fs.idup ip
  | .ialloc type => do let _ ← Fs.ialloc sb type
  | .iupdate ip => Fs.iupdate sb ip
  | .ilock ip => Fs.ilock sb ip
  | .iunlock ip => Fs.iunlock ip
  | .iput ip => Fs.iput sb ip
  | .itrunc ip => Fs.itrunc sb ip
  | .readi ip co off n => do let _ ← Fs.readi sb ip co off n
  | .writei ip src off n => do let _ ← Fs.writei sb ip src.src off n
  | .dirlookup dp name => do let _ ← Fs.dirlookup sb dp name
  | .dirlink dp name inum => do let _ ← Fs.dirlink sb dp name inum
  | .change ip f => iset ip fun t => { t with d := f t.d }

def callsProg (sb : Super) : List Call → M Unit
  | [] => return ()
  | c :: cs => do
    c.prog sb
    callsProg sb cs

/-- A sequence of calls, inside a transaction or not. -/
structure Task where
  tx : Bool
  calls : List Call

def Task.prog (sb : Super) (k : Task) : K Unit := do
  if k.tx then
    perform (.inr .beginOp)
    (callsProg sb k.calls).lift fun _ e => .inl e
    endOp sb.logstart
  else
    (callsProg sb k.calls).lift fun _ e => .inl e

/-! ## The machine -/

structure Buf (N : Nat) where
  block : Option Nat
  valid : Bool
  refcnt : Nat
  holder : Option (Fin N)
  data : Block

inductive Wait where
  | no
  /-- `bget` has found the buffer and waits for its lock. -/
  | got (i : Nat)
  /-- It has the lock. -/
  | locked (i : Nat)
  /-- `brelse` has released the lock. -/
  | freed (i : Nat)
  deriving DecidableEq

structure Thread where
  prog : K Unit
  wait : Wait

structure Mach (N : Nat) where
  buf : Nat → Buf N
  /-- The buffers from the most to the least recently used. -/
  lru : List Nat
  log : Log
  disk : Nat → Block
  itable : Itable
  thr : Fin N → Thread
  /-- The recovery has not ended. -/
  booting : Bool

inductive Ev (N : Nat) where
  /-- Thread `t`, which has nothing to do, starts a sequence of calls. -/
  | start (t : Fin N) (k : Task)
  | step (t : Fin N) (full : Bool)

section
variable {N : Nat}

def Mach.setBuf (m : Mach N) (i : Nat) (b : Buf N) : Mach N := { m with buf := Function.update m.buf i b }

def Mach.setThr (m : Mach N) (t : Fin N) (p : K Unit) (w : Wait) : Mach N :=
  { m with thr := Function.update m.thr t ⟨p, w⟩ }

def Mach.cached (m : Mach N) (b : Nat) : Option Nat := m.lru.find? fun i => decide ((m.buf i).block = some b)

/-- The least recently used buffer without references. -/
def Mach.victim (m : Mach N) : Option Nat := m.lru.reverse.find? fun i => decide ((m.buf i).refcnt = 0)

/-- The buffer of block `b`, whose lock thread `t` has. -/
def Mach.heldBy (m : Mach N) (t : Fin N) (b : Nat) : Option Nat :=
  m.lru.find? fun i => decide ((m.buf i).block = some b) && decide ((m.buf i).holder = some t)

/-- `bget` up to the lock (`bio.c:55`). -/
def Mach.bget (m : Mach N) (t : Fin N) (b : Nat) (p : K Unit) : Option (Mach N) :=
  match m.cached b with
  | some i => some ((m.setBuf i { m.buf i with refcnt := (m.buf i).refcnt + 1 }).setThr t p (.got i))
  | none =>
    match m.victim with
    | some i => some ((m.setBuf i { m.buf i with block := some b, valid := false, refcnt := 1 }).setThr t p (.got i))
    | none => none

def Mach.acquire (m : Mach N) (t : Fin N) (p : K Unit) (i : Nat) : Option (Mach N) :=
  if (m.buf i).holder = none then some ((m.setBuf i { m.buf i with holder := some t }).setThr t p (.locked i)) else none

/-- `bread` with the lock: the block is read unless the buffer is valid. -/
def Mach.fill (m : Mach N) (t : Fin N) (i b : Nat) (k : Block → K Unit) : Mach N :=
  if (m.buf i).valid then m.setThr t (k (m.buf i).data) .no
  else (m.setBuf i { m.buf i with valid := true, data := m.disk b }).setThr t (k (m.disk b)) .no

def Mach.unref (m : Mach N) (t : Fin N) (i : Nat) (p : K Unit) : Mach N :=
  let m' := (m.setBuf i { m.buf i with refcnt := (m.buf i).refcnt - 1 }).setThr t p .no
  if (m.buf i).refcnt - 1 = 0 then { m' with lru := i :: m.lru.erase i } else m'

/-- An operation of `log.c` on `struct log`. -/
def Mach.setLog (m : Mach N) (l : Log) : Mach N := { m with log := l }

def Mach.exec (m : Mach N) (t : Fin N) (full : Bool) : K Unit → Option (Mach N)
  | .ret _ => none
  | .panic _ => none
  | .op (.inl (.bread b)) k => m.bget t b (.op (.inl (.bread b)) k)
  | .op (.inl (.store b x)) k =>
    (m.heldBy t b).map fun i => (m.setBuf i { m.buf i with data := x }).setThr t (k ()) .no
  | .op (.inl (.logWrite b)) k =>
    match m.heldBy t b, LogLayer.logWrite m.log b with
    | some i, .ok (l, new) =>
      some (((m.setBuf i { m.buf i with refcnt := (m.buf i).refcnt + if new then 1 else 0 }).setLog l).setThr t (k ()) .no)
    | _, _ => none
  | .op (.inl (.brelse b)) k =>
    (m.heldBy t b).map fun i => (m.setBuf i { m.buf i with holder := none }).setThr t (.op (.inl (.brelse b)) k) (.freed i)
  | .op (.inl (.itable f)) k => some ({ m with itable := f m.itable }.setThr t (k m.itable) .no)
  | .op (.inl .full) k => some (m.setThr t (k full) .no)
  | .op (.inr (.bwrite b)) k =>
    (m.heldBy t b).map fun i => { m with disk := Function.update m.disk b (m.buf i).data }.setThr t (k ()) .no
  | .op (.inr (.bunpin b)) k =>
    (m.heldBy t b).map fun i => (m.setBuf i { m.buf i with refcnt := (m.buf i).refcnt - 1 }).setThr t (k ()) .no
  | .op (.inr .beginOp) k => (LogLayer.beginOp m.log).map fun l => (m.setLog l).setThr t (k ()) .no
  | .op (.inr .endOp) k =>
    match LogLayer.endOp m.log with
    | .ok (l, true) => some ((m.setLog l).setThr t (k (some l.lh)) .no)
    | .ok (l, false) => some ((m.setLog l).setThr t (k none) .no)
    | .error _ => none
  | .op (.inr (.loadHead lh)) k => some ((m.setLog { m.log with lh := lh }).setThr t (k ()) .no)
  | .op (.inr .clearHead) k => some ((m.setLog { m.log with lh := [] }).setThr t (k ()) .no)
  | .op (.inr .finish) k =>
    some ({ m with log := { m.log with committing := false }, booting := false }.setThr t (k ()) .no)

/-- A step of the machine; `none` if it is not possible. -/
def Mach.step (sb : Super) (m : Mach N) : Ev N → Option (Mach N)
  | .start t k =>
    match m.booting, m.thr t with
    | false, ⟨.ret _, .no⟩ => some (m.setThr t (k.prog sb) .no)
    | _, _ => none
  | .step t full =>
    match m.thr t with
    | ⟨p, .no⟩ => m.exec t full p
    | ⟨p, .got i⟩ => m.acquire t p i
    | ⟨.op (.inl (.bread b)) k, .locked i⟩ => some (m.fill t i b k)
    | ⟨.op (.inl (.brelse _)) k, .freed i⟩ => some (m.unref t i (k ()))
    | _ => none

/-- Power on: nothing is cached, and the first thread begins the recovery. -/
def Mach.boot (sb : Super) (disk : Nat → Block) (t0 : Fin N) : Mach N where
  buf _ := ⟨none, false, 0, none, fun _ => 0⟩
  lru := (List.range NBUF).reverse
  log := ⟨sb.logstart, sb.nlog, 0, false, []⟩
  disk := disk
  itable _ := {}
  thr t := ⟨if t = t0 then recoverFromLog sb.logstart else .ret (), .no⟩
  booting := true

end

end Xv6.Bio
