import Mathlib.Data.List.FinRange
import Xv6.Lib.Prog
import Xv6.Fs.Layout

/-!
# Blocks, inodes and directories (`kernel/fs.c`)

The functions of `fs.c` as programs over the buffer cache, the log and the in-memory inode table. A buffer is
written in two steps as in the source: the holder stores into its data, then passes it to `log_write`. What
`either_copyin` and `either_copyout` do with a user buffer is a parameter.
-/

namespace Xv6.Fs

open Bytes
open Prog (perform)

def NINODE : Nat := 50
def DIRSIZ : Nat := 14
def ROOTINO : Nat := 1

def T_DIR : UInt16 := 1
def T_FILE : UInt16 := 2
def T_DEVICE : UInt16 := 3

/-- `struct inode` (`file.h:17`) without `dev` and its lock. -/
@[ext] structure Inode where
  inum : Nat := 0
  ref : Nat := 0
  valid : Bool := false
  d : Dinode := {}

abbrev Itable := Nat → Inode

inductive Op : Type → Type
  /-- `bread`: the buffer of block `b` is locked and its data returned. -/
  | bread (b : Nat) : Op Block
  /-- The holder of the buffer of `b` sets its data. -/
  | store (b : Nat) (x : Block) : Op Unit
  | logWrite (b : Nat) : Op Unit
  | brelse (b : Nat) : Op Unit
  /-- One access to the inode table; the answer is the table before it. -/
  | itable (f : Itable → Itable) : Op Itable
  /-- Does `balloc` report a full disk at this call? -/
  | full : Op Bool

abbrev M := Prog Op

def bread (b : Nat) : M Block := perform (.bread b)
def store (b : Nat) (x : Block) : M Unit := perform (.store b x)
def logWrite (b : Nat) : M Unit := perform (.logWrite b)
def brelse (b : Nat) : M Unit := perform (.brelse b)

def iat (ip : Nat) : M Inode := do
  let t ← perform (.itable id)
  return t ip

def iset (ip : Nat) (f : Inode → Inode) : M Unit := do
  let _ ← perform (.itable fun t => Function.update t ip (f (t ip)))
  return ()

/-! ## Blocks -/

/-- Write a changed buffer: `log_write(bp); brelse(bp)`. -/
def commitBuf (b : Nat) (x : Block) : M Unit := do
  store b x
  logWrite b
  brelse b

/-- `fs.c:50`. -/
def bzero (bno : Nat) : M Unit := do
  let _ ← bread bno
  commitBuf bno fun _ => 0

@[irreducible] def freeBit (sb : Super) (b : Nat) (x : Block) : Option Nat :=
  (List.range BPB).find? fun bi => decide (b + bi < sb.size) && !bitAt x bi

/-- The outer loop of `balloc` over the blocks of the free map (`fs.c:71`). -/
def ballocFrom (sb : Super) : List Nat → M Nat
  | [] => return 0
  | b :: bs => do
    let x ← bread (sb.bblock b)
    match freeBit sb b x with
    | some bi =>
      commitBuf (sb.bblock b) (setBit x bi)
      bzero (b + bi)
      return b + bi
    | none =>
      brelse (sb.bblock b)
      ballocFrom sb bs

def Super.maps (sb : Super) : List Nat := (List.range ((sb.size + BPB - 1) / BPB)).map (· * BPB)

/-- `fs.c:65`. The disk may be reported full at any call. -/
def balloc (sb : Super) : M Nat := do
  if ← perform .full then return 0
  ballocFrom sb sb.maps

/-- `fs.c:91`. -/
def bfree (sb : Super) (b : Nat) : M Unit := do
  let x ← bread (sb.bblock b)
  if !bitAt x (b % BPB) then
    .panic "freeing free block"
  else
    commitBuf (sb.bblock b) (clearBit x (b % BPB))

/-! ## Inodes -/

/-- The entry that holds inode `inum`. -/
def igetFind (t : Itable) (inum : Nat) : Option Nat :=
  (List.range NINODE).find? fun k => decide (0 < (t k).ref) && decide ((t k).inum = inum)

def igetEmpty (t : Itable) : Option Nat := (List.range NINODE).find? fun k => decide ((t k).ref = 0)

/-- The entry `iget` returns (`fs.c:243`). -/
def igetSlot (t : Itable) (inum : Nat) : Option Nat :=
  match igetFind t inum with
  | some k => some k
  | none => igetEmpty t

def igetTable (inum : Nat) (t : Itable) : Itable :=
  match igetFind t inum with
  | some k => Function.update t k { t k with ref := (t k).ref + 1 }
  | none => match igetEmpty t with
    | some k => Function.update t k { t k with inum := inum, ref := 1, valid := false }
    | none => t

def iget (inum : Nat) : M Nat := do
  let t ← perform (.itable (igetTable inum))
  match igetSlot t inum with
  | some k => return k
  | none => .panic "iget: no inodes"

def idup (ip : Nat) : M Nat := do
  iset ip fun t => { t with ref := t.ref + 1 }
  return ip

/-- The loop of `ialloc` (`fs.c:204`). -/
def iallocFrom (sb : Super) (type : UInt16) : List Nat → M (Option Nat)
  | [] => return none
  | inum :: is => do
    let x ← bread (sb.iblock inum)
    if (getDinode x inum).type = 0 then
      commitBuf (sb.iblock inum) (putDinode x inum { type := type })
      return some (← iget inum)
    else
      brelse (sb.iblock inum)
      iallocFrom sb type is

/-- `fs.c:198`. -/
def ialloc (sb : Super) (type : UInt16) : M (Option Nat) := iallocFrom sb type ((List.range sb.ninodes).drop 1)

/-- `fs.c:226`. -/
def iupdate (sb : Super) (ip : Nat) : M Unit := do
  let t ← iat ip
  let x ← bread (sb.iblock t.inum)
  commitBuf (sb.iblock t.inum) (putDinode x t.inum t.d)

/-- `fs.c:292`. -/
def ilock (sb : Super) (ip : Nat) : M Unit := do
  let t ← iat ip
  if t.ref < 1 then
    .panic "ilock"
  else if t.valid then
    return ()
  else
    let x ← bread (sb.iblock t.inum)
    brelse (sb.iblock t.inum)
    iset ip fun t => { t with d := getDinode x t.inum, valid := true }
    if (getDinode x t.inum).type = 0 then .panic "ilock: no type" else return ()

/-- `fs.c:321`. -/
def iunlock (ip : Nat) : M Unit := do
  let t ← iat ip
  if t.ref < 1 then .panic "iunlock" else return ()

/-! ## Inode content -/

def Dinode.setAddr (d : Dinode) (k : Fin (NDIRECT + 1)) (a : Nat) : Dinode :=
  { d with addrs := Function.update d.addrs k (UInt32.ofNat a) }

def indirect : Fin (NDIRECT + 1) := ⟨NDIRECT, by decide⟩

def mapAddr (sb : Super) (ip : Nat) (k : Fin (NDIRECT + 1)) : M Nat := do
  let addr := ((← iat ip).d.addrs k).toNat
  if addr = 0 then
    let addr ← balloc sb
    if addr = 0 then return 0
    iset ip fun t => { t with d := t.d.setAddr k addr }
    return addr
  else
    return addr

/-- The entry `j` of the indirect block `a`, filled if it is 0 (`fs.c:402`). -/
def mapEntry (sb : Super) (a j : Nat) : M Nat := do
  let x ← bread a
  let addr := getEnt x j
  if addr = 0 then
    let addr ← balloc sb
    if addr ≠ 0 then
      store a (putEnt x j addr)
      logWrite a
    brelse a
    return addr
  else
    brelse a
    return addr

/-- `fs.c:383`. -/
def bmap (sb : Super) (ip : Nat) (bn : Nat) : M Nat := do
  if h : bn < NDIRECT then
    mapAddr sb ip ⟨bn, by omega⟩
  else if bn - NDIRECT < NINDIRECT then
    let a ← mapAddr sb ip indirect
    if a = 0 then return 0
    mapEntry sb a (bn - NDIRECT)
  else
    .panic "bmap: out of range"

/-- The loop of `itrunc` over the direct blocks (`fs.c:430`). -/
def truncDirect (sb : Super) (ip : Nat) : List (Fin (NDIRECT + 1)) → M Unit
  | [] => return ()
  | k :: ks => do
    let addr := ((← iat ip).d.addrs k).toNat
    if addr ≠ 0 then
      bfree sb addr
      iset ip fun t => { t with d := t.d.setAddr k 0 }
    truncDirect sb ip ks

/-- The loop of `itrunc` over the entries of the indirect block (`fs.c:440`). -/
def truncEntries (sb : Super) (x : Block) : List Nat → M Unit
  | [] => return ()
  | j :: js => do
    if getEnt x j ≠ 0 then bfree sb (getEnt x j)
    truncEntries sb x js

/-- The indirect block and its entries (`fs.c:437`). -/
def truncIndirect (sb : Super) (ip : Nat) : M Unit := do
  let a := ((← iat ip).d.addrs indirect).toNat
  if a ≠ 0 then
    let x ← bread a
    truncEntries sb x (List.range NINDIRECT)
    brelse a
    bfree sb a
    iset ip fun t => { t with d := t.d.setAddr indirect 0 }

/-- `fs.c:423`. -/
def itrunc (sb : Super) (ip : Nat) : M Unit := do
  truncDirect sb ip ((List.finRange NDIRECT).map Fin.castSucc)
  truncIndirect sb ip
  iset ip fun t => { t with d := { t.d with size := 0 } }
  iupdate sb ip

/-- The last reference to an inode that has no links is going away (`fs.c:341`). -/
def Inode.Frees (t : Inode) : Prop := t.ref = 1 ∧ t.valid = true ∧ t.d.nlink = 0

instance (t : Inode) : Decidable t.Frees := inferInstanceAs (Decidable (_ ∧ _ ∧ _))

/-- `fs.c:336`. -/
def iput (sb : Super) (ip : Nat) : M Unit := do
  let t ← iat ip
  if t.Frees then
    itrunc sb ip
    iset ip fun t => { t with d := { t.d with type := 0 } }
    iupdate sb ip
    iset ip fun t => { t with valid := false }
  iset ip fun t => { t with ref := t.ref - 1 }

def iunlockput (sb : Super) (ip : Nat) : M Unit := do
  iunlock ip
  iput sb ip

/-- Bytes `off .. off + n` of a block. -/
def bytesAt (x : Block) (off n : Nat) : List UInt8 := (List.range n).map fun i => byteAt x (off + i)

def readLoop (sb : Super) (ip : Nat) (co : Nat → List UInt8 → Bool) (n : Nat) :
    Nat → Nat → Nat → List UInt8 → M (Option Nat × List UInt8)
  | 0, tot, _, acc => return (some tot, acc)
  | fuel + 1, tot, off, acc => do
    if tot < n then
      let addr ← bmap sb ip (off / BSIZE)
      if addr = 0 then return (some tot, acc)
      let x ← bread addr
      let m := min (n - tot) (BSIZE - off % BSIZE)
      let bs := bytesAt x (off % BSIZE) m
      brelse addr
      if co tot bs then readLoop sb ip co n fuel (tot + m) (off + m) (acc ++ bs)
      else return (none, acc)
    else
      return (some tot, acc)

def readi (sb : Super) (ip : Nat) (co : Nat → List UInt8 → Bool) (off n : UInt32) :
    M (Option Nat × List UInt8) := do
  let size := (← iat ip).d.size
  if off > size ∨ off + n < off then return (some 0, [])
  let n := if off + n > size then size - off else n
  readLoop sb ip co n.toNat n.toNat 0 off.toNat []

structure Src where
  copy : Nat → Nat → List UInt8 × Bool
  length_le : ∀ tot m, (copy tot m).1.length ≤ m

def kernelSrc (src : Nat → UInt8) : Src where
  copy tot m := ((List.range m).map fun i => src (tot + i), true)
  length_le tot m := by simp

/-- A copy that fails has stored nothing. -/
def WholeAt (cp : Src) (tot m : Nat) : Prop := (cp.copy tot m).2 = true ∨ (cp.copy tot m).1 = []

def Whole (cp : Src) (off n : Nat) : Prop :=
  ∀ tot < n, tot = 0 ∨ (off + tot) % BSIZE = 0 → WholeAt cp tot (min (n - tot) (BSIZE - (off + tot) % BSIZE))

theorem whole_kernelSrc (src : Nat → UInt8) (off n : Nat) : Whole (kernelSrc src) off n := fun _ _ _ => .inl rfl

/-- The loop of `writei` (`fs.c:516`), with `tot` and `off` after it. -/
def writeLoop (sb : Super) (ip : Nat) (cp : Src) (n : Nat) :
    Nat → Nat → Nat → M (Nat × Nat)
  | 0, tot, off => return (tot, off)
  | fuel + 1, tot, off => do
    if tot < n then
      let addr ← bmap sb ip (off / BSIZE)
      if addr = 0 then return (tot, off)
      let x ← bread addr
      let m := min (n - tot) (BSIZE - off % BSIZE)
      store addr (put x (off % BSIZE) (cp.copy tot m).1)
      if (cp.copy tot m).2 then
        logWrite addr
        brelse addr
        writeLoop sb ip cp n fuel (tot + m) (off + m)
      else
        brelse addr
        return (tot, off)
    else
      return (tot, off)

/-- `fs.c:505`; `none` is the result `-1`. -/
def writei (sb : Super) (ip : Nat) (cp : Src) (off n : UInt32) : M (Option Nat) := do
  let size := (← iat ip).d.size
  if off > size ∨ off + n < off then return none
  if (off + n).toNat > MAXFILE * BSIZE then return none
  let (tot, off) ← writeLoop sb ip cp n.toNat n.toNat 0 off.toNat
  if off > size.toNat then iset ip fun t => { t with d := { t.d with size := UInt32.ofNat off } }
  iupdate sb ip
  return some tot

/-! ## Directories -/

def strncmpEq : Nat → List UInt8 → List UInt8 → Bool
  | 0, _, _ => true
  | n + 1, s, t =>
    if s.headD 0 ≠ t.headD 0 then false
    else if s.headD 0 = 0 then true
    else strncmpEq n s.tail t.tail

def namecmpEq (s t : List UInt8) : Bool := strncmpEq DIRSIZ s t

def strncpy : Nat → List UInt8 → List UInt8
  | 0, _ => []
  | n + 1, s => if s.headD 0 = 0 then List.replicate (n + 1) 0 else s.headD 0 :: strncpy n s.tail

def DIRENT : Nat := 16

/-- The bytes of the `struct dirent` that `dirlink` writes. -/
def dirent (inum : Nat) (name : List UInt8) : List UInt8 := le16 inum ++ strncpy DIRSIZ name

def direntInum (bs : List UInt8) : Nat := (bs.getD 0 0).toNat + 256 * (bs.getD 1 0).toNat

/-- Read the `struct dirent` at `off`; a short read panics. -/
def readDirent (sb : Super) (dp off : Nat) (msg : String) : M (List UInt8) := do
  let (r, bs) ← readi sb dp (fun _ _ => true) (UInt32.ofNat off) (UInt32.ofNat DIRENT)
  if r ≠ some DIRENT then .panic msg else return bs

/-- The loop of `dirlookup` (`fs.c:560`): the entry found and its offset. -/
def dirlookupFrom (sb : Super) (dp : Nat) (name : List UInt8) : Nat → Nat → M (Option (Nat × Nat))
  | 0, _ => return none
  | fuel + 1, off => do
    if off < (← iat dp).d.size.toNat then
      let bs ← readDirent sb dp off "dirlookup read"
      if direntInum bs ≠ 0 ∧ namecmpEq name (bs.drop 2) then
        return some (← iget (direntInum bs), off)
      else
        dirlookupFrom sb dp name fuel (off + DIRENT)
    else
      return none

/-- `fs.c:552`. A directory of `size` bytes is read in `size / DIRENT + 1` passes. -/
def dirlookup (sb : Super) (dp : Nat) (name : List UInt8) : M (Option (Nat × Nat)) := do
  let t ← iat dp
  if t.d.type ≠ T_DIR then .panic "dirlookup not DIR"
  else dirlookupFrom sb dp name (t.d.size.toNat / DIRENT + 1) 0

/-- The search of `dirlink` for an empty entry (`fs.c:592`). -/
def emptyFrom (sb : Super) (dp : Nat) : Nat → Nat → M Nat
  | 0, off => return off
  | fuel + 1, off => do
    if off < (← iat dp).d.size.toNat then
      let bs ← readDirent sb dp off "dirlink read"
      if direntInum bs = 0 then return off else emptyFrom sb dp fuel (off + DIRENT)
    else
      return off

/-- `fs.c:580`; `false` is the result `-1`. -/
def dirlink (sb : Super) (dp : Nat) (name : List UInt8) (inum : Nat) : M Bool := do
  match ← dirlookup sb dp name with
  | some (ip, _) =>
    iput sb ip
    return false
  | none =>
    let off ← emptyFrom sb dp ((← iat dp).d.size.toNat / DIRENT + 1) 0
    let r ← writei sb dp (kernelSrc fun i => (dirent inum name).getD i 0) (UInt32.ofNat off) (UInt32.ofNat DIRENT)
    return r = some DIRENT

end Xv6.Fs
