import Xv6.Vm.Table

/-!
# The memory of a process (`kernel/vm.c`, `kernel/proc.c`, `kernel/exec.c`)

What `sbrk`, `fork`, `exec` and `wait` do to memory. A process is its trapframe page, its page table and its size. A loop of the source
is a function of the number of rounds it may make at most.
-/

namespace Xv6.Vm

open Prog

abbrev Byte := BitVec 8

def PGROUNDDOWN (a : Word) : Word := a &&& ~~~(PGSIZE - 1)

/-- The value of `w` after its conversion to `int` and back. -/
def toInt (w : Word) : Word := (w.setWidth 32).signExtend 64

/-! ## `vm.c` -/

/-- `vm.c:252`. -/
def uvmdealloc (pagetable oldsz newsz : Word) : V Word :=
  if newsz ≥ oldsz then return oldsz
  else if PGROUNDUP newsz < PGROUNDUP oldsz then do
    uvmunmap pagetable (PGROUNDUP newsz) (toInt ((PGROUNDUP oldsz - PGROUNDUP newsz) / PGSIZE)) true
    return newsz
  else return newsz

def allocFrom (pagetable oldsz newsz xperm : Word) : Nat → Word → V Word
  | 0, a => if a < newsz then Prog.panic "more rounds" else return newsz
  | fuel + 1, a =>
    if a < newsz then do
      match ← kalloc with
      | none =>
        let _ ← uvmdealloc pagetable a oldsz
        return 0
      | some mem =>
        memset mem 0
        if (← mappages pagetable a PGSIZE mem (PTE_R ||| PTE_U ||| xperm)) ≠ 0 then
          kfree mem
          let _ ← uvmdealloc pagetable a oldsz
          return 0
        else allocFrom pagetable oldsz newsz xperm fuel (a + PGSIZE)
    else return newsz

/-- `vm.c:223`. -/
def uvmalloc (pagetable oldsz newsz xperm : Word) : V Word :=
  if newsz < oldsz then return oldsz
  else allocFrom pagetable (PGROUNDUP oldsz) newsz xperm (((newsz - PGROUNDUP oldsz) / PGSIZE).toNat + 1) (PGROUNDUP oldsz)

@[irreducible] def entries : List Nat := List.range 512

def freeEntries (freewalk : Word → V Unit) (pagetable : Word) : List Nat → V Unit
  | [] => return ()
  | i :: is => do
    let pte ← load pagetable i
    if pte &&& PTE_V ≠ 0 ∧ pte &&& (PTE_R ||| PTE_W ||| PTE_X) = 0 then
      freewalk (PTE2PA pte)
      store pagetable i 0
      freeEntries freewalk pagetable is
    else if pte &&& PTE_V ≠ 0 then Prog.panic "freewalk: leaf"
    else freeEntries freewalk pagetable is

/-- `vm.c:267`, for a table of at most the given number of levels. -/
def freewalk : Nat → Word → V Unit
  | 0, _ => Prog.panic "more levels"
  | levels + 1, pagetable => do
    freeEntries (freewalk levels) pagetable entries
    kfree pagetable

/-- `vm.c:285`. -/
def uvmfree (pagetable sz : Word) : V Unit := do
  if sz > 0 then
    uvmunmap pagetable 0 (PGROUNDUP sz / PGSIZE) true
    freewalk 3 pagetable
  else freewalk 3 pagetable

def copyFrom (old new sz : Word) : Nat → Word → V Int
  | 0, i => if i < sz then Prog.panic "more rounds" else return 0
  | fuel + 1, i =>
    if i < sz then do
      match ← walk old i false with
      | none => Prog.panic "uvmcopy: pte should exist"
      | some (pt, j) =>
        let pte ← load pt j
        if pte &&& PTE_V = 0 then Prog.panic "uvmcopy: page not present"
        else
          match ← kalloc with
          | none =>
            uvmunmap new 0 (i / PGSIZE) true
            return -1
          | some mem =>
            memmove mem (PTE2PA pte)
            if (← mappages new i PGSIZE mem (PTE_FLAGS pte)) ≠ 0 then
              kfree mem
              uvmunmap new 0 (i / PGSIZE) true
              return -1
            else copyFrom old new sz fuel (i + PGSIZE)
    else return 0

/-- `vm.c:296`. -/
def uvmcopy (old new sz : Word) : V Int := copyFrom old new sz ((sz / PGSIZE).toNat + 1) 0

/-- The loop of `copyout`: `src` holds the bytes left. -/
def copyoutFrom (pagetable : Word) : Nat → Word → List Byte → V Int
  | 0, _, src => if src = [] then return 0 else Prog.panic "more rounds"
  | fuel + 1, dstva, src =>
    if src = [] then return 0
    else do
      let va0 := PGROUNDDOWN dstva
      if va0 ≥ MAXVA then return -1
      else
        match ← walk pagetable va0 false with
        | none => return -1
        | some (pt, i) =>
          let pte ← load pt i
          if pte &&& PTE_V = 0 ∨ pte &&& PTE_U = 0 ∨ pte &&& PTE_W = 0 then return -1
          else
            let off := (dstva - va0).toNat
            let n := min (4096 - off) src.length
            write (PTE2PA pte) off (src.take n)
            copyoutFrom pagetable fuel (va0 + PGSIZE) (src.drop n)

/-- `vm.c:339`. -/
def copyout (pagetable dstva : Word) (src : List Byte) : V Int := copyoutFrom pagetable src.length dstva src

def loadByte (pa : Word) (off : Nat) : V Byte := do
  let w ← load pa (off / 8)
  return (w >>> (8 * (off % 8))).setWidth 8

def readBytes (pa : Word) : Nat → Nat → V (List Byte)
  | _, 0 => return []
  | off, n + 1 => do
    let c ← loadByte pa off
    return c :: (← readBytes pa (off + 1) n)

def copyinFrom (pagetable : Word) : Nat → Word → Nat → List Byte → V (Int × List Byte)
  | 0, _, len, dst => if len = 0 then return (0, dst) else Prog.panic "more rounds"
  | fuel + 1, srcva, len, dst =>
    if len = 0 then return (0, dst)
    else do
      let va0 := PGROUNDDOWN srcva
      let pa0 ← walkaddr pagetable va0
      if pa0 = 0 then return (-1, dst)
      else
        let off := (srcva - va0).toNat
        let n := min (4096 - off) len
        let bytes ← readBytes pa0 off n
        copyinFrom pagetable fuel (va0 + PGSIZE) (len - n) (dst ++ bytes)

/-- `vm.c:366`: the result, and the bytes that reach the kernel's buffer. -/
def copyin (pagetable srcva len : Word) : V (Int × List Byte) := copyinFrom pagetable len.toNat srcva len.toNat []

def scanStr (pa : Word) : Nat → Nat → List Byte → V (Bool × List Byte)
  | _, 0, dst => return (false, dst)
  | off, n + 1, dst => do
    let c ← loadByte pa off
    if c = 0 then return (true, dst ++ [0]) else scanStr pa (off + 1) n (dst ++ [c])

/-- The outer loop of `copyinstr`, which ends at once when it got the NUL. -/
def copyinstrFrom (pagetable : Word) : Nat → Word → Nat → List Byte → V (Int × List Byte)
  | 0, _, max, dst => if max = 0 then return (-1, dst) else Prog.panic "more rounds"
  | fuel + 1, srcva, max, dst =>
    if max = 0 then return (-1, dst)
    else do
      let va0 := PGROUNDDOWN srcva
      let pa0 ← walkaddr pagetable va0
      if pa0 = 0 then return (-1, dst)
      else
        let off := (srcva - va0).toNat
        let n := min (4096 - off) max
        let r ← scanStr pa0 off n dst
        if r.1 then return (0, r.2) else copyinstrFrom pagetable fuel (va0 + PGSIZE) (max - n) r.2

/-- `vm.c:391`: the result, and the bytes that reach the kernel's buffer. -/
def copyinstr (pagetable srcva max : Word) : V (Int × List Byte) := copyinstrFrom pagetable max.toNat srcva max.toNat []

/-! ## `proc.c` -/

section
variable (trampoline : Word)

/-- `proc.c:168`, with the trapframe of the process. -/
def procPagetable (trapframe : Word) : V (Option Word) := do
  match ← uvmcreate with
  | none => return none
  | some pagetable =>
    if (← mappages pagetable TRAMPOLINE PGSIZE trampoline (PTE_R ||| PTE_X)) < 0 then
      uvmfree pagetable 0
      return none
    else if (← mappages pagetable TRAPFRAME PGSIZE trapframe (PTE_R ||| PTE_W)) < 0 then
      uvmunmap pagetable TRAMPOLINE 1 false
      uvmfree pagetable 0
      return none
    else return some pagetable

/-- `proc.c:199`. -/
def procFreepagetable (pagetable sz : Word) : V Unit := do
  uvmunmap pagetable TRAMPOLINE 1 false
  uvmunmap pagetable TRAPFRAME 1 false
  uvmfree pagetable sz

/-- The memory of a process, and its name. -/
structure Proc where
  trapframe : Word
  pagetable : Word
  sz : Word
  name : List Byte

/-- The string that `safestrcpy(s, t, n)` leaves in `s`. -/
def safestrcpy (t : List Byte) (n : Nat) : List Byte := t.take (n - 1)

/-- `proc.c:148`, for a process with a trapframe. -/
def freeproc (trapframe : Word) (pagetable : Option Word) (sz : Word) : V Unit := do
  kfree trapframe
  match pagetable with
  | some pagetable => procFreepagetable pagetable sz
  | none => return ()

/-- `proc.c:101`, once a slot is found; `none` if `kalloc` fails. -/
def allocproc : V (Option Proc) := do
  match ← kalloc with
  | none => return none
  | some trapframe =>
    match ← procPagetable trampoline trapframe with
    | none =>
      freeproc trapframe none 0
      return none
    | some pagetable => return some ⟨trapframe, pagetable, 0, []⟩

/-- `proc.c:247`. -/
def growproc (p : Proc) (n : BitVec 32) : V (Int × Proc) := do
  if n.toInt > 0 then
    let sz ← uvmalloc p.pagetable p.sz (p.sz + n.signExtend 64) PTE_W
    if sz = 0 then return (-1, p) else return (0, { p with sz := sz })
  else if n.toInt < 0 then
    let sz ← uvmdealloc p.pagetable p.sz (p.sz + n.signExtend 64)
    return (0, { p with sz := sz })
  else return (0, p)

/-- `*(np->trapframe) = *(p->trapframe)`, word by word from `i` on. -/
def copyTrapframe (dst src : Word) : List Nat → V Unit
  | [] => return ()
  | i :: is => do
    store dst i (← load src i)
    copyTrapframe dst src is

/-- What `fork` does to memory (`proc.c:264`); `none` if it returns -1. -/
def fork (p : Proc) : V (Option Proc) := do
  match ← allocproc trampoline with
  | none => return none
  | some np =>
    if (← uvmcopy p.pagetable np.pagetable p.sz) < 0 then
      freeproc np.trapframe (some np.pagetable) np.sz
      return none
    else
      copyTrapframe np.trapframe p.trapframe (List.range 36)
      store np.trapframe 14 0
      return some { np with sz := p.sz, name := safestrcpy p.name 16 }

def initname : List Byte := [0x69, 0x6e, 0x69, 0x74, 0x63, 0x6f, 0x64, 0x65]

def userinit (initcode : List Byte) : V (Option Proc) := do
  match ← allocproc trampoline with
  | none => return none
  | some p =>
    match ← kalloc with
    | none => return none
    | some mem =>
      memset mem 0
      if (← mappages p.pagetable 0 PGSIZE mem (PTE_W ||| PTE_R ||| PTE_X ||| PTE_U)) ≠ 0 then return none
      else
        write mem 0 initcode
        store p.trapframe 3 0
        store p.trapframe 6 PGSIZE
        return some { p with sz := PGSIZE, name := initname }

/-! ## `exec.c` -/

/-- `readi` (`fs.c:471`) of an inode with the given bytes. -/
def readi (file : List Byte) (off n : BitVec 32) : List Byte :=
  if off.toNat > file.length ∨ off + n < off then [] else (file.drop off.toNat).take n.toNat

/-- The little-endian number in `n` bytes from `off` on. -/
def field (bytes : List Byte) (off n : Nat) : Nat := ((bytes.drop off).take n).foldr (fun b acc => b.toNat + 256 * acc) 0

structure Proghdr where
  type : BitVec 32
  flags : BitVec 32
  off : Word
  vaddr : Word
  filesz : Word
  memsz : Word
  deriving DecidableEq

def Proghdr.parse (bytes : List Byte) : Proghdr where
  type := BitVec.ofNat 32 (field bytes 0 4)
  flags := BitVec.ofNat 32 (field bytes 4 4)
  off := BitVec.ofNat 64 (field bytes 8 8)
  vaddr := BitVec.ofNat 64 (field bytes 16 8)
  filesz := BitVec.ofNat 64 (field bytes 32 8)
  memsz := BitVec.ofNat 64 (field bytes 40 8)

/-- `exec.c:12`. -/
def flags2perm (flags : BitVec 32) : Word :=
  (if flags &&& 1 ≠ 0 then PTE_X else 0) ||| (if flags &&& 2 ≠ 0 then PTE_W else 0)

/-- The loop of `loadseg` (`exec.c:146`). -/
def loadFrom (pagetable va : Word) (file : List Byte) (offset sz : BitVec 32) : Nat → BitVec 32 → V Int
  | 0, i => if i < sz then Prog.panic "more rounds" else return 0
  | fuel + 1, i =>
    if i < sz then do
      let pa ← walkaddr pagetable (va + i.zeroExtend 64)
      if pa = 0 then Prog.panic "loadseg: address should exist"
      else
        let n : BitVec 32 := if sz - i < 4096 then sz - i else 4096
        let bytes := readi file (offset + i) n
        write pa 0 bytes
        if bytes.length ≠ n.toNat then return -1
        else loadFrom pagetable va file offset sz fuel (i + 4096)
    else return 0

def loadseg (pagetable va : Word) (file : List Byte) (offset sz : BitVec 32) : V Int :=
  loadFrom pagetable va file offset sz (sz.toNat / 4096 + 1) 0

def loadAll (pagetable : Word) (file : List Byte) : Nat → BitVec 32 → Word → V (Bool × Word)
  | 0, _, sz => return (true, sz)
  | phnum + 1, off, sz =>
    let bytes := readi file off 56
    let ph := Proghdr.parse bytes
    if bytes.length ≠ 56 then return (false, sz)
    else if ph.type ≠ 1 then loadAll pagetable file phnum (off + 56) sz
    else if ph.memsz < ph.filesz then return (false, sz)
    else if ph.vaddr + ph.memsz < ph.vaddr then return (false, sz)
    else if ph.vaddr % PGSIZE ≠ 0 then return (false, sz)
    else do
      let sz1 ← uvmalloc pagetable sz (ph.vaddr + ph.memsz) (flags2perm ph.flags)
      if sz1 = 0 then return (false, sz)
      else if (← loadseg pagetable ph.vaddr file (ph.off.setWidth 32) (ph.filesz.setWidth 32)) < 0 then return (false, sz1)
      else loadAll pagetable file phnum (off + 56) sz1

def MAXARG : Nat := 32
def USERSTACK : Word := 1

def pushArgs (pagetable stackbase : Word) : List (List Byte) → Nat → Word → List Word → V (Option (Word × List Word))
  | [], _, sp, ustack => return some (sp, ustack)
  | arg :: argv, argc, sp, ustack =>
    if argc ≥ MAXARG then return none
    else
      let sp := sp - BitVec.ofNat 64 (arg.length + 1)
      let sp := sp - sp % 16
      if sp < stackbase then return none
      else do
        if (← copyout pagetable sp (arg ++ [0])) < 0 then return none
        else pushArgs pagetable stackbase argv (argc + 1) sp (ustack ++ [sp])

def wordBytes (w : Word) : List Byte := (List.range 8).map fun j => (w >>> (8 * j)).setWidth 8

/-- A user image that is ready. -/
structure Image where
  pagetable : Word
  sz : Word
  sp : Word
  entry : Word

def loadImage (trapframe : Word) (file : Option (List Byte)) (argv : List (List Byte)) : V (Option Image) :=
  match file with
  | none => return none
  | some file =>
    let elf := readi file 0 64
    if elf.length ≠ 64 then return none
    else if field elf 0 4 ≠ 0x464C457F then return none
    else do
      match ← procPagetable trampoline trapframe with
      | none => return none
      | some pagetable =>
        let (ok, sz) ← loadAll pagetable file (field elf 56 2) (BitVec.ofNat 32 (field elf 32 8)) 0
        if ok = false then
          procFreepagetable pagetable sz
          return none
        else
          let sz := PGROUNDUP sz
          let sz1 ← uvmalloc pagetable sz (sz + (USERSTACK + 1) * PGSIZE) PTE_W
          if sz1 = 0 then
            procFreepagetable pagetable sz
            return none
          else
            let sz := sz1
            uvmclear pagetable (sz - (USERSTACK + 1) * PGSIZE)
            let stackbase := sz - USERSTACK * PGSIZE
            match ← pushArgs pagetable stackbase argv 0 sz [] with
            | none =>
              procFreepagetable pagetable sz
              return none
            | some (sp, ustack) =>
              let sp := sp - BitVec.ofNat 64 ((argv.length + 1) * 8)
              let sp := sp - sp % 16
              if sp < stackbase then
                procFreepagetable pagetable sz
                return none
              else if (← copyout pagetable sp ((ustack ++ [0]).flatMap wordBytes)) < 0 then
                procFreepagetable pagetable sz
                return none
              else return some ⟨pagetable, sz, sp, BitVec.ofNat 64 (field elf 24 8)⟩

def lastElem : List Byte → List Byte → List Byte
  | [], last => last
  | c :: s, last => lastElem s (if c = 0x2f then s else last)

/-- `exec.c:23`. -/
def exec (p : Proc) (path : List Byte) (file : Option (List Byte)) (argv : List (List Byte)) : V (Int × Proc) := do
  match ← loadImage trampoline p.trapframe file argv with
  | none => return (-1, p)
  | some im =>
    store p.trapframe 15 im.sp
    let name := safestrcpy (lastElem path path) 16
    store p.trapframe 3 im.entry
    store p.trapframe 6 im.sp
    procFreepagetable p.pagetable p.sz
    return (argv.length, { p with pagetable := im.pagetable, sz := im.sz, name := name })

end

end Xv6.Vm
