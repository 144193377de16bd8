import Mathlib.Logic.Function.Basic
import Xv6.Lib.Prog

/-!
# Page tables (`kernel/vm.c`, `kernel/kalloc.c`, `kernel/riscv.h`)

Physical memory is a page of 512 words for each page address. A page-table page holds 512 PTEs, and a `pagetable_t` is the address of
the page at level 2. The free list of `kalloc` is the list of its pages.
-/

namespace Xv6.Vm

open Prog

abbrev Word := BitVec 64

def PGSIZE : Word := 4096

def PTE_V : Word := 1
def PTE_R : Word := 2
def PTE_W : Word := 4
def PTE_X : Word := 8
def PTE_U : Word := 16

def PGROUNDUP (sz : Word) : Word := (sz + PGSIZE - 1) &&& ~~~(PGSIZE - 1)

@[irreducible] def PA2PTE (pa : Word) : Word := (pa >>> 12) <<< 10
@[irreducible] def PTE2PA (pte : Word) : Word := (pte >>> 10) <<< 12
@[irreducible] def PTE_FLAGS (pte : Word) : Word := pte &&& 0x3FF

def PX (level : Nat) (va : Word) : Nat := ((va >>> (12 + 9 * level)) &&& 0x1FF).toNat

def MAXVA : Word := 1 <<< 38
def TRAMPOLINE : Word := MAXVA - PGSIZE
def TRAPFRAME : Word := TRAMPOLINE - PGSIZE

def KERNBASE : Word := 0x80000000
def PHYSTOP : Word := KERNBASE + 128 * 1024 * 1024

/-! ## Memory -/

structure Mem where
  /-- The words of the page at an address. -/
  page : Word → Nat → Word
  /-- `kmem.freelist`. -/
  free : List Word
  /-- The first address after the kernel. -/
  kend : Word

inductive Op : Type → Type
  | load (pa : Word) (i : Nat) : Op Word
  | store (pa : Word) (i : Nat) (w : Word) : Op Unit
  /-- `memset(pa, c, PGSIZE)` -/
  | memset (pa : Word) (c : BitVec 8) : Op Unit
  /-- `memmove(dst, src, PGSIZE)` -/
  | memmove (dst src : Word) : Op Unit
  | write (pa : Word) (off : Nat) (bytes : List (BitVec 8)) : Op Unit
  | pop : Op (Option Word)
  | push (pa : Word) : Op Unit
  | kend : Op Word

/-- The word of a page filled with the byte `c`. -/
def filled (c : BitVec 8) : Word := c.zeroExtend 64 * 0x0101010101010101

def getByte (ws : Nat → Word) (a : Nat) : BitVec 8 := (ws (a / 8) >>> (8 * (a % 8))).setWidth 8

/-- The page with the bytes `f`. -/
def ofBytes (f : Nat → BitVec 8) (i : Nat) : Word :=
  (List.range 8).foldl (fun w j => w ||| ((f (8 * i + j)).setWidth 64 <<< (8 * j))) 0

def poke (ws : Nat → Word) (off : Nat) (bytes : List (BitVec 8)) : Nat → Word :=
  ofBytes fun a => if off ≤ a then bytes.getD (a - off) (getByte ws a) else getByte ws a

def Mem.set (m : Mem) (pa : Word) (ws : Nat → Word) : Mem := { m with page := Function.update m.page pa ws }

def machine : Handler Op Mem
  | _, .load pa i, m => .ok (m.page pa i, m)
  | _, .store pa i w, m => .ok ((), m.set pa (Function.update (m.page pa) i w))
  | _, .memset pa c, m => .ok ((), m.set pa fun _ => filled c)
  | _, .memmove dst src, m => .ok ((), m.set dst (m.page src))
  | _, .write pa off bytes, m => .ok ((), m.set pa (poke (m.page pa) off bytes))
  | _, .pop, m => .ok (m.free.head?, { m with free := m.free.tail })
  | _, .push pa, m => .ok ((), { m with free := pa :: m.free })
  | _, .kend, m => .ok (m.kend, m)

abbrev V := Prog Op

def load (pa : Word) (i : Nat) : V Word := perform (.load pa i)
def store (pa : Word) (i : Nat) (w : Word) : V Unit := perform (.store pa i w)
def memset (pa : Word) (c : BitVec 8) : V Unit := perform (.memset pa c)
def memmove (dst src : Word) : V Unit := perform (.memmove dst src)
def write (pa : Word) (off : Nat) (bytes : List (BitVec 8)) : V Unit := perform (.write pa off bytes)

section
variable {m : Mem} {X : String → Prop}

variable {pa : Word} {Q : Unit → Mem → Prop}

@[simp] theorem sat_load {i : Nat} {Q : Word → Mem → Prop} : Sat machine (load pa i) m Q X ↔ Q (m.page pa i) m := Iff.rfl

@[simp] theorem sat_store {w : Word} {i : Nat} :
    Sat machine (store pa i w) m Q X ↔ Q () (m.set pa (Function.update (m.page pa) i w)) := Iff.rfl

@[simp] theorem sat_memset {c : BitVec 8} :
    Sat machine (memset pa c) m Q X ↔ Q () (m.set pa fun _ => filled c) := Iff.rfl

@[simp] theorem sat_memmove {dst src : Word} :
    Sat machine (memmove dst src) m Q X ↔ Q () (m.set dst (m.page src)) := Iff.rfl

@[simp] theorem sat_write {off : Nat} {bytes : List (BitVec 8)} :
    Sat machine (write pa off bytes) m Q X ↔ Q () (m.set pa (poke (m.page pa) off bytes)) := Iff.rfl

end

/-- `kalloc.c:69`. -/
def kalloc : V (Option Word) := do
  match ← (perform .pop : V (Option Word)) with
  | some r =>
    memset r 5
    return some r
  | none => return none

/-- `kalloc.c:46`. -/
def kfree (pa : Word) : V Unit := do
  let kend ← (perform .kend : V Word)
  if pa % PGSIZE ≠ 0 ∨ pa < kend ∨ PHYSTOP ≤ pa then
    Prog.panic "kfree"
  else
    memset pa 1
    perform (.push pa)

section
variable {m : Mem} {X : String → Prop}

theorem sat_kalloc {Q : Option Word → Mem → Prop} :
    Sat machine kalloc m Q X ↔
      match m.free with
      | [] => Q none m
      | r :: rest => Q (some r) ({ m with free := rest }.set r fun _ => filled 5) := by
  rcases m with ⟨page, free, kend⟩
  cases free <;> exact Iff.rfl

theorem sat_kfree {pa : Word} {Q : Unit → Mem → Prop} :
    Sat machine (kfree pa) m Q X ↔
      if pa % PGSIZE ≠ 0 ∨ pa < m.kend ∨ PHYSTOP ≤ pa then X "kfree"
      else Q () { m.set pa fun _ => filled 1 with free := pa :: m.free } := by
  change Sat machine (if pa % PGSIZE ≠ 0 ∨ pa < m.kend ∨ PHYSTOP ≤ pa then Prog.panic "kfree" else _) m Q X ↔ _
  split <;> exact Iff.rfl

end

/-! ## Page tables -/

/-- The address of a PTE: a page-table page and an index. -/
abbrev Slot := Word × Nat

def walkFrom (va : Word) (alloc : Bool) : Nat → Word → V (Option Slot)
  | 0, pagetable => return some (pagetable, PX 0 va)
  | level + 1, pagetable => do
    let pte ← load pagetable (PX (level + 1) va)
    if pte &&& PTE_V ≠ 0 then
      walkFrom va alloc level (PTE2PA pte)
    else if alloc then
      match ← kalloc with
      | some pa =>
        memset pa 0
        store pagetable (PX (level + 1) va) (PA2PTE pa ||| PTE_V)
        walkFrom va alloc level pa
      | none => return none
    else return none

/-- `vm.c:87`. -/
@[irreducible]
def walk (pagetable va : Word) (alloc : Bool) : V (Option Slot) :=
  if va ≥ MAXVA then Prog.panic "walk" else walkFrom va alloc 2 pagetable

/-- `vm.c:109`. -/
def walkaddr (pagetable va : Word) : V Word := do
  if va ≥ MAXVA then return 0
  else
    match ← walk pagetable va false with
    | none => return 0
    | some (pt, i) =>
      let pte ← load pt i
      if pte &&& PTE_V = 0 then return 0
      else if pte &&& PTE_U = 0 then return 0
      else return PTE2PA pte

/-- The loop of `mappages`; it makes at most `fuel` rounds. -/
def mapFrom (pagetable last perm : Word) : Nat → Word → Word → V Int
  | 0, _, _ => Prog.panic "more rounds"
  | fuel + 1, a, pa => do
    match ← walk pagetable a true with
    | none => return -1
    | some (pt, i) =>
      let pte ← load pt i
      if pte &&& PTE_V ≠ 0 then Prog.panic "mappages: remap"
      else
        store pt i (PA2PTE pa ||| perm ||| PTE_V)
        if a = last then return 0
        else mapFrom pagetable last perm fuel (a + PGSIZE) (pa + PGSIZE)

/-- `vm.c:141`. The loop makes `size / PGSIZE` rounds. -/
def mappages (pagetable va size pa perm : Word) : V Int :=
  if va % PGSIZE ≠ 0 then Prog.panic "mappages: va not aligned"
  else if size % PGSIZE ≠ 0 then Prog.panic "mappages: size not aligned"
  else if size = 0 then Prog.panic "mappages: size"
  else mapFrom pagetable (va + size - PGSIZE) perm (size / PGSIZE).toNat va pa

/-- The loop of `uvmunmap`; it makes at most `fuel` rounds. -/
def unmapFrom (pagetable till : Word) (doFree : Bool) : Nat → Word → V Unit
  | 0, a => if a < till then Prog.panic "more rounds" else return ()
  | fuel + 1, a => do
    if a < till then
      match ← walk pagetable a false with
      | none => Prog.panic "uvmunmap: walk"
      | some (pt, i) =>
        let pte ← load pt i
        if pte &&& PTE_V = 0 then Prog.panic "uvmunmap: not mapped"
        else if PTE_FLAGS pte = PTE_V then Prog.panic "uvmunmap: not a leaf"
        else
          if doFree then kfree (PTE2PA pte)
          store pt i 0
          unmapFrom pagetable till doFree fuel (a + PGSIZE)
    else return ()

/-- `vm.c:172`. -/
def uvmunmap (pagetable va npages : Word) (doFree : Bool) : V Unit :=
  if va % PGSIZE ≠ 0 then Prog.panic "uvmunmap: not aligned"
  else unmapFrom pagetable (va + npages * PGSIZE) doFree npages.toNat va

/-- `vm.c:198`. -/
def uvmcreate : V (Option Word) := do
  match ← kalloc with
  | none => return none
  | some pagetable =>
    memset pagetable 0
    return some pagetable

/-- `vm.c:327`. -/
def uvmclear (pagetable va : Word) : V Unit := do
  match ← walk pagetable va false with
  | none => Prog.panic "uvmclear"
  | some (pt, i) =>
    let pte ← load pt i
    store pt i (pte &&& ~~~PTE_U)

/-- The physical page and the flags that `walk(va, 0)` leads to. -/
def lookup (pagetable va : Word) : V (Option (Word × Word)) := do
  match ← walk pagetable va false with
  | none => return none
  | some (pt, i) =>
    let pte ← load pt i
    if pte &&& PTE_V = 0 then return none else return some (PTE2PA pte, PTE_FLAGS pte)

end Xv6.Vm
