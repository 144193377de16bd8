import Mathlib.Logic.Function.Basic
import Xv6.Lib.Run

/-!
# The allocator of user programs (`user/umalloc.c`)

Memory is the two fields of the header at each address, and an address is a number of bytes; 0 is the null pointer and `base` the address
of the static header. The kernel is a function from the calls of `sbrk` so far to the answer to the next. A loop that has not ended after
`rounds` rounds is given up; `malloc` then gives the state there.
-/

namespace Xv6.Malloc

open Function (update)

def HEADER : Nat := 16

def UINT : Nat := 4294967296

/-- A call of `sbrk` with its answer, `none` for -1. -/
structure Sbrk where
  incr : Int
  ret : Option Nat

/-- What `sbrk` answers after the calls in the list, the last of them first. -/
abbrev Env := List Sbrk → Int → Option Nat

structure State where
  freep : Nat
  ptr : Nat → Nat
  size : Nat → Nat
  log : List Sbrk

/-- `umalloc.c:27`. -/
def freeLoop (ptr : Nat → Nat) (bp : Nat) : Nat → Nat → Option Nat
  | 0, _ => none
  | rounds + 1, p =>
    if bp > p ∧ bp < ptr p then some p
    else if p ≥ ptr p ∧ (bp > p ∨ bp < ptr p) then some p
    else freeLoop ptr bp rounds (ptr p)

/-- `umalloc.c:30`: the block is joined to the one after it, or only linked to it. -/
def joinNext (bp p : Nat) (s : State) : State :=
  if bp + HEADER * s.size bp = s.ptr p then
    { s with
      size := update s.size bp ((s.size bp + s.size (s.ptr p)) % UINT)
      ptr := update s.ptr bp (s.ptr (s.ptr p)) }
  else { s with ptr := update s.ptr bp (s.ptr p) }

/-- `umalloc.c:35`: the same with the one before it. -/
def joinPrev (bp p : Nat) (s : State) : State :=
  if p + HEADER * s.size p = bp then
    { s with
      size := update s.size p ((s.size p + s.size bp) % UINT)
      ptr := update s.ptr p (s.ptr bp) }
  else { s with ptr := update s.ptr p bp }

/-- `umalloc.c:23`. -/
def free (rounds ap : Nat) (s : State) : Option State :=
  (freeLoop s.ptr (ap - HEADER) rounds s.freep).map fun p =>
    { joinPrev (ap - HEADER) p (joinNext (ap - HEADER) p s) with freep := p }

def toInt (n : Nat) : Int := (BitVec.ofNat 32 n).toInt

/-- The units `morecore` asks for (`umalloc.c:52`). -/
def coreUnits (nu : Nat) : Nat := if nu < 4096 then 4096 else nu

def State.asked (env : Env) (incr : Int) (s : State) : State := { s with log := ⟨incr, env s.log incr⟩ :: s.log }

/-- `umalloc.c:46`, with 0 for failure. -/
def morecore (env : Env) (rounds nu : Nat) (s : State) : Except State (Nat × State) :=
  let incr := toInt (coreUnits nu * HEADER)
  match env s.log incr with
  | none => .ok (0, s.asked env incr)
  | some hp =>
    let s := { s.asked env incr with size := update s.size hp (coreUnits nu) }
    match free rounds (hp + HEADER) s with
    | none => .error s
    | some s => .ok (s.freep, s)

/-- `umalloc.c:73`: the block `p` fits; what is returned is behind its header. -/
def take (nunits prevp p : Nat) (s : State) : Nat × State :=
  if s.size p = nunits then (p + HEADER, { s with ptr := update s.ptr prevp (s.ptr p), freep := prevp })
  else
    let rest := s.size p - nunits
    let q := p + HEADER * rest
    (q + HEADER, { s with size := update (update s.size p rest) q nunits, freep := prevp })

/-- The loop of `malloc` (`umalloc.c:72`). -/
def search (env : Env) (limit nunits : Nat) : Nat → Nat → Nat → State → Except State (Nat × State)
  | 0, _, _, s => .error s
  | rounds + 1, prevp, p, s =>
    if s.size p ≥ nunits then .ok (take nunits prevp p s)
    else if p = s.freep then
      morecore env limit nunits s >>= fun r =>
        if r.1 = 0 then .ok (0, r.2) else search env limit nunits rounds r.1 (r.2.ptr r.1) r.2
    else search env limit nunits rounds p (s.ptr p) s

def unitsFor (nbytes : Nat) : Nat := ((nbytes + HEADER - 1) / HEADER + 1) % UINT

/-- `umalloc.c:68`: the list is set up by the first call. -/
def setup (base : Nat) (s : State) : State :=
  if s.freep = 0 then { s with freep := base, ptr := update s.ptr base base, size := update s.size base 0 } else s

/-- `umalloc.c:62`. -/
def malloc (env : Env) (base rounds nbytes : Nat) (s : State) : Except State (Nat × State) :=
  let s := setup base s
  search env rounds (unitsFor nbytes) rounds s.freep (s.ptr s.freep) s

/-! ## Programs that use it -/

structure Sys where
  heap : State
  live : List (Nat × Nat)

/-- A call, or a store of a program into a block of its own. -/
inductive Call
  | malloc (nbytes : Nat)
  | free (ap : Nat)
  | store (a ptr size : Nat)

def Allowed (sys : Sys) : Call → Prop
  | .malloc nbytes => nbytes ≤ 1073741824
  | .free ap => ap ∈ sys.live.map Prod.fst
  | .store a _ _ =>
    ∃ x ∈ sys.live, x.1 ≤ a ∧ HEADER ∣ a - x.1 ∧ a - x.1 + HEADER < HEADER * sys.heap.size (x.1 - HEADER)

instance (sys : Sys) : (c : Call) → Decidable (Allowed sys c)
  | .malloc nbytes => inferInstanceAs (Decidable (nbytes ≤ 1073741824))
  | .free ap => inferInstanceAs (Decidable (ap ∈ sys.live.map Prod.fst))
  | .store a _ _ => inferInstanceAs (Decidable (∃ x ∈ sys.live, x.1 ≤ a ∧ HEADER ∣ a - x.1 ∧ _))

def step (env : Env) (base rounds : Nat) (sys : Sys) : Call → Option Sys
  | .malloc nbytes =>
    (malloc env base rounds nbytes sys.heap).toOption.map fun r => ⟨r.2, if r.1 = 0 then sys.live else (r.1, nbytes) :: sys.live⟩
  | .free ap => (free rounds ap sys.heap).map fun s => ⟨s, sys.live.eraseP (·.1 = ap)⟩
  | .store a ptr size =>
    some { sys with heap := { sys.heap with ptr := update sys.heap.ptr a ptr, size := update sys.heap.size a size } }

/-- Before the first call; what is in memory does not matter. -/
def start (ptr size : Nat → Nat) : Sys := ⟨⟨0, ptr, size, []⟩, []⟩

end Xv6.Malloc
