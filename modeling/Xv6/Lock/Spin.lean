import Xv6.Lib.Run
import Xv6.Harts.Machine

/-!
# Spinlocks and interrupts (`kernel/spinlock.c`, and `sched` in `kernel/proc.c`)

`acquire` turns interrupts off and `release` turns them on again. So that they nest, `noff` of the hart counts the locks, and `intena` keeps
what to go back to. Both belong to the hart, while `sched` switches a thread out that may go on on another one.

A step of a hart is one access to its `struct cpu` or to a lock, or `swtch`; the steps of the harts interleave in any order. Interrupts are
taken between two calls: the only place in one where they may be on is before the `intr_off` of `push_off`, and a trap taken there leaves
them as they were.
-/

open Function (update)

namespace Xv6.Lock

open Prog
open Harts (Lk)
open Sched (ProcState)
open Lts (Noted)

structure Cpu where
  intr : Bool
  noff : Int := 0
  intena : Bool := false
  proc : Option Nat := none

inductive Op : Type → Type
  | cpu : Op Cpu
  | setcpu (f : Cpu → Cpu) : Op Unit
  /-- `lk->locked`. -/
  | locked (l : Lk) : Op Bool
  /-- `lk->cpu == mycpu()`. -/
  | mine (l : Lk) : Op Bool
  | swap (l : Lk) : Op Unit
  /-- `lk->cpu = mycpu()`. -/
  | sign (l : Lk) : Op Unit
  /-- `lk->cpu = 0`. -/
  | unsign (l : Lk) : Op Unit
  | unlock (l : Lk) : Op Unit
  /-- `swtch(&c->context, &p->context)`. -/
  | swtchTo (p : Nat) : Op Unit
  /-- `swtch(&p->context, &mycpu()->context)`. -/
  | swtchBack (p : Nat) : Op Unit

abbrev K := Prog Op

def mycpu : K Cpu := perform .cpu

def setcpu (f : Cpu → Cpu) : K Unit := perform (.setcpu f)

/-- `spinlock.c:89`. -/
def pushOff : K Unit := do
  let old := (← mycpu).intr
  setcpu fun c => { c with intr := false }
  if (← mycpu).noff = 0 then setcpu fun c => { c with intena := old }
  setcpu fun c => { c with noff := c.noff + 1 }

/-- `spinlock.c:100`. -/
def popOff : K Unit := do
  if (← mycpu).intr then Prog.panic "pop_off - interruptible"
  if (← mycpu).noff < 1 then Prog.panic "pop_off"
  setcpu fun c => { c with noff := c.noff - 1 }
  let c ← mycpu
  if c.noff = 0 ∧ c.intena then setcpu fun c => { c with intr := true }

/-- `spinlock.c:77`. -/
def holding (l : Lk) : K Bool := do
  if (← perform (.locked l)) then perform (.mine l) else return false

/-- `spinlock.c:22`. -/
def acquire (l : Lk) : K Unit := do
  pushOff
  if (← holding l) then Prog.panic "acquire"
  perform (.swap l)
  perform (.sign l)

/-- `spinlock.c:47`. -/
def release (l : Lk) : K Unit := do
  if !(← holding l) then Prog.panic "release"
  perform (.unsign l)
  perform (.unlock l)
  popOff

def myproc : K (Option Nat) := do
  pushOff
  let p := (← mycpu).proc
  popOff
  return p

/-- `proc.c:555`; `st` is the `p->state` that the caller has just set. -/
def sched (st : ProcState) : K Unit := do
  match ← myproc with
  | none => Prog.panic "kerneltrap"
  | some p =>
    if !(← holding (.proc p)) then Prog.panic "sched p->lock"
    if (← mycpu).noff ≠ 1 then Prog.panic "sched locks"
    if st = .running then Prog.panic "sched running"
    if (← mycpu).intr then Prog.panic "sched interruptible"
    let intena := (← mycpu).intena
    perform (.swtchBack p)
    setcpu fun c => { c with intena := intena }

/-- `scheduler` runs the process it has chosen (`proc.c:526-537`). -/
def runProc (p : Nat) : K Unit := do
  setcpu fun c => { c with proc := some p }
  perform (.swtchTo p)
  setcpu fun c => { c with proc := none }

/-! ## The machine -/

structure Spinlock (N : Nat) where
  locked : Option (Fin N) := none
  cpu : Option (Fin N) := none

structure Hart where
  cpu : Cpu
  /-- What is left of the call the hart is in. -/
  code : K Unit
  /-- `c->context`. -/
  ctx : K Unit
  /-- The process whose kernel stack it is on; `none` on that of the scheduler. -/
  on : Option Nat

/-- The hart is between two calls. -/
def Hart.idle (x : Hart) : Bool :=
  match x.code with
  | .ret _ => true
  | _ => false

structure Sys (N : Nat) where
  hart : Fin N → Hart
  lock : Lk → Spinlock N
  /-- `p->context`. -/
  ctx : Nat → K Unit

inductive Call where
  | acquire (l : Lk)
  | release (l : Lk)
  | intr (b : Bool)
  | sched (st : ProcState)
  | run (p : Nat)

def Call.prog : Call → K Unit
  | .acquire l => Lock.acquire l
  | .release l => Lock.release l
  | .intr b => setcpu fun c => { c with intr := b }
  | .sched st => Lock.sched st
  | .run p => runProc p

inductive Ev (N : Nat) where
  | call (h : Fin N) (c : Call)
  | step (h : Fin N)

section
variable {N : Nat}

def Sys.setHart (s : Sys N) (h : Fin N) (x : Hart) : Sys N := { s with hart := update s.hart h x }

def Sys.goto (s : Sys N) (h : Fin N) (k : K Unit) : Sys N := s.setHart h { s.hart h with code := k }

def Sys.setLock (s : Sys N) (l : Lk) (x : Spinlock N) : Sys N := { s with lock := update s.lock l x }

def Sys.exec (s : Sys N) (h : Fin N) : K Unit → Option (Sys N)
  | .op .cpu k => some (s.goto h (k (s.hart h).cpu))
  | .op (.setcpu f) k => some (s.setHart h { s.hart h with cpu := f (s.hart h).cpu, code := k () })
  | .op (.locked l) k => some (s.goto h (k (s.lock l).locked.isSome))
  | .op (.mine l) k => some (s.goto h (k (decide ((s.lock l).cpu = some h))))
  | .op (.swap l) k =>
    if (s.lock l).locked = none then some ((s.setLock l { s.lock l with locked := some h }).goto h (k ())) else none
  | .op (.sign l) k => some ((s.setLock l { s.lock l with cpu := some h }).goto h (k ()))
  | .op (.unsign l) k => some ((s.setLock l { s.lock l with cpu := none }).goto h (k ()))
  | .op (.unlock l) k => some ((s.setLock l { s.lock l with locked := none }).goto h (k ()))
  | .op (.swtchTo p) k =>
    if ∀ h', (s.hart h').on ≠ some p then
      some (s.setHart h { s.hart h with code := s.ctx p, ctx := k (), on := some p })
    else none
  | .op (.swtchBack p) k =>
    some ({ s with ctx := update s.ctx p (k ()) }.setHart h { s.hart h with code := (s.hart h).ctx, on := none })
  | _ => none

def Sys.step (s : Sys N) : Ev N → Option (Sys N)
  | .call h c => if (s.hart h).idle then some (s.goto h c.prog) else none
  | .step h => s.exec h (s.hart h).code

def Sys.boot (intr : Fin N → Bool) : Sys N where
  hart h := ⟨{ intr := intr h }, .ret (), .ret (), none⟩
  lock _ := {}
  ctx _ := .ret ()

/-! ## The record of a run -/

inductive Thread (N : Nat) where
  | scheduler (h : Fin N)
  | proc (p : Nat)
  deriving DecidableEq

def Sys.thread (s : Sys N) (h : Fin N) : Thread N :=
  match (s.hart h).on with
  | some p => .proc p
  | none => .scheduler h

structure Ledger where
  held : List Lk
  /-- `none` for a process that has not run yet. -/
  outside : Option Bool

def record (s : Sys N) (e : Ev N) (_ : Sys N) (r : Thread N → Ledger) : Thread N → Ledger :=
  match e with
  | .call h c =>
    let t := s.thread h
    match c with
    | .acquire l => update r t { r t with held := l :: (r t).held }
    | .release l => update r t { r t with held := (r t).held.erase l }
    | .intr b => update r t { r t with outside := some b }
    | _ => r
  | .step h =>
    match (s.hart h).code with
    | .op (.swtchTo p) _ =>
      update r (.proc p) { r (.proc p) with outside := (r (.proc p)).outside <|> (r (.scheduler h)).outside }
    | .op (.swtchBack p) _ => update r (.scheduler h) { r (.scheduler h) with outside := (r (.proc p)).outside }
    | _ => r

def Matched (o : Noted (Sys N) (Thread N → Ledger)) : Ev N → Prop
  | .step _ => True
  | .call h c =>
    let held := (o.note (o.now.thread h)).held
    match c with
    | .acquire l => l ∉ held
    | .release l => l ∈ held
    | .intr _ => held = []
    | .sched st => st ≠ .running ∧ ∃ p ∈ (o.now.hart h).on, held = [.proc p]
    | .run p => (o.now.hart h).on = none ∧ held = [.proc p]

instance (o : Noted (Sys N) (Thread N → Ledger)) : ∀ e, Decidable (Matched o e)
  | .step _ => inferInstanceAs (Decidable True)
  | .call _ (.acquire _) => inferInstanceAs (Decidable (_ ∉ _))
  | .call _ (.release _) => inferInstanceAs (Decidable (_ ∈ _))
  | .call _ (.intr _) => inferInstanceAs (Decidable (_ = _))
  | .call _ (.sched _) => inferInstanceAs (Decidable (_ ∧ ∃ p ∈ _, _))
  | .call _ (.run _) => inferInstanceAs (Decidable (_ ∧ _))

end

end Xv6.Lock
