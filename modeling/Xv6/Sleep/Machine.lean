import Xv6.Lib.Protocol
import Xv6.Harts.Machine

/-!
# Waiting for a condition (`sleep` and `wakeup` in `kernel/proc.c`)

A condition is protected by a spinlock `lk`. Waiters run `acquire(lk); while(!cond) sleep(chan, lk); ... release(lk)`, wakers run
`acquire(lk); cond = 1; wakeup(chan); release(lk)`. The machine is that of `Harts`: the code of `sleep`, `wakeup`, `yield`, `kill` and
`scheduler` is the same, a step of a hart is one operation of it, and the steps of the harts interleave in any order.
-/

namespace Xv6.Sleep

open Prog
open Harts (Op Lk Wr Ans)
open Sched (Proc ProcState Policy)

/-- The two accesses to the condition. -/
inductive CondOp : Type → Type
  | test : CondOp Bool
  | assign (b : Bool) : CondOp Unit

abbrev Kop (β : Type) : Type := Op β ⊕ CondOp β

abbrev K := Prog Kop

/-- The code of `proc.c`. -/
def kernel {α : Type} (p : Harts.K α) : K α := p.lift fun _ => .inl

def lk : Lk := .other 0

def test : K Bool := perform (.inr .test)
def assign (b : Bool) : K Unit := perform (.inr (.assign b))

def waitLoop (p chan : Nat) : Nat → K Unit
  | 0 => Prog.panic "more rounds"
  | fuel + 1 => do
    if (← test) then return ()
    else
      kernel (Harts.sleep p chan lk)
      waitLoop p chan fuel

/-- What a waiter does with the condition before it releases the lock. -/
def body : List Bool → K Unit
  | [] => return ()
  | b :: bs => do
    assign b
    body bs

def waiter (p chan fuel : Nat) (bs : List Bool) : K Unit := do
  kernel (Harts.acquire lk)
  waitLoop p chan fuel
  body bs
  kernel (Harts.release lk)

def waker (n chan : Nat) : K Unit := do
  kernel (Harts.acquire lk)
  assign true
  kernel (Harts.wakeup n chan)
  kernel (Harts.release lk)

/-! ## The machine -/

structure Hart where
  code : K Unit
  /-- `c->context`. -/
  ctx : K Unit
  /-- `c->proc`. -/
  proc : Option Nat
  stack : Option Nat
  held : List Lk

structure Sys (N : Nat) where
  cond : Bool
  proc : Nat → Proc
  /-- `p->context`. -/
  ctx : Nat → K Unit
  hart : Fin N → Hart

section
variable {N : Nat}

def Sys.setHart (s : Sys N) (h : Fin N) (x : Hart) : Sys N := { s with hart := Function.update s.hart h x }

def Sys.goto (s : Sys N) (h : Fin N) (k : K Unit) : Sys N := s.setHart h { s.hart h with code := k }

def Sys.Free (s : Sys N) (l : Lk) : Prop := ∀ h, l ∉ (s.hart h).held

instance (s : Sys N) (l : Lk) : Decidable (s.Free l) := inferInstanceAs (Decidable (∀ h, _))

def Sys.exec (s : Sys N) (h : Fin N) (now : UInt64) : K Unit → Option (Sys N)
  | .op (.inl (.acquire l)) k =>
    if s.Free l then some (s.setHart h { s.hart h with code := k (), held := l :: (s.hart h).held }) else none
  | .op (.inl (.release l)) k =>
    if l ∈ (s.hart h).held then some (s.setHart h { s.hart h with code := k (), held := (s.hart h).held.erase l }) else none
  | .op (.inl (.get q)) k => some (s.goto h (k (s.proc q)))
  | .op (.inl (.set q w)) k => some ({ s with proc := Function.update s.proc q (w.apply (s.proc q)) }.goto h (k ()))
  | .op (.inl .myproc) k => some (s.goto h (k (s.hart h).proc))
  | .op (.inl (.setproc p)) k => some (s.setHart h { s.hart h with code := k (), proc := p })
  | .op (.inl .time) k => some (s.goto h (k now))
  | .op (.inl (.swtchTo p)) k => some (s.setHart h { s.hart h with code := s.ctx p, ctx := k (), stack := some p })
  | .op (.inl (.sched p)) k =>
    if (s.hart h).held = [.proc p] ∧ (s.proc p).state ≠ .running then
      some ({ s with ctx := Function.update s.ctx p (k ()) }.setHart h { s.hart h with code := (s.hart h).ctx, stack := none })
    else none
  | .op (.inr .test) k => some (s.goto h (k s.cond))
  | .op (.inr (.assign b)) k => some ({ s with cond := b }.goto h (k ()))
  | _ => none

inductive Call where
  | waiter (fuel : Nat) (bs : List Bool)
  | waker
  | kill (pid : Int)

def Call.prog (n chan p : Nat) : Call → K Unit
  | .waiter fuel bs => Sleep.waiter p chan fuel bs
  | .waker => Sleep.waker n chan
  | .kill pid => do
    let _ ← kernel (Harts.killFrom pid (List.range n))

inductive Ev (N : Nat) where
  | step (h : Fin N) (now : UInt64)
  | round (h : Fin N) (pol : Policy)
  | call (h : Fin N) (c : Call)
  /-- A timer interrupt, in user mode or in the kernel with no lock held. -/
  | timer (h : Fin N)

def Sys.step (n chan : Nat) (s : Sys N) : Ev N → Option (Sys N)
  | .step h now => s.exec h now (s.hart h).code
  | .round h pol =>
    match (s.hart h).code, (s.hart h).stack with
    | .ret _, none => some (s.goto h (kernel (Harts.scheduler n pol)))
    | _, _ => none
  | .call h c =>
    match (s.hart h).code, (s.hart h).stack with
    | .ret _, some p => some (s.goto h (c.prog n chan p))
    | _, _ => none
  | .timer h =>
    match (s.hart h).stack with
    | some p => if (s.hart h).held = [] then some (s.goto h (kernel (Harts.yield p) >>= fun _ => (s.hart h).code)) else none
    | none => none

def Sys.boot (N n : Nat) (cond : Bool) (pid : Nat → Int) : Sys N where
  cond := cond
  proc p := if p < n then { state := .runnable, pid := pid p } else {}
  ctx p := kernel (Harts.forkret p)
  hart _ := ⟨.ret (), .ret (), none, none, []⟩

end

end Xv6.Sleep
