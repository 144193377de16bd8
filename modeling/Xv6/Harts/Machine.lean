import Xv6.Lib.Prog
import Xv6.Proc.Table

/-!
# Harts, locks and kernel stacks (`kernel/proc.c`, `kernel/swtch.S`)

Each hart executes code, of its scheduler or of the kernel side of a process. A step of a hart is one operation: taking or
releasing a spinlock, reading or writing a record of `proc[]`, or `swtch`. The steps of the harts interleave in any order,
and a spinlock is the only thing that makes one wait for another. A panic stops the machine.

`swtch` saves what is left of the code that calls it and goes on with what was saved in the other context, whatever that is:
that it is what `sched` saved last is a theorem, not part of the machine.
-/

namespace Xv6.Harts

open Prog
open Sched (Proc ProcState ProcTime Policy freeproc procTime wrap32)

inductive Lk where
  | wait
  | sched
  | proc (p : Nat)
  | other (k : Nat)
  deriving DecidableEq

/-- `userinit` takes the first slot. -/
def initproc : Nat := 0

/-- The address of `proc[p]` as a sleep channel. -/
def procChan (p : Nat) : Nat := 2 * p + 1

def freeChan (k : Nat) : Nat := 2 * k + 2

/-- The channel that a pointer to a process stands for. -/
def chanOf : Option Nat → Nat
  | some p => procChan p
  | none => 0

/-! ## Writes to a record -/

inductive Wr where
  /-- `freeproc` (`proc.c:148`). -/
  | free
  | dup (x : Proc)
  | parent (p : Nat)
  /-- `fork` makes the child `RUNNABLE` (`proc.c:313-316`). -/
  | publish (t : UInt64)
  /-- `wakeup` and `yield`. -/
  | ready (t : UInt64)
  /-- `kill(pid)` has found the record (`proc.c:661-665`). -/
  | kill (pid : Int)
  | setkilled
  | sleep (chan : Nat)
  | clearChan
  /-- `open`, `dup`, `pipe` and `close` set a descriptor. -/
  | file (fd f : Nat)
  | chdir (ip : Nat)
  /-- `exit` records the times (`proc.c:349-351`). -/
  | endTime (t : UInt64)
  | close
  | zombie (status : Int)
  /-- `scheduler` (`proc.c:519-523`). -/
  | run (now : UInt64)

def Wr.apply : Wr → Proc → Proc
  | .free, x => freeproc x
  | .dup y, x => { x with ofile := fun fd => if y.ofile fd ≠ 0 then y.ofile fd else x.ofile fd, cwd := y.cwd }
  | .parent p, x => { x with parent := some p }
  | .publish t, x => { x with state := .runnable, startTime := t, waitTime := t }
  | .ready t, x => { x with state := .runnable, waitTime := t }
  | .kill _, x => { x with killed := true, state := if x.state = .sleeping then .runnable else x.state }
  | .setkilled, x => { x with killed := true }
  | .sleep chan, x => { x with chan := chan, state := .sleeping }
  | .clearChan, x => { x with chan := 0 }
  | .file fd f, x => { x with ofile := Function.update x.ofile fd f }
  | .chdir ip, x => { x with cwd := ip }
  | .endTime t, x => { x with endTime := t, turnaroundTime := t - x.startTime }
  | .close, x => { x with ofile := fun _ => 0, cwd := 0 }
  | .zombie status, x => { x with xstate := status, state := .zombie }
  | .run now, x =>
    { x with state := .running, totalWaitTime := x.totalWaitTime + (now - x.waitTime), waitTime := now }

/-! ## The code -/

inductive Op : Type → Type
  | acquire (l : Lk) : Op Unit
  | release (l : Lk) : Op Unit
  | get (q : Nat) : Op Proc
  | set (q : Nat) (w : Wr) : Op Unit
  /-- `p->pid = allocpid(); p->priority = 10; p->state = USED` (`proc.c:115-117`). -/
  | take (q : Nat) : Op Unit
  /-- The context of a new process, at `forkret` (`proc.c:137-139`). -/
  | newctx (q : Nat) : Op Unit
  | myproc : Op (Option Nat)
  /-- `c->proc = p`. -/
  | setproc (p : Option Nat) : Op Unit
  | time : Op UInt64
  /-- Whether allocating memory succeeds. -/
  | kalloc : Op Bool
  /-- `wait(addr)` begins. -/
  | waitCall (addr : Nat) : Op Unit
  /-- Whether the `copyout` of `wait`, of the times of `q` to `addr`, succeeds. -/
  | copyout (q : Nat) (pt : ProcTime) (addr : Nat) : Op Bool
  /-- `swtch(&c->context, &p->context)` in `scheduler`. -/
  | swtchTo (p : Nat) : Op Unit
  /-- `sched` (`proc.c:556`). -/
  | sched (p : Nat) : Op Unit
  /-- `wait` returns a pid to its caller, or `none` for -1. -/
  | waitRet (v : Option Int) : Op Unit
  /-- `kill(pid)` returns. -/
  | killRet (pid v : Int) : Op Unit

abbrev K := Prog Op

def acquire (l : Lk) : K Unit := perform (.acquire l)
def release (l : Lk) : K Unit := perform (.release l)
def get (q : Nat) : K Proc := perform (.get q)
def set (q : Nat) (w : Wr) : K Unit := perform (.set q w)
def time : K UInt64 := perform .time
def sched (p : Nat) : K Unit := perform (.sched p)

/-- The loop of `wakeup` (`proc.c:640`). -/
def wakeupFrom (chan : Nat) : List Nat → K Unit
  | [] => return ()
  | q :: qs => do
    if (← (perform .myproc : K (Option Nat))) ≠ some q then
      acquire (.proc q)
      let x ← get q
      if x.state = .sleeping ∧ x.chan = chan then
        let t ← time
        set q (.ready t)
      release (.proc q)
    wakeupFrom chan qs

def wakeup (n chan : Nat) : K Unit := wakeupFrom chan (List.range n)

/-- `proc.c:608`. -/
def sleep (p chan : Nat) (lk : Lk) : K Unit := do
  acquire (.proc p)
  release lk
  set p (.sleep chan)
  sched p
  set p .clearChan
  release (.proc p)
  acquire lk

/-- `proc.c:574`. -/
def yield (p : Nat) : K Unit := do
  acquire (.proc p)
  let t ← time
  set p (.ready t)
  sched p
  release (.proc p)

/-- `proc.c:680`. -/
def killed (p : Nat) : K Bool := do
  acquire (.proc p)
  let x ← get p
  release (.proc p)
  return x.killed

def setkilled (p : Nat) : K Unit := do
  acquire (.proc p)
  set p .setkilled
  release (.proc p)

/-- The loop of `kill` (`proc.c:658`). -/
def killFrom (pid : Int) : List Nat → K Int
  | [] => return -1
  | q :: qs => do
    acquire (.proc q)
    let x ← get q
    if x.pid = pid then
      set q (.kill pid)
      release (.proc q)
      return 0
    release (.proc q)
    killFrom pid qs

def allocFrom : List Nat → K (Option Nat)
  | [] => return none
  | q :: qs => do
    acquire (.proc q)
    let x ← get q
    if x.state = .unused then
      perform (.take q)
      if (← (perform .kalloc : K Bool)) then
        perform (.newctx q)
        return some q
      else
        set q .free
        release (.proc q)
        return none
    else
      release (.proc q)
      allocFrom qs

/-- `fork` (`proc.c:265`) by process `p`. -/
def fork (n p : Nat) : K Unit := do
  match ← allocFrom (List.range n) with
  | none => return ()
  | some np =>
    -- `uvmcopy`
    if (← (perform .kalloc : K Bool)) then
      let x ← get p
      set np (.dup x)
      release (.proc np)
      acquire .wait
      set np (.parent p)
      release .wait
      acquire (.proc np)
      let t ← time
      set np (.publish t)
      release (.proc np)
    else
      set np .free
      release (.proc np)

/-- The loop of `reparent` (`proc.c:332`). -/
def reparentFrom (n p : Nat) : List Nat → K Unit
  | [] => return ()
  | q :: qs => do
    let x ← get q
    if x.parent = some p then
      set q (.parent initproc)
      wakeup n (procChan initproc)
    reparentFrom n p qs

/-- `exit` (`proc.c:343`) of process `p`. -/
def exit (n p : Nat) (status : Int) : K Unit := do
  if p = initproc then Prog.panic "init exiting"
  let x ← get p
  if x.startTime ≠ 0 then
    let t ← time
    set p (.endTime t)
  set p .close
  acquire .wait
  reparentFrom n p (List.range n)
  let x ← get p
  wakeup n (chanOf x.parent)
  acquire (.proc p)
  set p (.zombie status)
  release .wait
  sched p
  Prog.panic "zombie exit"

def waitScan (p addr : Nat) : List Nat → Bool → K (Option (Option Int) × Bool)
  | [], havekids => return (none, havekids)
  | q :: qs, havekids => do
    let x ← get q
    if x.parent = some p then
      acquire (.proc q)
      let y ← get q
      if y.state = .zombie then
        let ok ← if addr ≠ 0 then (perform (.copyout q (procTime y) addr) : K Bool) else pure true
        if ok then
          set q .free
          release (.proc q)
          release .wait
          return (some (some y.pid), true)
        else
          release (.proc q)
          release .wait
          return (some none, true)
      else
        release (.proc q)
        waitScan p addr qs true
    else
      waitScan p addr qs havekids

/-- The `for(;;)` of `wait` (`proc.c:399`), at most `fuel` rounds of it. -/
def waitLoop (n p addr : Nat) : Nat → K Unit
  | 0 => Prog.panic "more rounds"
  | fuel + 1 => do
    let r ← waitScan p addr (List.range n) false
    match r with
    | (some v, _) => perform (.waitRet v)
    | (none, false) =>
      release .wait
      perform (.waitRet none)
    | (none, true) =>
      if (← killed p) then
        release .wait
        perform (.waitRet none)
      else
        sleep p (procChan p) .wait
        waitLoop n p addr fuel

def wait (n p addr fuel : Nat) : K Unit := do
  perform (.waitCall addr)
  acquire .wait
  waitLoop n p addr fuel

/-! ## The scheduler -/

/-- The scan of the `SCHED_ROUND_ROBIN` branch (`proc.c:467`). -/
def scanFirst : List Nat → K (Option Nat)
  | [] => return none
  | p :: ps => do
    acquire (.proc p)
    let x ← get p
    if x.state = .runnable then
      return some p
    else
      release (.proc p)
      scanFirst ps

def scanBest {κ : Type} (key : Proc → κ) (lt : κ → κ → Bool) : List Nat → κ → Option Nat → K (Option Nat)
  | [], _, best => return best
  | p :: ps, bound, best => do
    acquire (.proc p)
    let x ← get p
    if x.state = .runnable ∧ lt (key x) bound then
      match best with
      | some b =>
        release (.proc b)
        scanBest key lt ps (key x) (some p)
      | none => scanBest key lt ps (key x) (some p)
    else
      release (.proc p)
      scanBest key lt ps bound best

def scan (n : Nat) : Policy → K (Option Nat)
  | .roundRobin => scanFirst (List.range n)
  | .fcfs => scanBest (·.waitTime) (fun a b => decide (a < b)) (List.range n) 0xffffffffffffffff none
  | .priority => scanBest (·.priority) (fun a b => decide (a < b)) (List.range n) 9999 none

/-- One round of `scheduler` (`proc.c:459-546`). -/
def scheduler (n : Nat) (pol : Policy) : K Unit := do
  acquire .sched
  match ← scan n pol with
  | some p =>
    release .sched
    let now ← time
    set p (.run now)
    perform (.setproc (some p))
    perform (.swtchTo p)
    perform (.setproc none)
    release (.proc p)
  | none => release .sched

/-- `forkret` (`proc.c:585`), up to user mode. -/
def forkret (p : Nat) : K Unit := release (.proc p)

/-! ## The machine -/

structure Hart where
  code : K Unit
  /-- `c->context`. -/
  ctx : K Unit
  /-- `c->proc`. -/
  proc : Option Nat
  stack : Option Nat
  /-- The spinlocks it holds, the last one taken first. -/
  held : List Lk

structure Sys (N : Nat) where
  proc : Nat → Proc
  /-- `p->context`. -/
  ctx : Nat → K Unit
  nextpid : Int
  hart : Fin N → Hart

section
variable {N : Nat}

def Sys.setHart (s : Sys N) (h : Fin N) (x : Hart) : Sys N := { s with hart := Function.update s.hart h x }

def Sys.goto (s : Sys N) (h : Fin N) (k : K Unit) : Sys N := s.setHart h { s.hart h with code := k }

def Sys.setProc (s : Sys N) (q : Nat) (x : Proc) : Sys N := { s with proc := Function.update s.proc q x }

def Sys.Free (s : Sys N) (l : Lk) : Prop := ∀ h, l ∉ (s.hart h).held

instance (s : Sys N) (l : Lk) : Decidable (s.Free l) := inferInstanceAs (Decidable (∀ h, _))

structure Ans where
  now : UInt64
  ok : Bool

def Sys.exec (s : Sys N) (h : Fin N) (ans : Ans) : K Unit → Option (Sys N)
  | .ret _ => none
  | .panic _ => none
  | .op (.acquire l) k =>
    if s.Free l then some (s.setHart h { s.hart h with code := k (), held := l :: (s.hart h).held }) else none
  | .op (.release l) k =>
    if l ∈ (s.hart h).held then some (s.setHart h { s.hart h with code := k (), held := (s.hart h).held.erase l }) else none
  | .op (.get q) k => some (s.goto h (k (s.proc q)))
  | .op (.set q w) k => some ((s.setProc q (w.apply (s.proc q))).goto h (k ()))
  | .op (.take q) k => some ({ s.setProc q { s.proc q with pid := s.nextpid, priority := 10, state := .used } with
      nextpid := wrap32 (s.nextpid + 1) }.goto h (k ()))
  | .op (.newctx q) k => some ({ s with ctx := Function.update s.ctx q (forkret q) }.goto h (k ()))
  | .op .myproc k => some (s.goto h (k (s.hart h).proc))
  | .op (.setproc p) k => some (s.setHart h { s.hart h with code := k (), proc := p })
  | .op .time k => some (s.goto h (k ans.now))
  | .op .kalloc k => some (s.goto h (k ans.ok))
  | .op (.waitCall _) k => some (s.goto h (k ()))
  | .op (.copyout _ _ _) k => some (s.goto h (k ans.ok))
  | .op (.swtchTo p) k => some (s.setHart h { s.hart h with code := s.ctx p, ctx := k (), stack := some p })
  | .op (.sched p) k =>
    if (s.hart h).held = [.proc p] ∧ (s.proc p).state ≠ .running then
      some ({ s with ctx := Function.update s.ctx p (k ()) }.setHart h
        { s.hart h with code := (s.hart h).ctx, stack := none })
    else none
  | .op (.waitRet _) k => some (s.goto h (k ()))
  | .op (.killRet _ _) k => some (s.goto h (k ()))

inductive Call where
  | fork
  | exit (status : Int)
  | wait (addr fuel : Nat)
  | kill (pid : Int)
  | setkilled
  | file (fd f : Nat)
  | chdir (ip : Nat)
  /-- A call that sleeps on a channel of another part of the kernel. -/
  | sleep (chan k : Nat)
  | wakeup (chan : Nat)

def Call.prog (n p : Nat) : Call → K Unit
  | .fork => Harts.fork n p
  | .exit status => Harts.exit n p status
  | .wait addr fuel => Harts.wait n p addr fuel
  | .kill pid => do
    let v ← killFrom pid (List.range n)
    perform (.killRet pid v)
  | .setkilled => Harts.setkilled p
  | .file fd f => set p (.file fd f)
  | .chdir ip => set p (.chdir ip)
  | .sleep chan k => do
    acquire (.other k)
    Harts.sleep p (freeChan chan) (.other k)
    release (.other k)
  | .wakeup chan => Harts.wakeup n (freeChan chan)

inductive Ev (N : Nat) where
  /-- The next operation of the hart. -/
  | step (h : Fin N) (ans : Ans)
  /-- The scheduler of the hart begins a round. -/
  | round (h : Fin N) (pol : Policy)
  /-- The process on the hart enters the kernel. -/
  | call (h : Fin N) (c : Call)
  /-- A timer interrupt, in user mode or in the kernel with no lock held. -/
  | timer (h : Fin N)
  /-- Kernel code not modelled here sleeps, as `exit` does while it closes files. -/
  | pause (h : Fin N) (chan k : Nat)
  /-- A device interrupt wakes the sleepers on a channel. -/
  | intr (h : Fin N) (chan : Nat)

def Ev.steps (h : Fin N) (t : UInt64) (k : Nat) : List (Ev N) := List.replicate k (.step h ⟨t, true⟩)

/-- The first hart of a machine with two. -/
def hart₀ : Fin 2 := 0

/-- The hart executes `p` first and then what it was about to. -/
def Sys.interrupt (s : Sys N) (h : Fin N) (p : K Unit) : Option (Sys N) :=
  if (s.hart h).held = [] then some (s.goto h (p >>= fun _ => (s.hart h).code)) else none

def Sys.step (n : Nat) (s : Sys N) : Ev N → Option (Sys N)
  | .step h ans => s.exec h ans (s.hart h).code
  | .round h pol =>
    match (s.hart h).code, (s.hart h).stack with
    | .ret _, none => some (s.goto h (scheduler n pol))
    | _, _ => none
  | .call h c =>
    match (s.hart h).code, (s.hart h).stack, (s.hart h).proc with
    | .ret _, some _, some p => some (s.goto h (c.prog n p))
    | _, _, _ => none
  | .timer h =>
    match (s.hart h).proc with
    | some p => s.interrupt h (yield p)
    | none => none
  | .pause h chan k =>
    match (s.hart h).stack, (s.hart h).proc with
    | some _, some p => s.interrupt h ((Call.sleep chan k).prog n p)
    | _, _ => none
  | .intr h chan => s.interrupt h (wakeup n (freeChan chan))

def Sys.boot (N root : Nat) (t0 t : UInt64) : Sys N where
  proc p := if p = initproc then
    { pid := 1, priority := 10, state := .runnable, cwd := root, startTime := t0, waitTime := t } else {}
  ctx p := forkret p
  nextpid := 2
  hart _ := ⟨.ret (), .ret (), none, none, []⟩

end

end Xv6.Harts
