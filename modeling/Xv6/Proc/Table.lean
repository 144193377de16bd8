import Mathlib.Algebra.Group.Nat.Defs
import Mathlib.Logic.Function.Basic
import Xv6.Lib.Run

/-!
# The process table and its state changes (`kernel/proc.c`, `kernel/proc.h`)

The table is `proc : Nat → Proc`, of which the slots below `n` exist (`NPROC` in the kernel; the
development is for any `n`). The `time` CSR is an input: `times` lists the readings the coming calls of
`r_time()` return, and a call takes the next one.

An event of a run is one critical section under a process lock (one iteration of the loops of `wakeup`
and `reparent`, one of the locked parts of `fork`, `exit` and `wait`, a whole `yield`, `kill` or `sleep`)
or one scheduling decision, from `acquire(&sched_lock)` to the switch. The events of different processes
come in any order, so the runs contain every interleaving of the kernel's code at this granularity.
-/

namespace Xv6.Sched

/-- `NPROC` (`param.h:3`). -/
def NPROC : Nat := 64

/-- `enum procstate` (`proc.h:89`). -/
inductive ProcState where
  | unused | used | sleeping | runnable | running | zombie
  deriving DecidableEq, Repr

structure Proc where
  state : ProcState := .unused
  chan : Nat := 0
  killed : Bool := false
  xstate : Int := 0
  pid : Int := 0
  parent : Option Nat := none
  ofile : Nat → Nat := fun _ => 0
  cwd : Nat := 0
  startTime : UInt64 := 0
  turnaroundTime : UInt64 := 0
  waitTime : UInt64 := 0
  totalWaitTime : UInt64 := 0
  endTime : UInt64 := 0
  priority : Int := 0

structure ProcTime where
  pid : Int
  startTime : UInt64
  turnaroundTime : UInt64
  waitTime : UInt64
  totalWaitTime : UInt64
  endTime : UInt64
  priority : Int
  deriving DecidableEq

/-- `proc.c:409-415`. -/
def procTime (x : Proc) : ProcTime :=
  ⟨x.pid, x.startTime, x.turnaroundTime, x.waitTime, x.totalWaitTime, x.endTime, x.priority⟩

/-- The globals of `proc.c`, with the coming readings of the `time` CSR. -/
structure Kern where
  proc : Nat → Proc
  nextpid : Int
  initproc : Option Nat
  times : List UInt64

def boot (times : List UInt64) : Kern :=
  { proc := fun _ => {}, nextpid := 1, initproc := none, times := times }

def Kern.upd (s : Kern) (p : Nat) (f : Proc → Proc) : Kern :=
  { s with proc := Function.update s.proc p (f (s.proc p)) }

def rTime (s : Kern) (k : UInt64 → Kern → Option Kern) : Option Kern :=
  match s.times with
  | [] => none
  | t :: ts => k t { s with times := ts }

def wrap32 (x : Int) : Int := x.bmod (2 ^ 32)

/-! ## Creation and destruction -/

def freeproc (x : Proc) : Proc :=
  { x with pid := 0, parent := none, chan := 0, killed := false, xstate := 0, state := .unused }

def allocproc (n : Nat) (s : Kern) (ok : Bool) : Option Nat × Kern :=
  match (List.range n).find? (fun p => (s.proc p).state = .unused) with
  | none => (none, s)
  | some p =>
    let s' := { s with nextpid := wrap32 (s.nextpid + 1) }.upd p fun x =>
      { x with pid := s.nextpid, priority := 10, state := .used }
    if ok then (some p, s') else (none, s'.upd p freeproc)

/-- `userinit` (`proc.c:219`): the first process. -/
def userinit (n : Nat) (s : Kern) : Option Kern :=
  if s.initproc = none then
    match allocproc n s true with
    | (none, _) => none
    | (some p, s) =>
      rTime s fun t0 s => rTime s fun t s =>
        some ({ s with initproc := some p }.upd p fun x =>
          { x with state := .runnable, startTime := t0, waitTime := t })
  else none

def forkAlloc (n : Nat) (s : Kern) (p : Nat) (ok : Bool) : Option Kern :=
  if p < n ∧ (s.proc p).state = .running then
    match allocproc n s ok with
    | (none, s) => some s
    | (some np, s) => some (s.upd np fun x =>
        { x with
          ofile := fun fd => if (s.proc p).ofile fd ≠ 0 then (s.proc p).ofile fd else x.ofile fd
          cwd := (s.proc p).cwd })
  else none

/-- `np->parent = p` (`proc.c:309`). -/
def forkParent (n : Nat) (s : Kern) (p np : Nat) : Option Kern :=
  if p < n ∧ np < n ∧ (s.proc p).state = .running ∧ (s.proc np).state = .used then
    some (s.upd np fun x => { x with parent := some p })
  else none

def forkRun (n : Nat) (s : Kern) (p np : Nat) : Option Kern :=
  if p < n ∧ np < n ∧ (s.proc p).state = .running ∧ (s.proc np).state = .used ∧
      (s.proc np).parent = some p then
    rTime s fun t s => some (s.upd np fun x => { x with state := .runnable, startTime := t, waitTime := t })
  else none

/-! ## Sleeping, waking, yielding -/

/-- `sleep` (`proc.c:608`) up to the switch. -/
def sleep (n : Nat) (s : Kern) (p chan : Nat) : Option Kern :=
  if p < n ∧ (s.proc p).state = .running then
    some (s.upd p fun x => { x with chan := chan, state := .sleeping })
  else none

/-- One iteration of the loop of `wakeup` (`proc.c:640-649`), for slot `q`. -/
def wakeup (n : Nat) (s : Kern) (chan q : Nat) : Option Kern :=
  if q < n then
    if (s.proc q).state = .sleeping ∧ (s.proc q).chan = chan then
      rTime s fun t s => some (s.upd q fun x => { x with state := .runnable, waitTime := t })
    else some s
  else none

def killTarget (n : Nat) (s : Kern) (pid : Int) : Option Nat :=
  (List.range n).find? (fun p => (s.proc p).pid = pid)

def kill (n : Nat) (s : Kern) (pid : Int) : Option Kern :=
  match killTarget n s pid with
  | none => some s
  | some p => some (s.upd p fun x =>
      { x with killed := true, state := if x.state = .sleeping then .runnable else x.state })

/-- `yield` (`proc.c:574`) up to the switch. -/
def yield (n : Nat) (s : Kern) (p : Nat) : Option Kern :=
  if p < n ∧ (s.proc p).state = .running then
    rTime s fun t s => some (s.upd p fun x => { x with state := .runnable, waitTime := t })
  else none

/-! ## Exit and wait -/

def exitClose (n : Nat) (s : Kern) (p : Nat) : Option Kern :=
  if p < n ∧ (s.proc p).state = .running ∧ s.initproc ≠ some p then
    if (s.proc p).startTime ≠ 0 then
      rTime s fun t s => some (s.upd p fun x =>
        { x with endTime := t, turnaroundTime := t - x.startTime, ofile := fun _ => 0, cwd := 0 })
    else some (s.upd p fun x => { x with ofile := fun _ => 0, cwd := 0 })
  else none

def reparent (n : Nat) (s : Kern) (p q : Nat) : Option Kern :=
  if p < n ∧ q < n ∧ (s.proc p).state = .running then
    if (s.proc q).parent = some p then some (s.upd q fun x => { x with parent := s.initproc }) else some s
  else none

/-- The end of `exit` (`proc.c:378-386`), after the wakeups. -/
def exitZombie (n : Nat) (s : Kern) (p : Nat) (status : Int) : Option Kern :=
  if p < n ∧ (s.proc p).state = .running ∧ s.initproc ≠ some p then
    some (s.upd p fun x => { x with xstate := status, state := .zombie })
  else none

/-- `wait` finding a zombie child (`proc.c:402-431`). -/
def reap (n : Nat) (s : Kern) (p q : Nat) : Option Kern :=
  if p < n ∧ q < n ∧ (s.proc p).state = .running ∧ (s.proc q).parent = some p ∧
      (s.proc q).state = .zombie then
    some (s.upd q freeproc)
  else none

/-! ## The scheduler -/

/-- The three constants of `trap.c:1-3`, of which one is set. -/
inductive Policy where
  | roundRobin | fcfs | priority
  deriving DecidableEq, Repr

/-- The scan of the `SCHED_FCFS` branch (`proc.c:480-495`). -/
def fcfsScan (s : Kern) : List Nat → UInt64 → Option Nat → Option Nat
  | [], _, earliestP => earliestP
  | p :: ps, earliestTime, earliestP =>
    if (s.proc p).state = .runnable ∧ (s.proc p).waitTime < earliestTime then
      fcfsScan s ps (s.proc p).waitTime (some p)
    else fcfsScan s ps earliestTime earliestP

/-- The scan of the `SCHED_PRIORITY` branch (`proc.c:497-512`). -/
def priorityScan (s : Kern) : List Nat → Int → Option Nat → Option Nat
  | [], _, highestP => highestP
  | p :: ps, highestPriority, highestP =>
    if (s.proc p).state = .runnable ∧ (s.proc p).priority < highestPriority then
      priorityScan s ps (s.proc p).priority (some p)
    else priorityScan s ps highestPriority highestP

/-- `target_p` of one pass of `scheduler` (`proc.c:466-513`). -/
def select (n : Nat) (pol : Policy) (s : Kern) : Option Nat :=
  match pol with
  | .roundRobin => (List.range n).find? (fun p => (s.proc p).state = .runnable)
  | .fcfs => fcfsScan s (List.range n) 0xffffffffffffffff none
  | .priority => priorityScan s (List.range n) 9999 none

/-- The number of harts that are running a process. -/
def busy (n : Nat) (s : Kern) : Nat := (List.range n).countP (fun p => (s.proc p).state = .running)

def dispatch (n ncpu : Nat) (pol : Policy) (s : Kern) : Option Kern :=
  if busy n s < ncpu then
    match select n pol s with
    | none => some s
    | some p => rTime s fun now s => some (s.upd p fun x =>
        { x with
          state := .running
          totalWaitTime := x.totalWaitTime + (now - x.waitTime)
          waitTime := now
          chan := 0 })
  else none

/-! ## Runs -/

inductive Ev where
  | userinit
  | forkAlloc (p : Nat) (ok : Bool)
  | forkParent (p np : Nat)
  | forkRun (p np : Nat)
  | sleep (p chan : Nat)
  | wakeup (chan q : Nat)
  | kill (pid : Int)
  | yield (p : Nat)
  | exitClose (p : Nat)
  | reparent (p q : Nat)
  | exitZombie (p : Nat) (status : Int)
  | reap (p q : Nat)
  | dispatch
  deriving DecidableEq, Repr

def step (n ncpu : Nat) (pol : Policy) (s : Kern) : Ev → Option Kern
  | .userinit => userinit n s
  | .forkAlloc p ok => forkAlloc n s p ok
  | .forkParent p np => forkParent n s p np
  | .forkRun p np => forkRun n s p np
  | .sleep p chan => sleep n s p chan
  | .wakeup chan q => wakeup n s chan q
  | .kill pid => kill n s pid
  | .yield p => yield n s p
  | .exitClose p => exitClose n s p
  | .reparent p q => reparent n s p q
  | .exitZombie p status => exitZombie n s p status
  | .reap p q => reap n s p q
  | .dispatch => dispatch n ncpu pol s

end Xv6.Sched
