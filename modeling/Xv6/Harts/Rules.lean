import Xv6.Lib.Protocol
import Xv6.Harts.Machine

/-!
# The rules the kernel code keeps to

The account of a thread: the locks it holds, with what is known of the processes whose locks they are, and what it is in the
middle of. While it holds `wait_lock` nobody else changes a parent or becomes a zombie, so it may also rely on the parents it
has read and on the processes it has found awake.
-/

namespace Xv6.Harts

open Prog
open Sched (Proc ProcState freeproc)

/-! ## Accounts -/

inductive Held where
  | wait
  | sched
  | proc (q : Nat) (x : Proc)
  | other (k : Nat)

namespace Held

def lk : Held → Lk
  | .wait => .wait
  | .sched => .sched
  | .proc q _ => .proc q
  | .other k => .other k

def of (x : Proc) : Lk → Held
  | .wait => .wait
  | .sched => .sched
  | .proc q => .proc q x
  | .other k => .other k

def upd (q : Nat) (f : Proc → Proc) : Held → Held
  | .proc p x => .proc p (if p = q then f x else x)
  | h => h

@[simp] theorem lk_of (x : Proc) (l : Lk) : (of x l).lk = l := by cases l <;> rfl

@[simp] theorem lk_upd (q : Nat) (f : Proc → Proc) (h : Held) : (h.upd q f).lk = h.lk := by cases h <;> rfl

end Held

/-- What the lock of a process protects. -/
def core (x : Proc) : ProcState × Nat × Int := (x.state, x.chan, x.pid)

/-- What is known while `wait_lock` is held. -/
structure Fam where
  /-- Parents that have been read. -/
  par : Nat → Option (Option Nat) := fun _ => none
  /-- Processes that do not sleep in `wait`. -/
  awake : Nat → Prop := fun _ => False
  /-- A process that has to be woken before `wait_lock` is released. -/
  owe : Option Nat := none

structure Round where
  done : List Nat := []
  kids : Bool := false
  killed : Bool := false
  copied : Bool := true

/-- What a process is in the middle of. -/
inductive Job where
  | none
  | took (q : Nat)
  | born (q : Nat)
  | filled (q : Nat)
  | child (q : Nat)
  | closed
  | orphan (done : List Nat)
  | dead
  /-- `wait`: a round; `wait_lock` released and about to sleep; about to return -1. -/
  | scan (r : Round)
  | doze
  | left (r : Round)
  /-- `kill(pid)` has found its process. -/
  | marked (pid : Int)

def Job.Brief : Job → Prop
  | .took _ => True
  | .doze => True
  | _ => False

inductive Role where
  | user (p : Nat)
  | idle
  | claim (p : Nat)
  | current (p : Nat)
  | leaving (p : Nat)
  deriving DecidableEq

namespace Role

def cur : Role → Option Nat
  | .user p => some p
  | .current p => some p
  | _ => none

/-- A process, or a scheduler between two processes. -/
def Plain (r : Role) : Prop := r = .idle ∨ ∃ p, r = .user p

def has : Role → Option Nat
  | .user p => some p
  | .claim p => some p
  | .current p => some p
  | .leaving p => some p
  | .idle => none

def drop : Role → Role
  | .leaving _ => .idle
  | r => r

end Role

structure Ask where
  addr : Option Nat := none
  tried : Option (Option Int) := none

structure Acct where
  role : Role
  held : List Held := []
  fam : Fam := {}
  job : Job := .none
  ask : Ask := {}

namespace Acct

def locks (a : Acct) : List Lk := a.held.map Held.lk

def me (a : Acct) : Option Nat :=
  match a.role with
  | .user p => some p
  | _ => none

/-- The lock of `q` is held and its state is `st`. -/
def In (a : Acct) (q : Nat) (st : ProcState) : Prop := ∃ x, .proc q x ∈ a.held ∧ x.state = st

def Own (a : Acct) : Prop := ∃ p, a.me = some p ∧ .proc p ∈ a.locks

instance (a : Acct) : Decidable a.Own :=
  match h : a.me with
  | none => .isFalse (by simp [Own, h])
  | some p => decidable_of_iff (.proc p ∈ a.locks) (by simp [Own, h])

end Acct

/-! ## What the operations do to an account -/

/-- `wait_lock` is taken to give away the children, or for a round of `wait`. -/
def Job.begin : Job → Job
  | .closed => .orphan []
  | .none => .scan {}
  | j => j

def Job.see (me : Option Nat) (locked : Bool) (q : Nat) (x : Proc) : Job → Job
  | .orphan done => .orphan (if x.parent = me then done else q :: done)
  | .scan r => .scan
      { done := if x.parent = me ∧ ¬(locked ∧ x.state ≠ .zombie) then r.done else q :: r.done
        kids := r.kids || decide (x.parent = me)
        killed := r.killed || (decide (me = some q) && x.killed)
        copied := r.copied }
  | j => j

def Job.copied (b : Bool) : Job → Job
  | .scan r => .scan { r with copied := r.copied && b }
  | j => j

namespace Acct

def acquire (a : Acct) (l : Lk) (x : Proc) : Acct :=
  { a with
    held := .of x l :: a.held
    fam := if l = .wait then {} else a.fam
    job := if l = .wait then a.job.begin else a.job }

def leave (a : Acct) : Job :=
  match a.job with
  | .scan r => if a.Own then .doze else .left r
  | j => j

def release (a : Acct) (l : Lk) : Acct :=
  { a with
    held := a.held.eraseP fun h => h.lk = l
    fam := if l = .wait then {} else a.fam
    job := if l = .wait then a.leave else a.job }

def see (a : Acct) (q : Nat) (x : Proc) : Acct :=
  { a with
    fam := if .wait ∈ a.locks then
        { a.fam with
          par := Function.update a.fam.par q (some x.parent)
          awake := fun r => a.fam.awake r ∨
            r = q ∧ .proc q ∈ a.locks ∧ a.me ≠ some q ∧ ¬(x.state = .sleeping ∧ x.chan = procChan q) }
      else a.fam
    job := a.job.see a.me (decide (.proc q ∈ a.locks)) q x }

def upd (a : Acct) (q : Nat) (f : Proc → Proc) : Acct := { a with held := a.held.map (Held.upd q f) }

end Acct

namespace Wr

def job (q : Nat) : Wr → Job → Job
  | .free, _ => .none
  | .dup _, _ => .filled q
  | .parent _, .filled _ => .child q
  | .parent _, .orphan done => .orphan (q :: done)
  | .publish _, _ => .none
  | .kill pid, _ => .marked pid
  | .sleep _, .doze => .none
  | .close, _ => .closed
  | .zombie _, _ => .dead
  | _, j => j

def fam (q : Nat) (j : Job) : Wr → Fam → Fam
  | .free, f => { f with par := Function.update f.par q none }
  | .parent r, f => { f with
      par := Function.update f.par q (some (some r))
      owe := match j with | .orphan _ => some r | _ => f.owe }
  | .ready _, f => { f with awake := fun r => f.awake r ∨ r = q }
  | _, f => f

def role (q : Nat) : Wr → Role → Role
  | .run _, _ => .claim q
  | _, r => r

def acct (w : Wr) (a : Acct) (q : Nat) : Acct :=
  { a.upd q w.apply with
    role := w.role q a.role
    fam := if .wait ∈ a.locks then w.fam q a.job a.fam else a.fam
    job := w.job q a.job }

end Wr

/-- `p->pid = pid; p->priority = 10; p->state = USED`. -/
def taken (pid : Int) (x : Proc) : Proc := { x with pid := pid, priority := 10, state := .used }

/-! ## When an operation is allowed -/

def Round.All (n : Nat) (r : Round) : Prop := ∀ q < n, q ∈ r.done

/-- `wait_lock` may be released. -/
def Acct.MayLeave (n : Nat) (a : Acct) : Prop :=
  (∀ r, a.fam.owe = some r → a.fam.awake r) ∧
  match a.job with
  | .orphan _ => False
  | .scan r => if a.Own then r.All n else r.kids = false ∧ r.All n ∨ r.killed = true ∨ r.copied = false
  | _ => True

def Acct.MayRelease (a : Acct) (l : Lk) : Prop :=
  a.role.Plain ∨ ∃ p st, a.role = .leaving p ∧ l = .proc p ∧ a.In p st ∧ st ≠ .running

/-- The writes that are allowed, for calls `kill(pid)` with `ok pid`. -/
def Wr.Allowed (n : Nat) (ok : Int → Prop) (a : Acct) (q : Nat) : Wr → Prop
  | .free => a.In q .used ∧ (a.job = .took q ∨ a.job = .born q) ∨
      a.In q .zombie ∧ .wait ∈ a.locks ∧ a.me ≠ none ∧ a.fam.par q = some a.me ∧ ∃ r, a.job = .scan r
  | .dup _ => a.job = .born q
  | .parent r => .wait ∈ a.locks ∧ (a.job = .filled q ∧ a.me = some r ∨
      (∃ done, a.job = .orphan done) ∧ a.fam.par q = some a.me ∧ r = initproc)
  | .publish _ => a.job = .child q ∧ .proc q ∈ a.locks
  | .ready _ => a.In q .sleeping ∧ a.me ≠ some q ∨ a.In q .running ∧ a.me = some q ∧ ¬a.job.Brief
  | .kill pid => ok pid ∧ (∃ x, .proc q x ∈ a.held ∧ x.pid = pid) ∧ a.me ≠ none ∧ a.job = .none
  | .setkilled => a.me = some q ∧ a.In q .running
  | .sleep chan => a.me = some q ∧ a.In q .running ∧ (chan = procChan q ↔ a.job = .doze)
  | .clearChan => a.me = some q ∧ a.In q .running
  | .file _ _ => a.me = some q ∧ a.job = .none
  | .chdir _ => a.me = some q ∧ a.job = .none
  | .endTime _ => a.me = some q ∧ a.job = .none
  | .close => a.me = some q ∧ q ≠ initproc ∧ a.job = .none
  | .zombie _ => a.me = some q ∧ a.In q .running ∧ .wait ∈ a.locks ∧ (∃ done, a.job = .orphan done ∧ ∀ r < n, r ∈ done) ∧
      ∃ o, a.fam.par q = some o ∧ ∀ r < n, o = some r → r = q ∨ a.fam.awake r
  | .run _ => a.role = .idle ∧ a.In q .runnable

/-- The rules, for a table of `n` slots. -/
def rules (n : Nat) (ok : Int → Prop) : Protocol Op Acct where
  pre
    | _, .acquire l, a => l = .wait → a.me ≠ none
    | _, .release l, a => a.MayRelease l ∧ ¬a.job.Brief ∧ l ∈ a.locks ∧ (l = .wait → a.MayLeave n) ∧
        ∀ q, l = .proc q → a.role.cur = some q → a.In q .running
    | _, .set q w, a => w.Allowed n ok a q
    | _, .take q, a => q < n ∧ a.me ≠ none ∧ a.job = .none ∧ a.In q .unused
    | _, .newctx q, a => a.job = .took q
    | _, .setproc (some p), a => a.role = .claim p
    | _, .setproc none, a => ∃ p, a.role = .current p
    | _, .swtchTo p, a => ∃ x, x.state = .running ∧ a = { role := .current p, held := [.proc p x] }
    | _, .sched p, a => a.me = some p ∧ (∃ x, a.held = [.proc p x] ∧ x.state ≠ .running) ∧
        ¬a.job.Brief ∧ (∀ r, a.job ≠ .scan r) ∧ ∀ d, a.job ≠ .orphan d
    | _, .waitCall _, a => a.me ≠ none
    | _, .copyout q pt addr, a => a.me ≠ none ∧ a.ask = { addr := some addr } ∧ ∃ x, .proc q x ∈ a.held ∧ x.state = .zombie ∧ x.pid = pt.pid
    | _, .waitRet v, a => (v ≠ none ∧ a.job = .none ∨ v = none ∧ ∃ r, a.job = .left r) ∧ a.me ≠ none ∧
        ∃ addr, a.ask.addr = some addr ∧ (addr ≠ 0 → v ≠ none → a.ask.tried = some v)
    | _, .killRet pid v, a => a.me ≠ none ∧ (v ≠ 0 ∧ a.job = .none ∨ v = 0 ∧ a.job = .marked pid)
    | _, _, _ => True
  post
    | _, .acquire l, a, _, a' => l ∉ a.locks ∧ ∃ x : Proc,
        (∀ q, l = .proc q → a.role.cur = some q → x.state = .running) ∧ a' = a.acquire l x
    | _, .release l, a, _, a' => a' = { a.release l with role := a.role.drop }
    | _, .get q, a, x, a' => (∀ y, .proc q y ∈ a.held → core x = core y) ∧
        (.wait ∈ a.locks → ∀ o, a.fam.par q = some o → x.parent = o) ∧ a' = a.see q x
    | _, .set q w, a, _, a' => a' = w.acct a q
    | _, .take q, a, _, a' => ∃ pid, a' = { a.upd q (taken pid) with job := .took q }
    | _, .newctx q, a, _, a' => a' = { a with job := .born q }
    | _, .myproc, a, x, a' => x = a.role.cur ∧ a' = a
    | _, .setproc (some p), a, _, a' => a' = { a with role := .current p }
    | _, .setproc none, a, _, a' => ∃ p, a.role = .current p ∧ a' = { a with role := .leaving p }
    | _, .time, a, _, a' => a' = a
    | _, .kalloc, a, _, a' => a' = a
    | _, .waitCall addr, a, _, a' => a' = { a with ask := { addr := some addr } }
    | _, .copyout _ pt _, a, b, a' => a' = { a with
        job := a.job.copied b
        ask := { a.ask with tried := some (if b then some pt.pid else none) } }
    | _, .swtchTo p, a, _, a' => ∃ x : Proc, x.state ≠ .running ∧ a' = { a with held := [.proc p x] }
    | _, .sched p, a, _, a' => a.job ≠ .dead ∧ ∃ x : Proc, x.state = .running ∧ a' = { a with held := [.proc p x] }
    | _, .waitRet _, a, _, a' => a' = { a with job := .none, ask := {} }
    | _, .killRet _ _, a, _, a' => a' = { a with job := .none }

/-- The account in user mode and between two rounds of the scheduler. -/
def Ends (_ : Unit) (a : Acct) : Prop := a = { role := a.role } ∧ a.role.Plain

end Xv6.Harts
