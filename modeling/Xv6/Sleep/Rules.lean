import Xv6.Sleep.Machine

/-!
# The rules of sleeping and waking

The account of a thread: whose code it is, the locks it holds with what it knows of the processes, and what it is about to do with the
condition. Between its test of the condition and `p->state = SLEEPING` a waiter holds `lk` or its own lock, and a waker has to find
every process awake while it holds `lk`.
-/

open Function (update)

namespace Xv6.Sleep

open Prog
open Harts (Op Lk Wr)
open Sched (Proc ProcState Policy)
open List

/-- What a thread is about to do with the condition. -/
inductive Plan where
  | calm
  /-- It holds `lk` and has seen the condition true. -/
  | seen
  /-- It holds `lk`, has seen the condition false and goes to sleep. -/
  | doomed
  /-- It has released `lk` and holds its own lock. -/
  | drowsy
  | waking (i : Nat) (ok : Bool)
  deriving DecidableEq

@[ext]
structure Acct where
  /-- The process whose code it is; `none` for a scheduler. -/
  me : Option Nat
  /-- `c->proc`. -/
  cur : Option Nat
  held : List Lk
  /-- The states of processes whose lock is held. -/
  known : Nat → Option ProcState
  /-- The process that a scheduler has made `RUNNING` and not yet switched to. -/
  claim : Option Nat
  plan : Plan

namespace Acct

/-- A process that holds a lock of its own knows itself running. -/
def acquire (a : Acct) (l : Lk) : Acct :=
  { a with
    held := l :: a.held
    known := match l with
      | .proc q => update a.known q (if a.me = some q then some .running else none)
      | _ => a.known }

def release (a : Acct) (l : Lk) : Acct :=
  { a with
    held := a.held.erase l
    known := match l with
      | .proc q => update a.known q none
      | _ => a.known
    plan := match l, a.plan with
      | .other _, .doomed => .drowsy
      | .other _, .drowsy => .drowsy
      | .other _, _ => .calm
      | .proc q, .waking i ok => if q = i then .waking (i + 1) false else .waking i ok
      | _, p => p }

/-- The record of `q` is read under its lock. -/
def see (chan : Nat) (a : Acct) (q : Nat) (x : Proc) : Acct :=
  { a with
    known := update a.known q (some x.state)
    plan := match a.plan with
      | .waking i ok => if i = q ∧ ¬(x.state = .sleeping ∧ x.chan = chan) then .waking i true else .waking i ok
      | p => p }

def write (a : Acct) (q : Nat) : Wr → Acct
  | .ready _ => { a with
      known := update a.known q none
      plan := match a.plan with
        | .waking i ok => if i = q then .waking i true else .waking i ok
        | p => p }
  | .sleep _ => { a with known := update a.known q none, plan := .calm }
  | .run _ => { a with known := update a.known q (some .running), claim := some q }
  | .clearChan => a
  | .kill _ => { a with known := update a.known q ((a.known q).filter (· = .running)) }
  | _ => { a with known := update a.known q none }

/-- `wakeup` passes over the process that calls it. -/
def skip (a : Acct) : Acct :=
  { a with
    plan := match a.plan with
      | .waking i ok => if a.cur = some i then .waking (i + 1) false else .waking i ok
      | p => p }

end Acct

/-- A process that comes back from `sched`. -/
def resumed (p : Nat) : Acct := ⟨some p, some p, [.proc p], update (fun _ => none) p (some .running), none, .calm⟩

/-- A scheduler that comes back from `swtch`. -/
def returned (p : Nat) : Acct := ⟨none, some p, [.proc p], fun _ => none, none, .calm⟩

/-- What a thread may write. -/
def Allowed (chan : Nat) (a : Acct) (q : Nat) : Wr → Prop
  | .ready _ => a.known q = some .running ∧ a.me = some q ∧ a.plan = .calm ∨ a.known q = some .sleeping ∧ ∃ ok, a.plan = .waking q ok
  | .kill _ => a.plan = .calm ∧ a.claim = none
  | .sleep c => c = chan ∧ a.me = some q ∧ a.plan = .drowsy
  | .clearChan => a.me = some q ∧ a.known q = some .running
  | .run _ => a.me = none ∧ a.known q = some .runnable ∧ a.plan = .calm ∧ a.claim = none
  | _ => False

/-- The lock may be released. -/
def MayRelease (n : Nat) (a : Acct) : Lk → Prop
  | .proc q => a.plan ≠ .drowsy ∧ (a.me = some q → a.known q = some .running) ∧ (∀ ok, a.plan = .waking q ok → ok = true) ∧ a.claim ≠ some q
  | .other _ =>
    match a.plan with
    | .doomed => ∃ p, a.me = some p ∧ .proc p ∈ a.held
    | .waking i _ => n ≤ i
    | .drowsy => False
    | _ => True
  | _ => True

def pre (n chan : Nat) : ∀ β, Op β → Acct → Prop
  | _, .acquire _, _ => True
  | _, .release l, a => l ∈ a.held ∧ MayRelease n a l
  | _, .get q, a => .proc q ∈ a.held
  | _, .set q w, a => .proc q ∈ a.held ∧ Allowed chan a q w
  | _, .myproc, a => ∀ i ok, a.plan = .waking i ok → a.cur = a.me ∧ ∀ p, a.me = some p → .proc p ∉ a.held
  | _, .setproc _, a => a.me = none
  | _, .time, _ => True
  | _, .swtchTo p, a => a.me = none ∧ a.cur = some p ∧ a.held = [.proc p] ∧ a.claim = some p ∧ a.plan = .calm
  | _, .sched p, a => a.me = some p ∧ a.held = [.proc p] ∧ a.plan = .calm
  | _, _, _ => False

def post (chan : Nat) : ∀ β, Op β → Acct → β → Acct → Prop
  | _, .acquire l, a, _, a' => l ∉ a.held ∧ a' = a.acquire l
  | _, .release l, a, _, a' => a' = a.release l
  | _, .get q, a, x, a' => (∀ st, a.known q = some st → x.state = st) ∧ a' = a.see chan q x
  | _, .set q w, a, _, a' => a' = a.write q w
  | _, .myproc, a, b, a' => b = a.cur ∧ a' = a.skip
  | _, .setproc p, a, _, a' => a' = { a with cur := p }
  | _, .time, a, _, a' => a' = a
  | _, .swtchTo p, _, _, a' => a' = returned p
  | _, .sched p, _, _, a' => a' = resumed p
  | _, _, _, _, _ => False

def kernelRules (n chan : Nat) : Protocol Op Acct := ⟨pre n chan, post chan⟩

def condPre : ∀ β, CondOp β → Acct → Prop
  | _, .test, a => lk ∈ a.held ∧ a.plan = .calm
  | _, .assign b, a => lk ∈ a.held ∧ (a.plan = .seen ∨ a.plan = .calm ∧ b = true)

def condPost : ∀ β, CondOp β → Acct → β → Acct → Prop
  | _, .test, a, b, a' => a' = { a with plan := if b then .seen else .doomed }
  | _, .assign _, a, _, a' => a' = { a with plan := if a.plan = .seen then .seen else .waking 0 false }

def rules (n chan : Nat) : Protocol Kop Acct where
  pre β e a := match e with
    | .inl e => pre n chan β e a
    | .inr e => condPre β e a
  post β e a b a' := match e with
    | .inl e => post chan β e a b a'
    | .inr e => condPost β e a b a'

variable {n chan p q : Nat} {a : Acct} {α : Type}

theorem obeys_kernel {c : Harts.K α} {Q : α → Acct → Prop} (h : Obeys (kernelRules n chan) c a Q) :
    Obeys (rules n chan) (kernel c) a Q := by
  have h' : Obeys (rules n chan) (kernel c) (id a) fun x d => ∃ g, d = id g ∧ Q x g :=
    Obeys.lift (f := fun _ => Sum.inl) (i := id) (fun _ _ _ hp => hp) (fun _ _ _ _ d hd => ⟨d, rfl, hd⟩) h
  refine h'.mono ?_
  rintro x _ ⟨g, rfl, hQ⟩
  exact hQ

/-! ## The code keeps to the rules -/

section
variable {Q : Unit → Acct → Prop} {l : Lk}

theorem obeys_acquire (h : l ∉ a.held → Q () (a.acquire l)) : Obeys (kernelRules n chan) (Harts.acquire l) a Q := by
  refine obeys_perform.2 ⟨trivial, ?_⟩
  rintro _ _ ⟨hl, rfl⟩
  exact h hl

theorem obeys_release (hl : l ∈ a.held) (hm : MayRelease n a l) (h : Q () (a.release l)) :
    Obeys (kernelRules n chan) (Harts.release l) a Q := by
  refine obeys_perform.2 ⟨⟨hl, hm⟩, ?_⟩
  rintro _ _ rfl
  exact h

theorem obeys_get {Q : Proc → Acct → Prop} (hq : .proc q ∈ a.held)
    (h : ∀ x : Proc, (∀ st, a.known q = some st → x.state = st) → Q x (a.see chan q x)) :
    Obeys (kernelRules n chan) (Harts.get q) a Q := by
  refine obeys_perform.2 ⟨hq, ?_⟩
  rintro x _ ⟨hx, rfl⟩
  exact h x hx

theorem obeys_set {w : Wr} (hq : .proc q ∈ a.held) (hw : Allowed chan a q w) (h : Q () (a.write q w)) :
    Obeys (kernelRules n chan) (Harts.set q w) a Q := by
  refine obeys_perform.2 ⟨⟨hq, hw⟩, ?_⟩
  rintro _ _ rfl
  exact h

theorem obeys_time {Q : UInt64 → Acct → Prop} (h : ∀ t, Q t a) : Obeys (kernelRules n chan) Harts.time a Q := by
  refine obeys_perform.2 ⟨trivial, ?_⟩
  rintro t _ rfl
  exact h t

theorem obeys_sched (hme : a.me = some p) (hh : a.held = [.proc p]) (hp : a.plan = .calm) (h : Q () (resumed p)) :
    Obeys (kernelRules n chan) (Harts.sched p) a Q := by
  refine obeys_perform.2 ⟨⟨hme, hh, hp⟩, ?_⟩
  rintro _ _ rfl
  exact h

end

/-- The code of the process `p`, with nothing known of others. -/
def proc (p : Nat) (held : List Lk) (plan : Plan) : Acct := ⟨some p, some p, held, fun _ => none, none, plan⟩

theorem obeys_forkret : Obeys (kernelRules n chan) (Harts.forkret p) (resumed p) fun _ a => a = proc p [] .calm := by
  refine obeys_release (by simp [resumed]) ?_ ?_
  · simp [MayRelease, resumed]
  · simp [Acct.release, resumed, proc]

theorem obeys_sleep : Obeys (kernelRules n chan) (Harts.sleep p chan lk) (proc p [lk] .doomed) fun _ a => a = proc p [lk] .calm := by
  unfold Harts.sleep
  refine obeys_bind.2 (obeys_acquire fun _ => ?_)
  refine obeys_bind.2 (obeys_release (by simp [Acct.acquire, proc]) ?_ ?_)
  · simp [MayRelease, Acct.acquire, proc, lk]
  refine obeys_bind.2 (obeys_set ?_ ?_ ?_)
  · simp [Acct.release, Acct.acquire, proc, lk]
  · simp [Allowed, Acct.release, Acct.acquire, proc, lk]
  refine obeys_bind.2 (obeys_sched ?_ ?_ ?_ ?_)
  · simp [Acct.write, Acct.release, Acct.acquire, proc]
  · simp [Acct.write, Acct.release, Acct.acquire, proc, lk]
  · simp [Acct.write]
  refine obeys_bind.2 (obeys_set ?_ ?_ ?_)
  · simp [resumed]
  · simp [Allowed, resumed]
  refine obeys_bind.2 (obeys_forkret.mono ?_)
  rintro _ _ rfl
  exact obeys_acquire fun _ => rfl

theorem obeys_release_woken {Q : Unit → Acct → Prop} {v : Option ProcState} (hpq : p ≠ q)
    (ha : a = ⟨some p, some p, [.proc q, lk], update (fun _ => none) q v, none, .waking q true⟩)
    (h : Q () (proc p [lk] (.waking (q + 1) false))) : Obeys (kernelRules n chan) (Harts.release (.proc q)) a Q := by
  subst ha
  refine obeys_release (by simp) ?_ ?_
  · simp [MayRelease, hpq]
  · simpa [Acct.release, proc] using h

theorem obeys_wakeupFrom (k i : Nat) :
    Obeys (kernelRules n chan) (Harts.wakeupFrom chan (range' i k)) (proc p [lk] (.waking i false))
      fun _ a => a = proc p [lk] (.waking (i + k) false) := by
  induction k generalizing i with
  | zero => exact rfl
  | succ k ih =>
    have hnext : Obeys (kernelRules n chan) (Harts.wakeupFrom chan (range' (i + 1) k)) (proc p [lk] (.waking (i + 1) false))
        fun _ a => a = proc p [lk] (.waking (i + (k + 1)) false) := by
      rw [show i + (k + 1) = i + 1 + k by omega]
      exact ih (i + 1)
    rw [range'_succ, Harts.wakeupFrom]
    refine obeys_bind.2 (obeys_perform.2 ⟨?_, ?_⟩)
    · rintro j ok hj
      simp [proc, lk]
    rintro b a ⟨rfl, rfl⟩
    by_cases hpi : p = i
    · subst hpi
      simpa [proc, Acct.skip] using hnext
    have hskip : (proc p [lk] (.waking i false)).skip = proc p [lk] (.waking i false) := by simp [proc, Acct.skip, hpi]
    rw [hskip, if_pos (by simpa [proc] using hpi)]
    refine obeys_bind.2 (obeys_acquire fun _ => ?_)
    refine obeys_bind.2 (obeys_get (by simp [Acct.acquire]) fun x _ => ?_)
    by_cases hx : x.state = .sleeping ∧ x.chan = chan
    · rw [if_pos hx]
      refine obeys_bind.2 (obeys_time fun t => ?_)
      refine obeys_bind.2 (obeys_set ?_ ?_ ?_)
      · simp [Acct.see, Acct.acquire]
      · simp [Allowed, Acct.see, Acct.acquire, proc, hx]
      refine obeys_bind.2 (obeys_release_woken (v := none) hpi ?_ hnext)
      simp [Acct.write, Acct.see, Acct.acquire, proc, hx]
    · rw [if_neg hx]
      refine obeys_bind.2 (obeys_release_woken (v := some x.state) hpi ?_ hnext)
      simp [Acct.see, Acct.acquire, proc, hx, hpi]

theorem obeys_wakeup : Obeys (kernelRules n chan) (Harts.wakeup n chan) (proc p [lk] (.waking 0 false))
    fun _ a => a = proc p [lk] (.waking n false) := by
  have h : Obeys (kernelRules n chan) (Harts.wakeupFrom chan (range' 0 n)) (proc p [lk] (.waking 0 false))
      fun _ a => a = proc p [lk] (.waking (0 + n) false) := obeys_wakeupFrom n 0
  rwa [Nat.zero_add, ← range_eq_range'] at h

theorem obeys_release_other {Q : Unit → Acct → Prop} {v : Option ProcState}
    (ha : a = ⟨some p, some p, [.proc q], update (fun _ => none) q v, none, .calm⟩) (hv : p = q → v = some .running)
    (h : Q () (proc p [] .calm)) : Obeys (kernelRules n chan) (Harts.release (.proc q)) a Q := by
  subst ha
  refine obeys_release (by simp) ?_ ?_
  · simpa [MayRelease] using hv
  · simpa [Acct.release, proc] using h

theorem obeys_killFrom (pid : Int) (qs : List Nat) :
    Obeys (kernelRules n chan) (Harts.killFrom pid qs) (proc p [] .calm) fun _ a => a = proc p [] .calm := by
  induction qs with
  | nil => exact rfl
  | cons q qs ih =>
    rw [Harts.killFrom]
    refine obeys_bind.2 (obeys_acquire fun _ => ?_)
    refine obeys_bind.2 (obeys_get (by simp [Acct.acquire]) fun x hx => ?_)
    have hself : p = q → x.state = .running := fun hp => hx .running (by simp [Acct.acquire, proc, hp])
    by_cases hpid : x.pid = pid
    · rw [if_pos hpid]
      refine obeys_bind.2 (obeys_set ?_ ?_ ?_)
      · simp [Acct.see, Acct.acquire]
      · simp [Allowed, Acct.see, Acct.acquire, proc]
      refine obeys_bind.2 (obeys_release_other (v := (some x.state).filter (· = .running)) ?_ ?_ rfl)
      · simp [Acct.write, Acct.see, Acct.acquire, proc]
      · intro hp
        simp [hself hp]
    · rw [if_neg hpid]
      refine obeys_bind.2 (obeys_release_other (v := some x.state) ?_ ?_ ih)
      · simp [Acct.see, Acct.acquire, proc]
      · intro hp
        simp [hself hp]

theorem obeys_yield : Obeys (kernelRules n chan) (Harts.yield p) (proc p [] .calm) fun _ a => a = proc p [] .calm := by
  unfold Harts.yield
  refine obeys_bind.2 (obeys_acquire fun _ => ?_)
  refine obeys_bind.2 (obeys_time fun t => ?_)
  refine obeys_bind.2 (obeys_set ?_ ?_ ?_)
  · simp [Acct.acquire]
  · simp [Allowed, Acct.acquire, proc]
  refine obeys_bind.2 (obeys_sched ?_ ?_ ?_ ?_)
  · simp [Acct.write, Acct.acquire, proc]
  · simp [Acct.write, Acct.acquire, proc]
  · simp [Acct.write, Acct.acquire, proc]
  exact obeys_forkret

/-! A scheduler holds the lock of the best process so far. -/

def picking (best : Option Nat) : Acct where
  me := none
  cur := none
  held := (best.map Lk.proc).toList ++ [.sched]
  known q := if best = some q then some .runnable else none
  claim := none
  plan := .calm

/-- The account of a scheduler that has looked at `p`. -/
def looked (chan : Nat) (best : Option Nat) (p : Nat) (x : Proc) : Acct := ((picking best).acquire (.proc p)).see chan p x

section
variable {x : Proc} {best : Option Nat}

theorem looked_none (hx : x.state = .runnable) : looked chan none p x = picking (some p) := by
  apply Acct.ext <;> try simp [looked, picking, Acct.acquire, Acct.see]
  funext q
  by_cases hq : q = p
  · simp [hq, hx]
  · simp [hq, Ne.symm hq]

theorem release_looked (hp : best ≠ some p) : (looked chan best p x).release (.proc p) = picking best := by
  apply Acct.ext <;> simp [looked, picking, Acct.acquire, Acct.see, Acct.release, hp]

theorem release_best {b : Nat} (hb : b ≠ p) (hx : x.state = .runnable) :
    (looked chan (some b) p x).release (.proc b) = picking (some p) := by
  apply Acct.ext <;> try simp [looked, picking, Acct.acquire, Acct.see, Acct.release, Ne.symm hb]
  funext q
  by_cases hq : q = b
  · simp [hq, Ne.symm hb]
  · by_cases hp : q = p
    · simp [hp, Ne.symm hb, hx]
    · simp [hq, hp, Ne.symm hq, Ne.symm hp]

end

theorem obeys_scanFirst (ps : List Nat) :
    Obeys (kernelRules n chan) (Harts.scanFirst ps) (picking none) fun best a => a = picking best := by
  induction ps with
  | nil => exact rfl
  | cons p ps ih =>
    rw [Harts.scanFirst]
    refine obeys_bind.2 (obeys_acquire fun _ => ?_)
    refine obeys_bind.2 (obeys_get (by simp [Acct.acquire]) fun x _ => ?_)
    by_cases hrun : x.state = .runnable
    · rw [if_pos hrun]
      exact looked_none hrun
    rw [if_neg hrun]
    refine obeys_bind.2 (obeys_release ?_ ?_ ?_)
    · simp [Acct.see, Acct.acquire]
    · simp [MayRelease, Acct.see, Acct.acquire, picking]
    · convert ih using 1
      exact release_looked (by simp)

theorem obeys_scanBest {κ : Type} (key : Proc → κ) (lt : κ → κ → Bool) (ps : List Nat) (bound : κ) (best : Option Nat) :
    Obeys (kernelRules n chan) (Harts.scanBest key lt ps bound best) (picking best) fun best a => a = picking best := by
  induction ps generalizing bound best with
  | nil => exact rfl
  | cons p ps ih =>
    rw [Harts.scanBest]
    refine obeys_bind.2 (obeys_acquire fun hp => ?_)
    refine obeys_bind.2 (obeys_get (by simp [Acct.acquire]) fun x _ => ?_)
    have hbest : best ≠ some p := by
      rintro rfl
      exact hp (by simp [picking])
    by_cases hrun : x.state = .runnable ∧ lt (key x) bound
    · rw [if_pos hrun]
      cases best with
      | none =>
        convert ih (key x) (some p) using 1
        exact looked_none hrun.1
      | some b =>
        have hb : b ≠ p := fun e => hbest (e ▸ rfl)
        refine obeys_bind.2 (obeys_release ?_ ?_ ?_)
        · simp [Acct.see, Acct.acquire, picking]
        · simp [MayRelease, Acct.see, Acct.acquire, picking]
        · convert ih (key x) (some p) using 1
          exact release_best hb hrun.1
    · rw [if_neg hrun]
      refine obeys_bind.2 (obeys_release ?_ ?_ ?_)
      · simp [Acct.see, Acct.acquire]
      · simp [MayRelease, Acct.see, Acct.acquire, picking]
      · convert ih bound best using 1
        exact release_looked hbest

theorem obeys_scan (pol : Policy) : Obeys (kernelRules n chan) (Harts.scan n pol) (picking none) fun best a => a = picking best := by
  cases pol with
  | roundRobin => exact obeys_scanFirst _
  | fcfs | priority => exact obeys_scanBest _ _ _ _ _

/-- A hart between two rounds of its scheduler. -/
def idle : Acct := ⟨none, none, [], fun _ => none, none, .calm⟩

theorem obeys_scheduler (pol : Policy) : Obeys (kernelRules n chan) (Harts.scheduler n pol) idle fun _ a => a = idle := by
  unfold Harts.scheduler
  refine obeys_bind.2 (obeys_acquire fun _ => ?_)
  refine obeys_bind.2 ((obeys_scan pol).mono ?_)
  rintro best _ rfl
  cases best with
  | none =>
    refine obeys_release (by simp [picking]) trivial ?_
    simp [Acct.release, picking, idle]
  | some p =>
    refine obeys_bind.2 (obeys_release (by simp [picking]) trivial ?_)
    refine obeys_bind.2 (obeys_time fun t => ?_)
    refine obeys_bind.2 (obeys_set ?_ ?_ ?_)
    · simp [Acct.release, picking]
    · simp [Allowed, Acct.release, picking]
    refine obeys_bind.2 (obeys_perform.2 ⟨rfl, ?_⟩)
    rintro _ _ rfl
    refine obeys_bind.2 (obeys_perform.2 ⟨?_, ?_⟩)
    · refine ⟨rfl, rfl, ?_, rfl, rfl⟩
      simp [Acct.write, Acct.release, picking]
    rintro _ _ rfl
    refine obeys_bind.2 (obeys_perform.2 ⟨rfl, ?_⟩)
    rintro _ _ rfl
    refine obeys_release (by simp [returned]) ?_ ?_
    · simp [MayRelease, returned]
    · simp [Acct.release, returned, idle]

/-! The calls. -/

theorem obeys_acquire_lk : Obeys (rules n chan) (kernel (Harts.acquire lk)) (proc p [] .calm) fun _ a => a = proc p [lk] .calm :=
  obeys_kernel (obeys_acquire fun _ => rfl)

theorem obeys_release_lk {plan : Plan} (hm : MayRelease n (proc p [lk] plan) lk) (hd : plan ≠ .doomed) :
    Obeys (rules n chan) (kernel (Harts.release lk)) (proc p [lk] plan) fun _ a => a = proc p [] .calm := by
  refine obeys_kernel (obeys_release (by simp [proc]) hm ?_)
  cases plan <;> simp_all [Acct.release, proc, lk, MayRelease]

theorem obeys_waitLoop (fuel : Nat) :
    Obeys (rules n chan) (waitLoop p chan fuel) (proc p [lk] .calm) fun _ a => a = proc p [lk] .seen := by
  induction fuel with
  | zero => trivial
  | succ fuel ih =>
    rw [waitLoop]
    refine obeys_bind.2 (obeys_perform.2 ⟨⟨by simp [proc], rfl⟩, ?_⟩)
    rintro b _ rfl
    cases b with
    | true => exact rfl
    | false =>
      refine obeys_bind.2 ((obeys_kernel obeys_sleep).mono ?_)
      rintro _ _ rfl
      exact ih

theorem obeys_body (bs : List Bool) : Obeys (rules n chan) (body bs) (proc p [lk] .seen) fun _ a => a = proc p [lk] .seen := by
  induction bs with
  | nil => exact rfl
  | cons b bs ih =>
    rw [body]
    refine obeys_bind.2 (obeys_perform.2 ⟨⟨by simp [proc], .inl rfl⟩, ?_⟩)
    rintro _ _ rfl
    exact ih

theorem obeys_prog (c : Call) : Obeys (rules n chan) (c.prog n chan p) (proc p [] .calm) fun _ a => a = proc p [] .calm := by
  cases c with
  | waiter fuel bs =>
    refine obeys_bind.2 (obeys_acquire_lk.mono ?_)
    rintro _ _ rfl
    refine obeys_bind.2 ((obeys_waitLoop fuel).mono ?_)
    rintro _ _ rfl
    refine obeys_bind.2 ((obeys_body bs).mono ?_)
    rintro _ _ rfl
    exact obeys_release_lk trivial (by simp)
  | waker =>
    refine obeys_bind.2 (obeys_acquire_lk.mono ?_)
    rintro _ _ rfl
    refine obeys_bind.2 (obeys_perform.2 ⟨⟨by simp [proc], .inr ⟨rfl, rfl⟩⟩, ?_⟩)
    rintro _ _ rfl
    refine obeys_bind.2 ((obeys_kernel obeys_wakeup).mono ?_)
    rintro _ _ rfl
    exact obeys_release_lk (Nat.le_refl n) (by simp)
  | kill pid =>
    refine obeys_bind.2 ((obeys_kernel (obeys_killFrom pid (range n))).mono ?_)
    rintro _ _ rfl
    exact rfl

end Xv6.Sleep
