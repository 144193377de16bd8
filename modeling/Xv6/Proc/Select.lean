import Xv6.Lib.Prog
import Xv6.Proc.Fcfs

/-!
# The selection of `scheduler` with its locks (`kernel/proc.c`)

One pass of `scheduler` goes over the process table with the locks: it takes each process's lock, keeps the one of the best candidate so
far, and passes it on when there is a better one. The pass returns what `select` says, and holds the lock of that process and no other.
-/

namespace Xv6.Sched

open Prog List Nat

/-- The calls on the locks of the processes. -/
inductive LockOp : Type → Type
  | acquire (p : Nat) : LockOp Unit
  | release (p : Nat) : LockOp Unit

def locks : Handler LockOp (List Nat)
  | _, .acquire p, held => if p ∈ held then .error "acquire" else .ok ((), p :: held)
  | _, .release p, held => if p ∈ held then .ok ((), held.erase p) else .error "release"

def acquire (p : Nat) : Prog LockOp Unit := perform (.acquire p)

def release (p : Nat) : Prog LockOp Unit := perform (.release p)

def releaseOld : Option Nat → Prog LockOp Unit
  | none => return ()
  | some p => release p

section
variable {K : Type} [LT K] [DecidableLT K] (ready : Nat → Bool) (key : Nat → K)

def leastLocked : List Nat → K → Option Nat → Prog LockOp (Option Nat)
  | [], _, best => return best
  | p :: ps, bound, best => do
    acquire p
    if ready p ∧ key p < bound then
      releaseOld best
      leastLocked ps (key p) (some p)
    else
      release p
      leastLocked ps bound best

def leastScan : List Nat → K → Option Nat → Option Nat
  | [], _, best => best
  | p :: ps, bound, best => if ready p ∧ key p < bound then leastScan ps (key p) (some p) else leastScan ps bound best

end

def runnable (s : Kern) (p : Nat) : Bool := (s.proc p).state = .runnable

/-- `proc.c:471-478`. -/
def roundRobinLocked (s : Kern) : List Nat → Prog LockOp (Option Nat)
  | [] => return none
  | p :: ps => do
    acquire p
    if runnable s p then return some p
    else
      release p
      roundRobinLocked s ps

/-- `proc.c:480-495`. -/
def fcfsLocked (s : Kern) (ps : List Nat) : Prog LockOp (Option Nat) :=
  leastLocked (runnable s) (fun p => (s.proc p).waitTime) ps 0xffffffffffffffff none

/-- `proc.c:497-512`. -/
def priorityLocked (s : Kern) (ps : List Nat) : Prog LockOp (Option Nat) :=
  leastLocked (runnable s) (fun p => (s.proc p).priority) ps 9999 none

def selectLocked (n : Nat) (pol : Policy) (s : Kern) : Prog LockOp (Option Nat) :=
  match pol with
  | .roundRobin => roundRobinLocked s (List.range n)
  | .fcfs => fcfsLocked s (List.range n)
  | .priority => priorityLocked s (List.range n)

/-! ## The locks -/

section
variable {ready : Nat → Bool} {held : List Nat} {Q : Unit → List Nat → Prop} {X : String → Prop} {p : Nat}

theorem sat_acquire (h : p ∉ held) (hQ : Q () (p :: held)) : Sat locks (acquire p) held Q X := by
  rw [acquire, sat_perform]
  simpa only [locks, if_neg h] using hQ

theorem sat_release (h : p ∈ held) (hQ : Q () (held.erase p)) : Sat locks (release p) held Q X := by
  rw [release, sat_perform]
  simpa only [locks, if_pos h] using hQ

end

theorem leastLocked_sat {K : Type} [LT K] [DecidableLT K] {ready : Nat → Bool} {key : Nat → K} {X : String → Prop} (ps : List Nat)
    (bound : K) (best : Option Nat) (hps : ps.Nodup) (hbest : ∀ b ∈ best, b ∉ ps) :
    Sat locks (leastLocked ready key ps bound best) best.toList
      (fun r held => r = leastScan ready key ps bound best ∧ held = r.toList) X := by
  induction ps generalizing bound best with
  | nil => exact ⟨rfl, rfl⟩
  | cons p ps ih =>
    obtain ⟨hp, hps⟩ := nodup_cons.1 hps
    have hfree : p ∉ best.toList := fun h => hbest p (Option.mem_toList.1 h) mem_cons_self
    rw [leastLocked, leastScan, sat_bind]
    refine sat_acquire hfree ?_
    split
    · rw [sat_bind]
      have hnew := ih (key p) (some p) hps fun b hb => Option.mem_some_iff.1 hb ▸ hp
      cases best with
      | none => exact hnew
      | some b =>
        have hne : p ≠ b := fun h => hfree (by simp [h])
        refine sat_release (by simp) ?_
        rw [Option.toList_some, erase_cons_tail (by simpa using hne), erase_cons_head]
        exact hnew
    · rw [sat_bind]
      refine sat_release mem_cons_self ?_
      rw [erase_cons_head]
      exact ih bound best hps fun b hb h => hbest b hb (mem_cons_of_mem p h)

theorem roundRobinLocked_sat {s : Kern} {X : String → Prop} (ps : List Nat) :
    Sat locks (roundRobinLocked s ps) [] (fun r held => r = ps.find? (runnable s) ∧ held = r.toList) X := by
  induction ps with
  | nil => exact ⟨rfl, rfl⟩
  | cons p ps ih =>
    rw [roundRobinLocked, find?_cons, sat_bind]
    refine sat_acquire not_mem_nil ?_
    split
    case isTrue h =>
      rw [h]
      exact ⟨rfl, rfl⟩
    case isFalse h =>
      rw [Bool.not_eq_true] at h
      rw [sat_bind, h]
      refine sat_release mem_cons_self ?_
      rw [erase_cons_head]
      exact ih

theorem fcfsScan_eq (s : Kern) (ps : List Nat) (bound : UInt64) (best : Option Nat) :
    fcfsScan s ps bound best = leastScan (runnable s) (fun p => (s.proc p).waitTime) ps bound best := by
  induction ps generalizing bound best with
  | nil => rfl
  | cons p ps ih => simp only [fcfsScan, leastScan, ih, runnable, decide_eq_true_iff]

theorem priorityScan_eq (s : Kern) (ps : List Nat) (bound : Int) (best : Option Nat) :
    priorityScan s ps bound best = leastScan (runnable s) (fun p => (s.proc p).priority) ps bound best := by
  induction ps generalizing bound best with
  | nil => rfl
  | cons p ps ih => simp only [priorityScan, leastScan, ih, runnable, decide_eq_true_iff]

theorem selectLocked_run (n : Nat) (pol : Policy) (s : Kern) :
    (selectLocked n pol s).run locks [] = .ok (select n pol s, (select n pol s).toList) := by
  have hsat : Sat locks (selectLocked n pol s) [] (fun r held => r = select n pol s ∧ held = r.toList) fun _ => False := by
    cases pol with
    | roundRobin => exact roundRobinLocked_sat (range n)
    | fcfs =>
      rw [select, fcfsScan_eq]
      exact leastLocked_sat (range n) _ none nodup_range fun b hb => by cases hb
    | priority =>
      rw [select, priorityScan_eq]
      exact leastLocked_sat (range n) _ none nodup_range fun b hb => by cases hb
  obtain ⟨r, held, hrun, rfl, rfl⟩ := hsat.exists_ok
  exact hrun

/-! ## What is found -/

section
variable {K : Type} [LE K] [LT K]

structure FirstLeast (ready : Nat → Bool) (key : Nat → K) (n p : Nat) : Prop where
  lt : p < n
  isReady : ready p
  least : ∀ q < n, ready q → key p ≤ key q
  first : ∀ q < p, ready q → key p < key q

inductive Found (ready : Nat → Bool) (key : Nat → K) (limit : K) (i : Nat) : K → Option Nat → Prop
  | nobody (h : ∀ q < i, ¬ready q) : Found ready key limit i limit none
  | best {p : Nat} (h : FirstLeast ready key i p) : Found ready key limit i (key p) (some p)

variable [DecidableLT K] [Std.IsLinearOrder K] [Std.LawfulOrderLT K] {ready : Nat → Bool} {key : Nat → K} {limit bound : K}
  {i n p : Nat} {best : Option Nat}

theorem Found.better (h : Found ready key limit i bound best) (hi : ready i) (hlt : key i < bound) :
    Found ready key limit (i + 1) (key i) (some i) := by
  have hbelow : ∀ q < i, ready q → key i < key q := by
    intro q hq hr
    cases h with
    | nobody h => exact absurd hr (h q hq)
    | best h => exact Std.lt_of_lt_of_le hlt (h.least q hq hr)
  refine .best ⟨lt_succ_self i, hi, fun q hq hr => ?_, hbelow⟩
  rcases Nat.lt_succ_iff_lt_or_eq.1 hq with hq | rfl
  · exact Std.le_of_lt (hbelow q hq hr)
  · exact Std.le_refl _

theorem Found.pass (h : Found ready key limit i bound best) (hlimit : ready i → key i < limit) (hi : ¬(ready i ∧ key i < bound)) :
    Found ready key limit (i + 1) bound best := by
  cases h with
  | nobody h =>
    refine .nobody fun q hq => ?_
    rcases Nat.lt_succ_iff_lt_or_eq.1 hq with hq | rfl
    · exact h q hq
    · exact fun hr => hi ⟨hr, hlimit hr⟩
  | best h =>
    refine .best ⟨lt_succ_of_lt h.lt, h.isReady, fun q hq hr => ?_, h.first⟩
    rcases Nat.lt_succ_iff_lt_or_eq.1 hq with hq | rfl
    · exact h.least q hq hr
    · exact Std.not_lt.1 fun hlt => hi ⟨hr, hlt⟩

theorem Found.eq_none_iff (h : Found ready key limit n bound best) : best = none ↔ ∀ q < n, ¬ready q := by
  cases h with
  | nobody h => exact iff_of_true rfl h
  | best h => exact iff_of_false (fun h => by cases h) fun hnot => hnot _ h.lt h.isReady

theorem Found.firstLeast (h : Found ready key limit n bound (some p)) : FirstLeast ready key n p := by
  cases h with
  | best h => exact h

theorem leastScan_found (k : Nat) (h : Found ready key limit i bound best) (hlimit : ∀ q < i + k, ready q → key q < limit) :
    ∃ bound', Found ready key limit (i + k) bound' (leastScan ready key (range' i k) bound best) := by
  induction k generalizing i bound best with
  | zero => exact ⟨bound, h⟩
  | succ k ih =>
    rw [add_succ, ← succ_add] at hlimit ⊢
    rw [range'_succ, leastScan]
    split
    case isTrue hi => exact ih (h.better hi.1 hi.2) hlimit
    case isFalse hi => exact ih (h.pass (hlimit i (by omega)) hi) hlimit

theorem leastScan_range (hlimit : ∀ q < n, ready q → key q < limit) :
    ∃ bound, Found ready key limit n bound (leastScan ready key (range n) limit none) := by
  have h := leastScan_found n (.nobody fun q hq => absurd hq (not_lt_zero q)) (by simpa using hlimit)
  rwa [zero_add, ← range_eq_range'] at h

end

theorem runnable_iff {s : Kern} {p : Nat} : runnable s p ↔ (s.proc p).state = .runnable := decide_eq_true_iff

/-- The processes each policy may choose. -/
def Chosen (n : Nat) (s : Kern) (p : Nat) : Policy → Prop
  | .roundRobin => p < n ∧ runnable s p
  | .fcfs => FirstLeast (runnable s) (fun q => (s.proc q).waitTime) n p
  | .priority => FirstLeast (runnable s) (fun q => (s.proc q).priority) n p

theorem selection_pass (n : Nat) (pol : Policy) (s : Kern) (hprio : ∀ p < n, 0 ≤ (s.proc p).priority ∧ (s.proc p).priority ≤ 20)
    (hwait : ∀ p < n, (s.proc p).waitTime < 0xffffffffffffffff) :
    ∃ target, (selectLocked n pol s).run locks [] = .ok (target, target.toList) ∧
      (target = none ↔ ∀ p < n, (s.proc p).state ≠ .runnable) ∧ ∀ p, target = some p → Chosen n s p pol := by
  refine ⟨select n pol s, selectLocked_run n pol s, ?_⟩
  simp only [ne_eq, ← runnable_iff]
  cases pol with
  | roundRobin =>
    refine ⟨by simp [select, runnable], fun p hp => ?_⟩
    obtain ⟨hlt, hr⟩ := find_range hp
    exact ⟨hlt, hr⟩
  | fcfs =>
    have hlimit : ∀ q < n, runnable s q → (s.proc q).waitTime < 0xffffffffffffffff := fun q hq _ => hwait q hq
    obtain ⟨bound, h⟩ := leastScan_range hlimit
    rw [select, fcfsScan_eq]
    exact ⟨h.eq_none_iff, fun p hp => (hp ▸ h).firstLeast⟩
  | priority =>
    have hlimit : ∀ q < n, runnable s q → (s.proc q).priority < 9999 := fun q hq _ => by
      have := (hprio q hq).2
      omega
    obtain ⟨bound, h⟩ := leastScan_range hlimit
    rw [select, priorityScan_eq]
    exact ⟨h.eq_none_iff, fun p hp => (hp ▸ h).firstLeast⟩

def threeReady : Kern :=
  { boot [] with proc := fun p => if p < 3 then { state := .runnable, waitTime := if p = 0 then 7 else 5 } else {} }

theorem selection_pass_three : ∃ target, (selectLocked NPROC .fcfs threeReady).run locks [] = .ok (target, target.toList) ∧
    (target = none ↔ ∀ p < NPROC, (threeReady.proc p).state ≠ .runnable) ∧ ∀ p, target = some p → Chosen NPROC threeReady p .fcfs :=
  selection_pass NPROC .fcfs threeReady (by decide) (by decide)

end Xv6.Sched
