import Xv6.Proc.Moves

/-!
# Whose turn it is under `SCHED_ROUND_ROBIN` (`proc.c:470-478`)

The selection loop starts at `proc[0]` in every pass and stops at the first `RUNNABLE` slot, so what it
runs is decided by slot numbers and not by who ran last. A waiting process gets its turn as long as no
process in a lower slot comes back; one that does (`yield` is enough) is run again before it.
-/

namespace Xv6.Sched

structure Turns where
  kern : Kern
  seen : List Nat

/-- One event on one hart, under round robin. -/
def Turns.step (n : Nat) (w : Turns) (e : Ev) : Option Turns :=
  match Sched.step n 1 .roundRobin w.kern e with
  | none => none
  | some s =>
    let seen := if e = .dispatch then (select n .roundRobin w.kern).toList ++ w.seen else w.seen
    some ⟨s, seen.filter fun j => (s.proc j).state ≠ .unused⟩

def Waits (p : Nat) (w : Turns) (_ : Ev) : Prop := (w.kern.proc p).state = .runnable

def TakesTurns (n p : Nat) (w : Turns) (e : Ev) : Prop :=
  e = .dispatch → ∀ q ∈ select n .roundRobin w.kern, q ≠ p → q ∉ w.seen

/-- The event makes `q` `RUNNABLE`. -/
def Readies (n : Nat) (w : Turns) (e : Ev) (q : Nat) : Prop :=
  (w.kern.proc q).state ≠ .runnable ∧
    ∃ s ∈ Sched.step n 1 .roundRobin w.kern e, (s.proc q).state = .runnable

def NoneReturns (n p : Nat) (w : Turns) (e : Ev) : Prop := ∀ q ∈ w.seen, q < p → ¬ Readies n w e q

instance (p : Nat) (w : Turns) (e : Ev) : Decidable (Waits p w e) := inferInstanceAs (Decidable (_ = _))
instance (n p : Nat) (w : Turns) (e : Ev) : Decidable (TakesTurns n p w e) :=
  inferInstanceAs (Decidable (_ → _))
instance (n : Nat) (w : Turns) (e : Ev) (q : Nat) : Decidable (Readies n w e q) :=
  match h : Sched.step n 1 .roundRobin w.kern e with
  | none => .isFalse fun ⟨_, s, hs, _⟩ => by simp [h] at hs
  | some s => decidable_of_iff ((w.kern.proc q).state ≠ .runnable ∧ (s.proc q).state = .runnable)
      (by simp [Readies, h])
instance (n p : Nat) (w : Turns) (e : Ev) : Decidable (NoneReturns n p w e) :=
  inferInstanceAs (Decidable (∀ q ∈ w.seen, q < p → ¬ Readies n w e q))

theorem select_roundRobin {n p q : Nat} {s : Kern} (h : select n .roundRobin s = some q) (hp : p < n)
    (hr : (s.proc p).state = .runnable) : (s.proc q).state = .runnable ∧ q ≤ p := by
  simp only [select] at h
  refine ⟨by simpa using (find_range h).2, ?_⟩
  by_contra hlt
  have hq := (find_range h).1
  rw [List.find?_range_eq_some] at h
  have := h.2.2 p (by omega)
  simp [hr] at this

/-- Processes below `p` that have had their turn are not in the ready state. -/
def Served (p : Nat) (w : Turns) : Prop := ∀ q ∈ w.seen, q < p → (w.kern.proc q).state ≠ .runnable

theorem served_step {n p : Nat} {w w' : Turns} {e : Ev} (hI : Served p w) (hC : NoneReturns n p w e)
    (h : w.step n e = some w') : Served p w' := by
  unfold Turns.step at h
  cases hs : Sched.step n 1 .roundRobin w.kern e with
  | none => simp [hs] at h
  | some s =>
    simp only [hs, Option.some.injEq] at h
    subst h
    intro q hq hqp
    have hold : q ∈ w.seen → (s.proc q).state ≠ .runnable := fun hq' hr =>
      hC q hq' hqp ⟨hI q hq' hqp, s, by simp [hs], hr⟩
    have hmem := (List.mem_filter.1 hq).1
    split at hmem
    · -- the slot just dispatched is `RUNNING`, the others are old
      rcases List.mem_append.1 hmem with hnew | hq'
      · subst ‹e = .dispatch›
        rcases step_move hs with ⟨hsel, -, -, hrun, -⟩ | hsel | ⟨hne, -⟩ | ⟨-, -⟩ | ⟨hne, -⟩
        · rw [hsel, Option.toList_some, List.mem_singleton] at hnew
          subst hnew; simp [hrun]
        · simp [hsel] at hnew
        · exact absurd rfl hne
        · exact absurd rfl hne
      · exact hold hq'
    · exact hold hmem

theorem roundRobin_takes_turns (n p : Nat) (hp : p < n) (s : Kern) (es : List Ev)
    (hwait : Lts.Along (Turns.step n) (Waits p) ⟨s, []⟩ es)
    (hret : Lts.Along (Turns.step n) (NoneReturns n p) ⟨s, []⟩ es) :
    Lts.Along (Turns.step n) (TakesTurns n p) ⟨s, []⟩ es := by
  refine Lts.along_of_inv
    (fun w e w' hI hC h => served_step hI hC.2 h) ?_ (by simp [Served]) (hwait.and hret)
  rintro w e hI ⟨hw, -⟩ - q hq hqp hseen
  obtain ⟨hr, hle⟩ := select_roundRobin hq hp hw
  exact hI q hseen (by omega) hr

def twoReady : Kern :=
  { boot [1, 2] with proc := fun p => if p < 2 then { state := .runnable, pid := p + 1 } else {} }

theorem roundRobin_takes_turns_two :
    Lts.Along (Turns.step NPROC) (TakesTurns NPROC 1) ⟨twoReady, []⟩ [.dispatch, .sleep 0 7, .dispatch] :=
  roundRobin_takes_turns NPROC 1 (by decide) twoReady _ (by decide +kernel) (by decide +kernel)

theorem roundRobin_starves :
    ∃ (times : List UInt64) (es : List Ev) (s : Kern), times.Pairwise (· < ·) ∧
      Lts.run (step NPROC 1 .roundRobin) (boot times) es = some s ∧
      ∃ (p : Nat) (fs : List Ev), p < NPROC ∧ Lts.Along (Turns.step NPROC) (Waits p) ⟨s, []⟩ fs ∧
        ¬ Lts.Along (Turns.step NPROC) (TakesTurns NPROC p) ⟨s, []⟩ fs :=
  ⟨[1, 2, 3, 4, 5, 6, 7, 8],
    [.userinit, .dispatch, .forkAlloc 0 true, .forkParent 0 1, .forkRun 0 1, .yield 0], _, by decide, rfl,
    1, [.dispatch, .yield 0, .dispatch], by decide, by decide +kernel, by decide +kernel⟩

end Xv6.Sched
