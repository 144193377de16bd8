import Xv6.Proc.Moves

/-!
# Arrival order under `SCHED_FCFS` (`proc.c:479-495`)

The scan takes the `RUNNABLE` process with the least `wait_time`, so the order of dispatch is the order of
arrival as long as each process that becomes `RUNNABLE` is stamped then. `fork`, `userinit`, `yield` and
`wakeup` do so; `kill` (`proc.c:662-665`) makes a sleeper `RUNNABLE` and leaves it the stamp of its last
dispatch. That stamp is harmless exactly while it is later than those of the processes already waiting.
-/

namespace Xv6.Sched

open List

structure Arrivals where
  kern : Kern
  now : Nat
  since : Nat → Nat

def Arrivals.init (times : List UInt64) : Arrivals := ⟨boot times, 1, fun _ => 0⟩

/-- One event, on any number of harts, under FCFS. -/
def Arrivals.step (n ncpu : Nat) (w : Arrivals) (e : Ev) : Option Arrivals :=
  match Sched.step n ncpu .fcfs w.kern e with
  | none => none
  | some s => some ⟨s, w.now + 1, fun j =>
      if (s.proc j).state = .runnable ∧ (w.kern.proc j).state ≠ .runnable then w.now else w.since j⟩

/-- A scheduling decision picks a process before which no `RUNNABLE` one arrived. -/
def InOrder (n : Nat) (w : Arrivals) (e : Ev) : Prop :=
  e = .dispatch → ∀ p ∈ select n .fcfs w.kern,
    ∀ q < n, (w.kern.proc q).state = .runnable → ¬ w.since q < w.since p

def KillsInOrder (n : Nat) (w : Arrivals) : Ev → Prop
  | .kill pid => ∀ q ∈ killTarget n w.kern pid, (w.kern.proc q).state = .sleeping →
      ∀ p < n, (w.kern.proc p).state = .runnable → (w.kern.proc p).waitTime < (w.kern.proc q).waitTime
  | _ => True

instance (n : Nat) (w : Arrivals) (e : Ev) : Decidable (InOrder n w e) := inferInstanceAs (Decidable (_ → _))
instance (n : Nat) (w : Arrivals) : ∀ e, Decidable (KillsInOrder n w e)
  | .kill _ => inferInstanceAs (Decidable (∀ q ∈ killTarget n w.kern _, _))
  | .userinit | .forkAlloc .. | .forkParent .. | .forkRun .. | .sleep .. | .wakeup .. | .yield ..
  | .exitClose .. | .reparent .. | .exitZombie .. | .reap .. | .dispatch => inferInstanceAs (Decidable True)

/-! ## The scan -/

theorem fcfsScan_spec (s : Kern) : ∀ (ps : List Nat) (e : UInt64) (b : Option Nat) (p : Nat),
    (∀ x, b = some x → (s.proc x).waitTime = e) → fcfsScan s ps e b = some p →
    (b = some p ∨ p ∈ ps ∧ (s.proc p).state = .runnable) ∧ (s.proc p).waitTime ≤ e ∧
      ∀ q ∈ ps, (s.proc q).state = .runnable → (s.proc p).waitTime ≤ (s.proc q).waitTime
  | [], e, b, p, hb, h => by
    simp only [fcfsScan] at h
    subst h
    simp [hb p rfl]
  | x :: ps, e, b, p, hb, h => by
    simp only [fcfsScan] at h
    split at h
    · rename_i hx
      obtain ⟨h1, h2, h3⟩ := fcfsScan_spec s ps _ _ p (by simp) h
      refine ⟨.inr ?_, UInt64.le_trans h2 (UInt64.le_of_lt hx.2), ?_⟩
      · rcases h1 with h1 | h1
        · cases h1; exact ⟨by simp, hx.1⟩
        · exact ⟨by simp [h1.1], h1.2⟩
      · intro q hq hr
        rcases mem_cons.1 hq with rfl | hq
        · exact h2
        · exact h3 q hq hr
    · rename_i hx
      obtain ⟨h1, h2, h3⟩ := fcfsScan_spec s ps _ _ p hb h
      refine ⟨h1.imp_right fun h => ⟨by simp [h.1], h.2⟩, h2, ?_⟩
      intro q hq hr
      rcases mem_cons.1 hq with rfl | hq
      · exact UInt64.le_trans h2 (UInt64.not_lt.1 fun hlt => hx ⟨hr, hlt⟩)
      · exact h3 q hq hr

theorem select_fcfs {n p : Nat} {s : Kern} (h : select n .fcfs s = some p) :
    p < n ∧ (s.proc p).state = .runnable ∧
      ∀ q < n, (s.proc q).state = .runnable → ¬ (s.proc q).waitTime < (s.proc p).waitTime := by
  obtain ⟨h1, -, h3⟩ := fcfsScan_spec s _ _ _ p (by simp) h
  rcases h1 with h1 | ⟨hm, hr⟩
  · cases h1
  · exact ⟨by simpa using hm, hr, fun q hq hrq => UInt64.not_lt.2 (h3 q (by simpa using hq) hrq)⟩

/-! ## Stamps and arrivals -/

structure Stamped (n : Nat) (w : Arrivals) : Prop where
  times : w.kern.times.Pairwise (· < ·)
  past : ∀ j < n, (w.kern.proc j).state = .runnable ∨ (w.kern.proc j).state = .running ∨
    (w.kern.proc j).state = .sleeping → ∀ t ∈ w.kern.times, (w.kern.proc j).waitTime < t
  early : ∀ j < n, (w.kern.proc j).state = .runnable → w.since j < w.now
  order : ∀ i < n, ∀ j < n, (w.kern.proc i).state = .runnable → (w.kern.proc j).state = .runnable →
    ((w.kern.proc i).waitTime < (w.kern.proc j).waitTime ↔ w.since i < w.since j)

theorem stamped_init (n : Nat) {times : List UInt64} (h : times.Pairwise (· < ·)) :
    Stamped n (Arrivals.init times) where
  times := h
  past := by intro j _ hj; simp [Arrivals.init, boot] at hj
  early := by intro j _ hj; simp [Arrivals.init, boot] at hj
  order := by intro i _ j _ hi; simp [Arrivals.init, boot] at hi

theorem stamped_arrive {n q : Nat} {w : Arrivals} {s : Kern} (hI : Stamped n w) (hsame : SameBut w.kern s q)
    (hold : (w.kern.proc q).state ≠ .runnable) (hnew : (s.proc q).state = .runnable)
    (ht : s.times <:+ w.kern.times) (hpast : ∀ t ∈ s.times, (s.proc q).waitTime < t)
    (hlate : ∀ p < n, (w.kern.proc p).state = .runnable → (w.kern.proc p).waitTime < (s.proc q).waitTime) :
    Stamped n ⟨s, w.now + 1, fun j =>
      if (s.proc j).state = .runnable ∧ (w.kern.proc j).state ≠ .runnable then w.now else w.since j⟩ := by
  have hother : ∀ j, j ≠ q → ¬ ((s.proc j).state = .runnable ∧ (w.kern.proc j).state ≠ .runnable) := by
    rintro j hj ⟨h1, h2⟩
    exact h2 ((hsame j hj).1 ▸ h1)
  refine ⟨hI.times.sublist ht.sublist, ?_, ?_, ?_⟩
  · intro j hjn hj t htm
    by_cases hjq : j = q
    · subst hjq; exact hpast t htm
    · simp only [(hsame j hjq).1, (hsame j hjq).2] at hj ⊢
      exact hI.past j hjn hj t (ht.subset htm)
  · intro j hjn hj
    by_cases hjq : j = q
    · subst hjq; simp [hold, hnew]
    · have := hI.early j hjn ((hsame j hjq).1 ▸ hj)
      simp only [if_neg (hother j hjq)]
      omega
  · intro i hi j hj hri hrj
    by_cases hiq : i = q <;> by_cases hjq : j = q
    · subst hiq; subst hjq; simp
    · subst hiq
      have hrj' := (hsame j hjq).1 ▸ hrj
      have h1 := hlate j hj hrj'
      have h2 := hI.early j hj hrj'
      simp only [if_neg (hother j hjq), hold, hnew, ne_eq, not_false_eq_true, and_self, if_true, (hsame j hjq).2]
      exact iff_of_false (fun h => UInt64.lt_irrefl _ (UInt64.lt_trans h h1)) (by omega)
    · subst hjq
      have hri' := (hsame i hiq).1 ▸ hri
      have h1 := hlate i hi hri'
      have h2 := hI.early i hi hri'
      simp only [if_neg (hother i hiq), hold, hnew, ne_eq, not_false_eq_true, and_self, if_true, (hsame i hiq).2]
      exact iff_of_true h1 h2
    · simp only [if_neg (hother i hiq), if_neg (hother j hjq), (hsame i hiq).2, (hsame j hjq).2]
      exact hI.order i hi j hj ((hsame i hiq).1 ▸ hri) ((hsame j hjq).1 ▸ hrj)

theorem stamped_stay {n : Nat} {w : Arrivals} {s : Kern} (hI : Stamped n w)
    (hrun : ∀ j, (s.proc j).state = .runnable →
      (w.kern.proc j).state = .runnable ∧ (s.proc j).waitTime = (w.kern.proc j).waitTime)
    (ht : s.times <:+ w.kern.times)
    (hpast : ∀ j < n, (s.proc j).state = .runnable ∨ (s.proc j).state = .running ∨
      (s.proc j).state = .sleeping → ∀ t ∈ s.times, (s.proc j).waitTime < t) :
    Stamped n ⟨s, w.now + 1, fun j =>
      if (s.proc j).state = .runnable ∧ (w.kern.proc j).state ≠ .runnable then w.now else w.since j⟩ := by
  have hnone : ∀ j, ¬ ((s.proc j).state = .runnable ∧ (w.kern.proc j).state ≠ .runnable) :=
    fun j h => h.2 (hrun j h.1).1
  simp only [hnone, if_false]
  refine ⟨hI.times.sublist ht.sublist, hpast, ?_, ?_⟩
  · intro j hjn hj
    exact Nat.lt_succ_of_lt (hI.early j hjn (hrun j hj).1)
  · intro i hi j hj hri hrj
    rw [(hrun i hri).2, (hrun j hrj).2]
    exact hI.order i hi j hj (hrun i hri).1 (hrun j hrj).1

theorem stamped_step {n ncpu : Nat} {w w' : Arrivals} {e : Ev} (hI : Stamped n w) (hC : KillsInOrder n w e)
    (h : w.step n ncpu e = some w') : Stamped n w' := by
  unfold Arrivals.step at h
  cases hs : Sched.step n ncpu .fcfs w.kern e with
  | none => simp [hs] at h
  | some s =>
    simp only [hs, Option.some.injEq] at h
    subst h
    cases step_move hs with
    | @run _ p t hsel ht hsame hrun hw =>
      have hlt := (pairwise_cons.1 (ht ▸ hI.times)).1
      have hsuf : s.times <:+ w.kern.times := ht ▸ suffix_cons t _
      refine stamped_stay hI ?_ hsuf ?_
      · intro j hj
        by_cases hjp : j = p
        · subst hjp; simp [hrun] at hj
        · exact ⟨(hsame j hjp).1 ▸ hj, (hsame j hjp).2⟩
      · intro j hjn hj u hu
        by_cases hjp : j = p
        · subst hjp; rw [hw]; exact hlt u hu
        · rw [(hsame j hjp).2]
          exact hI.past j hjn ((hsame j hjp).1 ▸ hj) u (hsuf.subset hu)
    | idle hsel => exact stamped_stay hI (fun j hj => ⟨hj, rfl⟩) (suffix_refl _) hI.past
    | @ready _ _ q t ts hne hq hold hsame hnew hw ht =>
      have hpw : (t :: s.times).Pairwise (· < ·) := (ht ▸ hI.times).sublist (sublist_append_right _ _)
      refine stamped_arrive hI hsame hold hnew ⟨ts ++ [t], by simp [ht]⟩ ?_ ?_
      · rw [hw]; exact (pairwise_cons.1 hpw).1
      · intro p hp hr
        rw [hw]
        exact hI.past p hp (.inl hr) t (by simp [ht])
    | @killed _ pid q hq htgt hsl hsame hnew hw ht =>
      refine stamped_arrive hI hsame (by simp [hsl]) hnew (ht ▸ suffix_refl _) ?_ ?_
      · rw [hw, ht]; exact hI.past q hq (.inr (.inr hsl))
      · rw [hw]; exact hC q htgt hsl
    | @other _ _ q hne hsame hiff hfrom hw ht =>
      refine stamped_stay hI ?_ ht ?_
      · intro j hj
        by_cases hjq : j = q
        · subst hjq; exact ⟨hiff.1 hj, hw⟩
        · exact ⟨(hsame j hjq).1 ▸ hj, (hsame j hjq).2⟩
      · intro j hjn hj u hu
        by_cases hjq : j = q
        · subst hjq
          rw [hw]
          refine hI.past j hjn ?_ u (ht.subset hu)
          rcases hj with hj | hj | hj
          · exact .inl (hiff.1 hj)
          · rcases hfrom (.inr hj) with h | h
            · rw [← h]; exact .inr (.inl hj)
            · exact .inr (.inl h)
          · rcases hfrom (.inl hj) with h | h
            · rw [← h]; exact .inr (.inr hj)
            · exact .inr (.inl h)
        · rw [(hsame j hjq).2]
          exact hI.past j hjn ((hsame j hjq).1 ▸ hj) u (ht.subset hu)

theorem fcfs_in_order (n ncpu : Nat) (times : List UInt64) (es : List Ev) (htimes : times.Pairwise (· < ·))
    (hkill : Lts.Along (Arrivals.step n ncpu) (KillsInOrder n) (Arrivals.init times) es) :
    Lts.Along (Arrivals.step n ncpu) (InOrder n) (Arrivals.init times) es := by
  refine Lts.along_of_inv (fun w e w' hI hC h => stamped_step hI hC h) ?_
    (stamped_init n htimes) hkill
  rintro w e hI - - p hp q hq hrq
  obtain ⟨hpn, hrp, hmin⟩ := select_fcfs hp
  rw [← hI.order q hq p hpn hrq hrp]
  exact hmin q hq hrq

theorem fcfs_in_order_kill :
    Lts.Along (Arrivals.step NPROC 1) (InOrder NPROC) (Arrivals.init [1, 2, 3, 4, 5, 6, 7, 8])
      [.userinit, .dispatch, .forkAlloc 0 true, .forkParent 0 1, .forkRun 0 1, .sleep 0 5, .dispatch, .sleep 1 7,
        .wakeup 5 0, .dispatch, .kill 2, .sleep 0 5, .dispatch] :=
  fcfs_in_order NPROC 1 _ _ (by decide) (by decide +kernel)

theorem fcfs_kill_overtakes :
    ∃ (times : List UInt64) (es : List Ev), times.Pairwise (· < ·) ∧
      ¬ Lts.Along (Arrivals.step NPROC 1) (InOrder NPROC) (Arrivals.init times) es :=
  ⟨[1, 2, 3, 4, 5, 6, 7, 8, 9],
    [.userinit, .dispatch, .forkAlloc 0 true, .forkParent 0 1, .forkRun 0 1, .sleep 0 5, .dispatch, .sleep 1 7,
      .wakeup 5 0, .dispatch, .forkAlloc 0 true, .forkParent 0 2, .forkRun 0 2, .kill 2, .sleep 0 5, .dispatch],
    by decide, by decide +kernel⟩

end Xv6.Sched
