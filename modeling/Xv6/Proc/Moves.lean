import Xv6.Proc.Table

/-!
# What one event does to the states and the `wait_time` stamps

Every event changes the state of at most one slot. `Move` lists the possibilities, with the guards of the
code that later proofs need, and `step_move` is the one place where the events are unfolded.
-/

namespace Xv6.Sched

open List

@[simp] theorem upd_proc_self (s : Kern) (p : Nat) (f : Proc → Proc) : (s.upd p f).proc p = f (s.proc p) := by
  simp [Kern.upd]

@[simp] theorem upd_times (s : Kern) (p : Nat) (f : Proc → Proc) : (s.upd p f).times = s.times := rfl

variable {p n : Nat} {s r : Kern} {pol : Policy} {e : Ev}

theorem upd_proc_ne (s : Kern) {j : Nat} (f : Proc → Proc) (h : j ≠ p) : (s.upd p f).proc j = s.proc j := by
  simp [Kern.upd, h]

/-- Slots other than `q` keep state and stamp. -/
def SameBut (s s' : Kern) (q : Nat) : Prop :=
  ∀ j, j ≠ q → (s'.proc j).state = (s.proc j).state ∧ (s'.proc j).waitTime = (s.proc j).waitTime

theorem sameBut_upd (h : r.proc = s.proc) (q : Nat) (f : Proc → Proc) : SameBut s (r.upd q f) q := by
  intro j hj
  rw [upd_proc_ne r f hj, h]
  exact ⟨rfl, rfl⟩

/-- The effect of an event on states, stamps and the remaining readings. -/
inductive Move (n : Nat) (pol : Policy) (s : Kern) : Ev → Kern → Prop where
  /-- The scheduler switches to `p`. -/
  | run {s' : Kern} {p : Nat} {t : UInt64} : select n pol s = some p → s.times = t :: s'.times →
      SameBut s s' p → (s'.proc p).state = .running → (s'.proc p).waitTime = t → Move n pol s .dispatch s'
  /-- The scheduler finds nothing to run. -/
  | idle : select n pol s = none → Move n pol s .dispatch s
  /-- `q` becomes `RUNNABLE` and is stamped with the last reading taken. -/
  | ready {s' : Kern} {e : Ev} {q : Nat} {t : UInt64} {u : List UInt64} : e ≠ .dispatch → q < n →
      (s.proc q).state ≠ .runnable → SameBut s s' q → (s'.proc q).state = .runnable →
      (s'.proc q).waitTime = t → s.times = u ++ t :: s'.times → Move n pol s e s'
  /-- `kill` wakes the sleeper `q`, which keeps its stamp. -/
  | killed {s' : Kern} {pid : Int} {q : Nat} : q < n → killTarget n s pid = some q →
      (s.proc q).state = .sleeping → SameBut s s' q → (s'.proc q).state = .runnable →
      (s'.proc q).waitTime = (s.proc q).waitTime → s'.times = s.times → Move n pol s (.kill pid) s'
  | other {s' : Kern} {e : Ev} {q : Nat} : e ≠ .dispatch → SameBut s s' q →
      ((s'.proc q).state = .runnable ↔ (s.proc q).state = .runnable) →
      ((s'.proc q).state = .sleeping ∨ (s'.proc q).state = .running →
        (s'.proc q).state = (s.proc q).state ∨ (s.proc q).state = .running) →
      (s'.proc q).waitTime = (s.proc q).waitTime → s'.times <:+ s.times → Move n pol s e s'

theorem find_range {P : Nat → Bool} (h : (range n).find? P = some p) : p < n ∧ P p = true := by
  refine ⟨?_, find?_some h⟩
  have := mem_of_find?_eq_some h
  simpa using this

theorem allocproc_cases {ok : Bool} {o : Option Nat} (h : allocproc n s ok = (o, r)) :
    r.times = s.times ∧
    ((o = none ∧ ∀ j, (r.proc j).state = (s.proc j).state ∧ (r.proc j).waitTime = (s.proc j).waitTime) ∨
    ∃ p, o = some p ∧ p < n ∧ (s.proc p).state = .unused ∧ SameBut s r p ∧ (r.proc p).state = .used ∧
      (r.proc p).waitTime = (s.proc p).waitTime) := by
  unfold allocproc at h
  cases hf : (range n).find? (fun p => (s.proc p).state = .unused) with
  | none =>
    rw [hf] at h; cases h
    exact ⟨rfl, .inl ⟨rfl, fun j => ⟨rfl, rfl⟩⟩⟩
  | some p =>
    obtain ⟨hp, hu⟩ := find_range hf
    simp only [decide_eq_true_eq] at hu
    rw [hf] at h
    cases ok with
    | true =>
      cases h
      exact ⟨rfl, .inr ⟨p, rfl, hp, hu, sameBut_upd rfl p _, by simp, by simp⟩⟩
    | false =>
      cases h
      refine ⟨rfl, .inl ⟨rfl, fun j => ?_⟩⟩
      by_cases hj : j = p
      · subst hj; simp [freeproc, hu]
      · simp [upd_proc_ne _ _ hj]

theorem rTime_some {s' : Kern} {k : UInt64 → Kern → Option Kern} (h : rTime s k = some s') :
    ∃ t ts, s.times = t :: ts ∧ k t { s with times := ts } = some s' := by
  unfold rTime at h
  split at h
  · cases h
  · rename_i t ts ht; exact ⟨t, ts, ht, h⟩

theorem Move.upd (he : e ≠ .dispatch) (hr : r.proc = s.proc)
    (ht : r.times <:+ s.times) (q : Nat) (f : Proc → Proc)
    (h1 : (f (s.proc q)).state = .runnable ↔ (s.proc q).state = .runnable)
    (h2 : (f (s.proc q)).state = .sleeping ∨ (f (s.proc q)).state = .running →
      (f (s.proc q)).state = (s.proc q).state ∨ (s.proc q).state = .running)
    (h3 : (f (s.proc q)).waitTime = (s.proc q).waitTime) : Move n pol s e (r.upd q f) := by
  have hq : (r.upd q f).proc q = f (s.proc q) := by rw [upd_proc_self, hr]
  refine .other he (sameBut_upd hr q f) ?_ ?_ ?_ ht
  · rw [hq]; exact h1
  · rw [hq]; exact h2
  · rw [hq]; exact h3

theorem Move.refl (he : e ≠ .dispatch) : Move n pol s e s :=
  .other (q := 0) he (fun _ _ => ⟨rfl, rfl⟩) Iff.rfl (fun _ => .inl rfl) rfl (suffix_refl _)

theorem Move.stamp (he : e ≠ .dispatch) {q : Nat} (hq : q < n)
    (hs : (s.proc q).state ≠ .runnable) {t : UInt64} {ts : List UInt64} (ht : s.times = t :: ts) (f : Proc → Proc)
    (h1 : (f (s.proc q)).state = .runnable) (h2 : (f (s.proc q)).waitTime = t) :
    Move n pol s e ({ s with times := ts }.upd q f) := by
  refine .ready (t := t) (u := []) he hq hs (sameBut_upd rfl q f) ?_ ?_ (by simpa using ht)
  · rw [upd_proc_self]; exact h1
  · rw [upd_proc_self]; exact h2

theorem step_move {ncpu : Nat} {s' : Kern} (h : step n ncpu pol s e = some s') :
    Move n pol s e s' := by
  cases e with
  | userinit =>
    simp only [step, userinit] at h
    split at h
    · split at h
      · cases h
      rename_i q r heq
      obtain ⟨ht, ⟨h1, -⟩ | ⟨p, h1, hp, hu, hsame, hst, hw⟩⟩ := allocproc_cases heq
      · cases h1
      cases h1
      obtain ⟨t0, ts0, ht0, h⟩ := rTime_some h
      obtain ⟨t, ts, ht1, h⟩ := rTime_some h
      cases h
      simp only at ht1
      subst ht1
      refine .ready (q := q) (t := t) (u := [t0]) (by simp) hp (by simp [hu]) ?_ (by simp) (by simp) ?_
      · intro j hj
        rw [upd_proc_ne _ _ hj]
        exact hsame j hj
      · simp [← ht, ht0]
    · cases h
  | forkAlloc p ok =>
    simp only [step, forkAlloc] at h
    split at h
    · split at h
      · rename_i r heq
        cases h
        obtain ⟨ht, ⟨-, hsame⟩ | ⟨q, h1, -⟩⟩ := allocproc_cases heq
        · exact .other (by simp) (fun j _ => hsame j) (by rw [(hsame p).1]) (by rw [(hsame p).1]; simp)
            (hsame p).2 (ht ▸ suffix_refl _)
        · cases h1
      · rename_i q r heq
        cases h
        obtain ⟨ht, ⟨h1, -⟩ | ⟨np, h1, hp, hu, hsame, hst, hw⟩⟩ := allocproc_cases heq
        · cases h1
        cases h1
        refine .other (q := q) (by simp) ?_ (by simp [hst, hu]) (by simp [hst]) (by simpa using hw)
          (by simp only [upd_times, ht, suffix_refl])
        intro j hj
        rw [upd_proc_ne _ _ hj]
        exact hsame j hj
    · cases h
  | forkParent p np =>
    simp only [step, forkParent] at h
    split at h
    · cases h; exact .upd (by simp) rfl (suffix_refl _) np _ Iff.rfl (fun _ => .inl rfl) rfl
    · cases h
  | forkRun p np =>
    simp only [step, forkRun] at h
    split at h
    · rename_i hg
      obtain ⟨t, ts, ht, h⟩ := rTime_some h
      cases h
      exact .stamp (by simp) hg.2.1 (by simp [hg.2.2.2.1]) ht _ rfl rfl
    · cases h
  | sleep p chan =>
    simp only [step, sleep] at h
    split at h
    · rename_i hg; cases h
      exact .upd (by simp) rfl (suffix_refl _) p _ (by simp [hg.2]) (fun _ => .inr hg.2) rfl
    · cases h
  | wakeup chan q =>
    simp only [step, wakeup] at h
    split at h
    · rename_i hq
      split at h
      · rename_i hg
        obtain ⟨t, ts, ht, h⟩ := rTime_some h
        cases h
        exact .stamp (by simp) hq (by simp [hg.1]) ht _ rfl rfl
      · cases h; exact .refl (by simp)
    · cases h
  | kill pid =>
    simp only [step, kill] at h
    split at h
    · cases h; exact .refl (by simp)
    · rename_i q hq
      cases h
      by_cases hsl : (s.proc q).state = .sleeping
      · exact .killed (find_range hq).1 hq hsl (sameBut_upd rfl q _) (by simp [hsl]) (by simp) rfl
      · exact .upd (by simp) rfl (suffix_refl _) q _ (by simp [hsl]) (by simp [hsl]) rfl
  | yield p =>
    simp only [step, yield] at h
    split at h
    · rename_i hg
      obtain ⟨t, ts, ht, h⟩ := rTime_some h
      cases h
      exact .stamp (by simp) hg.1 (by simp [hg.2]) ht _ rfl rfl
    · cases h
  | exitClose p =>
    simp only [step, exitClose] at h
    split at h
    · split at h
      · obtain ⟨t, ts, ht, h⟩ := rTime_some h
        cases h
        exact Move.upd (s := s) (r := { s with times := ts }) (by simp) rfl (by rw [ht]; exact suffix_cons t ts) p _
          Iff.rfl (fun _ => .inl rfl) rfl
      · cases h; exact .upd (by simp) rfl (suffix_refl _) p _ Iff.rfl (fun _ => .inl rfl) rfl
    · cases h
  | reparent p q =>
    simp only [step, reparent] at h
    split at h
    · split at h
      · cases h; exact .upd (by simp) rfl (suffix_refl _) q _ Iff.rfl (fun _ => .inl rfl) rfl
      · cases h; exact .refl (by simp)
    · cases h
  | exitZombie p status =>
    simp only [step, exitZombie] at h
    split at h
    · rename_i hg; cases h
      exact .upd (by simp) rfl (suffix_refl _) p _ (by simp [hg.2.1]) (by simp) rfl
    · cases h
  | reap p q =>
    simp only [step, reap] at h
    split at h
    · rename_i hg; cases h
      exact .upd (by simp) rfl (suffix_refl _) q _ (by simp [freeproc, hg.2.2.2.2]) (by simp [freeproc]) rfl
    · cases h
  | dispatch =>
    simp only [step, dispatch] at h
    split at h
    · split at h
      · cases h; exact .idle ‹_›
      · rename_i p hp
        obtain ⟨t, ts, ht, h⟩ := rTime_some h
        cases h
        exact .run hp ht (sameBut_upd rfl p _) (by simp) (by simp)
    · cases h

/-! ## The process that is selected -/

theorem fcfsScan_runnable {ps : List Nat} {e : UInt64} {b : Option Nat}
    (h : fcfsScan s ps e b = some p) : b = some p ∨ p ∈ ps ∧ (s.proc p).state = .runnable := by
  induction ps generalizing e b with
  | nil => exact .inl h
  | cons x ps ih =>
    simp only [fcfsScan] at h
    split at h
    · rename_i hx
      rcases ih h with h1 | ⟨h1, h2⟩
      · cases h1
        exact .inr ⟨mem_cons_self, hx.1⟩
      · exact .inr ⟨mem_cons_of_mem _ h1, h2⟩
    · rcases ih h with h1 | ⟨h1, h2⟩
      · exact .inl h1
      · exact .inr ⟨mem_cons_of_mem _ h1, h2⟩

theorem priorityScan_runnable {ps : List Nat} {e : Int} {b : Option Nat}
    (h : priorityScan s ps e b = some p) : b = some p ∨ p ∈ ps ∧ (s.proc p).state = .runnable := by
  induction ps generalizing e b with
  | nil => exact .inl h
  | cons x ps ih =>
    simp only [priorityScan] at h
    split at h
    · rename_i hx
      rcases ih h with h1 | ⟨h1, h2⟩
      · cases h1
        exact .inr ⟨mem_cons_self, hx.1⟩
      · exact .inr ⟨mem_cons_of_mem _ h1, h2⟩
    · rcases ih h with h1 | ⟨h1, h2⟩
      · exact .inl h1
      · exact .inr ⟨mem_cons_of_mem _ h1, h2⟩

theorem select_runnable (h : select n pol s = some p) :
    p < n ∧ (s.proc p).state = .runnable := by
  cases pol with
  | roundRobin =>
    obtain ⟨h1, h2⟩ := find_range h
    exact ⟨h1, of_decide_eq_true h2⟩
  | fcfs =>
    rcases fcfsScan_runnable h with h1 | ⟨h1, h2⟩
    · cases h1
    · exact ⟨mem_range.1 h1, h2⟩
  | priority =>
    rcases priorityScan_runnable h with h1 | ⟨h1, h2⟩
    · cases h1
    · exact ⟨mem_range.1 h1, h2⟩

end Xv6.Sched
