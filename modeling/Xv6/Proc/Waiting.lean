import Xv6.Proc.Moves

/-!
# The waiting time that `wait` reports (`proc.c:515-527`, `:392-432`)

`scheduler` adds the time since the stamp `wait_time` to `total_wait_time` when it dispatches a process. The sum is the time
the process has been `RUNNABLE` as long as the stamp is the instant at which it became so and the sum began at 0. `kill` of a
sleeper breaks the first, and the second fails for a slot whose earlier owner has waited: neither `freeproc` nor `allocproc`
resets `total_wait_time`.
-/

namespace Xv6.Sched

/-- The slot `allocproc` takes (`proc.c:105-112`). -/
def freeSlot (n : Nat) (s : Kern) : Option Nat := (List.range n).find? (fun p => (s.proc p).state = .unused)

/-- The readings of the `time` CSR between two states. -/
def taken (s s' : Kern) : List UInt64 := s.times.take (s.times.length - s'.times.length)

structure Watch where
  kern : Kern
  now : UInt64
  since : Nat → Nat
  waited : Nat → Nat

def Watch.init (times : List UInt64) : Watch := ⟨boot times, 0, fun _ => 0, fun _ => 0⟩

def Watch.step (n ncpu : Nat) (pol : Policy) (w : Watch) (te : UInt64 × Ev) : Option Watch :=
  match Sched.step n ncpu pol w.kern te.2 with
  | none => none
  | some s =>
    if (w.now :: taken w.kern s ++ [te.1]).Pairwise (· ≤ ·) ∧ (taken w.kern s).getLast?.getD te.1 = te.1 then
      some
        { kern := s
          now := te.1
          since := fun j => if (s.proc j).state = .runnable ∧ (w.kern.proc j).state ≠ .runnable then te.1.toNat else w.since j
          waited := fun j =>
            if (s.proc j).state = .unused then 0
            else if (w.kern.proc j).state = .runnable ∧ (s.proc j).state ≠ .runnable then
              w.waited j + (te.1.toNat - w.since j)
            else w.waited j }
    else none

def Accounted (n : Nat) (w : Watch) : UInt64 × Ev → Prop
  | (_, .kill pid) => ∀ q ∈ killTarget n w.kern pid, (w.kern.proc q).state ≠ .sleeping
  | (_, .forkAlloc _ _) => ∀ q ∈ freeSlot n w.kern, (w.kern.proc q).totalWaitTime = 0
  | _ => True

instance (n : Nat) (w : Watch) : ∀ te, Decidable (Accounted n w te)
  | (_, .kill _) => inferInstanceAs (Decidable (∀ q ∈ killTarget n w.kern _, _))
  | (_, .forkAlloc _ _) => inferInstanceAs (Decidable (∀ q ∈ freeSlot n w.kern, _))
  | (_, .userinit) | (_, .forkParent ..) | (_, .forkRun ..) | (_, .sleep ..) | (_, .wakeup ..) | (_, .yield ..)
  | (_, .exitClose ..) | (_, .reparent ..) | (_, .exitZombie ..) | (_, .reap ..) | (_, .dispatch) =>
    inferInstanceAs (Decidable True)

/-! ## What an event does to the sums -/

structure Effect (n : Nat) (pol : Policy) (s : Kern) (e : Ev) (s' : Kern) : Prop where
  keep : ∀ j, (e = .dispatch → select n pol s ≠ some j) → (s'.proc j).totalWaitTime = (s.proc j).totalWaitTime
  add : ∀ p t, e = .dispatch → select n pol s = some p → s.times = t :: s'.times →
    (s'.proc p).totalWaitTime = (s.proc p).totalWaitTime + (t - (s.proc p).waitTime)
  fresh : ∀ q, (s.proc q).state = .unused → (s'.proc q).state ≠ .unused →
    s.initproc = none ∧ s'.initproc ≠ none ∨
    ∃ p ok, e = .forkAlloc p ok ∧ (s.proc p).state = .running ∧ freeSlot n s = some q
  init : s'.initproc = none → s.initproc = none

section
variable {n ncpu : Nat} {pol : Policy} {s s' r : Kern} {e : Ev}

theorem Effect.upd (hne : e ≠ .dispatch) (hr : r.proc = s.proc) (hi : r.initproc = s.initproc) (q : Nat) (f : Proc → Proc)
    (h1 : (f (s.proc q)).totalWaitTime = (s.proc q).totalWaitTime)
    (h2 : (s.proc q).state = .unused → (f (s.proc q)).state = .unused) : Effect n pol s e (r.upd q f) := by
  have hq : (r.upd q f).proc q = f (s.proc q) := by rw [upd_proc_self, hr]
  have hj : ∀ j, j ≠ q → (r.upd q f).proc j = s.proc j := fun j hj => by rw [upd_proc_ne r f hj, hr]
  constructor
  · intro j _
    by_cases e : j = q
    · subst e; rw [hq, h1]
    · rw [hj j e]
  · intro p t hd
    exact absurd hd hne
  · intro j hu hn
    by_cases e : j = q
    · subst e
      rw [hq] at hn
      exact absurd (h2 hu) hn
    · rw [hj j e] at hn
      exact absurd hu hn
  · intro h
    rw [← hi]
    exact h

theorem Effect.refl (h : e = .dispatch → select n pol s = none) : Effect n pol s e s where
  keep _ _ := rfl
  add p t he hp := by
    rw [h he] at hp
    cases hp
  fresh _ hu hn := absurd hu hn
  init h := h

theorem allocproc_effect {ok : Bool} {o : Option Nat} (h : allocproc n s ok = (o, r)) :
    r.initproc = s.initproc ∧ (∀ j, (r.proc j).totalWaitTime = (s.proc j).totalWaitTime) ∧
      (o = none → ∀ j, (s.proc j).state = .unused → (r.proc j).state = .unused) ∧
      ∀ q, o = some q → freeSlot n s = some q ∧ ∀ j, j ≠ q → r.proc j = s.proc j := by
  unfold allocproc at h
  cases hf : (List.range n).find? (fun p => (s.proc p).state = .unused) with
  | none =>
    rw [hf] at h
    cases h
    exact ⟨rfl, fun _ => rfl, fun _ _ hj => hj, fun q hq => by cases hq⟩
  | some p =>
    rw [hf] at h
    cases ok with
    | true =>
      cases h
      refine ⟨rfl, fun j => ?_, (fun hn => by cases hn), fun q hq => ?_⟩
      · by_cases hj : j = p
        · subst hj; simp
        · rw [upd_proc_ne _ _ hj]
      · cases hq
        exact ⟨hf, fun j hj => upd_proc_ne _ _ hj⟩
    | false =>
      cases h
      refine ⟨rfl, fun j => ?_, fun _ j hu => ?_, fun q hq => by cases hq⟩
      · by_cases hj : j = p
        · subst hj; simp [freeproc]
        · simp [upd_proc_ne _ _ hj]
      · by_cases hj : j = p
        · subst hj; simp [freeproc]
        · simpa [upd_proc_ne _ _ hj] using hu

theorem step_effect (h : step n ncpu pol s e = some s') : Effect n pol s e s' := by
  cases e with
  | userinit =>
    simp only [step, userinit] at h
    split at h
    · rename_i hi
      split at h
      · cases h
      rename_i q r heq
      obtain ⟨hinit, htot, -, hsome⟩ := allocproc_effect heq
      obtain ⟨-, hne⟩ := hsome q rfl
      obtain ⟨t0, ts0, -, h⟩ := rTime_some h
      obtain ⟨t, ts, -, h⟩ := rTime_some h
      cases h
      refine ⟨fun j _ => ?_, (fun p t hd => by cases hd), fun j hu hn => .inl ⟨hi, by simp [Kern.upd]⟩, fun h => by cases h⟩
      by_cases hj : j = q
      · subst hj
        rw [upd_proc_self]
        exact htot j
      · rw [upd_proc_ne _ _ hj]
        exact htot j
    · cases h
  | forkAlloc p ok =>
    simp only [step, forkAlloc] at h
    split at h
    · rename_i hg
      split at h
      · rename_i r heq
        cases h
        obtain ⟨hinit, htot, hnone, -⟩ := allocproc_effect heq
        exact ⟨fun j _ => htot j, (fun p t hd => by cases hd), fun j hu hn => absurd (hnone rfl j hu) hn, fun h => hinit ▸ h⟩
      · rename_i q r heq
        cases h
        obtain ⟨hinit, htot, -, hsome⟩ := allocproc_effect heq
        obtain ⟨hfree, hne⟩ := hsome q rfl
        refine ⟨fun j _ => ?_, (fun p t hd => by cases hd), fun j hu hn => .inr ⟨p, ok, rfl, hg.2, ?_⟩, fun h => hinit ▸ h⟩
        · by_cases hj : j = q
          · subst hj
            rw [upd_proc_self]
            exact htot j
          · rw [upd_proc_ne _ _ hj]
            exact htot j
        · by_cases hj : j = q
          · rw [hj]
            exact hfree
          · rw [upd_proc_ne _ _ hj, hne j hj] at hn
            exact absurd hu hn
    · cases h
  | forkParent p np =>
    simp only [step, forkParent] at h
    split at h
    · cases h
      exact .upd (by simp) rfl rfl np _ rfl (fun hu => hu)
    · cases h
  | forkRun p np =>
    simp only [step, forkRun] at h
    split at h
    · rename_i hg
      obtain ⟨t, ts, -, h⟩ := rTime_some h
      cases h
      exact .upd (by simp) (s := s) (r := { s with times := ts }) rfl rfl np _ rfl (by simp [hg.2.2.2.1])
    · cases h
  | sleep p chan =>
    simp only [step, sleep] at h
    split at h
    · rename_i hg
      cases h
      exact .upd (by simp) rfl rfl p _ rfl (by simp [hg.2])
    · cases h
  | wakeup chan q =>
    simp only [step, wakeup] at h
    split at h
    · split at h
      · rename_i hg
        obtain ⟨t, ts, -, h⟩ := rTime_some h
        cases h
        exact .upd (by simp) (s := s) (r := { s with times := ts }) rfl rfl q _ rfl (by simp [hg.1])
      · cases h
        exact .refl (by simp)
    · cases h
  | kill pid =>
    simp only [step, kill] at h
    split at h
    · cases h
      exact .refl (by simp)
    · rename_i q hq
      cases h
      exact .upd (by simp) rfl rfl q _ rfl (fun hu => by simp [hu])
  | yield p =>
    simp only [step, yield] at h
    split at h
    · rename_i hg
      obtain ⟨t, ts, -, h⟩ := rTime_some h
      cases h
      exact .upd (by simp) (s := s) (r := { s with times := ts }) rfl rfl p _ rfl (by simp [hg.2])
    · cases h
  | exitClose p =>
    simp only [step, exitClose] at h
    split at h
    · split at h
      · obtain ⟨t, ts, -, h⟩ := rTime_some h
        cases h
        exact .upd (by simp) (s := s) (r := { s with times := ts }) rfl rfl p _ rfl (fun hu => hu)
      · cases h
        exact .upd (by simp) rfl rfl p _ rfl (fun hu => hu)
    · cases h
  | reparent p q =>
    simp only [step, reparent] at h
    split at h
    · split at h
      · cases h
        exact .upd (by simp) rfl rfl q _ rfl (fun hu => hu)
      · cases h
        exact .refl (by simp)
    · cases h
  | exitZombie p status =>
    simp only [step, exitZombie] at h
    split at h
    · rename_i hg
      cases h
      exact .upd (by simp) rfl rfl p _ rfl (by simp [hg.2.1])
    · cases h
  | reap p q =>
    simp only [step, reap] at h
    split at h
    · cases h
      exact .upd (by simp) rfl rfl q _ rfl (fun _ => rfl)
    · cases h
  | dispatch =>
    simp only [step, dispatch] at h
    split at h
    · split at h
      · rename_i hnone
        cases h
        exact .refl fun _ => hnone
      · rename_i p hp
        obtain ⟨t, ts, ht, h⟩ := rTime_some h
        cases h
        refine ⟨fun j hj => ?_, fun q t' _ hq ht' => ?_, fun j hu hn => ?_, fun h => h⟩
        · have hne : j ≠ p := by
            rintro rfl
            exact hj rfl hp
          rw [upd_proc_ne _ _ hne]
        · obtain rfl : p = q := by simpa [hp] using hq
          obtain rfl : t = t' := by simpa [ht] using ht'
          simp
        · by_cases hj : j = p
          · subst hj
            rw [(select_runnable hp).2] at hu
            cases hu
          · rw [upd_proc_ne _ _ hj] at hn
            exact absurd hu hn
    · cases h

end

/-! ## The record is exact -/

structure SlotExact (x : Proc) (now since waited : Nat) : Prop where
  unused : x.state = .unused → waited = 0
  total : x.state ≠ .unused → x.totalWaitTime.toNat = waited
  le : waited ≤ now
  ready : x.state = .runnable → x.waitTime.toNat = since ∧ waited ≤ since ∧ since ≤ now

structure Exact (w : Watch) : Prop where
  /-- Before `userinit` nothing has happened. -/
  idle : w.kern.initproc = none → ∀ q, (w.kern.proc q).state = .unused ∧ (w.kern.proc q).totalWaitTime = 0
  slot : ∀ q, SlotExact (w.kern.proc q) w.now.toNat (w.since q) (w.waited q)

theorem exact_init (times : List UInt64) : Exact (Watch.init times) where
  idle _ q := ⟨rfl, rfl⟩
  slot q := ⟨fun _ => rfl, fun _ => rfl, Nat.zero_le _, fun h => by cases h⟩

section
variable {x y : Proc} {now since waited : Nat} {t : UInt64}

theorem SlotExact.stay (h : SlotExact x now since waited) (ht : now ≤ t.toNat)
    (hrun : y.state = .runnable ↔ x.state = .runnable) (hstamp : y.waitTime = x.waitTime)
    (htot : y.totalWaitTime = x.totalWaitTime)
    (hnew : x.state = .unused → y.state ≠ .unused → x.totalWaitTime = 0) :
    SlotExact y t.toNat since (if y.state = .unused then 0 else waited) := by
  constructor
  · intro hu
    rw [if_pos hu]
  · intro hn
    rw [if_neg hn, htot]
    by_cases hx : x.state = .unused
    · rw [hnew hx hn, h.unused hx]
      rfl
    · exact h.total hx
  · have := h.le
    split <;> omega
  · intro hr
    obtain ⟨h1, h2, h3⟩ := h.ready (hrun.1 hr)
    rw [if_neg (by rw [hr]; decide), hstamp]
    exact ⟨h1, h2, Nat.le_trans h3 ht⟩

theorem SlotExact.arrive (h : SlotExact x now since waited) (ht : now ≤ t.toNat) (hy : y.state = .runnable)
    (hstamp : y.waitTime = t) (htot : y.totalWaitTime = x.totalWaitTime)
    (hnew : x.state = .unused → x.totalWaitTime = 0) : SlotExact y t.toNat t.toNat waited := by
  have hle := h.le
  constructor
  · intro hu
    rw [hy] at hu
    cases hu
  · intro _
    rw [htot]
    by_cases hx : x.state = .unused
    · rw [hnew hx, h.unused hx]
      rfl
    · exact h.total hx
  · omega
  · intro _
    exact ⟨by rw [hstamp], by omega, Nat.le_refl _⟩

theorem SlotExact.dispatch (h : SlotExact x now since waited) (ht : now ≤ t.toNat) (hx : x.state = .runnable)
    (hy : y.state = .running) (htot : y.totalWaitTime = x.totalWaitTime + (t - x.waitTime)) :
    SlotExact y t.toNat since (waited + (t.toNat - since)) := by
  obtain ⟨h1, h2, h3⟩ := h.ready hx
  have hsum := h.total (by rw [hx]; decide)
  have hle : x.waitTime ≤ t := UInt64.le_iff_toNat_le.2 (by omega)
  have hlt := t.toNat_lt
  constructor
  · intro hu
    rw [hy] at hu
    cases hu
  · intro _
    rw [htot, UInt64.toNat_add, UInt64.toNat_sub_of_le _ _ hle, hsum, h1]
    exact Nat.mod_eq_of_lt (by omega)
  · omega
  · intro hr
    rw [hy] at hr
    cases hr

end

theorem taken_eq {s s' : Kern} {v : List UInt64} (h : s.times = v ++ s'.times) : taken s s' = v := by
  simp [taken, h]

section
variable {n ncpu : Nat} {pol : Policy} {w w' : Watch} {te : UInt64 × Ev}

theorem watch_step_inv (h : w.step n ncpu pol te = some w') :
    step n ncpu pol w.kern te.2 = some w'.kern ∧ w'.now = te.1 ∧ w.now ≤ te.1 ∧
    (∀ v t, w.kern.times = v ++ t :: w'.kern.times → t = te.1) ∧
    (∀ j, w'.since j = if (w'.kern.proc j).state = .runnable ∧ (w.kern.proc j).state ≠ .runnable then te.1.toNat
      else w.since j) ∧
    ∀ j, w'.waited j = if (w'.kern.proc j).state = .unused then 0
      else if (w.kern.proc j).state = .runnable ∧ (w'.kern.proc j).state ≠ .runnable then
        w.waited j + (te.1.toNat - w.since j)
      else w.waited j := by
  unfold Watch.step at h
  cases hs : step n ncpu pol w.kern te.2 with
  | none => simp [hs] at h
  | some s =>
    simp only [hs] at h
    split at h
    · rename_i hg
      cases h
      refine ⟨rfl, rfl, ?_, ?_, fun _ => rfl, fun _ => rfl⟩
      · exact (List.pairwise_cons.1 hg.1).1 _ (by simp)
      · intro v t hv
        have := hg.2
        rw [taken_eq (v := v ++ [t]) (by simpa using hv)] at this
        simpa using this
    · cases h

theorem exact_fresh (hI : Exact w) (hC : Accounted n w te) {s : Kern} (he : Effect n pol w.kern te.2 s) {q : Nat}
    (hu : (w.kern.proc q).state = .unused) (hn : (s.proc q).state ≠ .unused) : (w.kern.proc q).totalWaitTime = 0 := by
  rcases he.fresh q hu hn with ⟨hi, -⟩ | ⟨p, ok, e, -, hfree⟩
  · exact (hI.idle hi q).2
  · obtain ⟨t, e'⟩ := te
    obtain rfl : e' = .forkAlloc p ok := e
    exact hC q hfree

theorem exact_idle (hI : Exact w) (hs : step n ncpu pol w.kern te.2 = some w'.kern) (hi : w'.kern.initproc = none) (q : Nat) :
    (w'.kern.proc q).state = .unused ∧ (w'.kern.proc q).totalWaitTime = 0 := by
  have he := step_effect hs
  have hidle := hI.idle (he.init hi)
  constructor
  · by_contra hn
    rcases he.fresh q (hidle q).1 hn with ⟨-, h⟩ | ⟨p, ok, -, hr, -⟩
    · exact h hi
    · rw [(hidle p).1] at hr
      cases hr
  · rw [he.keep q fun _ hsel => ?_, (hidle q).2]
    have := (select_runnable hsel).2
    rw [(hidle q).1] at this
    cases this

theorem exact_stay (hI : Exact w) (hC : Accounted n w te) (h : w.step n ncpu pol te = some w') {q : Nat}
    (hiff : (w'.kern.proc q).state = .runnable ↔ (w.kern.proc q).state = .runnable)
    (hstamp : (w'.kern.proc q).waitTime = (w.kern.proc q).waitTime)
    (htot : (w'.kern.proc q).totalWaitTime = (w.kern.proc q).totalWaitTime) :
    SlotExact (w'.kern.proc q) w'.now.toNat (w'.since q) (w'.waited q) := by
  obtain ⟨hs, hnow, hle, -, hsince, hwaited⟩ := watch_step_inv h
  have hin : ¬((w'.kern.proc q).state = .runnable ∧ (w.kern.proc q).state ≠ .runnable) := fun h => h.2 (hiff.1 h.1)
  have hout : ¬((w.kern.proc q).state = .runnable ∧ (w'.kern.proc q).state ≠ .runnable) := fun h => h.2 (hiff.2 h.1)
  rw [hnow, hsince, hwaited, if_neg hin, if_neg hout]
  exact (hI.slot q).stay (UInt64.le_iff_toNat_le.1 hle) hiff hstamp htot fun hu hn => exact_fresh hI hC (step_effect hs) hu hn

theorem exact_step (hI : Exact w) (hC : Accounted n w te) (h : w.step n ncpu pol te = some w') : Exact w' := by
  obtain ⟨hs, hnow, hle, hlast, hsince, hwaited⟩ := watch_step_inv h
  have ht : w.now.toNat ≤ te.1.toNat := UInt64.le_iff_toNat_le.1 hle
  have he := step_effect hs
  refine ⟨exact_idle hI hs, fun q => ?_⟩
  have hsame : ∀ p, SameBut w.kern w'.kern p → q ≠ p → (te.2 = .dispatch → select n pol w.kern ≠ some q) →
      SlotExact (w'.kern.proc q) w'.now.toNat (w'.since q) (w'.waited q) :=
    fun p hb hq htot => exact_stay hI hC h (by rw [(hb q hq).1]) (hb q hq).2 (he.keep q htot)
  obtain ⟨s', now', since', waited'⟩ := w'
  obtain ⟨t, e⟩ := te
  dsimp only at *
  cases step_move hs with
  | @run _ p t1 hsel hts hb hrun hw =>
    obtain rfl : t1 = t := hlast [] t1 hts
    have hrunnable := (select_runnable hsel).2
    by_cases hq : q = p
    · subst hq
      rw [hnow, hsince, hwaited, if_neg fun h => h.2 hrunnable, if_neg (by rw [hrun]; decide),
        if_pos ⟨hrunnable, by rw [hrun]; decide⟩]
      exact (hI.slot q).dispatch ht hrunnable hrun (he.add q t1 rfl hsel hts)
    · exact hsame p hb hq fun _ e => hq (Option.some.inj (e.symm.trans hsel))
  | idle hsel => exact exact_stay hI hC h Iff.rfl rfl rfl
  | @ready _ _ p t1 u hne hp hold hb hnew hw hts =>
    obtain rfl : t1 = t := hlast u t1 hts
    by_cases hq : q = p
    · subst hq
      rw [hnow, hsince, hwaited, if_pos ⟨hnew, hold⟩, if_neg (by rw [hnew]; decide), if_neg (fun h => hold h.1)]
      exact (hI.slot q).arrive ht hnew hw (he.keep q fun hd => absurd hd hne) fun hu =>
        exact_fresh hI hC he hu (by rw [hnew]; decide)
    · exact hsame p hb hq fun hd => absurd hd hne
  | @killed _ pid p hp htgt hsl hb hnew hw hts => exact absurd hsl (hC p htgt)
  | @other _ _ p hne hb hiff hfrom hw hts =>
    by_cases hq : q = p
    · subst hq
      exact exact_stay hI hC h hiff hw (he.keep q fun hd => absurd hd hne)
    · exact hsame p hb hq fun hd => absurd hd hne

end

theorem wait_reports_exact (n ncpu : Nat) (pol : Policy) (times : List UInt64) (es : List (UInt64 × Ev)) (w : Watch)
    (hC : Lts.Along (Watch.step n ncpu pol) (Accounted n) (Watch.init times) es)
    (hr : Lts.run (Watch.step n ncpu pol) (Watch.init times) es = some w) (p q : Nat) (hreap : reap n w.kern p q ≠ none) :
    (procTime (w.kern.proc q)).totalWaitTime.toNat = w.waited q := by
  have hI : Exact w := Lts.run_inv (fun _ _ _ hI hC hs => exact_step hI hC hs) (exact_init times) hC hr
  refine (hI.slot q).total fun hu => hreap ?_
  rw [reap, if_neg]
  rintro ⟨-, -, -, -, hz⟩
  rw [hu] at hz
  cases hz

def waitRun : List (UInt64 × Ev) :=
  [(1, .userinit), (2, .dispatch), (2, .forkAlloc 0 true), (2, .forkParent 0 1), (3, .forkRun 0 1), (4, .sleep 0 9),
    (5, .dispatch), (6, .exitClose 1), (7, .wakeup 9 0), (7, .exitZombie 1 0), (8, .dispatch)]

theorem wait_reports_exact_waitRun :
    ∃ w, Lts.run (Watch.step NPROC 1 .fcfs) (Watch.init [1, 1, 2, 3, 5, 6, 7, 8]) waitRun = some w ∧
      reap NPROC w.kern 0 1 ≠ none ∧ (procTime (w.kern.proc 1)).totalWaitTime.toNat = w.waited 1 ∧ w.waited 1 = 2 := by
  have hrun : (Lts.run (Watch.step NPROC 1 .fcfs) (Watch.init [1, 1, 2, 3, 5, 6, 7, 8]) waitRun).map
      (fun w => ((reap NPROC w.kern 0 1).isSome, w.waited 1)) = some (true, 2) := by decide +kernel
  obtain ⟨w, hw, h⟩ := Option.map_eq_some_iff.1 hrun
  simp only [Prod.mk.injEq] at h
  have hreap : reap NPROC w.kern 0 1 ≠ none := by
    intro e
    rw [e] at h
    cases h.1
  exact ⟨w, hw, hreap, wait_reports_exact NPROC 1 .fcfs _ _ w (by decide +kernel) hw 0 1 hreap, h.2⟩

def killRun : List (UInt64 × Ev) :=
  [(1, .userinit), (2, .dispatch), (2, .forkAlloc 0 true), (2, .forkParent 0 1), (3, .forkRun 0 1), (4, .sleep 0 9),
    (5, .dispatch), (6, .sleep 1 7), (7, .wakeup 9 0), (8, .dispatch), (100, .kill 2), (101, .sleep 0 9), (110, .dispatch),
    (111, .exitClose 1), (112, .wakeup 9 0), (112, .exitZombie 1 (-1)), (113, .dispatch)]

def reuseRun : List (UInt64 × Ev) :=
  waitRun ++ [(9, .reap 0 1), (9, .forkAlloc 0 true), (9, .forkParent 0 1), (10, .forkRun 0 1), (11, .sleep 0 9),
    (12, .dispatch), (13, .exitClose 1), (14, .wakeup 9 0), (14, .exitZombie 1 0), (15, .dispatch)]

/-- What `wait` would report for the child in slot 1, and how long it has waited. -/
def report (w : Watch) : Option (Nat × Nat) :=
  (reap NPROC w.kern 0 1).map fun _ => ((procTime (w.kern.proc 1)).totalWaitTime.toNat, w.waited 1)

theorem wait_reports_wrong :
    (Lts.run (Watch.step NPROC 1 .fcfs) (Watch.init [1, 1, 2, 3, 5, 7, 8, 110, 111, 112, 113]) killRun).bind report =
      some (107, 12) ∧
    (Lts.run (Watch.step NPROC 1 .fcfs) (Watch.init [1, 1, 2, 3, 5, 6, 7, 8, 10, 12, 13, 14, 15]) reuseRun).bind report =
      some (4, 2) := by
  decide +kernel

end Xv6.Sched
