import Xv6.Harts.Simulate

/-!
# A new process starts clean

What an earlier process has left in a slot is cleared in different places: some of it by `freeproc`, the files by `exit`, and the
times nowhere. In the runs looked at here nobody calls `kill(0)`, which marks a slot that is not in use.
-/

open Function (update update_self update_of_ne)

namespace Xv6.Harts

open Prog
open Sched (Proc ProcState freeproc)
open Option

variable {N n : Nat} {s s' : Sys N} {g g' : St N} {h : Fin N} {t : Th N} {a a' : Acct} {p q q' : Nat} {w : Wr} {x : Proc}

/-! ## What is clean -/

/-- What `freeproc` clears. -/
structure Blank (x : Proc) : Prop where
  killed : x.killed = false
  chan : x.chan = 0
  xstate : x.xstate = 0

/-- What `exit` clears. -/
structure Bare (x : Proc) : Prop where
  ofile : ∀ fd, x.ofile fd = 0
  cwd : x.cwd = 0

/-- What nobody clears. -/
structure Still (x : Proc) : Prop where
  totalWaitTime : x.totalWaitTime = 0
  turnaroundTime : x.turnaroundTime = 0
  endTime : x.endTime = 0

/-- The process has closed its files. -/
def Job.Closed : Job → Prop
  | .closed => True
  | .orphan _ => True
  | .dead => True
  | _ => False

/-- `fork` has not yet given files to `q`. -/
def Job.Empty (q : Nat) : Job → Prop
  | .took r => r = q
  | .born r => r = q
  | _ => False

theorem Job.Empty.kid {j : Job} (hj : j.Empty q) : j.kid = some q := by
  cases j with
  | took r | born r => exact congrArg some hj
  | _ => exact hj.elim

/-- `reaped` are the slots from which a process has been reaped. -/
structure Clean (g : St N) (reaped : Nat → Bool) : Prop where
  unused : ∀ q, phase (g.proc q) = .unused → Blank (g.proc q) ∧ (g.proc q).pid = 0 ∧ Bare (g.proc q)
  took : ∀ p q, (g.acc (.proc p)).job = .took q → Blank (g.proc q)
  empty : ∀ p q, (g.acc (.proc p)).job.Empty q → Bare (g.proc q)
  closed : ∀ p, (g.acc (.proc p)).job.Closed → Bare (g.proc p)
  times : ∀ q, phase (g.proc q) = .unused ∨ phase (g.proc q) = .used → reaped q = false → Still (g.proc q)
  used : ∀ q, phase (g.proc q) = .used → reaped q = false

/-! ## Steps -/

section
variable {r : Nat → Bool}

/-- The step from `j` to `j'` takes no slot and closes no files. -/
structure Job.Quiet (j j' : Job) : Prop where
  took : ∀ q, j' = .took q → j = .took q
  empty : ∀ q, j'.Empty q → j.Empty q
  closed : j'.Closed → j.Closed

theorem Job.Quiet.refl (j : Job) : j.Quiet j := ⟨fun _ => id, fun _ => id, id⟩

theorem Clean.keep (C : Clean g r) (hproc : g'.proc = g.proc) (hq : ∀ p, (g.acc (.proc p)).job.Quiet (g'.acc (.proc p)).job) :
    Clean g' r where
  unused := by
    rw [hproc]
    exact C.unused
  took p q hj := by
    rw [hproc]
    exact C.took p q ((hq p).took q hj)
  empty p q hj := by
    rw [hproc]
    exact C.empty p q ((hq p).empty q hj)
  closed p hj := by
    rw [hproc]
    exact C.closed p ((hq p).closed hj)
  times := by
    rw [hproc]
    exact C.times
  used := by
    rw [hproc]
    exact C.used

theorem Act.quiet (ha : Act n g a a') : a.job.Quiet a'.job := by
  cases ha with
  | acquire l x =>
    change a.job.Quiet (if l = .wait then a.job.begin else a.job)
    split
    · cases a.job with
      | none => exact ⟨nofun, fun _ h => h.elim, fun h => h.elim⟩
      | closed => exact ⟨nofun, fun _ h => h.elim, id⟩
      | _ => exact .refl _
    · exact .refl _
  | release l =>
    change a.job.Quiet (if l = .wait then a.leave else a.job)
    split
    · unfold Acct.leave
      split
      · split
        · exact ⟨nofun, fun _ h => h.elim, fun h => h.elim⟩
        · exact ⟨nofun, fun _ h => h.elim, fun h => h.elim⟩
      · exact .refl _
    · exact .refl _
  | see q =>
    change a.job.Quiet (a.job.see a.me _ q _)
    cases a.job with
    | orphan d | scan r => exact ⟨nofun, fun _ h => h.elim, id⟩
    | _ => exact .refl _
  | current p | leave p | ask c => exact .refl _
  | finish p st =>
    exact .refl _
  | copyout b =>
    cases a.job with
    | scan r => exact ⟨nofun, fun _ h => h.elim, id⟩
    | _ => exact .refl _
  | ret c hj => exact ⟨nofun, fun _ h => h.elim, fun h => h.elim⟩

theorem Inv.not_me (I : Inv n g) (hq : phase (g.proc q) = .unused ∨ phase (g.proc q) = .used) : (g.acct h).me ≠ some q := by
  intro hm
  rcases I.jobs.on h q (St.on_eq_proc.1 (I.locks.on_of_me hm)) with hl | hl
  · rw [hl] at hq
    rcases hq with hq | hq <;> cases hq
  · rw [hl] at hq
    rcases hq with hq | hq <;> cases hq

theorem Inv.used_of_kid (I : Inv n g) (hk : (g.acct h).job.kid = some q) : phase (g.proc q) = .used := by
  obtain ⟨p, he⟩ := I.jobs.on_of_job (fun hj => by rw [hj] at hk; cases hk)
  exact (I.jobs.fine p).used (by rw [← he]; exact hk)

theorem Clean.not_allowed (C : Clean g r) (I : Inv n g) (hw : w.Allowed n (· ≠ 0) (g.acct h) q) : phase (g.proc q) ≠ .unused := by
  intro hun
  have hst : ∀ {st}, (g.acct h).In q st → st = .unused := fun hi => (I.locks.state hi).symm.trans (phase_eq_unused.1 hun)
  have hme := I.not_me (h := h) (.inl hun)
  have hkid : (g.acct h).job.kid ≠ some q := fun hk => by cases hun.symm.trans (I.used_of_kid hk)
  cases w with
  | free | ready tm =>
    rcases hw with ⟨hi, -⟩ | ⟨hi, -⟩
    · cases hst hi
    · cases hst hi
  | dup y => exact hkid (by rw [show (g.acct h).job = .born q from hw]; rfl)
  | parent m =>
    obtain ⟨hwait, ⟨hj, -⟩ | ⟨⟨d, hj⟩, hpar, -⟩⟩ := hw
    · exact hkid (by rw [hj]; rfl)
    · obtain ⟨p, he⟩ := I.jobs.on_of_job (h := h) (by simp [hj])
      have hp := (I.jobs.par (g.on h) hwait q _ hpar).symm.trans (I.tree.unused q hun)
      rw [St.acct_eq he, I.locks.me_proc] at hp
      cases hp
  | publish tm => exact hkid (by rw [hw.1]; rfl)
  | kill pid =>
    obtain ⟨hpid, ⟨x, hx, he⟩, -⟩ := hw
    have hcore := congrArg (fun c => c.2.2) (I.locks.knows (g.on h) q x hx)
    exact hpid (he.symm.trans (hcore.symm.trans (C.unused q hun).2.1))
  | run now => cases hst hw.2
  | setkilled | sleep _ | clearChan | file _ _ | chdir _ | endTime _ | close | zombie _ => exact hme hw.1

variable {ok : Int → Prop} {f : Nat → Proc}

theorem Wr.Allowed.quiet (hw : w.Allowed n ok a q) (hc : w ≠ .close) : a.job.Quiet (w.acct a q).job := by
  rw [Wr.job_acct]
  cases w with
  | close => exact absurd rfl hc
  | free | publish _ | kill _ | dup y => exact ⟨nofun, fun _ h => h.elim, fun h => h.elim⟩
  | zombie st =>
    obtain ⟨-, -, -, ⟨d, hj, -⟩, -⟩ := hw
    rw [hj]
    exact ⟨nofun, fun _ h => h.elim, fun _ => trivial⟩
  | parent m =>
    obtain ⟨-, ⟨hj, -⟩ | ⟨⟨d, hj⟩, -⟩⟩ := hw
    · rw [hj]
      exact ⟨nofun, fun _ h => h.elim, fun h => h.elim⟩
    · rw [hj]
      exact ⟨nofun, fun _ h => h.elim, id⟩
  | sleep chan =>
    cases a.job with
    | doze => exact ⟨nofun, fun _ h => h.elim, fun h => h.elim⟩
    | _ => exact .refl _
  | _ => exact .refl _

theorem Inv.free_of_took (I : Inv n g) (hj : (g.acc (.proc p)).job = .took q) (hw : w.Allowed n ok (g.acct h) q) :
    g.on h = .proc p ∧ w = .free := by
  have hF := I.jobs.fine p
  rw [hj] at hF
  obtain ⟨-, hused, hnone, hlock⟩ := hF
  have hst : ∀ {st}, (g.acct h).In q st → st = .used := fun hi => (I.locks.state hi).symm.trans (phase_eq_used.1 hused)
  have hme := I.not_me (h := h) (.inr hused)
  -- two processes do not make the same child
  have hkid : (g.acct h).job.kid = some q → g.on h = .proc p ∧ (g.acct h).job = .took q := by
    intro hk
    obtain ⟨p', he⟩ := I.jobs.on_of_job (fun hj => by rw [hj] at hk; cases hk)
    have hpp : p' = p := I.jobs.kid p' p q (by rw [← he]; exact hk) (by rw [hj]; rfl)
    rw [hpp] at he
    exact ⟨he, by rw [St.acct_eq he, hj]⟩
  cases w with
  | free =>
    rcases hw with ⟨-, hj' | hj'⟩ | ⟨hi, -⟩
    · exact ⟨(hkid (by rw [hj']; rfl)).1, rfl⟩
    · exact ⟨(hkid (by rw [hj']; rfl)).1, rfl⟩
    · cases hst hi
  | dup y =>
    have hb : (g.acct h).job = .born q := hw
    cases hb.symm.trans (hkid (by rw [hb]; rfl)).2
  | parent m =>
    obtain ⟨hwait, ⟨hf, -⟩ | ⟨⟨d, ho⟩, hpar, -⟩⟩ := hw
    · cases hf.symm.trans (hkid (by rw [hf]; rfl)).2
    · obtain ⟨p', he⟩ := I.jobs.on_of_job (h := h) (by simp [ho])
      have hp := (I.jobs.par (g.on h) hwait q _ hpar).symm.trans hnone
      rw [St.acct_eq he, I.locks.me_proc] at hp
      cases hp
  | publish tm => cases hw.1.symm.trans (hkid (by rw [hw.1]; rfl)).2
  | ready tm =>
    rcases hw with ⟨hi, -⟩ | ⟨hi, -⟩
    · cases hst hi
    · cases hst hi
  | kill pid =>
    obtain ⟨-, ⟨x, hx, -⟩, -, hnone⟩ := hw
    have he : g.on h = .proc p := I.locks.excl _ _ _ (Held.mem_lk hx) hlock
    rw [St.acct_eq he, hj] at hnone
    cases hnone
  | run now => cases hst hw.2
  | setkilled | sleep _ | clearChan | file _ _ | chdir _ | endTime _ | close | zombie _ => exact absurd hw.1 hme

theorem Wr.Allowed.files (hw : w.Allowed n ok a q) :
    a.job = .born q ∧ (w.job q a.job) = .filled q ∨ a.me = some q ∧ a.job = .none ∨ ∀ x, Bare x → Bare (w.apply x) := by
  cases w with
  | dup y => exact .inl ⟨hw, rfl⟩
  | file fd f | chdir ip => exact .inr (.inl hw)
  | close => exact .inr (.inl ⟨hw.1, hw.2.2⟩)
  | _ => exact .inr (.inr fun x hx => ⟨hx.ofile, hx.cwd⟩)

theorem Wr.Allowed.still (hw : w.Allowed n ok a q) :
    (∃ now, w = .run now) ∨ (∃ tm, w = .endTime tm ∧ a.me = some q) ∨ ∀ x, Still x → Still (w.apply x) := by
  cases w with
  | run now => exact .inl ⟨now, rfl⟩
  | endTime tm => exact .inr (.inl ⟨tm, rfl, hw.1⟩)
  | _ => exact .inr (.inr fun x hx => ⟨hx.totalWaitTime, hx.turnaroundTime, hx.endTime⟩)

theorem Wr.Allowed.phase_cases (I : Inv n g) (hw : w.Allowed n ok (g.acct h) q) :
    w = .free ∨ (phase (w.apply (g.proc q)) ≠ .unused ∧ phase (w.apply (g.proc q)) ≠ .used) ∨
      phase (w.apply (g.proc q)) = phase (g.proc q) := by
  by_cases hs : w.hard = false
  · exact .inr (.inr (hw.soft I.locks hs).phase)
  cases w with
  | free => exact .inl rfl
  | publish tm | zombie st => exact .inr (.inl ⟨nofun, nofun⟩)
  | parent m => exact .inr (.inr rfl)
  | _ => exact absurd rfl hs

def reapedBy (f f' : Nat → Proc) (r : Nat → Bool) (q : Nat) : Bool :=
  r q || decide ((f q).state = .zombie ∧ (f' q).state = .unused)

theorem reapedBy_eq_false {f' : Nat → Proc} (hr : reapedBy f f' r q = false) :
    r q = false ∧ ¬(phase (f q) = .zombie ∧ phase (f' q) = .unused) := by
  rw [reapedBy, Bool.or_eq_false_iff, decide_eq_false_iff_not] at hr
  rw [phase_eq_zombie, phase_eq_unused]
  exact hr

theorem reapedBy_of_used {f' : Nat → Proc} (hr : r q = false) (hp : phase (f' q) = .used) : reapedBy f f' r q = false := by
  rw [reapedBy, hr, Bool.false_or, decide_eq_false_iff_not]
  rintro ⟨-, hu⟩
  cases (phase_eq_unused.2 hu).symm.trans hp

theorem reapedBy_self : reapedBy f f r = r := by
  funext q
  rw [reapedBy]
  cases r q with
  | true => rfl
  | false =>
    rw [Bool.false_or, decide_eq_false_iff_not]
    rintro ⟨hz, hu⟩
    cases hz.symm.trans hu

theorem St.job_put (p : Nat) : ((g.put (g.on h) a).acc (.proc p)).job = (g.acc (.proc p)).job ∧ g.on h ≠ .proc p ∨
    ((g.put (g.on h) a).acc (.proc p)).job = a.job ∧ g.on h = .proc p := by
  rcases eq_or_ne (.proc p) (g.on h) with he | hne
  · rw [he, St.put_acc]
    exact .inr ⟨rfl, rfl⟩
  · rw [St.put_acc_ne hne]
    exact .inl ⟨rfl, hne.symm⟩

theorem Job.Quiet.put (hq : g.on h = .proc p → (g.acct h).job.Quiet a.job) :
    (g.acc (.proc p)).job.Quiet ((g.put (g.on h) a).acc (.proc p)).job := by
  rcases St.job_put p with ⟨he, -⟩ | ⟨he, hon⟩
  · rw [he]
    exact .refl _
  · rw [he, ← St.acct_eq hon]
    exact hq hon

section
variable (C : Clean g r) (I : Inv n g) (hw : w.Allowed n (· ≠ 0) (g.acct h) q)
include hw

theorem Wr.Allowed.quiet_put (hc : ¬(w = .close ∧ g.on h = .proc p)) :
    (g.acc (.proc p)).job.Quiet ((g.put (g.on h) (w.acct (g.acct h) q)).acc (.proc p)).job :=
  .put fun hon => hw.quiet fun h => hc ⟨h, hon⟩

include C I

theorem Clean.unused_write (hq' : phase ((g.setProc q (w.apply (g.proc q))).proc q') = .unused) :
    Blank ((g.setProc q (w.apply (g.proc q))).proc q') ∧ ((g.setProc q (w.apply (g.proc q))).proc q').pid = 0 ∧
      Bare ((g.setProc q (w.apply (g.proc q))).proc q') := by
  rcases St.setProc_cases g q (w.apply (g.proc q)) q' with ⟨rfl, he⟩ | ⟨-, he⟩
  · rw [he] at hq' ⊢
    rcases hw.phase_cases I with rfl | ⟨hno, -⟩ | hsame
    · have hbare : Bare (g.proc q') := by
        rcases hw with ⟨-, hj⟩ | ⟨hi, -⟩
        · obtain ⟨p, hon⟩ := I.jobs.on_of_job (by rcases hj with hj | hj <;> (rw [hj]; nofun))
          refine C.empty p q' ?_
          rw [← St.acct_eq hon]
          rcases hj with hj | hj
          · rw [hj]
            rfl
          · rw [hj]
            rfl
        · refine C.closed q' ?_
          rw [I.jobs.zombie q' (phase_eq_zombie.2 (I.locks.state hi))]
          trivial
      exact ⟨⟨rfl, rfl, rfl⟩, rfl, hbare.ofile, hbare.cwd⟩
    · exact absurd hq' hno
    · exact absurd (hsame.symm.trans hq') (C.not_allowed I hw)
  · rw [he] at hq' ⊢
    exact C.unused q' hq'

theorem Clean.took_write (hj : ((g.put (g.on h) (w.acct (g.acct h) q)).acc (.proc p)).job = .took q') :
    Blank ((g.setProc q (w.apply (g.proc q))).proc q') := by
  have hold : (g.acc (.proc p)).job = .took q' := by
    refine (hw.quiet_put ?_).took q' hj
    rintro ⟨rfl, hon⟩
    rw [← hon, St.put_acc] at hj
    cases hj
  rcases St.setProc_cases g q (w.apply (g.proc q)) q' with ⟨rfl, he⟩ | ⟨-, he⟩
  · obtain ⟨hon, rfl⟩ := I.free_of_took hold hw
    rw [← hon, St.put_acc] at hj
    cases hj
  · rw [he]
    exact C.took p q' hold

theorem Clean.empty_write (hj : ((g.put (g.on h) (w.acct (g.acct h) q)).acc (.proc p)).job.Empty q') :
    Bare ((g.setProc q (w.apply (g.proc q))).proc q') := by
  have hold : (g.acc (.proc p)).job.Empty q' := by
    refine (hw.quiet_put ?_).empty q' hj
    rintro ⟨rfl, hon⟩
    rw [← hon, St.put_acc] at hj
    exact hj.elim
  have hb := C.empty p q' hold
  rcases St.setProc_cases g q (w.apply (g.proc q)) q' with ⟨rfl, he⟩ | ⟨-, he⟩
  · rw [he]
    rcases hw.files with ⟨hborn, hfill⟩ | ⟨hme, -⟩ | hkeep
    · -- the process that gives files to the child is the one that makes it
      obtain ⟨p', hon⟩ := I.jobs.on_of_job (h := h) (by simp [hborn])
      have hpp : p' = p := I.jobs.kid p' p q' (by rw [← St.acct_eq hon, hborn]; rfl) hold.kid
      rw [← hpp, ← hon, St.put_acc, Wr.job_acct, hfill] at hj
      exact hj.elim
    · exact absurd hme (I.not_me (.inr (I.jobs.of_kid hold.kid).2))
    · exact hkeep _ hb
  · rw [he]
    exact hb

theorem Clean.closed_write (hj : ((g.put (g.on h) (w.acct (g.acct h) q)).acc (.proc p)).job.Closed) :
    Bare ((g.setProc q (w.apply (g.proc q))).proc p) := by
  by_cases hc : w = .close ∧ g.on h = .proc p
  · obtain ⟨rfl, hon⟩ := hc
    have hpq : q = p := by
      have := hw.1
      rw [St.acct_eq hon, I.locks.me_proc] at this
      exact (some.inj this).symm
    subst hpq
    rw [St.setProc_proc]
    exact ⟨fun _ => rfl, rfl⟩
  · have hold := (hw.quiet_put hc).closed hj
    have hb := C.closed p hold
    rcases St.setProc_cases g q (w.apply (g.proc q)) p with ⟨rfl, he⟩ | ⟨-, he⟩
    · rw [he]
      rcases hw.files with ⟨hborn, -⟩ | ⟨hme, hnone⟩ | hkeep
      · obtain ⟨p', hon⟩ := I.jobs.on_of_job (h := h) (by simp [hborn])
        have := I.jobs.context p' p (by rw [← St.acct_eq hon, hborn]; rfl)
        rw [this] at hold
        exact hold.elim
      · rw [← St.acct_eq (I.locks.on_of_me hme), hnone] at hold
        exact hold.elim
      · exact hkeep _ hb
    · rw [he]
      exact hb

theorem Clean.times_write (hq' : phase ((g.setProc q (w.apply (g.proc q))).proc q') = .unused ∨
      phase ((g.setProc q (w.apply (g.proc q))).proc q') = .used)
    (hr : reapedBy g.proc (g.setProc q (w.apply (g.proc q))).proc r q' = false) : Still ((g.setProc q (w.apply (g.proc q))).proc q') := by
  obtain ⟨hr', hz⟩ := reapedBy_eq_false hr
  rcases St.setProc_cases g q (w.apply (g.proc q)) q' with ⟨rfl, he⟩ | ⟨-, he⟩
  · rw [he] at hq' hz ⊢
    rcases hw.still with ⟨now, rfl⟩ | ⟨tm, rfl, hme⟩ | hkeep
    · rcases hq' with hq' | hq' <;> cases hq'
    · exact absurd hme (I.not_me hq')
    refine hkeep _ (C.times q' ?_ hr')
    rcases hw.phase_cases I with rfl | ⟨hno, hno'⟩ | hsame
    · rcases hw with ⟨hi, -⟩ | ⟨hi, -⟩
      · exact .inr (phase_eq_used.2 (I.locks.state hi))
      · exact absurd ⟨phase_eq_zombie.2 (I.locks.state hi), rfl⟩ hz
    · rcases hq' with hq' | hq'
      · exact absurd hq' hno
      · exact absurd hq' hno'
    · exact hsame ▸ hq'
  · rw [he] at hq' ⊢
    exact C.times q' hq' hr'

theorem Clean.used_write (hq' : phase ((g.setProc q (w.apply (g.proc q))).proc q') = .used) :
    reapedBy g.proc (g.setProc q (w.apply (g.proc q))).proc r q' = false := by
  refine reapedBy_of_used (C.used q' ?_) hq'
  rcases St.setProc_cases g q (w.apply (g.proc q)) q' with ⟨rfl, he⟩ | ⟨-, he⟩
  · rw [he] at hq'
    rcases hw.phase_cases I with rfl | ⟨-, hno⟩ | hsame
    · cases hq'
    · exact absurd hq' hno
    · exact hsame ▸ hq'
  · rwa [he] at hq'

theorem Clean.write : Clean (g.wrote h q w)
    (reapedBy g.proc (g.setProc q (w.apply (g.proc q))).proc r) :=
  ⟨fun _ => C.unused_write I hw, fun _ _ => C.took_write I hw, fun _ _ => C.empty_write I hw, fun _ => C.closed_write I hw,
    fun _ => C.times_write I hw, fun _ => C.used_write I hw⟩

end

theorem Clean.take (C : Clean g r) (hi : phase (g.proc q) = .unused) (hr : r q = false) :
    Clean ((g.setProc q (taken g.nextpid (g.proc q))).put (g.on h) { a with job := .took q }).bump r := by
  obtain ⟨hblank, -, hbare⟩ := C.unused q hi
  have hstill := C.times q (.inl hi) hr
  have hcases := St.setProc_cases g q (taken g.nextpid (g.proc q))
  have hjob := St.job_put (g := g) (h := h) (a := { a with job := .took q })
  refine ⟨fun q' hq' => ?_, fun p q' hj => ?_, fun p q' hj => ?_, fun p hj => ?_, fun q' hq' hr' => ?_, fun q' hq' => ?_⟩
  · change phase ((g.setProc q _).proc q') = .unused at hq'
    change Blank ((g.setProc q _).proc q') ∧ ((g.setProc q _).proc q').pid = 0 ∧ Bare ((g.setProc q _).proc q')
    rcases hcases q' with ⟨rfl, he⟩ | ⟨-, he⟩
    · rw [he] at hq'
      cases hq'
    · rw [he] at hq' ⊢
      exact C.unused q' hq'
  · change Blank ((g.setProc q _).proc q')
    rcases hcases q' with ⟨rfl, he⟩ | ⟨hne, he⟩
    · rw [he]
      exact ⟨hblank.killed, hblank.chan, hblank.xstate⟩
    · rw [he]
      rcases hjob p with ⟨hp, -⟩ | ⟨hp, -⟩
      · exact C.took p q' (hp.symm.trans hj)
      · cases hp.symm.trans hj
        exact absurd rfl hne
  · change Bare ((g.setProc q _).proc q')
    rcases hcases q' with ⟨rfl, he⟩ | ⟨hne, he⟩
    · rw [he]
      exact ⟨hbare.ofile, hbare.cwd⟩
    rw [he]
    change ((g.put (g.on h) _).acc (.proc p)).job.Empty q' at hj
    rcases hjob p with ⟨hp, -⟩ | ⟨hp, -⟩
    · rw [hp] at hj
      exact C.empty p q' hj
    · rw [hp] at hj
      exact absurd hj.symm hne
  · change Bare ((g.setProc q _).proc p)
    change ((g.put (g.on h) _).acc (.proc p)).job.Closed at hj
    rcases hcases p with ⟨rfl, he⟩ | ⟨hne, he⟩
    · rw [he]
      exact ⟨hbare.ofile, hbare.cwd⟩
    rw [he]
    rcases hjob p with ⟨hp, -⟩ | ⟨hp, -⟩
    · rw [hp] at hj
      exact C.closed p hj
    · rw [hp] at hj
      exact hj.elim
  · change Still ((g.setProc q _).proc q')
    change phase ((g.setProc q _).proc q') = .unused ∨ phase ((g.setProc q _).proc q') = .used at hq'
    rcases hcases q' with ⟨rfl, he⟩ | ⟨hne, he⟩
    · rw [he]
      exact ⟨hstill.totalWaitTime, hstill.turnaroundTime, hstill.endTime⟩
    · rw [he] at hq' ⊢
      exact C.times q' hq' hr'
  · change phase ((g.setProc q _).proc q') = .used at hq'
    rcases hcases q' with ⟨rfl, he⟩ | ⟨hne, he⟩
    · exact hr
    · rw [he] at hq'
      exact C.used q' hq'

theorem Clean.move (C : Clean g r) (I : Inv n g) (hm : Move n (· ≠ 0) h g g')
    (htake : ∀ q, phase (g.proc q) = .unused → phase (g'.proc q) = .used → r q = false) :
    Clean g' (reapedBy g.proc g'.proc r) := by
  obtain ⟨L, R, J, -, -⟩ := id I
  have same : ∀ {f : Nat → Proc}, f = g.proc → Clean g' r → Clean g' (reapedBy g.proc f r) := by
    rintro f rfl hc
    rwa [reapedBy_self]
  cases hm with
  | act a ha => exact same rfl (C.keep rfl fun p => .put fun _ => ha.quiet)
  | write q w hw => exact C.write I hw
  | take q hq hme hj hi =>
    have hun := phase_eq_unused.2 (L.state hi)
    have hr : r q = false := by
      refine htake q hun ?_
      change phase ((g.setProc q _).proc q) = .used
      rw [St.setProc_proc]
      rfl
    have heq : reapedBy g.proc (g.setProc q (taken g.nextpid (g.proc q))).proc r = r := by
      funext q'
      rcases St.setProc_cases g q (taken g.nextpid (g.proc q)) q' with ⟨rfl, he⟩ | ⟨-, he⟩
      · rw [hr]
        exact reapedBy_of_used hr (by rw [he]; rfl)
      · rw [reapedBy, he]
        exact congrFun (reapedBy_self) q'
    change Clean _ (reapedBy g.proc (g.setProc q _).proc r)
    rw [heq]
    exact C.take hun hr
  | newctx q hj =>
    refine same rfl (C.keep rfl fun p => ?_)
    by_cases hpq : p = q
    · rw [hpq, St.put_acc]
      exact ⟨nofun, fun _ h => h.elim, fun h => h.elim⟩
    · rw [St.put_acc_ne (fun he => hpq (by cases he; rfl))]
      refine .put fun _ => ?_
      rw [hj]
      exact ⟨nofun, fun _ h => h, fun h => h.elim⟩
  | swtchTo p x hx ha =>
    refine same rfl (C.keep rfl fun p' => ?_)
    rw [(relocked_swtchTo L R ha (.proc p')).job]
    exact .refl _
  | sched p x hm hheld =>
    refine same rfl (C.keep rfl fun p' => ?_)
    rw [(relocked_sched L R hm hheld (.proc p')).job]
    exact .refl _

end

/-! ## The record -/

/-- What the record depends on in the code. -/
inductive Touch where
  | takes (q : Nat)
  /-- `kill` has found the record of `q`. -/
  | kills (q : Nat)
  /-- `kill` returns. -/
  | returns
  | other

def touch : K Unit → Touch
  | .op (.take q) _ => .takes q
  | .op (.set q (.kill _)) _ => .kills q
  | .op (.killRet _ _) _ => .returns
  | _ => .other

structure Slots where
  /-- The slots from which a process has been reaped. -/
  reaped : Nat → Bool
  /-- The records that the `kill` of a process has changed, as they were before. -/
  hits : Nat → List (Nat × Proc)

namespace Slots

/-- The hits after an operation of process `p`. -/
def hit (r : Slots) (proc : Nat → Proc) (p : Nat) : Touch → Nat → List (Nat × Proc)
  | .kills q => update r.hits p (r.hits p ++ [(q, proc q)])
  | .returns => update r.hits p []
  | _ => r.hits

def afterOp (s s' : Sys N) (h : Fin N) (r : Slots) : Slots where
  reaped := reapedBy s.proc s'.proc r.reaped
  hits := match (s.hart h).proc with
    | some p => r.hit s.proc p (touch (s.hart h).code)
    | none => r.hits

def upd (s : Sys N) (e : Ev N) (s' : Sys N) (r : Slots) : Slots :=
  match e with
  | .step h _ => r.afterOp s s' h
  | _ => r

def zero : Slots := ⟨fun _ => false, fun _ => []⟩

/-- No process has been reaped from the slot that is taken. -/
def Spares (r : Slots) : Touch → Prop
  | .takes q => r.reaped q = false
  | _ => True

instance (r : Slots) : (t : Touch) → Decidable (r.Spares t)
  | .takes q => inferInstanceAs (Decidable (r.reaped q = false))
  | .kills _ | .returns | .other => inferInstanceAs (Decidable True)

def Ok (o : Lts.Noted (Sys N) Slots) : Ev N → Prop
  | .call _ (.kill pid) => pid ≠ 0
  | .step h _ => o.note.Spares (touch (o.now.hart h).code)
  | _ => True

instance (o : Lts.Noted (Sys N) Slots) : (e : Ev N) → Decidable (Ok o e)
  | .call _ (.kill pid) => inferInstanceAs (Decidable (pid ≠ 0))
  | .step h _ => inferInstanceAs (Decidable (o.note.Spares (touch (o.now.hart h).code)))
  | .call _ .fork | .call _ (.exit _) | .call _ (.wait _ _) | .call _ .setkilled | .call _ (.file _ _) | .call _ (.chdir _)
  | .call _ (.sleep _ _) | .call _ (.wakeup _) | .round _ _ | .timer _ | .pause _ _ _ | .intr _ _ => inferInstanceAs (Decidable True)

theorem Ok.ev {o : Lts.Noted (Sys N) Slots} {e : Ev N} (he : Ok o e) : e.Ok (· ≠ 0) := by
  cases e with
  | call h c =>
    cases c with
    | kill pid => exact he
    | _ => trivial
  | _ => trivial

end Slots

/-! ## `kill` -/

/-- The process that `kill` has found. -/
def Job.mark : Job → Option Int
  | .marked pid => some pid
  | _ => Option.none

/-- What a `kill` that has found `mark` has changed. -/
def Hits (hits : List (Nat × Proc)) : Option Int → Prop
  | some pid => ∃ q x, hits = [(q, x)] ∧ x.pid = pid ∧ x.state ≠ .unused
  | none => hits = []

theorem Wr.Allowed.mark {ok : Int → Prop} (hw : w.Allowed n ok a q) (hk : ∀ pid, w ≠ .kill pid) :
    (w.acct a q).job.mark = a.job.mark := by
  rw [Wr.job_acct]
  cases w with
  | kill pid => exact absurd rfl (hk pid)
  | free =>
    rcases hw with ⟨-, hj | hj⟩ | ⟨-, -, -, -, r, hj⟩
    · rw [hj]
      rfl
    · rw [hj]
      rfl
    · rw [hj]
      rfl
  | dup y =>
    rw [show a.job = .born q from hw]
    rfl
  | parent m | sleep chan => cases a.job <;> rfl
  | publish tm =>
    rw [hw.1]
    rfl
  | close =>
    rw [hw.2.2]
    rfl
  | zombie st =>
    obtain ⟨-, -, -, ⟨d, hj, -⟩, -⟩ := hw
    rw [hj]
    rfl
  | _ => rfl

theorem Hits.op {r : Slots} {β : Type} {e : Op β} {k : β → K Unit} {x : β} (C : Clean g r.reaped) (I : Inv n g)
    (hpre : (rules n (· ≠ 0)).pre β e (g.acct h)) (hsw : e.switches = false) (hpost : (rules n (· ≠ 0)).post β e (g.acct h) x a)
    (hh : Hits (r.hits p) (g.acct h).job.mark) : Hits (r.hit g.proc p (touch (.op e k)) p) a.job.mark := by
  cases e with
  | acquire l =>
    obtain ⟨-, x, -, rfl⟩ := hpost
    have : ((g.acct h).acquire l x).job.mark = (g.acct h).job.mark := by
      change Job.mark (if l = .wait then _ else _) = _
      split
      · cases (g.acct h).job <;> rfl
      · rfl
    rw [this]
    exact hh
  | release l =>
    cases hpost
    have : ((g.acct h).release l).job.mark = (g.acct h).job.mark := by
      change Job.mark (if l = .wait then (g.acct h).leave else _) = _
      split
      · unfold Acct.leave
        cases (g.acct h).job with
        | scan r => by_cases hown : (g.acct h).Own <;> simp only [hown] <;> rfl
        | _ => rfl
      · rfl
    rw [this]
    exact hh
  | get q =>
    obtain ⟨-, -, rfl⟩ := hpost
    have : ((g.acct h).see q x).job.mark = (g.acct h).job.mark := by
      change Job.mark ((g.acct h).job.see _ _ _ _) = _
      cases (g.acct h).job <;> rfl
    rw [this]
    exact hh
  | set q w =>
    cases hpost
    have hw : w.Allowed n (· ≠ 0) (g.acct h) q := hpre
    cases w with
    | kill pid =>
      obtain ⟨hpid, ⟨y, hy, he⟩, -, hnone⟩ := id hw
      rw [hnone] at hh
      have hnil : r.hits p = [] := hh
      have hcore := congrArg (fun c => c.2.2) (I.locks.knows (g.on h) q y hy)
      refine ⟨q, g.proc q, ?_, hcore.trans he, fun hu => C.not_allowed I hw (phase_eq_unused.2 hu)⟩
      change update r.hits p (r.hits p ++ [(q, g.proc q)]) p = _
      rw [update_self, hnil, List.nil_append]
    | _ =>
      rw [hw.mark nofun]
      exact hh
  | take q =>
    obtain ⟨pid, rfl⟩ := hpost
    rw [hpre.2.2.1] at hh
    exact hh
  | newctx q =>
    cases hpost
    rw [show (g.acct h).job = .took q from hpre] at hh
    exact hh
  | waitCall addr | time | kalloc =>
    cases hpost
    exact hh
  | copyout q pt addr =>
    cases hpost
    change Hits (r.hits p) ((g.acct h).job.copied x).mark
    have : ((g.acct h).job.copied x).mark = (g.acct h).job.mark := by cases (g.acct h).job <;> rfl
    rw [this]
    exact hh
  | myproc =>
    obtain ⟨-, rfl⟩ := hpost
    exact hh
  | setproc o =>
    cases o with
    | some q =>
      cases hpost
      exact hh
    | none =>
      obtain ⟨q, -, rfl⟩ := hpost
      exact hh
  | waitRet v =>
    cases hpost
    rcases hpre.1 with ⟨-, hj⟩ | ⟨-, r, hj⟩
    · rw [hj] at hh
      exact hh
    · rw [hj] at hh
      exact hh
  | killRet pid v =>
    cases hpost
    change update r.hits p [] p = []
    rw [update_self]
  | swtchTo q | sched q => cases hsw

/-! ## All runs -/

def Fresh (n : Nat) (s : Sys N) (r : Slots) : Prop :=
  ∃ g, Sim n (· ≠ 0) s g ∧ Inv n g ∧ Clean g r.reaped ∧ ∀ p, Hits (r.hits p) (g.acc (.proc p)).job.mark

theorem Sim.takes_of_used {r : Slots} {ans : Ans} (S : Sim n (· ≠ 0) s g) (I : Inv n g) (hs : s.exec h ans (s.hart h).code = some s')
    (hr : r.Spares (touch (s.hart h).code)) (hun : phase (s.proc q) = .unused) (hus : phase (s'.proc q) = .used) :
    r.reaped q = false := by
  have hne : s'.proc ≠ s.proc := by
    intro he
    rw [he, hun] at hus
    cases hus
  have hC := (S.hart h).code
  obtain ⟨β, e, k, hc⟩ := Sys.op_of_exec hs
  rw [hc] at hs hr hC
  cases e with
  | acquire l | release l | sched p =>
    simp only [Sys.exec] at hs
    split at hs
    · cases hs
      exact absurd rfl hne
    · cases hs
  | set q' w =>
    cases hs
    have hw : w.Allowed n (· ≠ 0) (g.acct h) q' := hC.1
    have hph := hw.phase_cases I
    rw [S.proc] at hph
    change phase (update s.proc q' (w.apply (s.proc q')) q) = .used at hus
    rcases eq_or_ne q q' with rfl | hqq
    · rw [update_self] at hus
      rcases hph with rfl | ⟨-, hno⟩ | hsame
      · cases hus
      · exact absurd hus hno
      · cases hun.symm.trans (hsame.symm.trans hus)
    · rw [update_of_ne hqq] at hus
      cases hun.symm.trans hus
  | take q' =>
    cases hs
    rcases eq_or_ne q q' with rfl | hqq
    · exact hr
    · change phase (update s.proc q' _ q) = .used at hus
      rw [update_of_ne hqq] at hus
      cases hun.symm.trans hus
  | _ =>
    cases hs
    exact absurd rfl hne

theorem Slots.hit_ne {r : Slots} {p' : Nat} (hne : p ≠ p') {f : Nat → Proc} (t : Touch) : r.hit f p' t p = r.hits p := by
  cases t with
  | kills q | returns => exact update_of_ne hne _ _
  | _ => rfl

theorem Slots.hit_cpu {r : Slots} {ok : Int → Prop} {f : Nat → Proc} {β : Type} {e : Op β} {k : β → K Unit}
    (hpre : (rules n ok).pre β e a) (hme : a.me = none) : r.hit f p (touch (.op e k)) = r.hits := by
  cases e with
  | set q w =>
    cases w with
    | kill pid => exact absurd hme hpre.2.2.1
    | _ => rfl
  | killRet pid v => exact absurd hme hpre.1
  | _ => rfl

theorem Jobs.mark_of_used (J : Jobs g) (hu : phase (g.proc p) = .used) : (g.acc (.proc p)).job.mark = none := by
  have hl := (J.fine p).live
  cases hj : (g.acc (.proc p)).job with
  | marked pid =>
    rw [hj] at hl
    cases hu.symm.trans (hl nofun nofun)
  | _ => rfl

theorem Fresh.exec {r : Slots} {ans : Ans} (hk : Fresh n s r) (hr : r.Spares (touch (s.hart h).code))
    (hs : s.exec h ans (s.hart h).code = some s') : Fresh n s' (r.afterOp s s' h) := by
  obtain ⟨g, S, I, C, hh⟩ := hk
  obtain ⟨β, e, k, hc⟩ := Sys.op_of_exec hs
  have htake := fun q => S.takes_of_used (q := q) I hs hr
  rw [hc] at hs
  obtain ⟨g', hm, S', hproc⟩ := S.exec_proc I hc hs
  have hC := (S.hart h).code
  rw [hc] at hC
  refine ⟨g', S', I.step (hm.imp id fun hm => ⟨h, hm⟩), ?_, fun p => ?_⟩
  · change Clean g' (reapedBy s.proc s'.proc r.reaped)
    rw [← S.proc, ← S'.proc] at htake ⊢
    rcases hm with rfl | hm
    · rwa [reapedBy_self]
    · exact C.move I hm htake
  · have hhits : g.on h ≠ .proc p ∨ e.switches = true → (r.afterOp s s' h).hits p = r.hits p := by
      intro hne
      change (match (s.hart h).proc with | some p => r.hit s.proc p (touch (s.hart h).code) | none => r.hits) p = _
      cases hp : (s.hart h).proc with
      | none => rfl
      | some p' =>
        by_cases hpp : p = p'
        · subst hpp
          rw [hc]
          rcases hne with hne | hsw
          · cases hth : g.on h with
            | proc p' =>
              cases (S.proc_of_on I hth).symm.trans hp
              exact absurd hth hne
            | cpu h' => exact congrFun (Slots.hit_cpu hC.1 (by rw [St.acct_eq hth]; exact I.locks.me_cpu)) p
          · cases e with
            | swtchTo q | sched q => rfl
            | _ => cases hsw
        · exact Slots.hit_ne hpp _
    rcases hproc p with ⟨hon, hsw, hpost⟩ | ⟨hsw, he⟩ | ⟨hon, hu, he⟩
    · have : (r.afterOp s s' h).hits p = r.hit g.proc p (touch (.op e k)) p := by
        rw [Slots.afterOp, S.proc_of_on I hon, hc, S.proc]
      rw [this]
      exact Hits.op C I hC.1 hsw hpost (St.acct_eq hon ▸ hh p)
    · rw [hhits (by_cases (fun h => .inr (hsw h)) .inl), he.job]
      exact hh p
    · have := hh p
      rw [I.jobs.mark_of_used hu] at this
      rw [hhits (.inl hon), he]
      exact this

theorem Fresh.step (hn : initproc < n) {r : Slots} {e : Ev N} (hk : Fresh n s r) (he : Slots.Ok ⟨s, r⟩ e) (hs : s.step n e = some s') :
    Fresh n s' (r.upd s e s') := by
  rcases Sys.step_cases hs with ⟨h, ans, rfl, hx⟩ | ⟨hne, h, k, rfl⟩
  · exact hk.exec he hx
  obtain ⟨g, S, I, C, hh⟩ := hk
  have hsame : r.upd s e (s.goto h k) = r := by
    cases e with
    | step h ans => exact absurd rfl (hne h ans)
    | _ => rfl
  rw [hsame]
  exact ⟨g, S.enter hn I he.ev hne hs, I, C, hh⟩

theorem Clean.boot {root : Nat} {t0 t : UInt64} : Clean (Sys.boot N root t0 t).rest fun _ => false where
  unused q hq := by
    have hne : q ≠ initproc := by
      rintro rfl
      cases hq
    change Blank ((Sys.boot N root t0 t).proc q) ∧ ((Sys.boot N root t0 t).proc q).pid = 0 ∧ Bare ((Sys.boot N root t0 t).proc q)
    rw [Sys.boot_proc_ne hne]
    exact ⟨⟨rfl, rfl, rfl⟩, rfl, fun _ => rfl, rfl⟩
  took := nofun
  empty _ _ h := h.elim
  closed _ h := h.elim
  times q hq _ := by
    have hne : q ≠ initproc := by
      rintro rfl
      rcases hq with hq | hq <;> cases hq
    change Still ((Sys.boot N root t0 t).proc q)
    rw [Sys.boot_proc_ne hne]
    exact ⟨rfl, rfl, rfl⟩
  used _ _ := rfl

theorem new_process_is_clean (hn : initproc < n) {root : Nat} {t0 t : UInt64} {es : List (Ev N)} {o : Lts.Noted (Sys N) Slots}
    (hr : Lts.run (Lts.noted (Sys.step n) Slots.upd) ⟨.boot N root t0 t, .zero⟩ es = some o)
    (hc : Lts.Along (Lts.noted (Sys.step n) Slots.upd) Slots.Ok ⟨.boot N root t0 t, .zero⟩ es) :
    (∀ h q k, (o.now.hart h).code = .op (.newctx q) k →
      Blank (o.now.proc q) ∧ (o.now.proc q).parent = none ∧ Bare (o.now.proc q) ∧ Still (o.now.proc q)) ∧
    ∀ h pid v k, (o.now.hart h).code = .op (.killRet pid v) k → ∃ p, (o.now.hart h).proc = some p ∧
      (v = 0 → ∃ q x, o.note.hits p = [(q, x)] ∧ x.pid = pid ∧ x.state ≠ .unused) ∧ (v ≠ 0 → o.note.hits p = []) := by
  have hboot : Fresh n (.boot N root t0 t) .zero := ⟨_, Sim.boot, Inv.boot hn, .boot, fun _ => rfl⟩
  obtain ⟨g, S, I, C, hh⟩ := Lts.noted_inv_along hr hc hboot fun _ _ _ _ hk hok hs => hk.step hn hok hs
  refine ⟨fun h q k hcode => ?_, fun h pid v k hcode => ?_⟩
  · have hC := (S.hart h).code
    rw [hcode] at hC
    have hj : (g.acct h).job = .took q := hC.1
    obtain ⟨p, hon⟩ := I.jobs.on_of_job (h := h) (by simp [hj])
    have hF := I.jobs.fine p
    rw [St.acct_eq hon] at hj
    rw [hj] at hF
    obtain ⟨-, hu, hpar, -⟩ := hF
    rw [← S.proc]
    exact ⟨C.took p q hj, hpar, C.empty p q (by rw [hj]; rfl), C.times q (.inr hu) (C.used q hu)⟩
  · have hC := (S.hart h).code
    rw [hcode] at hC
    obtain ⟨hme, hj⟩ := hC.1
    obtain ⟨p, hp⟩ := ne_none_iff_exists'.1 hme
    have hhits := hh p
    rw [← St.acct_eq (I.locks.on_of_me hp)] at hhits
    refine ⟨p, (S.hart h).cur.symm.trans (Acct.me_eq_cur hp), fun hv => ?_, fun hv => ?_⟩
    · rcases hj with ⟨hv', -⟩ | ⟨-, hj⟩
      · exact absurd hv hv'
      · rwa [hj] at hhits
    · rcases hj with ⟨-, hj⟩ | ⟨hv', -⟩
      · rwa [hj] at hhits
      · exact absurd hv' hv

/-- The slot for which the code makes a context next. -/
def makes : K Unit → Option Nat
  | .op (.newctx q) _ => some q
  | _ => none

theorem makes_eq_some {c : K Unit} (hc : makes c = some q) : ∃ k, c = .op (.newctx q) k := by
  cases c with
  | ret u | panic m => cases hc
  | op e k =>
    cases e with
    | newctx r =>
      cases hc
      exact ⟨k, rfl⟩
    | _ => cases hc

/-- The pid and the result with which `kill` returns next. -/
def killResult : K Unit → Option (Int × Int)
  | .op (.killRet pid v) _ => some (pid, v)
  | _ => none

theorem killResult_eq_some {c : K Unit} {pid v : Int} (hc : killResult c = some (pid, v)) : ∃ k, c = .op (.killRet pid v) k := by
  cases c with
  | ret u | panic m => cases hc
  | op e k =>
    cases e with
    | killRet pid v =>
      cases hc
      exact ⟨k, rfl⟩
    | _ => cases hc

/-- The first process forks; `allocproc` has taken the second slot. -/
def cleanTrace : List (Ev 2) := .round hart₀ .roundRobin :: Ev.steps hart₀ 7 9 ++ .call hart₀ .fork :: Ev.steps hart₀ 8 7

theorem new_process_is_clean_fork :
    ∃ o, Lts.run (Lts.noted (Sys.step 2) Slots.upd) ⟨.boot 2 1 5 5, .zero⟩ cleanTrace = some o ∧
      (∃ k, (o.now.hart 0).code = .op (.newctx 1) k) ∧ Blank (o.now.proc 1) ∧ Still (o.now.proc 1) := by
  have hr : (Lts.run (Lts.noted (Sys.step 2) Slots.upd) ⟨.boot 2 1 5 5, .zero⟩ cleanTrace).map (fun o => makes (o.now.hart 0).code) =
      some (some 1) := by
    decide +kernel
  have hc : Lts.Along (Lts.noted (Sys.step 2) Slots.upd) Slots.Ok ⟨.boot 2 1 5 5, .zero⟩ cleanTrace := by decide +kernel
  obtain ⟨o, ho, hm⟩ := map_eq_some_iff.1 hr
  obtain ⟨k, hk⟩ := makes_eq_some hm
  obtain ⟨hblank, -, -, hstill⟩ := (new_process_is_clean (by decide) ho hc).1 0 1 k hk
  exact ⟨o, ho, ⟨k, hk⟩, hblank, hstill⟩

/-- The first process calls `kill(0)` and forks. -/
def killZeroTrace : List (Ev 2) :=
  .round hart₀ .roundRobin :: Ev.steps hart₀ 7 9 ++ .call hart₀ (.kill 0) :: Ev.steps hart₀ 8 8 ++ .call hart₀ .fork :: Ev.steps hart₀ 8 7

def reuseTrace : List (Ev 2) :=
  .round hart₀ .roundRobin :: Ev.steps hart₀ 7 9 ++ .call hart₀ .fork :: Ev.steps hart₀ 8 19 ++ .call hart₀ (.wait 0 2) :: Ev.steps hart₀ 9 16 ++
    .round hart₀ .roundRobin :: Ev.steps hart₀ 10 12 ++ .call hart₀ (.exit 3) :: Ev.steps hart₀ 11 21 ++ .round hart₀ .roundRobin :: Ev.steps hart₀ 12 19 ++
    .call hart₀ .fork :: Ev.steps hart₀ 13 7

theorem new_process_is_not_clean :
    (∃ s, Lts.run (Sys.step 2) (.boot 2 1 5 5) (killZeroTrace.take 18) = some s ∧ (∃ k, (s.hart 0).code = .op (.killRet 0 0) k) ∧
      (s.proc 1).state = .unused ∧ (s.proc 1).killed = true) ∧
    (∃ s, Lts.run (Sys.step 2) (.boot 2 1 5 5) killZeroTrace = some s ∧ (∃ k, (s.hart 0).code = .op (.newctx 1) k) ∧
      (s.proc 1).killed = true) ∧
    ∃ s, Lts.run (Sys.step 2) (.boot 2 1 5 5) reuseTrace = some s ∧ (∃ k, (s.hart 0).code = .op (.newctx 1) k) ∧
      (s.proc 1).totalWaitTime = 2 ∧ (s.proc 1).turnaroundTime = 3 ∧ (s.proc 1).endTime = 11 := by
  have h1 : (Lts.run (Sys.step 2) (.boot 2 1 5 5) (killZeroTrace.take 18)).map
      (fun s => (killResult (s.hart 0).code, (s.proc 1).state, (s.proc 1).killed)) = some (some (0, 0), .unused, true) := by
    decide +kernel
  have h2 : (Lts.run (Sys.step 2) (.boot 2 1 5 5) killZeroTrace).map (fun s => (makes (s.hart 0).code, (s.proc 1).killed)) =
      some (some 1, true) := by
    decide +kernel
  have h3 : (Lts.run (Sys.step 2) (.boot 2 1 5 5) reuseTrace).map (fun s =>
      (makes (s.hart 0).code, (s.proc 1).totalWaitTime, (s.proc 1).turnaroundTime, (s.proc 1).endTime)) = some (some 1, 2, 3, 11) := by
    decide +kernel
  obtain ⟨s1, hs1, he1⟩ := map_eq_some_iff.1 h1
  obtain ⟨s2, hs2, he2⟩ := map_eq_some_iff.1 h2
  obtain ⟨s3, hs3, he3⟩ := map_eq_some_iff.1 h3
  simp only [Prod.mk.injEq] at he1 he2 he3
  exact ⟨⟨s1, hs1, killResult_eq_some he1.1, he1.2⟩, ⟨s2, hs2, makes_eq_some he2.1, he2.2⟩, ⟨s3, hs3, makes_eq_some he3.1, he3.2⟩⟩

end Xv6.Harts
