import Xv6.Harts.Rules

/-!
# The code keeps to the rules
-/

namespace Xv6.Harts

open Prog
open Sched (Proc ProcState Policy freeproc)
open List Option Acct

variable {n : Nat} {ok : Int → Prop} {a : Acct} {c : Ask} {p q : Nat} {l : Lk}

/-! ## Accounts -/

theorem Held.upd_of_notMem {f : Proc → Proc} {hs : List Held} (h : .proc q ∉ hs.map Held.lk) :
    hs.map (Held.upd q f) = hs := by
  induction hs with
  | nil => rfl
  | cons e hs ih =>
    rw [map_cons, mem_cons, not_or] at h
    rw [map_cons, ih h.2]
    cases e with
    | proc p x =>
      have hne : p ≠ q := fun he => h.1 (by rw [he]; rfl)
      rw [Held.upd, if_neg hne]
    | wait | sched | other k => rfl

@[simp] theorem Held.upd_of {f : Proc → Proc} {x : Proc} : (Held.of x (.proc q)).upd q f = .of (f x) (.proc q) := by
  simp [Held.of, Held.upd]

namespace Acct

section
variable {x : Proc}

@[simp] theorem role_acquire : (a.acquire l x).role = a.role := rfl
@[simp] theorem me_acquire : (a.acquire l x).me = a.me := rfl
@[simp] theorem held_acquire : (a.acquire l x).held = .of x l :: a.held := rfl
@[simp] theorem locks_acquire : (a.acquire l x).locks = l :: a.locks := by simp [locks]
@[simp] theorem fam_acquire_proc : (a.acquire (.proc q) x).fam = a.fam := by simp [acquire]
@[simp] theorem job_acquire_proc : (a.acquire (.proc q) x).job = a.job := by simp [acquire]

@[simp] theorem role_release : (a.release l).role = a.role := rfl
@[simp] theorem me_release : (a.release l).me = a.me := rfl
@[simp] theorem fam_release_proc : (a.release (.proc q)).fam = a.fam := by simp [release]
@[simp] theorem job_release_proc : (a.release (.proc q)).job = a.job := by simp [release]

@[simp] theorem role_see : (a.see q x).role = a.role := rfl
@[simp] theorem me_see : (a.see q x).me = a.me := rfl
@[simp] theorem held_see : (a.see q x).held = a.held := rfl
@[simp] theorem locks_see : (a.see q x).locks = a.locks := rfl
@[simp] theorem job_see : (a.see q x).job = a.job.see a.me (decide (.proc q ∈ a.locks)) q x := rfl
@[simp] theorem owe_see : (a.see q x).fam.owe = a.fam.owe := by simp [see, apply_ite Fam.owe]

theorem fam_see (hw : .wait ∉ a.locks) : (a.see q x).fam = a.fam := if_neg hw

theorem par_see (hw : .wait ∈ a.locks) : (a.see q x).fam.par = Function.update a.fam.par q (some x.parent) := by
  simp [see, hw]

theorem par_see_ne {r : Nat} (hr : r ≠ q) : (a.see q x).fam.par r = a.fam.par r := by
  by_cases hw : .wait ∈ a.locks
  · rw [par_see hw, Function.update_of_ne hr]
  · rw [fam_see hw]

theorem awake_see {r : Nat} (hr : a.fam.awake r) : (a.see q x).fam.awake r := by
  by_cases hw : .wait ∈ a.locks
  · simp [see, hw, hr]
  · rwa [fam_see hw]

theorem awake_see_self (hw : .wait ∈ a.locks) (hq : .proc q ∈ a.locks) (hne : a.me ≠ some q)
    (hx : ¬(x.state = .sleeping ∧ x.chan = procChan q)) : (a.see q x).fam.awake q := by
  rw [see, if_pos hw]
  exact .inr ⟨rfl, hq, hne, hx⟩

@[simp] theorem locks_upd (f : Proc → Proc) : (a.upd q f).locks = a.locks := by simp [upd, locks, Function.comp_def]

end

theorem me_eq_cur (h : a.me = some p) : a.role.cur = some p := by
  unfold me at h
  split at h
  · rename_i hr
    rw [hr]
    exact h
  · cases h

theorem held_release_acquire {a' : Acct} {x : Proc} (h : a'.held = .of x l :: a.held) : (a'.release l).held = a.held := by
  simp [release, h]

theorem see_eq (hw : .wait ∉ a.locks) (hs : ∀ r, a.job ≠ .scan r) (ho : ∀ d, a.job ≠ .orphan d) (x : Proc) : a.see q x = a := by
  have hj : a.job.see a.me (decide (.proc q ∈ a.locks)) q x = a.job := by
    cases hjob : a.job with
    | scan r => exact absurd hjob (hs r)
    | orphan d => exact absurd hjob (ho d)
    | _ => rfl
  simp only [see, if_neg hw, hj]

end Acct

namespace Wr

variable {w : Wr}

@[simp] theorem held_acct : (w.acct a q).held = a.held.map (Held.upd q w.apply) := rfl
@[simp] theorem locks_acct : (w.acct a q).locks = a.locks := locks_upd _
@[simp] theorem job_acct : (w.acct a q).job = w.job q a.job := rfl

theorem fam_acct (hw : .wait ∉ a.locks) : (w.acct a q).fam = a.fam := if_neg hw

theorem fam_acct_of_mem (hw : .wait ∈ a.locks) : (w.acct a q).fam = w.fam q a.job a.fam := if_pos hw

end Wr

/-! The same for accounts that are written out. -/

section
variable {role : Role} {hs : List Held} {f : Fam} {j : Job} {x : Proc} {w : Wr} {k : Nat}

@[simp] theorem locks_mk : locks ⟨role, hs, f, j, c⟩ = hs.map Held.lk := rfl

theorem acquire_proc : Acct.acquire ⟨role, hs, f, j, c⟩ (.proc q) x = ⟨role, .proc q x :: hs, f, j, c⟩ := by
  simp [Acct.acquire, Held.of]

theorem acquire_other : Acct.acquire ⟨role, hs, f, j, c⟩ (.other k) x = ⟨role, .other k :: hs, f, j, c⟩ := by
  simp [Acct.acquire, Held.of]

theorem acquire_wait : Acct.acquire ⟨role, hs, f, j, c⟩ .wait x = ⟨role, .wait :: hs, {}, j.begin, c⟩ := by
  simp [Acct.acquire, Held.of]

theorem release_proc : Acct.release ⟨role, .proc q x :: hs, f, j, c⟩ (.proc q) = ⟨role, hs, f, j, c⟩ := by
  simp [Acct.release, Held.lk]

theorem release_other : Acct.release ⟨role, .other k :: hs, f, j, c⟩ (.other k) = ⟨role, hs, f, j, c⟩ := by
  simp [Acct.release, Held.lk]

theorem see_mk (hw : .wait ∉ hs.map Held.lk) (hscan : ∀ r, j ≠ .scan r) (ho : ∀ d, j ≠ .orphan d) :
    see ⟨role, hs, f, j, c⟩ q x = ⟨role, hs, f, j, c⟩ :=
  see_eq (a := ⟨role, hs, f, j, c⟩) hw hscan ho x

theorem release_wait (hscan : ∀ r, j ≠ .scan r) : Acct.release ⟨role, [.wait], f, j, c⟩ .wait = ⟨role, [], {}, j, c⟩ := by
  cases j with
  | scan r => exact absurd rfl (hscan r)
  | _ => simp [Acct.release, Acct.leave, Held.lk]

theorem acct_wait : w.acct ⟨role, [.wait], f, j, c⟩ q = ⟨w.role q role, [.wait], w.fam q j f, w.job q j, c⟩ := by
  simp [Wr.acct, upd, Held.upd, Held.lk]

theorem acct_proc (hw : .wait ∉ hs.map Held.lk) (hq : .proc q ∉ hs.map Held.lk) :
    w.acct ⟨role, .proc q x :: hs, f, j, c⟩ q =
      ⟨w.role q role, .proc q (w.apply x) :: hs, f, w.job q j, c⟩ := by
  have hw' : .wait ∉ locks ⟨role, .proc q x :: hs, f, j, c⟩ := by simp [Held.lk, hw]
  simp only [Wr.acct, if_neg hw', upd, map_cons, Held.upd_of_notMem hq]
  simp [Held.upd]

end

/-! ## One operation -/

section
variable {Q : Unit → Acct → Prop}

theorem obeys_acquire (hm : l = .wait → a.me ≠ none) (h : l ∉ a.locks → ∀ x : Proc,
    (∀ q, l = .proc q → a.role.cur = some q → x.state = .running) → Q () (a.acquire l x)) :
    Obeys (rules n ok) (acquire l) a Q := by
  refine obeys_perform.2 ⟨hm, ?_⟩
  rintro b a' ⟨hl, x, hx, rfl⟩
  exact h hl x hx

theorem Role.Plain.drop {r : Role} (hp : r.Plain) : r.drop = r := by
  rcases hp with rfl | ⟨p, rfl⟩
  · rfl
  · rfl

theorem obeys_release (hp : a.role.Plain) (hb : ¬a.job.Brief) (hl : l ∈ a.locks) (hw : l = .wait → a.MayLeave n)
    (hc : ∀ q, l = .proc q → a.role.cur = some q → a.In q .running) (h : Q () (a.release l)) :
    Obeys (rules n ok) (release l) a Q := by
  refine obeys_perform.2 ⟨⟨.inl hp, hb, hl, hw, hc⟩, ?_⟩
  rintro b a' rfl
  rw [hp.drop]
  exact h

theorem obeys_get {Q : Proc → Acct → Prop} (h : ∀ x : Proc, (∀ y, .proc q y ∈ a.held → core x = core y) →
    (.wait ∈ a.locks → ∀ o, a.fam.par q = some o → x.parent = o) → Q x (a.see q x)) :
    Obeys (rules n ok) (get q) a Q := by
  refine obeys_perform.2 ⟨trivial, ?_⟩
  rintro x a' ⟨hx, ho, rfl⟩
  exact h x hx ho

theorem obeys_set {w : Wr} (hw : w.Allowed n ok a q) (h : Q () (w.acct a q)) : Obeys (rules n ok) (set q w) a Q := by
  refine obeys_perform.2 ⟨hw, ?_⟩
  rintro b a' rfl
  exact h

theorem obeys_time {Q : UInt64 → Acct → Prop} (h : ∀ t, Q t a) : Obeys (rules n ok) time a Q := by
  refine obeys_perform.2 ⟨trivial, ?_⟩
  rintro t a' rfl
  exact h t

theorem obeys_kalloc {Q : Bool → Acct → Prop} (h : ∀ b, Q b a) : Obeys (rules n ok) (perform .kalloc) a Q := by
  refine obeys_perform.2 ⟨trivial, ?_⟩
  rintro b a' rfl
  exact h b

theorem obeys_myproc {Q : Option Nat → Acct → Prop} (h : Q a.role.cur a) : Obeys (rules n ok) (perform .myproc) a Q := by
  refine obeys_perform.2 ⟨trivial, ?_⟩
  rintro x a' ⟨rfl, rfl⟩
  exact h

variable {role : Role} {hs : List Held} {f : Fam} {j : Job} {x : Proc}

theorem obeys_acquire_proc (h : .proc q ∉ hs.map Held.lk → ∀ x : Proc, (role.cur = some q → x.state = .running) →
    Q () ⟨role, .proc q x :: hs, f, j, c⟩) : Obeys (rules n ok) (acquire (.proc q)) ⟨role, hs, f, j, c⟩ Q := by
  refine obeys_acquire nofun fun hl x hx => ?_
  rw [acquire_proc]
  exact h hl x (hx q rfl)

theorem obeys_release_proc (hp : role.Plain) (hb : ¬j.Brief) (hx : role.cur = some q → x.state = .running) (h : Q () ⟨role, hs, f, j, c⟩) :
    Obeys (rules n ok) (release (.proc q)) ⟨role, .proc q x :: hs, f, j, c⟩ Q := by
  refine obeys_release hp hb (by simp [Held.lk]) nofun ?_ ?_
  · rintro r ⟨⟩ hcur
    exact ⟨x, by simp, hx hcur⟩
  · rw [release_proc]
    exact h

theorem obeys_get_head {Q : Proc → Acct → Prop} (hw : .wait ∉ hs.map Held.lk) (hscan : ∀ r, j ≠ .scan r) (ho : ∀ d, j ≠ .orphan d)
    (h : ∀ y, core y = core x → Q y ⟨role, .proc q x :: hs, f, j, c⟩) : Obeys (rules n ok) (get q) ⟨role, .proc q x :: hs, f, j, c⟩ Q := by
  refine obeys_get fun y hy _ => ?_
  rw [see_mk (by simp [Held.lk, hw]) hscan ho]
  exact h y (hy x (by simp))

end

/-! ## Sleep and wakeup -/

/-- What `wakeup(chan)` over the slots `qs` leaves of an account. -/
structure Woke (chan : Nat) (qs : List Nat) (a a' : Acct) : Prop where
  role : a'.role = a.role
  held : a'.held = a.held
  fam : .wait ∉ a.locks → a'.fam = a.fam
  owe : a'.fam.owe = a.fam.owe
  par : ∀ p, a.me = some p → a'.fam.par p = a.fam.par p
  awake : ∀ r, a.fam.awake r → a'.fam.awake r
  woken : .wait ∈ a.locks → ∀ q ∈ qs, chan = procChan q → a.role.cur ≠ some q → a'.fam.awake q
  job : a'.job = a.job ∨ ∃ d d', a.job = .orphan d ∧ a'.job = .orphan d' ∧ d ⊆ d'
  ask : a'.ask = a.ask

namespace Woke

variable {chan : Nat} {qs : List Nat} {a' a'' : Acct}

theorem refl (a : Acct) (chan : Nat) : Woke chan [] a a :=
  ⟨rfl, rfl, fun _ => rfl, rfl, fun _ _ => rfl, fun _ h => h, fun _ _ h => (by cases h), .inl rfl, rfl⟩

theorem locks (h : Woke chan qs a a') : a'.locks = a.locks := by rw [Acct.locks, h.held, Acct.locks]

theorem me (h : Woke chan qs a a') : a'.me = a.me := by rw [Acct.me, h.role, Acct.me]

theorem cons (h1 : Woke chan [q] a a') (h2 : Woke chan qs a' a'') : Woke chan (q :: qs) a a'' where
  role := h2.role.trans h1.role
  held := h2.held.trans h1.held
  fam hw := (h2.fam (by rwa [h1.locks])).trans (h1.fam hw)
  owe := h2.owe.trans h1.owe
  par p hp := (h2.par p (by rwa [h1.me])).trans (h1.par p hp)
  awake r hr := h2.awake r (h1.awake r hr)
  woken hw r hr hc hne := by
    rcases mem_cons.1 hr with rfl | hr
    · exact h2.awake r (h1.woken hw r (by simp) hc hne)
    · exact h2.woken (by rwa [h1.locks]) r hr hc (by rwa [h1.role])
  job := by
    rcases h1.job with h1 | ⟨d, d', hd, hd', hsub⟩
    · rw [← h1]
      exact h2.job
    · rcases h2.job with h2 | ⟨e, e', he, he', hsub'⟩
      · exact .inr ⟨d, d', hd, h2.trans hd', hsub⟩
      · rw [hd'] at he
        cases he
        exact .inr ⟨d, e', hd, he', fun i hi => hsub' (hsub hi)⟩
  ask := h2.ask.trans h1.ask

theorem scan (h : Woke chan qs a a') (hs : ∀ r, a.job ≠ .scan r) (r : Round) : a'.job ≠ .scan r := by
  rcases h.job with h | ⟨d, d', -, hd', -⟩
  · rw [h]
    exact hs r
  · rw [hd']
    exact fun h => by cases h

theorem brief (h : Woke chan qs a a') (hb : ¬a.job.Brief) : ¬a'.job.Brief := by
  rcases h.job with h | ⟨d, d', -, hd', -⟩
  · rwa [h]
  · rw [hd']
    exact id

theorem eq (h : Woke chan qs a a') (hw : .wait ∉ a.locks) (ho : ∀ d, a.job ≠ .orphan d) : a' = a := by
  have hj : a'.job = a.job := h.job.resolve_right fun ⟨d, _, hd, _⟩ => ho d hd
  have := h.role
  have := h.held
  have := h.fam hw
  have := h.ask
  cases a
  cases a'
  simp_all

end Woke

theorem Job.see_orphan_or_eq {j : Job} (hs : ∀ r, j ≠ .scan r) (me : Option Nat) (b : Bool) (q : Nat) (x : Proc) :
    j.see me b q x = j ∨ ∃ d d', j = .orphan d ∧ j.see me b q x = .orphan d' ∧ d ⊆ d' := by
  cases j with
  | scan r => exact absurd rfl (hs r)
  | orphan d =>
    refine .inr ⟨d, _, rfl, rfl, ?_⟩
    split
    · exact List.Subset.refl d
    · exact subset_cons_self q d
  | _ => exact .inl rfl

theorem woke_see {chan : Nat} {x y : Proc} (hs : ∀ r, a.job ≠ .scan r) (hne : a.me ≠ some q)
    (hc : ¬(y.state = .sleeping ∧ y.chan = chan)) : Woke chan [q] a (((a.acquire (.proc q) x).see q y).release (.proc q)) where
  role := rfl
  held := held_release_acquire rfl
  fam hw := by simp [fam_see, hw]
  owe := by simp
  par p hp := by
    have hpq : p ≠ q := fun h => hne (h ▸ hp)
    rw [fam_release_proc, par_see_ne hpq, fam_acquire_proc]
  awake r hr := by
    exact awake_see (by simpa using hr)
  woken hw r hr hch _ := by
    rw [mem_singleton.1 hr] at hch ⊢
    exact awake_see_self (by simp [hw]) (by simp) hne (hch ▸ hc)
  job := by simpa using Job.see_orphan_or_eq hs a.me true q y
  ask := rfl

theorem woke_ready {chan : Nat} {x y : Proc} {t : UInt64} (hs : ∀ r, a.job ≠ .scan r) (hl : .proc q ∉ a.locks) (hne : a.me ≠ some q) :
    Woke chan [q] a (((Wr.ready t).acct ((a.acquire (.proc q) x).see q y) q).release (.proc q)) where
  role := rfl
  held := held_release_acquire (by simp [Held.upd_of_notMem hl] : _ = Held.of ((Wr.ready t).apply x) (.proc q) :: a.held)
  fam hw := by simp [Wr.fam_acct, fam_see, hw]
  owe := by
    by_cases hw : .wait ∈ a.locks
    · simp [Wr.fam_acct_of_mem, hw, Wr.fam]
    · simp [Wr.fam_acct, hw]
  par p hp := by
    have hpq : p ≠ q := fun h => hne (h ▸ hp)
    by_cases hw : .wait ∈ a.locks
    · simp [Wr.fam_acct_of_mem, hw, Wr.fam, par_see_ne hpq]
    · simp [Wr.fam_acct, hw, par_see_ne hpq]
  awake r hr := by
    by_cases hw : .wait ∈ a.locks
    · rw [fam_release_proc, Wr.fam_acct_of_mem (by simp [hw])]
      exact .inl (awake_see (by simpa using hr))
    · simpa [Wr.fam_acct, fam_see, hw] using hr
  woken hw r hr _ _ := by
    rw [fam_release_proc, Wr.fam_acct_of_mem (by simp [hw])]
    exact .inr (mem_singleton.1 hr)
  job := by simpa [Wr.job] using Job.see_orphan_or_eq hs a.me true q y
  ask := rfl

theorem obeys_wakeupFrom (chan : Nat) (qs : List Nat) (a : Acct) (hp : a.role.Plain) (hb : ¬a.job.Brief) (hs : ∀ r, a.job ≠ .scan r) :
    Obeys (rules n ok) (wakeupFrom chan qs) a fun _ a' => Woke chan qs a a' := by
  induction qs generalizing a with
  | nil => exact .refl a chan
  | cons q qs ih =>
    have rest : ∀ a', Woke chan [q] a a' → Obeys (rules n ok) (wakeupFrom chan qs) a' fun _ a'' => Woke chan (q :: qs) a a'' :=
      fun a' h => (ih a' (h.role ▸ hp) (h.brief hb) (h.scan hs)).mono fun _ _ h' => h.cons h'
    simp only [wakeupFrom, obeys_bind]
    refine obeys_myproc ?_
    split
    · rename_i hq
      have hne : a.me ≠ some q := fun h => hq (me_eq_cur h)
      -- the lock that is released is that of another process
      have hc : ∀ a' : Acct, a'.role = a.role → ∀ r, Lk.proc q = .proc r → a'.role.cur = some r → a'.In r .running := by
        rintro a' hr r ⟨⟩ hcur
        exact absurd (hr ▸ hcur) hq
      rw [obeys_bind]
      refine obeys_acquire nofun fun hl x _ => ?_
      rw [obeys_bind]
      refine obeys_get fun y hy _ => ?_
      split
      · rename_i hsl
        have hx : x.state = .sleeping := by
          have := congrArg Prod.fst (hy x (by simp [Held.of]))
          exact this.symm.trans hsl.1
        rw [obeys_bind]
        refine obeys_time fun t => ?_
        rw [obeys_bind]
        refine obeys_set (.inl ⟨⟨x, by simp [Held.of], hx⟩, hne⟩) ?_
        have hwoke : Woke chan [q] a (((Wr.ready t).acct ((a.acquire (.proc q) x).see q y) q).release (.proc q)) :=
          woke_ready hs hl hne
        exact obeys_release hp (job_release_proc ▸ hwoke.brief hb) (by simp) (fun h => by cases h) (hc _ rfl) (rest _ hwoke)
      · have hwoke : Woke chan [q] a (((a.acquire (.proc q) x).see q y).release (.proc q)) := woke_see hs hne ‹_›
        exact obeys_release hp (job_release_proc ▸ hwoke.brief hb) (by simp) (fun h => by cases h) (hc _ rfl) (rest _ hwoke)
    · rename_i hq
      refine rest a { Woke.refl a chan with woken := fun _ r hr _ hne => ?_ }
      rw [mem_singleton.1 hr] at hne
      exact absurd (not_not.1 hq) hne

/-- A process that holds no lock, at a point where it may be interrupted. -/
structure Calm (p : Nat) (a : Acct) : Prop where
  role : a.role = .user p
  held : a.held = []
  brief : ¬a.job.Brief
  scan : ∀ r, a.job ≠ .scan r
  orphan : ∀ d, a.job ≠ .orphan d

theorem obeys_sched {x : Proc} {f : Fam} {j : Job} {Q : Unit → Acct → Prop} (hx : x.state ≠ .running) (hb : ¬j.Brief)
    (hs : ∀ r, j ≠ .scan r) (ho : ∀ d, j ≠ .orphan d)
    (h : j ≠ .dead → ∀ y : Proc, y.state = .running → Q () ⟨.user p, [.proc p y], f, j, c⟩) :
    Obeys (rules n ok) (sched p) ⟨.user p, [.proc p x], f, j, c⟩ Q := by
  refine obeys_perform.2 ⟨⟨rfl, ⟨x, rfl, hx⟩, hb, hs, ho⟩, ?_⟩
  rintro b a' ⟨hj, y, hy, rfl⟩
  exact h hj y hy

theorem obeys_yield (h : Calm p a) : Obeys (rules n ok) (yield p) a fun _ a' => a' = a := by
  obtain ⟨role, held, f, j, c⟩ := a
  obtain ⟨rfl, rfl, hb, hs, ho⟩ := h
  refine obeys_acquire_proc fun _ x hx => ?_
  refine obeys_time fun t => obeys_set (.inr ⟨⟨x, by simp, hx rfl⟩, rfl, hb⟩) ?_
  refine obeys_sched (by simp [Wr.apply]) hb hs ho fun _ y hy => ?_
  exact obeys_release_proc (.inr ⟨_, rfl⟩) hb (fun _ => hy) rfl

theorem obeys_sleep {e : Held} {f f' : Fam} {j j' : Job} {chan : Nat} {Q : Unit → Acct → Prop} (he : ∀ q, e.lk ≠ .proc q) (hb : ¬j.Brief)
    (hw : ∀ x : Proc, e.lk = .wait → Acct.MayLeave n ⟨.user p, [.proc p x, e], f, j, c⟩)
    (hrel : ∀ x : Proc, Acct.release ⟨.user p, [.proc p x, e], f, j, c⟩ e.lk = ⟨.user p, [.proc p x], f', j', c⟩)
    (hd : chan = procChan p ↔ j' = .doze) (ht : ∀ q, j' ≠ .took q) (hs : ∀ r, j' ≠ .scan r) (ho : ∀ d, j' ≠ .orphan d)
    (h : Obeys (rules n ok) (acquire e.lk) ⟨.user p, [], f', (Wr.sleep chan).job p j', c⟩ Q) :
    Obeys (rules n ok) (sleep p chan e.lk) ⟨.user p, [e], f, j, c⟩ Q := by
  have hj : ¬((Wr.sleep chan).job p j').Brief ∧ (∀ r, (Wr.sleep chan).job p j' ≠ .scan r) ∧
      ∀ d, (Wr.sleep chan).job p j' ≠ .orphan d := by
    cases j' with
    | scan r => exact absurd rfl (hs r)
    | orphan d => exact absurd rfl (ho d)
    | took q => exact absurd rfl (ht q)
    | _ => simp [Wr.job, Job.Brief]
  refine obeys_acquire_proc fun _ x hx => ?_
  refine obeys_release (.inr ⟨_, rfl⟩) hb (by simp) (hw x) (fun q hq => absurd hq (he q)) ?_
  rw [hrel]
  refine obeys_set ⟨rfl, ⟨x, by simp, hx rfl⟩, hd⟩ ?_
  refine obeys_sched (by simp [Wr.apply]) hj.1 hj.2.1 hj.2.2 fun _ y hy => ?_
  refine obeys_set ⟨rfl, y, by simp, hy⟩ ?_
  rw [acct_proc (by simp) (by simp)]
  exact obeys_release_proc (.inr ⟨_, rfl⟩) hj.1 (fun _ => hy) h

theorem obeys_pause {chan k : Nat} (h : Calm p a) : Obeys (rules n ok) ((Call.sleep chan k).prog n p) a fun _ a' => a' = a := by
  obtain ⟨role, held, f, j, c⟩ := a
  obtain ⟨rfl, rfl, hb, hs, ho⟩ := h
  have hchan : freeChan chan = procChan p ↔ j = .doze := by
    refine iff_of_false ?_ fun h => hb (h ▸ trivial)
    unfold freeChan procChan
    omega
  have hj : (Wr.sleep (freeChan chan)).job p j = j := by
    cases j with
    | doze => exact absurd trivial hb
    | _ => rfl
  refine obeys_acquire nofun fun _ x _ => ?_
  rw [acquire_other]
  have hrel : ∀ x, Acct.release ⟨.user p, [.proc p x, .other k], f, j, c⟩ (.other k) = ⟨.user p, [.proc p x], f, j, c⟩ :=
    fun x => by simp [Acct.release, Held.lk]
  refine obeys_sleep (fun q h => by cases h) hb (fun _ h => by cases h) hrel hchan (fun q h => hb (h ▸ trivial)) hs ho ?_
  rw [hj]
  refine obeys_acquire nofun fun _ x _ => ?_
  exact obeys_release (.inr ⟨_, rfl⟩) hb (by simp [Held.lk]) (fun h => by cases h) (fun q h => by cases h) release_other

/-! ## Kill -/

theorem obeys_setkilled (h : Calm p a) : Obeys (rules n ok) (setkilled p) a fun _ a' => a' = a := by
  obtain ⟨role, held, f, j, c⟩ := a
  obtain ⟨rfl, rfl, hb, hs, ho⟩ := h
  refine obeys_acquire_proc fun _ x hx => ?_
  refine obeys_set ⟨rfl, x, by simp, hx rfl⟩ ?_
  rw [acct_proc (by simp) (by simp)]
  exact obeys_release_proc (.inr ⟨_, rfl⟩) hb hx rfl

theorem obeys_killFrom {pid : Int} (hpid : ok pid) (qs : List Nat) :
    Obeys (rules n ok) (killFrom pid qs) { role := .user p } fun v a =>
      v ≠ 0 ∧ a = { role := .user p } ∨ v = 0 ∧ a = { role := .user p, job := .marked pid } := by
  induction qs with
  | nil => exact .inl ⟨by decide, rfl⟩
  | cons q qs ih =>
    simp only [killFrom, obeys_bind]
    refine obeys_acquire_proc fun _ x hx => obeys_get_head (by simp) (fun _ => by simp) (fun _ => by simp) fun y hy => ?_
    split
    · rename_i heq
      have hpx : x.pid = pid := (congrArg (fun c => c.2.2) hy).symm.trans heq
      rw [obeys_bind]
      refine obeys_set ⟨hpid, ⟨x, by simp, hpx⟩, nofun, rfl⟩ ?_
      rw [acct_proc (by simp) (by simp), obeys_bind]
      exact obeys_release_proc (.inr ⟨_, rfl⟩) id (fun hcur => by simp [Wr.apply, hx hcur]) (.inr ⟨rfl, rfl⟩)
    · exact obeys_release_proc (.inr ⟨_, rfl⟩) id hx ih

/-! ## Fork -/

/-- What `allocproc` leaves: a slot with its lock held, or nothing. -/
def Allocated (p : Nat) : Option Nat → Acct → Prop
  | some q, a => q ≠ p ∧ ∃ x : Proc, x.state = .used ∧ a = { role := .user p, held := [.proc q x], job := .born q }
  | none, a => a = { role := .user p }

theorem obeys_allocFrom {qs : List Nat} (hqs : ∀ q ∈ qs, q < n) :
    Obeys (rules n ok) (allocFrom qs) { role := .user p } (Allocated p) := by
  induction qs with
  | nil => rfl
  | cons q qs ih =>
    simp only [allocFrom, obeys_bind]
    refine obeys_acquire_proc fun _ x hx => obeys_get_head (by simp) (fun _ => by simp) (fun _ => by simp) fun y hy => ?_
    split
    · rename_i heq
      have hxs : x.state = .unused := (congrArg Prod.fst hy).symm.trans heq
      -- the process itself is `RUNNING`
      have hqp : q ≠ p := by
        rintro rfl
        rw [hx rfl] at hxs
        cases hxs
      rw [obeys_bind]
      refine obeys_perform.2 ⟨⟨hqs q (by simp), (fun h => by cases h), rfl, x, by simp, hxs⟩, ?_⟩
      rintro _ _ ⟨pid, rfl⟩
      have e : { Acct.upd ⟨.user p, [.proc q x], {}, .none, {}⟩ q (taken pid) with job := .took q } =
          (⟨.user p, [.proc q (taken pid x)], {}, .took q, {}⟩ : Acct) := by
        simp [Acct.upd, Held.upd]
      rw [e, obeys_bind]
      refine obeys_kalloc fun b => ?_
      split
      · refine obeys_perform.2 ⟨rfl, ?_⟩
        rintro _ _ rfl
        exact ⟨hqp, taken pid x, rfl, rfl⟩
      · rw [obeys_bind]
        refine obeys_set (.inl ⟨⟨taken pid x, by simp, rfl⟩, .inl rfl⟩) ?_
        rw [acct_proc (by simp) (by simp)]
        exact obeys_release_proc (.inr ⟨_, rfl⟩) id (fun hcur => absurd (some.inj hcur).symm hqp) rfl
    · exact obeys_release_proc (.inr ⟨_, rfl⟩) id hx (ih fun r hr => hqs r (by simp [hr]))

theorem obeys_fork : Obeys (rules n ok) (fork n p) { role := .user p } fun _ a' => a' = { role := .user p } := by
  rw [fork, obeys_bind]
  refine (obeys_allocFrom fun q hq => mem_range.1 hq).mono ?_
  rintro (_ | q) a' h
  · exact h
  obtain ⟨hqp, x, hx, rfl⟩ := h
  have hcur : ∀ x : Proc, some p = some q → x.state = .running := fun _ hc => absurd (some.inj hc).symm hqp
  simp only [obeys_bind]
  refine obeys_kalloc fun b => ?_
  split
  · refine obeys_get fun y _ _ => ?_
    rw [see_mk (by simp [Held.lk]) (fun _ h => by cases h) (fun _ h => by cases h)]
    refine obeys_set rfl ?_
    rw [acct_proc (by simp) (by simp)]
    refine obeys_release_proc (.inr ⟨_, rfl⟩) id (hcur _) ?_
    refine obeys_acquire (fun _ => nofun) fun _ z _ => ?_
    rw [acquire_wait]
    refine obeys_set ⟨by simp [Held.lk], .inl ⟨rfl, rfl⟩⟩ ?_
    rw [acct_wait]
    refine obeys_release (.inr ⟨_, rfl⟩) id (by simp [Held.lk]) (fun _ => ⟨(fun r h => by cases h), trivial⟩) (fun r h => by cases h) ?_
    rw [release_wait (fun r h => by cases h)]
    refine obeys_acquire_proc fun _ z _ => ?_
    refine obeys_time fun t => obeys_set ⟨rfl, by simp [Held.lk]⟩ ?_
    rw [acct_proc (by simp) (by simp)]
    exact obeys_release_proc (.inr ⟨_, rfl⟩) id (hcur _) rfl
  · simp only [obeys_bind]
    refine obeys_set (.inl ⟨⟨x, by simp, hx⟩, .inr rfl⟩) ?_
    rw [acct_proc (by simp) (by simp)]
    exact obeys_release_proc (.inr ⟨_, rfl⟩) id (hcur _) rfl

/-! ## Exit -/

variable {d : List Nat} {r : Round} {addr : Nat}

theorem obeys_wakeup_orphan {chan : Nat} {f : Fam} :
    Obeys (rules n ok) (wakeup n chan) ⟨.user p, [.wait], f, .orphan d, c⟩ fun _ a' =>
      ∃ f' d', a' = ⟨.user p, [.wait], f', .orphan d', c⟩ ∧ f'.owe = f.owe ∧ f'.par p = f.par p ∧ (∀ r, f.awake r → f'.awake r) ∧
        (∀ q < n, chan = procChan q → q ≠ p → f'.awake q) ∧ d ⊆ d' := by
  refine (obeys_wakeupFrom chan (range n) _ (.inr ⟨p, rfl⟩) id fun _ h => by cases h).mono ?_
  rintro _ ⟨role, held, f', j, c'⟩ h
  have hd : ∃ d', j = .orphan d' ∧ d ⊆ d' := by
    rcases h.job with h | ⟨e, e', he, he', hsub⟩
    · exact ⟨d, h, List.Subset.refl d⟩
    · cases he
      exact ⟨e', he', hsub⟩
  obtain ⟨d', rfl, hsub⟩ := hd
  obtain rfl : role = .user p := h.role
  obtain rfl : held = [.wait] := h.held
  obtain rfl : c' = c := h.ask
  refine ⟨f', d', rfl, h.owe, h.par p rfl, h.awake, fun q hq hc hne => ?_, hsub⟩
  exact h.woken (by simp [Held.lk]) q (mem_range.2 hq) hc fun he => hne (some.inj he).symm

theorem see_orphan {f : Fam} (x : Proc) :
    see ⟨.user p, [.wait], f, .orphan d, c⟩ q x =
      ⟨.user p, [.wait], { f with par := Function.update f.par q (some x.parent) },
        .orphan (if x.parent = some p then d else q :: d), c⟩ := by
  simp [see, Held.lk, Job.see, me]
  rfl

theorem obeys_reparentFrom (hp : p ≠ initproc) (hn : initproc < n) (qs : List Nat) {f : Fam}
    (howe : ∀ r, f.owe = some r → f.awake r) :
    Obeys (rules n ok) (reparentFrom n p qs) ⟨.user p, [.wait], f, .orphan d, c⟩ fun _ a' =>
      ∃ f' d', a' = ⟨.user p, [.wait], f', .orphan d', c⟩ ∧ (∀ r, f'.owe = some r → f'.awake r) ∧ d ⊆ d' ∧ ∀ q ∈ qs, q ∈ d' := by
  induction qs generalizing f d with
  | nil => exact ⟨f, d, rfl, howe, List.Subset.refl d, fun q h => by cases h⟩
  | cons q qs ih =>
    -- the rest of the loop, once `q` is no child
    have rest : ∀ {f' : Fam} {d' : List Nat}, (∀ r, f'.owe = some r → f'.awake r) → d ⊆ d' → q ∈ d' →
        Obeys (rules n ok) (reparentFrom n p qs) ⟨.user p, [.wait], f', .orphan d', c⟩ fun _ a' =>
          ∃ f' d', a' = ⟨.user p, [.wait], f', .orphan d', c⟩ ∧ (∀ r, f'.owe = some r → f'.awake r) ∧ d ⊆ d' ∧
            ∀ r ∈ q :: qs, r ∈ d' := by
      intro f' d' hf hd hq
      refine (ih hf).mono ?_
      rintro _ _ ⟨f'', d'', rfl, hf', hd', hqs⟩
      refine ⟨f'', d'', rfl, hf', List.Subset.trans hd hd', fun r hr => ?_⟩
      rcases mem_cons.1 hr with rfl | hr
      · exact hd' hq
      · exact hqs r hr
    simp only [reparentFrom, obeys_bind]
    refine obeys_get fun x _ _ => ?_
    rw [see_orphan]
    split
    · rename_i hx
      simp only [obeys_bind]
      refine obeys_set ⟨by simp [Held.lk], .inr ⟨⟨d, rfl⟩, ?_, rfl⟩⟩ ?_
      · simp [hx, me]
      refine obeys_wakeup_orphan.mono ?_
      rintro _ _ ⟨f', d', rfl, howe', -, -, hwake, hsub⟩
      refine rest (fun r hr => ?_) (fun r hr => hsub (mem_cons_of_mem q hr)) (hsub (by simp))
      rw [howe'] at hr
      cases hr
      exact hwake _ hn rfl hp.symm
    · exact rest howe (subset_cons_self q d) (by simp)

theorem obeys_exit {status : Int} {Q : Unit → Acct → Prop} (hn : initproc < n) :
    Obeys (rules n ok) (exit n p status) { role := .user p } Q := by
  unfold exit
  by_cases hp : p = initproc
  · simp only [if_pos hp, obeys_bind]
    trivial
  -- from `acquire(&wait_lock)` on
  have last : Obeys (rules n ok) (do
      acquire .wait
      reparentFrom n p (range n)
      let x ← get p
      wakeup n (chanOf x.parent)
      acquire (.proc p)
      set p (.zombie status)
      release .wait
      sched p
      Prog.panic "zombie exit") { role := .user p, job := .closed } Q := by
    simp only [obeys_bind]
    refine obeys_acquire (fun _ => nofun) fun _ _ _ => ?_
    refine (obeys_reparentFrom hp hn (range n) fun r h => by cases h).mono ?_
    rintro _ _ ⟨f, d, rfl, howe, -, hall⟩
    refine obeys_get fun x _ _ => ?_
    rw [see_orphan]
    refine obeys_wakeup_orphan.mono ?_
    rintro _ _ ⟨f', d', rfl, howe', hpar, hawake, hwake, hsub⟩
    refine obeys_acquire_proc fun _ y hy => ?_
    refine obeys_set ⟨rfl, ⟨y, by simp, hy rfl⟩, by simp [Held.lk], ⟨d', rfl, ?_⟩, x.parent, ?_, ?_⟩ ?_
    · intro r hr
      refine hsub ?_
      split
      · exact hall r (mem_range.2 hr)
      · exact mem_cons_of_mem p (hall r (mem_range.2 hr))
    · rw [hpar]
      exact Function.update_self p _ _
    · intro r hr hx
      by_cases hrp : r = p
      · exact .inl hrp
      · exact .inr (hwake r hr (by rw [hx]; rfl) hrp)
    have e : (Wr.zombie status).acct ⟨.user p, [.proc p y, .wait], f', .orphan d', {}⟩ p =
        ⟨.user p, [.proc p ((Wr.zombie status).apply y), .wait], f', .dead, {}⟩ := by
      simp [Wr.acct, Acct.upd, Held.upd, Held.lk, Wr.role, Wr.fam, Wr.job]
    rw [e]
    refine obeys_release (.inr ⟨_, rfl⟩) id (by simp [Held.lk]) (fun _ => ⟨fun r hr => ?_, trivial⟩) (fun r h => by cases h) ?_
    · exact hawake r (howe r (howe' ▸ hr))
    have e : Acct.release ⟨.user p, [.proc p ((Wr.zombie status).apply y), .wait], f', .dead, {}⟩ .wait =
        ⟨.user p, [.proc p ((Wr.zombie status).apply y)], {}, .dead, {}⟩ := by
      simp [Acct.release, Acct.leave, Held.lk]
    exact obeys_sched (by simp [Wr.apply]) id (fun _ h => by cases h) (fun _ h => by cases h)
      fun h => absurd rfl h
  simp only [if_neg hp, obeys_bind]
  refine obeys_get fun x _ _ => ?_
  split
  · exact obeys_time fun t => obeys_set ⟨rfl, rfl⟩ (obeys_set ⟨rfl, hp, rfl⟩ last)
  · rw [obeys_bind]
    exact obeys_set ⟨rfl, hp, rfl⟩ last

/-! ## Wait -/

theorem see_wait (p : Nat) (hs : List Held) (f : Fam) (j : Job) (q : Nat) (x : Proc) {b : Bool} (hw : .wait ∈ hs.map Held.lk)
    (hb : decide (.proc q ∈ hs.map Held.lk) = b) :
    ∃ f', see ⟨.user p, hs, f, j, c⟩ q x = ⟨.user p, hs, f', j.see (some p) b q x, c⟩ ∧ f'.owe = f.owe ∧ f'.par q = some x.parent := by
  subst hb
  rw [see, if_pos (show .wait ∈ locks ⟨.user p, hs, f, j, c⟩ from hw)]
  exact ⟨_, rfl, rfl, Function.update_self q _ _⟩

/-- `wait(addr)` may return `v`, given what is known of its `copyout`. -/
def Ask.Allows (c : Ask) (addr : Nat) (v : Option Int) : Prop := c.addr = some addr ∧ (addr ≠ 0 → v ≠ none → c.tried = some v)

/-- What the scan of `wait(addr)` leaves. -/
def Scanned (p addr : Nat) (qs : List Nat) (r : Round) : Option (Option Int) × Bool → Acct → Prop
  | (none, havekids), a => ∃ f r', a = ⟨.user p, [.wait], f, .scan r', { addr := some addr }⟩ ∧ f.owe = none ∧ r.done ⊆ r'.done ∧
      (∀ q ∈ qs, q ∈ r'.done) ∧ (havekids = false → r'.kids = false)
  | (some v, _), a => ∃ c : Ask, c.Allows addr v ∧
      (v ≠ none ∧ a = { role := .user p, ask := c } ∨ v = none ∧ ∃ r', a = { role := .user p, job := .left r', ask := c })

theorem obeys_reap {x : Proc} {f : Fam} {pid : Int} {qs : List Nat} {r0 : Round} (hx : x.state = .zombie) (hpq : q ≠ p)
    (howe : f.owe = none) (hpar : f.par q = some (some p)) (hc : c.Allows addr (some pid)) :
    Obeys (rules n ok) (do
      set q .free
      release (.proc q)
      release .wait
      return (some (some pid), true)) ⟨.user p, [.proc q x, .wait], f, .scan r, c⟩ (Scanned p addr qs r0) := by
  refine obeys_set (.inr ⟨⟨x, by simp, hx⟩, by simp [Held.lk], (fun h => by cases h), hpar, r, rfl⟩) ?_
  have e : Wr.free.acct ⟨.user p, [.proc q x, .wait], f, .scan r, c⟩ q =
      ⟨.user p, [.proc q (freeproc x), .wait], Wr.free.fam q (.scan r) f, .none, c⟩ := by
    simp [Wr.acct, Acct.upd, Held.upd, Held.lk, Wr.role, Wr.job, Wr.apply]
  rw [e]
  refine obeys_release_proc (.inr ⟨_, rfl⟩) id (fun hcur => absurd (some.inj hcur).symm hpq) ?_
  refine obeys_release (.inr ⟨_, rfl⟩) id (by simp [Held.lk]) (fun _ => ⟨fun s hs => ?_, trivial⟩) (fun s h => by cases h) ?_
  · rw [show (Wr.free.fam q (.scan r) f).owe = none from howe] at hs
    cases hs
  · exact ⟨c, hc, .inl ⟨(fun h => by cases h), rfl⟩⟩

theorem obeys_leave {f : Fam} {Q : Unit → Acct → Prop} (howe : f.owe = none)
    (hr : r.kids = false ∧ r.All n ∨ r.killed = true ∨ r.copied = false) (h : Q () { role := .user p, job := .left r, ask := c }) :
    Obeys (rules n ok) (release .wait) ⟨.user p, [.wait], f, .scan r, c⟩ Q := by
  have hown : ¬Acct.Own ⟨.user p, [.wait], f, .scan r, c⟩ := by simp [Acct.Own, Held.lk]
  refine obeys_release (.inr ⟨_, rfl⟩) id (by simp [Held.lk]) (fun _ => ⟨fun s hs => ?_, ?_⟩) (fun s h => by cases h) ?_
  · rw [show f.owe = none from howe] at hs
    cases hs
  · exact hr
  · have e : Acct.release ⟨.user p, [.wait], f, .scan r, c⟩ .wait = { role := .user p, job := .left r, ask := c } := by
      simp [Acct.release, Acct.leave, hown, Held.lk]
    exact h

theorem obeys_giveup {x : Proc} {f : Fam} {qs : List Nat} {r0 : Round} (hpq : q ≠ p) (howe : f.owe = none)
    (hr : r.copied = false) (hc : c.addr = some addr) :
    Obeys (rules n ok) (do
      release (.proc q)
      release .wait
      return (some none, true)) ⟨.user p, [.proc q x, .wait], f, .scan r, c⟩ (Scanned p addr qs r0) := by
  refine obeys_release_proc (.inr ⟨_, rfl⟩) id (fun hcur => absurd (some.inj hcur).symm hpq) ?_
  exact obeys_leave howe (.inr (.inr hr)) ⟨c, ⟨hc, fun _ h => absurd rfl h⟩, .inr ⟨rfl, r, rfl⟩⟩

theorem obeys_waitScan {qs : List Nat} {havekids : Bool} {f : Fam} (howe : f.owe = none)
    (hk : havekids = false → r.kids = false) :
    Obeys (rules n ok) (waitScan p addr qs havekids) ⟨.user p, [.wait], f, .scan r, { addr := some addr }⟩ (Scanned p addr qs r) := by
  induction qs generalizing havekids f r with
  | nil => exact ⟨f, r, rfl, howe, List.Subset.refl _, (fun q h => by cases h), hk⟩
  | cons q qs ih =>
    -- the rest of the scan, once `q` is known to be no zombie child
    have rest : ∀ {b : Bool} {f' : Fam} {r' : Round}, f'.owe = none → (b = false → r'.kids = false) → r.done ⊆ r'.done → q ∈ r'.done →
        Obeys (rules n ok) (waitScan p addr qs b) ⟨.user p, [.wait], f', .scan r', { addr := some addr }⟩ (Scanned p addr (q :: qs) r) := by
      intro b f' r' howe' hb hsub hq
      refine (ih howe' hb).mono ?_
      rintro ⟨_ | v, b'⟩ a' h
      · obtain ⟨f'', r'', rfl, howe'', hsub', hqs, hb'⟩ := h
        refine ⟨f'', r'', rfl, howe'', List.Subset.trans hsub hsub', fun s hs => ?_, hb'⟩
        rcases mem_cons.1 hs with rfl | hs
        · exact hsub' hq
        · exact hqs s hs
      · exact h
    simp only [waitScan, obeys_bind]
    refine obeys_get fun x _ _ => ?_
    obtain ⟨f1, e, howe1, hpar1⟩ := see_wait p [.wait] f (.scan r) q x (b := false) (by simp [Held.lk]) (by simp [Held.lk])
    rw [e]
    split
    · rename_i hx
      rw [obeys_bind]
      refine obeys_acquire_proc fun _ y0 hy0 => ?_
      rw [obeys_bind]
      refine obeys_get fun y hy hpar => ?_
      have hyp : y.parent = some p := (hpar (by simp [Held.lk]) _ hpar1).trans hx
      have hst : y.state = y0.state := congrArg Prod.fst (hy y0 (by simp))
      obtain ⟨f2, e, howe2, hpar2⟩ := see_wait p [.proc q y0, .wait] f1 (Job.see (some p) false q x (.scan r)) q y
        (b := true) (by simp [Held.lk]) (by simp [Held.lk])
      have howe2 : f2.owe = none := howe2.trans (howe1.trans howe)
      rw [e]
      split
      · rename_i hz
        -- the process itself is `RUNNING`
        have hqp : q ≠ p := by
          rintro rfl
          rw [hst, hy0 rfl] at hz
          cases hz
        have hy0z : y0.state = .zombie := hst.symm.trans hz
        have hpar2 : f2.par q = some (some p) := hpar2.trans (congrArg some hyp)
        split
        · have hpid : y0.pid = y.pid := (congrArg (fun c => c.2.2) (hy y0 (by simp))).symm
          refine obeys_perform.2 ⟨⟨(fun h => by cases h), rfl, y0, by simp, hy0z, hpid⟩, ?_⟩
          rintro b _ rfl
          cases b with
          | true => exact obeys_reap hy0z hqp howe2 hpar2 ⟨rfl, fun _ _ => rfl⟩
          | false => exact obeys_giveup hqp howe2 (by simp) rfl
        · rename_i haddr
          exact obeys_reap hy0z hqp howe2 hpar2 ⟨rfl, fun h => absurd h haddr⟩
      · rename_i hz
        rw [obeys_bind]
        refine obeys_release_proc (.inr ⟨_, rfl⟩) id hy0 (rest howe2 nofun ?_ ?_)
        · simp [hx, hyp, hz]
        · simp [hx, hyp, hz]
    · rename_i hx
      refine rest (howe1.trans howe) ?_ ?_ ?_
      · simpa [hx] using hk
      · simp [hx]
      · simp [hx]

theorem obeys_sleep_wait {f : Fam} {Q : Unit → Acct → Prop} (howe : f.owe = none) (hall : r.All n)
    (h : Q () ⟨.user p, [.wait], {}, .scan {}, c⟩) : Obeys (rules n ok) (sleep p (procChan p) .wait) ⟨.user p, [.wait], f, .scan r, c⟩ Q := by
  have hown : ∀ x, Acct.Own ⟨.user p, [.proc p x, .wait], f, .scan r, c⟩ := fun x => ⟨p, rfl, by simp [Held.lk]⟩
  have hrel : ∀ x, Acct.release ⟨.user p, [.proc p x, .wait], f, .scan r, c⟩ .wait = ⟨.user p, [.proc p x], {}, .doze, c⟩ :=
    fun x => by simp [Acct.release, leave, hown, Held.lk]
  refine obeys_sleep (fun q h => by cases h) id (fun x _ => ⟨fun s hs => ?_, ?_⟩) hrel (iff_of_true rfl rfl)
    (fun _ h => by cases h) (fun _ h => by cases h) (fun _ h => by cases h) ?_
  · rw [show f.owe = none from howe] at hs
    cases hs
  · simp only [if_pos (hown x)]
    exact hall
  · refine obeys_acquire (fun _ => nofun) fun _ x _ => ?_
    exact h

theorem obeys_waitLoop {fuel : Nat} :
    Obeys (rules n ok) (waitLoop n p addr fuel) ⟨.user p, [.wait], {}, .scan {}, { addr := some addr }⟩ Ends := by
  induction fuel with
  | zero => trivial
  | succ fuel ih =>
    -- the call returns -1
    have gone : ∀ (r : Round) (c : Ask), c.addr = some addr →
        Obeys (rules n ok) (perform (.waitRet none)) { role := .user p, job := .left r, ask := c } Ends := by
      intro r c hc
      refine obeys_perform.2 ⟨⟨.inr ⟨rfl, r, rfl⟩, (fun h => by cases h), addr, hc, fun _ h => absurd rfl h⟩, ?_⟩
      rintro _ _ rfl
      exact ⟨rfl, .inr ⟨p, rfl⟩⟩
    rw [waitLoop, obeys_bind]
    refine (obeys_waitScan rfl fun _ => rfl).mono ?_
    rintro ⟨_ | v, havekids⟩ a h
    · obtain ⟨f, r, rfl, howe, -, hall, hk⟩ := h
      have hall : r.All n := fun q hq => hall q (mem_range.2 hq)
      cases havekids with
      | false =>
        exact obeys_leave howe (.inl ⟨hk rfl, hall⟩) (gone r _ rfl)
      | true =>
        simp only [killed, obeys_bind]
        refine obeys_acquire_proc fun _ x hx => obeys_get fun y _ _ => ?_
        obtain ⟨f', e, howe', -⟩ := see_wait p [.proc p x, .wait] f (.scan r) p y (b := true) (by simp [Held.lk]) (by simp [Held.lk])
        have howe' : f'.owe = none := howe'.trans howe
        rw [e]
        refine obeys_release_proc (.inr ⟨_, rfl⟩) id hx ?_
        rw [obeys_pure]
        split
        · rename_i hy
          exact obeys_leave howe' (.inr (.inl (by simp [hy]))) (gone _ _ rfl)
        · refine obeys_sleep_wait howe' (fun q hq => ?_) ih
          split
          · exact hall q hq
          · exact mem_cons_of_mem p (hall q hq)
    · obtain ⟨c, hc, ⟨hv, rfl⟩ | ⟨rfl, r, rfl⟩⟩ := h
      · refine obeys_perform.2 ⟨⟨.inl ⟨hv, rfl⟩, (fun h => by cases h), addr, hc⟩, ?_⟩
        rintro _ _ rfl
        exact ⟨rfl, .inr ⟨p, rfl⟩⟩
      · exact gone r c hc.1

theorem obeys_wait {fuel : Nat} : Obeys (rules n ok) (wait n p addr fuel) { role := .user p } Ends := by
  refine obeys_perform.2 ⟨(fun h => by cases h), ?_⟩
  rintro _ _ rfl
  refine obeys_acquire (fun _ => nofun) fun _ _ _ => ?_
  exact obeys_waitLoop

/-! ## The scheduler -/

/-- What a scan leaves: the lock of a runnable process, or of none. -/
def Chosen : Option Nat → Acct → Prop
  | some p, a => ∃ x : Proc, x.state = .runnable ∧ a = { role := .idle, held := [.proc p x, .sched] }
  | none, a => a = { role := .idle, held := [.sched] }

theorem obeys_scanFirst {qs : List Nat} : Obeys (rules n ok) (scanFirst qs) { role := .idle, held := [.sched] } Chosen := by
  induction qs with
  | nil => rfl
  | cons q qs ih =>
    simp only [scanFirst, obeys_bind]
    refine obeys_acquire_proc fun _ x _ => obeys_get_head (by simp [Held.lk]) (fun _ => by simp) (fun _ => by simp) fun y hy => ?_
    split
    · rename_i hst
      exact ⟨x, (congrArg Prod.fst hy).symm.trans hst, rfl⟩
    · exact obeys_release_proc (.inl rfl) id (fun h => by cases h) ih

theorem obeys_scanBest {κ : Type} {key : Proc → κ} {lt : κ → κ → Bool} {qs : List Nat} {bound : κ} {best : Option Nat}
    (h : Chosen best a) : Obeys (rules n ok) (scanBest key lt qs bound best) a Chosen := by
  induction qs generalizing bound best a with
  | nil => exact h
  | cons q qs ih =>
    obtain ⟨hs, rfl, hhs⟩ : ∃ hs, a = { role := .idle, held := hs } ∧ .wait ∉ hs.map Held.lk := by
      cases best with
      | none => exact ⟨_, h, by simp [Held.lk]⟩
      | some b =>
        obtain ⟨z, -, hz⟩ := h
        exact ⟨_, hz, by simp [Held.lk]⟩
    simp only [scanBest, obeys_bind]
    refine obeys_acquire_proc fun hl x _ => obeys_get_head hhs (fun _ => by simp) (fun _ => by simp) fun y hy => ?_
    split
    · rename_i hst
      have hx : x.state = .runnable := (congrArg Prod.fst hy).symm.trans hst.1
      cases best with
      | none =>
        cases h
        exact ih ⟨x, hx, rfl⟩
      | some b =>
        obtain ⟨z, -, hz⟩ := h
        cases hz
        have hqb : q ≠ b := by
          rintro rfl
          exact hl (by simp [Held.lk])
        refine obeys_release (.inl rfl) id (by simp [Held.lk]) (fun h => by cases h) (fun _ _ h => by cases h) (ih ⟨x, hx, ?_⟩)
        simp [Acct.release, Held.lk, hqb]
    · exact obeys_release_proc (.inl rfl) id (fun h => by cases h) (ih h)

theorem obeys_scan (pol : Policy) : Obeys (rules n ok) (scan n pol) { role := .idle, held := [.sched] } Chosen := by
  cases pol with
  | roundRobin => exact obeys_scanFirst
  | fcfs | priority => exact obeys_scanBest rfl

theorem obeys_scheduler_tail {x : Proc} (hx : x.state ≠ .running) :
    Obeys (rules n ok) (do
      perform (.setproc none)
      release (.proc p)) { role := .current p, held := [.proc p x] } Ends := by
  refine obeys_perform.2 ⟨⟨p, rfl⟩, ?_⟩
  rintro _ _ ⟨_, ⟨⟩, rfl⟩
  refine obeys_perform.2 ⟨⟨.inr ⟨p, x.state, rfl, rfl, ⟨x, by simp, rfl⟩, hx⟩, id, by simp [Held.lk], nofun, nofun⟩, ?_⟩
  rintro _ _ rfl
  rw [release_proc]
  exact ⟨rfl, .inl rfl⟩

theorem obeys_scheduler (pol : Policy) : Obeys (rules n ok) (scheduler n pol) { role := .idle } Ends := by
  have hrel : ∀ hs : List Held, .sched ∈ hs.map Held.lk → ∀ Q : Unit → Acct → Prop,
      Q () { role := .idle, held := hs.eraseP fun h => h.lk = .sched } →
      Obeys (rules n ok) (release .sched) { role := .idle, held := hs } Q := by
    intro hs hm Q hQ
    refine obeys_release (.inl rfl) id hm (fun h => by cases h) (fun _ h => by cases h) ?_
    simpa [Acct.release] using hQ
  simp only [scheduler, obeys_bind]
  refine obeys_acquire nofun fun _ x _ => ?_
  refine (obeys_scan pol).mono ?_
  rintro (_ | p) a h
  · cases h
    exact hrel _ (by simp [Held.lk]) _ ⟨by simp [Held.lk], .inl rfl⟩
  obtain ⟨x, hx, rfl⟩ := h
  refine hrel _ (by simp [Held.lk]) _ ?_
  have e : [Held.proc p x, .sched].eraseP (fun h => h.lk = .sched) = [.proc p x] := by simp [Held.lk]
  rw [e]
  refine obeys_time fun now => obeys_set ⟨rfl, x, by simp, hx⟩ ?_
  rw [acct_proc (by simp) (by simp)]
  refine obeys_perform.2 ⟨rfl, ?_⟩
  rintro _ _ rfl
  refine obeys_perform.2 ⟨⟨(Wr.run now).apply x, rfl, rfl⟩, ?_⟩
  rintro _ _ ⟨y, hy, rfl⟩
  exact obeys_bind.1 (obeys_scheduler_tail hy)

theorem obeys_forkret {x : Proc} (hx : x.state = .running) :
    Obeys (rules n ok) (forkret p) { role := .user p, held := [.proc p x] } Ends := by
  exact obeys_release_proc (.inr ⟨_, rfl⟩) id (fun _ => hx) ⟨rfl, .inr ⟨p, rfl⟩⟩

/-! ## System calls -/

theorem calm_rest : Calm p { role := .user p } := ⟨rfl, rfl, id, (fun _ h => by cases h), fun _ h => by cases h⟩

/-- The calls a process may make, in runs where every `kill(pid)` has `ok pid`. -/
def Call.Ok (ok : Int → Prop) : Call → Prop
  | .kill pid => ok pid
  | _ => True

theorem obeys_call (hn : initproc < n) {c : Call} (hc : c.Ok ok) :
    Obeys (rules n ok) (c.prog n p) { role := .user p } Ends := by
  -- the calls that leave the account as it was
  have same : ∀ {k : K Unit}, (Obeys (rules n ok) k { role := .user p } fun _ a' => a' = { role := .user p }) →
      Obeys (rules n ok) k { role := .user p } Ends := by
    intro k h
    refine h.mono ?_
    rintro _ _ rfl
    exact ⟨rfl, .inr ⟨p, rfl⟩⟩
  cases c with
  | fork => exact same obeys_fork
  | exit status => exact obeys_exit hn
  | wait addr fuel => exact obeys_wait
  | kill pid =>
    refine same (obeys_bind.2 ((obeys_killFrom hc _).mono ?_))
    rintro v _ (⟨hv, rfl⟩ | ⟨hv, rfl⟩)
    · refine obeys_perform.2 ⟨⟨nofun, .inl ⟨hv, rfl⟩⟩, ?_⟩
      rintro _ _ rfl
      rfl
    · refine obeys_perform.2 ⟨⟨nofun, .inr ⟨hv, rfl⟩⟩, ?_⟩
      rintro _ _ rfl
      rfl
  | setkilled => exact same (obeys_setkilled calm_rest)
  | file fd f | chdir ip => exact same (obeys_set ⟨rfl, rfl⟩ rfl)
  | sleep chan k => exact same (obeys_pause calm_rest)
  | wakeup chan =>
    refine same ((obeys_wakeupFrom _ _ _ (.inr ⟨p, rfl⟩) id fun _ h => by cases h).mono fun _ _ h => ?_)
    exact h.eq (by simp) fun _ h => by cases h

end Xv6.Harts
