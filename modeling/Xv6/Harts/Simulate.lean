import Xv6.Harts.Wakeup

/-!
# The machine does what the rules allow

Every state of the machine goes with accounts: the code each hart has still to execute keeps to the rules from the account of
its thread, and so does each saved context from the account with which it will be resumed. A step of the machine is a move.
-/

namespace Xv6.Harts

open Prog
open Sched (Proc ProcState Policy freeproc wrap32)
open Function (update update_self update_of_ne)
open St Acct Sys

variable {N n : Nat} {ok : Int → Prop} {s s' : Sys N} {g g' : St N} {h h' : Fin N} {t : Th N} {a : Acct} {l : Lk} {p q r : Nat}
  {w : Wr} {x : Proc}

/-- Hart `x` executes a thread with account `a` on the stack `k`. -/
structure Hart.Sim (n : Nat) (ok : Int → Prop) (x : Hart) (k : Option Nat) (a : Acct) : Prop where
  stack : k = x.stack
  held : a.locks = x.held
  cur : a.role.cur = x.proc
  code : Obeys (rules n ok) x.code a Ends
  /-- What `sched` will resume. -/
  ctx : ∀ p, k = some p → ∀ y : Proc, y.state ≠ .running → Obeys (rules n ok) x.ctx { role := .current p, held := [.proc p y] } Ends

structure Sim (n : Nat) (ok : Int → Prop) (s : Sys N) (g : St N) : Prop where
  proc : g.proc = s.proc
  nextpid : g.nextpid = s.nextpid
  hart : ∀ h, (s.hart h).Sim n ok (g.stack h) (g.acct h)
  /-- What `scheduler` will resume. -/
  saved : ∀ p, (∀ h, g.stack h ≠ some p) → (phase (g.proc p) = .live ∨ ∃ p', (g.acc (.proc p')).job.Newborn p) →
    ∀ x : Proc, x.state = .running → Obeys (rules n ok) (s.ctx p) { g.acc (.proc p) with held := [.proc p x] } Ends

variable {y : Hart} {k : K Unit} {c : Th N → Acct} {ans : Ans} {e : Ev N}

theorem Sim.move (S : Sim n ok s g) (hproc : g'.proc = s'.proc) (hpid : g'.nextpid = s'.nextpid)
    (hoth : ∀ h' ≠ h, s'.hart h' = s.hart h' ∧ g'.stack h' = g.stack h' ∧ g'.acct h' = g.acct h') {k : Option Nat}
    (hy : s'.hart h = y) (hk : g'.stack h = k) (ha : g'.acct h = a) (hself : y.Sim n ok k a)
    (hsaved : ∀ p, (∀ h, g'.stack h ≠ some p) → (phase (g'.proc p) = .live ∨ ∃ p', (g'.acc (.proc p')).job.Newborn p) →
      ∀ x : Proc, x.state = .running → Obeys (rules n ok) (s'.ctx p) { g'.acc (.proc p) with held := [.proc p x] } Ends) :
    Sim n ok s' g' := by
  refine ⟨hproc, hpid, fun h' => ?_, hsaved⟩
  rcases eq_or_ne h' h with rfl | hne
  · rw [hy, hk, ha]
    exact hself
  · obtain ⟨hx, hk, ha⟩ := hoth h' hne
    rw [hx, hk, ha]
    exact S.hart h'

theorem St.acct_setStack {k : Option Nat} (hne : h' ≠ h) :
    ({ g with stack := update g.stack h k, acc := c } : St N).acct h' = c (g.on h') := by
  rw [acct, on_setStack hne]

theorem St.acct_setStack_some :
    ({ g with stack := update g.stack h (some p), acc := c } : St N).acct h = c (.proc p) := by
  rw [acct, on_some (update_self h _ _)]

theorem St.acct_setStack_none :
    ({ g with stack := update g.stack h none, acc := c } : St N).acct h = c (.cpu h) := by
  rw [acct, on_none (update_self h _ _)]

theorem Th.proc_ne_cpu : (Th.proc p : Th N) ≠ .cpu h := nofun

theorem Move.frame (I : Inv n g) (hm : Move n ok h g g') (hne : h' ≠ h) :
    g'.acct h' = g.acct h' ∧ ∀ q, .proc q ∈ (g.acct h').locks → core (g'.proc q) = core (g.proc q) := by
  obtain ⟨L, R, J, T, W⟩ := I
  have hon : g.on h' ≠ g.on h := fun he => hne (R.on_inj L he)
  have hproc : ∀ {q : Nat} {x : Proc}, (.proc q ∈ (g.acct h).locks ∨ core x = core (g.proc q)) →
      ∀ r, .proc r ∈ (g.acct h').locks → core ((g.setProc q x).proc r) = core (g.proc r) := by
    intro q x hq r hr
    rcases setProc_cases g q x r with ⟨rfl, he⟩ | ⟨-, he⟩
    · rw [he]
      exact hq.resolve_left fun hq => hon (L.excl _ _ _ hr hq)
    · rw [he]
  cases hm with
  | act a ha => exact ⟨put_acc_ne hon, fun _ _ => rfl⟩
  | write q w hw => exact ⟨put_acc_ne hon, hproc (hw.core.imp id fun hc => hc _)⟩
  | take q hq hme hj hi => exact ⟨put_acc_ne hon, hproc (.inl hi.mem)⟩
  | newctx q hj =>
    have hq : g.on h' ≠ .proc q := fun he => J.off_of_took hj h' (on_eq_proc.1 he)
    exact ⟨(put_acc_ne hq).trans (put_acc_ne hon), fun _ _ => rfl⟩
  | swtchTo p x hx ha =>
    have hst : g.stack h = none := L.stack_of_current (by rw [ha])
    have hoff := R.off L hst (by rw [has, ha]; rfl)
    have hc : g.on h' ≠ .cpu h := fun he => hne (on_eq_cpu.1 he).2
    have hp : g.on h' ≠ .proc p := fun he => hoff h' (on_eq_proc.1 he)
    exact ⟨(acct_setStack hne).trans ((put_acc_ne hp).trans (put_acc_ne hc)), fun _ _ => rfl⟩
  | sched p x hm =>
    have hc : g.on h' ≠ .cpu h := fun he => hne (on_eq_cpu.1 he).2
    have hp : g.on h' ≠ .proc p := fun he => hon (he.trans (L.on_of_me hm).symm)
    exact ⟨(acct_setStack hne).trans ((put_acc_ne hc).trans (put_acc_ne hp)), fun _ _ => rfl⟩

theorem Move.other (L : Locks g) (R : Runs g) (J : Jobs g) (hm : Move n ok h g g') (hne : t ≠ g.on h) :
    Relocked (g.acc t) (g'.acc t) ∨ ∃ q, t = .proc q ∧ phase (g.proc q) = .used ∧ g'.acc t = { role := .user q } := by
  have same : g'.acc t = g.acc t → Relocked (g.acc t) (g'.acc t) := fun h => h ▸ .refl _
  cases hm with
  | act a ha | write q w hw | take q => exact .inl (same (put_acc_ne hne))
  | newctx q hj =>
    rcases eq_or_ne t (.proc q) with rfl | hq
    · exact .inr ⟨q, rfl, J.used_of_took hj, put_acc⟩
    · exact .inl (same ((put_acc_ne hq).trans (put_acc_ne hne)))
  | swtchTo p x hx ha => exact .inl (relocked_swtchTo L R ha t)
  | sched p x hm hheld => exact .inl (relocked_sched L R hm hheld t)

theorem Sim.change (S : Sim n ok s g) (L : Locks g) (R : Runs g) (hproc : g'.proc = s'.proc) (hpid : g'.nextpid = s'.nextpid)
    (hstack : g'.stack = g.stack) (hacc : g'.acc = update g.acc (g.on h) a) (hctx : s'.ctx = s.ctx)
    (hoth : ∀ h' ≠ h, s'.hart h' = s.hart h') (hy : s'.hart h = y) (hself : y.Sim n ok (g.stack h) a)
    (hlive : ∀ r, phase (g'.proc r) = .live → phase (g.proc r) = .live ∨ ∃ p, (g.acc (.proc p)).job.Newborn r)
    (hnew : ∀ r, a.job.Newborn r → (g.acct h).job.Newborn r) : Sim n ok s' g' := by
  have hon : ∀ h', g'.on h' = g.on h' := fun h' => by rw [on, hstack, on]
  refine S.move hproc hpid (fun h' hne => ⟨hoth h' hne, by rw [hstack], ?_⟩) hy (by rw [hstack]) ?_ hself
    fun p hoff hl => ?_
  · rw [acct, hon, hacc, update_of_ne fun he => hne (R.on_inj L he)]
    rfl
  · rw [acct, hon, hacc, update_self]
  rw [hstack] at hoff
  have hne : Th.proc p ≠ g.on h := fun he => hoff h (on_eq_proc.1 he.symm)
  rw [hacc, update_of_ne hne, hctx]
  refine S.saved p hoff ?_
  rcases hl with hl | ⟨p', hp'⟩
  · exact hlive p hl
  refine .inr ⟨p', ?_⟩
  rw [hacc] at hp'
  rcases eq_or_ne (.proc p') (g.on h) with he | hne'
  · rw [he, update_self] at hp'
    rw [he]
    exact hnew p hp'
  · rwa [update_of_ne hne'] at hp'

theorem Sys.setHart_self : (s.setHart h y).hart h = y := by simp [setHart]

theorem Sys.setHart_ne (hne : h' ≠ h) : (s.setHart h y).hart h' = s.hart h' := by simp [setHart, hne]

section
variable (S : Sim n ok s g)
include S

theorem Sim.act (L : Locks g) (R : Runs g) (hst : y.stack = (s.hart h).stack)
    (hctx : y.ctx = (s.hart h).ctx) (hheld : a.locks = y.held) (hcur : a.role.cur = y.proc) (hk : Obeys (rules n ok) y.code a Ends)
    (hnew : ∀ r, a.job.Newborn r → (g.acct h).job.Newborn r) : Sim n ok (s.setHart h y) (g.put (g.on h) a) := by
  refine S.change L R S.proc S.nextpid rfl rfl rfl (fun h' hne => setHart_ne hne) setHart_self
    ⟨?_, hheld, hcur, hk, ?_⟩ (fun r hr => .inl hr) hnew
  · rw [hst]
    exact (S.hart h).stack
  · rw [hctx]
    exact (S.hart h).ctx

theorem Sim.goto (hk : Obeys (rules n ok) k (g.acct h) Ends) : Sim n ok (s.goto h k) g := by
  obtain ⟨hst, hheld, hcur, -, hctx⟩ := S.hart h
  exact S.move S.proc S.nextpid (fun h' hne => ⟨setHart_ne hne, rfl, rfl⟩) setHart_self rfl rfl
    ⟨hst, hheld, hcur, hk, hctx⟩ S.saved

theorem Sim.newctx (I : Inv n g) (hj : (g.acct h).job = .took q)
    (hk : Obeys (rules n ok) k { g.acct h with job := .born q } Ends) :
    Sim n ok ({ s with ctx := update s.ctx q (forkret q) }.goto h k)
      (g.bore h q) := by
  have hq : g.on h ≠ .proc q := fun he => I.jobs.off_of_took hj h (on_eq_proc.1 he)
  have hm : Move n ok h g (g.bore h q) := .newctx q hj
  obtain ⟨hst, hheld, hcur, -, hctx⟩ := S.hart h
  refine S.move S.proc S.nextpid (fun h' hne => ⟨setHart_ne hne, rfl, (hm.frame I hne).1⟩) setHart_self rfl
    ((put_acc_ne hq).trans put_acc) ⟨hst, hheld, hcur, hk, hctx⟩ fun r hoff' hl x hx => ?_
  rcases eq_or_ne r q with rfl | hne
  · rw [put_acc]
    change Obeys (rules n ok) (update s.ctx r (forkret r) r) _ Ends
    rw [update_self]
    exact obeys_forkret hx
  · have hro : Th.proc r ≠ g.on h := fun he => hoff' h (on_eq_proc.1 he.symm)
    rw [put_acc_ne (fun he => hne (by cases he; rfl)), put_acc_ne hro]
    change Obeys (rules n ok) (update s.ctx q (forkret q) r) _ Ends
    rw [update_of_ne hne]
    refine S.saved r hoff' (hl.imp id ?_) x hx
    rintro ⟨p', hp'⟩
    by_cases hpq : p' = q
    · rw [hpq, put_acc] at hp'
      exact hp'.elim
    rw [put_acc_ne (fun he => hpq (by cases he; rfl))] at hp'
    rcases eq_or_ne (.proc p') (g.on h) with he' | hne'
    · rw [he', put_acc] at hp'
      exact absurd (Eq.symm hp') hne
    · rw [put_acc_ne hne'] at hp'
      exact ⟨p', hp'⟩

theorem Sim.swtchTo (I : Inv n g) (hx : x.state = .running)
    (ha : g.acct h = { role := .current p, held := [.proc p x] })
    (hk : ∀ y : Proc, y.state ≠ .running → Obeys (rules n ok) k { role := .current p, held := [.proc p y] } Ends) :
    Sim n ok (s.setHart h { s.hart h with code := s.ctx p, ctx := k, stack := some p })
      (g.toProc h p x) := by
  have hst : g.stack h = none := I.locks.stack_of_current (by rw [ha])
  have hoff := I.runs.off I.locks hst (by rw [has, ha]; rfl)
  have hm : Move n ok h g _ := .swtchTo p x hx ha
  have hlive : phase (g.proc p) = .live := by
    refine phase_eq_live.2 (.inr (.inl (I.locks.state (t := g.on h) ⟨x, ?_, hx⟩)))
    rw [← acct, ha]
    exact List.mem_singleton_self _
  have hh := (S.hart h).held
  have hc := (S.hart h).cur
  rw [ha] at hh hc
  refine S.move S.proc S.nextpid
    (fun h' hne => ⟨setHart_ne hne, update_of_ne hne _ _, (hm.frame I hne).1⟩) setHart_self
    (update_self h _ _) (acct_setStack_some.trans put_acc)
    ⟨rfl, hh, ?_, S.saved p hoff (.inl hlive) x hx, fun p' hp' y hy => ?_⟩ fun r hoff' hl y hy => ?_
  · rw [← hc]
    rw [I.locks.user]
    rfl
  · cases hp'
    exact hk y hy
  · have hrp : r ≠ p := by
      rintro rfl
      exact hoff' h (update_self h _ _)
    have hr : ∀ h', g.stack h' ≠ some r := by
      intro h' he
      rcases eq_or_ne h' h with rfl | hne
      · cases hst.symm.trans he
      · exact hoff' h' ((update_of_ne hne _ _).trans he)
    rw [put_acc_ne (fun he => hrp (by cases he; rfl)), put_acc_ne Th.proc_ne_cpu]
    refine S.saved r hr (hl.imp id ?_) y hy
    rintro ⟨p', hp'⟩
    refine ⟨p', ?_⟩
    change (((g.put _ _).put (.proc p) _).acc (.proc p')).job.Newborn r at hp'
    by_cases hpp : p' = p
    · rw [hpp, put_acc] at hp'
      exact hpp ▸ hp'
    · rwa [put_acc_ne (fun he => hpp (by cases he; rfl)), put_acc_ne Th.proc_ne_cpu] at hp'

theorem Sim.sched (I : Inv n g) (hm : (g.acct h).me = some p) (hheld : (g.acct h).held = [.proc p x])
    (hx : x.state ≠ .running) (hb : ¬(g.acct h).job.Brief) (hscan : ∀ r, (g.acct h).job ≠ .scan r)
    (ho : ∀ d, (g.acct h).job ≠ .orphan d)
    (hk : (g.acct h).job ≠ .dead → ∀ y : Proc, y.state = .running → Obeys (rules n ok) k { g.acct h with held := [.proc p y] } Ends) :
    Sim n ok ({ s with ctx := update s.ctx p k }.setHart h { s.hart h with code := (s.hart h).ctx, stack := none })
      (g.toCpu h p x) := by
  obtain ⟨L, R, J, T, W⟩ := id I
  have hmove : Move n ok h g _ := .sched p x hm hheld hx hb hscan ho
  have hon := L.on_of_me hm
  have hst := on_eq_proc.1 hon
  have hacct := acct_eq hon
  have hh := (S.hart h).held
  have hc := (S.hart h).cur
  rw [locks, hheld] at hh
  rw [me_eq hm] at hc
  refine S.move S.proc S.nextpid
    (fun h' hne => ⟨setHart_ne hne, update_of_ne hne _ _, (hmove.frame I hne).1⟩) setHart_self
    (update_self h _ _) (a := { role := .current p, held := [.proc p x] })
    (acct_setStack_none.trans (put_acc.trans (by rw [R.saved h p hst]))) ⟨rfl, hh, hc, (S.hart h).ctx p hst x hx, fun _ h => by cases h⟩ fun r hoff' hl y hy => ?_
  change Obeys (rules n ok) (update s.ctx p k r)
    { ((g.put (.proc p) { g.acct h with held := [] }).put (.cpu h) { g.acc (.cpu h) with held := [.proc p x] }).acc (.proc r) with
      held := [.proc r y] } Ends
  have hborn : (∃ p', (((g.put (.proc p) { g.acct h with held := [] }).put (.cpu h)
      { g.acc (.cpu h) with held := [.proc p x] }).acc (.proc p')).job.Newborn r) → ∃ p', (g.acc (.proc p')).job.Newborn r := by
    rintro ⟨p', hp'⟩
    refine ⟨p', ?_⟩
    rw [put_acc_ne Th.proc_ne_cpu] at hp'
    by_cases hpp : p' = p
    · rw [hpp, put_acc] at hp'
      rw [hpp, ← hacct]
      exact hp'
    · rwa [put_acc_ne (fun he => hpp (by cases he; rfl))] at hp'
  rw [put_acc_ne Th.proc_ne_cpu]
  rcases eq_or_ne r p with rfl | hne
  · rw [update_self, put_acc]
    refine hk (fun hd => ?_) y hy
    -- a dead process is neither alive nor a child that `fork` is making
    rcases hl with hl | hl
    · have := J.fine r
      rw [← hacct, hd] at this
      exact this hl
    · obtain ⟨p', hp'⟩ := hborn hl
      exact J.off_of_used ((J.fine p').used hp'.kid) h hst
  · rw [update_of_ne hne, put_acc_ne fun he => hne (by cases he; rfl)]
    refine S.saved r (fun h' he => ?_) (hl.imp id hborn) y hy
    rcases eq_or_ne h' h with rfl | hne'
    · exact hne (Option.some.inj (he.symm.trans hst))
    · exact hoff' h' ((update_of_ne hne' _ _).trans he)

theorem Sim.free (L : Locks g) (hf : s.Free l) : g.Free l := by
  intro t hl
  by_cases hon : ∃ h, g.on h = t
  · obtain ⟨h, rfl⟩ := hon
    exact hf h ((S.hart h).held ▸ hl)
  · rw [locks, L.off t fun h he => hon ⟨h, he⟩] at hl
    cases hl

end

theorem Runs.running_of_free (R : Runs g) (hf : g.Free (.proc q)) (hc : (g.acct h).role.cur = some q) : (g.proc q).state = .running := by
  refine (R.holds h q ?_).resolve_right (hf _)
  rw [has]
  cases hr : (g.acct h).role with
  | user p | current p =>
    rw [hr] at hc
    exact hc
  | _ =>
    rw [hr] at hc
    cases hc

theorem Wr.Allowed.newborn (hw : w.Allowed n ok a q) (hr : (w.acct a q).job.Newborn r) : a.job.Newborn r := by
  rw [Wr.job_acct] at hr
  cases w with
  | dup y =>
    rw [show a.job = .born q from hw]
    exact hr
  | parent s =>
    obtain ⟨-, ⟨hj, -⟩ | ⟨⟨d, hj⟩, -⟩⟩ := hw
    · rw [hj] at hr ⊢
      exact hr
    · rw [hj] at hr
      exact hr.elim
  | sleep chan =>
    cases hj : a.job with
    | doze =>
      rw [hj] at hr
      exact hr.elim
    | _ =>
      rw [hj] at hr
      exact hr
  | free | publish _ | kill _ | close | zombie _ => exact hr.elim
  | _ => exact hr

theorem Wr.Allowed.live (L : Locks g) (J : Jobs g) (hw : w.Allowed n ok (g.acct h) q)
    (hr : phase ((g.setProc q (w.apply (g.proc q))).proc r) = .live) :
    phase (g.proc r) = .live ∨ ∃ p, (g.acc (.proc p)).job.Newborn r := by
  rcases setProc_cases g q (w.apply (g.proc q)) r with ⟨rfl, he⟩ | ⟨-, he⟩
  · rw [he] at hr
    by_cases hs : w.hard = false
    · exact .inl ((hw.soft L hs).phase ▸ hr)
    cases w with
    | free | zombie _ => cases hr
    | parent s => exact .inl hr
    | publish tm =>
      obtain ⟨p, he⟩ := J.on_of_job (h := h) (by simp [hw.1])
      refine .inr ⟨p, ?_⟩
      rw [← he, ← St.acct, hw.1]
      rfl
    | _ => exact absurd rfl hs
  · rw [he] at hr
    exact .inl hr

/-- What the machine answers to an operation of hart `h`. -/
def Op.answer (s : Sys N) (h : Fin N) (ans : Ans) : {β : Type} → Op β → β
  | _, .get q => s.proc q
  | _, .myproc => (s.hart h).proc
  | _, .time => ans.now
  | _, .kalloc => ans.ok
  | _, .copyout _ _ _ => ans.ok
  | _, .acquire _ => ()
  | _, .release _ => ()
  | _, .set _ _ => ()
  | _, .take _ => ()
  | _, .newctx _ => ()
  | _, .setproc _ => ()
  | _, .swtchTo _ => ()
  | _, .sched _ => ()
  | _, .waitCall _ => ()
  | _, .waitRet _ => ()
  | _, .killRet _ _ => ()

/-- The operations after which another thread is on the hart. -/
def Op.switches : {β : Type} → Op β → Bool
  | _, .swtchTo _ => true
  | _, .sched _ => true
  | _, _ => false

theorem Sim.exec (S : Sim n ok s g) (I : Inv n g) {β : Type} {e : Op β} {k : β → K Unit}
    (hcode : (s.hart h).code = .op e k) (hs : s.exec h ans (.op e k) = some s') :
    ∃ g', (g' = g ∨ Move n ok h g g') ∧ Sim n ok s' g' ∧
      (e.switches = false → (rules n ok).post β e (g.acct h) (e.answer s h ans) (g'.acc (g.on h))) ∧
      (e.switches = true → ∀ t, Relocked (g.acc t) (g'.acc t)) := by
  obtain ⟨L, R, J, T, W⟩ := id I
  have hC := (S.hart h).code
  have hheld := (S.hart h).held
  have hcur := (S.hart h).cur
  rw [hcode] at hC
  obtain ⟨hpre, hpost⟩ := hC
  have act : ∀ {a : Acct}, (rules n ok).post β e (g.acct h) (e.answer s h ans) a →
      (e.switches = false → (rules n ok).post β e (g.acct h) (e.answer s h ans) ((g.put (g.on h) a).acc (g.on h))) := by
    intro a ha _
    rwa [put_acc]
  cases e with
  | acquire l =>
    simp only [Sys.exec] at hs
    split at hs
    · rename_i hf
      cases hs
      have hgf := S.free L hf
      obtain ⟨x, hx⟩ : ∃ x : Proc, ∀ q, l = .proc q → x = g.proc q := by
        cases l with
        | proc q => exact ⟨g.proc q, fun r hr => by cases hr; rfl⟩
        | _ => exact ⟨{}, nofun⟩
      have ha : Act n g (g.acct h) ((g.acct h).acquire l x) := .acquire l x hpre hgf hx
      have hp : (rules n ok).post Unit (.acquire l) (g.acct h) () ((g.acct h).acquire l x) := by
        refine ⟨hgf _, x, ?_, rfl⟩
        rintro q rfl hc
        rw [hx q rfl]
        exact R.running_of_free hgf hc
      refine ⟨_, .inr (.act _ ha), S.act L R rfl rfl ?_ hcur (hpost () _ hp) ha.mild.newborn, act hp, nofun⟩
      rw [locks_acquire, hheld]
    · cases hs
  | release l =>
    simp only [Sys.exec] at hs
    split at hs
    · cases hs
      obtain ⟨hp | ⟨p, st, hr, rfl, hi, hst⟩, hb, hl, hw, hc⟩ := hpre
      · have ha : Act n g (g.acct h) ((g.acct h).release l) := .release l hp hb hl hw hc
        have hp' : (rules n ok).post Unit (.release l) (g.acct h) () ((g.acct h).release l) := by
          change _ = { (g.acct h).release l with role := (g.acct h).role.drop }
          rw [hp.drop]
          rfl
        refine ⟨_, .inr (.act _ ha), S.act L R rfl rfl ?_ hcur (hpost () _ hp') ha.mild.newborn, act hp', nofun⟩
        rw [locks_release, hheld]
      · have ha : Act n g (g.acct h) { (g.acct h).release (.proc p) with role := .idle } := .finish p st hr hi hst
        have hp' : (rules n ok).post Unit (.release (.proc p)) (g.acct h) () { (g.acct h).release (.proc p) with role := .idle } := by
          change _ = { (g.acct h).release (.proc p) with role := (g.acct h).role.drop }
          rw [hr]
          rfl
        rw [hr] at hcur
        refine ⟨_, .inr (.act _ ha), S.act L R rfl rfl ?_ hcur (hpost () _ hp') ha.mild.newborn, act hp', nofun⟩
        exact locks_release.trans (by rw [hheld])
    · cases hs
  | get q =>
    cases hs
    have ha : Act n g (g.acct h) ((g.acct h).see q (g.proc q)) := .see q
    have hp : (rules n ok).post Proc (.get q) (g.acct h) (s.proc q) ((g.acct h).see q (g.proc q)) := by
      rw [← S.proc]
      exact ⟨fun y hy => L.knows _ q y hy, fun hw o ho => J.par _ hw q o ho, rfl⟩
    exact ⟨_, .inr (.act _ ha), S.act L R rfl rfl hheld hcur (hpost _ _ hp) ha.mild.newborn, act hp, nofun⟩
  | set q w =>
    cases hs
    refine ⟨_, .inr (.write q w hpre), ?_, fun _ => put_acc, nofun⟩
    refine S.change L R ?_ S.nextpid rfl rfl rfl (fun h' hne => setHart_ne hne)
      setHart_self ⟨(S.hart h).stack, Wr.locks_acct.trans hheld, ?_, hpost () _ rfl, (S.hart h).ctx⟩
      (fun r hr => hpre.live L J hr) fun r hr => hpre.newborn hr
    · change update g.proc q (w.apply (g.proc q)) = update s.proc q (w.apply (s.proc q))
      rw [S.proc]
    refine Eq.trans ?_ hcur
    cases w with
    | run now =>
      rw [hpre.1]
      rfl
    | _ => rfl
  | take q =>
    cases hs
    obtain ⟨hq, hme, hj, hi⟩ := hpre
    refine ⟨_, .inr (.take q hq hme hj hi), ?_, fun _ => ⟨g.nextpid, put_acc⟩, nofun⟩
    refine S.change L R ?_ ?_ rfl rfl rfl
      (fun h' hne => setHart_ne hne) setHart_self
      ⟨(S.hart h).stack, (locks_upd _).trans hheld, hcur, hpost () _ ⟨_, rfl⟩, (S.hart h).ctx⟩
      (fun r hr => .inl ?_) fun r hr => hr.elim
    · change update g.proc q (taken g.nextpid (g.proc q)) = update s.proc q (taken s.nextpid (s.proc q))
      rw [S.proc, S.nextpid]
    · change wrap32 (g.nextpid + 1) = wrap32 (s.nextpid + 1)
      rw [S.nextpid]
    · rcases setProc_cases g q (taken g.nextpid (g.proc q)) r with ⟨rfl, he⟩ | ⟨-, he⟩
      · change phase ((g.setProc r _).proc r) = .live at hr
        rw [he] at hr
        cases hr
      · exact he ▸ hr
  | newctx q =>
    cases hs
    have hq : g.on h ≠ .proc q := fun he => J.off_of_took hpre h (on_eq_proc.1 he)
    exact ⟨_, .inr (.newctx q hpre), S.newctx I hpre (hpost () _ rfl), fun _ => (put_acc_ne hq).trans put_acc, nofun⟩
  | myproc =>
    cases hs
    have hp : (rules n ok).post _ .myproc (g.acct h) (s.hart h).proc (g.acct h) := ⟨hcur.symm, rfl⟩
    exact ⟨g, .inl rfl, S.goto (hpost _ _ hp), fun _ => hp, nofun⟩
  | setproc o =>
    cases hs
    cases o with
    | some p =>
      have ha : Act n g (g.acct h) { g.acct h with role := .current p } := .current p hpre
      exact ⟨_, .inr (.act _ ha), S.act L R rfl rfl hheld rfl (hpost () _ rfl) ha.mild.newborn, act rfl, nofun⟩
    | none =>
      obtain ⟨p, hr⟩ := hpre
      have ha : Act n g (g.acct h) { g.acct h with role := .leaving p } := .leave p hr
      exact ⟨_, .inr (.act _ ha), S.act L R rfl rfl hheld rfl (hpost () _ ⟨p, hr, rfl⟩) ha.mild.newborn, act ⟨p, hr, rfl⟩, nofun⟩
  | time | kalloc =>
    cases hs
    exact ⟨g, .inl rfl, S.goto (hpost _ _ rfl), fun _ => rfl, nofun⟩
  | waitCall addr =>
    cases hs
    have ha : Act n g (g.acct h) { g.acct h with ask := { addr := some addr } } := .ask _
    exact ⟨_, .inr (.act _ ha), S.act L R rfl rfl hheld hcur (hpost _ _ rfl) ha.mild.newborn, act rfl, nofun⟩
  | copyout q pt addr =>
    cases hs
    have ha : Act n g (g.acct h) { g.acct h with
        job := (g.acct h).job.copied ans.ok
        ask := { (g.acct h).ask with tried := some (if ans.ok then some pt.pid else none) } } := .copyout ans.ok _
    exact ⟨_, .inr (.act _ ha), S.act L R rfl rfl hheld hcur (hpost _ _ rfl) ha.mild.newborn, act rfl, nofun⟩
  | swtchTo p =>
    cases hs
    obtain ⟨x, hx, ha⟩ := hpre
    refine ⟨_, .inr (.swtchTo p x hx ha), S.swtchTo I hx ha fun y hy => ?_, nofun, fun _ t => relocked_swtchTo L R ha t⟩
    have := hpost () _ ⟨y, hy, rfl⟩
    rwa [ha] at this
  | sched p =>
    simp only [Sys.exec] at hs
    split at hs
    · cases hs
      obtain ⟨hm, ⟨x, hx, hst⟩, hb, hscan, ho⟩ := hpre
      exact ⟨_, .inr (.sched p x hm hx hst hb hscan ho),
        S.sched I hm hx hst hb hscan ho fun hd y hy => hpost () _ ⟨hd, y, hy, rfl⟩, nofun,
        fun _ t => relocked_sched L R hm hx t⟩
    · cases hs
  | waitRet v =>
    cases hs
    have ha : Act n g (g.acct h) { g.acct h with job := .none, ask := {} } := .ret _ (hpre.1.imp And.right fun h => .inr h.2)
    exact ⟨_, .inr (.act _ ha), S.act L R rfl rfl hheld hcur (hpost _ _ rfl) ha.mild.newborn, act rfl, nofun⟩
  | killRet pid v =>
    cases hs
    have ha : Act n g (g.acct h) { g.acct h with job := .none } := .ret _ (hpre.2.imp And.right fun h => .inl ⟨pid, h.2⟩)
    exact ⟨_, .inr (.act _ ha), S.act L R rfl rfl hheld hcur (hpost _ _ rfl) ha.mild.newborn, act rfl, nofun⟩

theorem Sim.exec_proc (S : Sim n ok s g) (I : Inv n g) {β : Type} {e : Op β} {k : β → K Unit}
    (hcode : (s.hart h).code = .op e k) (hs : s.exec h ans (.op e k) = some s') :
    ∃ g', (g' = g ∨ Move n ok h g g') ∧ Sim n ok s' g' ∧ ∀ p,
      g.on h = .proc p ∧ e.switches = false ∧ (rules n ok).post β e (g.acct h) (e.answer s h ans) (g'.acc (.proc p)) ∨
      (g.on h = .proc p → e.switches = true) ∧ Relocked (g.acc (.proc p)) (g'.acc (.proc p)) ∨
      g.on h ≠ .proc p ∧ phase (g.proc p) = .used ∧ g'.acc (.proc p) = { role := .user p } := by
  obtain ⟨g', hm, S', hpost, hsw⟩ := S.exec I hcode hs
  refine ⟨g', hm, S', fun p => ?_⟩
  by_cases hon : g.on h = .proc p
  · cases hb : e.switches with
    | true => exact .inr (.inl ⟨fun _ => rfl, hsw hb _⟩)
    | false => exact .inl ⟨hon, rfl, hon ▸ hpost hb⟩
  · rcases hm with rfl | hm
    · exact .inr (.inl ⟨fun h => absurd h hon, .refl _⟩)
    · rcases hm.other I.locks I.runs I.jobs (Ne.symm hon) with he | ⟨q, hq, hu, he⟩
      · exact .inr (.inl ⟨fun h => absurd h hon, he⟩)
      · cases hq
        exact .inr (.inr ⟨hon, hu, he⟩)

theorem Sim.proc_of_on (S : Sim n ok s g) (I : Inv n g) (hon : g.on h = .proc p) : (s.hart h).proc = some p := by
  rw [← (S.hart h).cur, acct_eq hon, I.locks.user]
  rfl

/-! ## Interrupts and calls -/

theorem Jobs.calm (J : Jobs g) (hl : (g.acct h).locks = []) :
    ¬(g.acct h).job.Brief ∧ (∀ r, (g.acct h).job ≠ .scan r) ∧ ∀ d, (g.acct h).job ≠ .orphan d := by
  cases hon : g.on h with
  | cpu h' =>
    rw [acct, hon, J.cpu]
    exact ⟨id, (fun _ h => by cases h), fun _ h => by cases h⟩
  | proc p =>
    have hf := J.fine p
    rw [acct, hon] at hl ⊢
    rw [hl] at hf
    refine ⟨fun hb => ?_, fun r hj => ?_, fun d hj => ?_⟩
    · cases hj : (g.acc (.proc p)).job with
      | took q =>
        rw [hj] at hf
        cases hf.2.2.2
      | doze =>
        rw [hj] at hf
        cases hf.2
      | _ =>
        rw [hj] at hb
        exact hb
    · rw [hj] at hf
      cases hf.2.1
    · rw [hj] at hf
      cases hf.2.2.1

theorem Runs.plain (L : Locks g) (R : Runs g) (hl : (g.acct h).locks = []) : (g.acct h).role.Plain := by
  have hcpu : ∀ p, g.stack h = none → g.has h = some p → False := fun p hs hh => by
    have := R.cpu h p hs hh
    rw [hl] at this
    cases this
  cases hs : g.stack h with
  | some p => exact .inr ⟨p, by rw [acct, on_some hs, L.user]⟩
  | none =>
    cases hr : (g.acct h).role with
    | idle => exact .inl rfl
    | user p => exact .inr ⟨p, rfl⟩
    | claim p | current p | leaving p => exact (hcpu p hs (by rw [has, hr]; rfl)).elim

theorem Sim.calm (S : Sim n ok s g) (I : Inv n g) (hheld : (s.hart h).held = []) (hp : (s.hart h).proc = some p) : Calm p (g.acct h) := by
  have hl : (g.acct h).locks = [] := (S.hart h).held.trans hheld
  have hc := (S.hart h).cur.trans hp
  obtain ⟨hb, hscan, ho⟩ := I.jobs.calm hl
  refine ⟨?_, List.map_eq_nil_iff.1 hl, hb, hscan, ho⟩
  obtain hr | ⟨r, hr⟩ := I.runs.plain I.locks hl
  · rw [hr] at hc
    cases hc
  · rw [hr] at hc ⊢
    cases hc
    rfl

theorem Sim.interrupt (S : Sim n ok s g) (hk : (s.hart h).held = [] → Obeys (rules n ok) k (g.acct h) fun _ a => a = g.acct h)
    (hs : s.interrupt h k = some s') : Sim n ok s' g := by
  rw [Sys.interrupt] at hs
  split at hs
  · cases hs
    refine S.goto (obeys_bind.2 ((hk ‹_›).mono ?_))
    rintro _ _ rfl
    exact (S.hart h).code
  · cases hs

/-- In these runs every `kill(pid)` has `ok pid`. -/
def Ev.Ok (ok : Int → Prop) : Ev N → Prop
  | .call _ c => c.Ok ok
  | _ => True

theorem Ev.ok_true (e : Ev N) : e.Ok fun _ => True := by
  cases e with
  | call h c => cases c <;> trivial
  | _ => trivial

theorem Inv.step (I : Inv n g) (hm : g' = g ∨ ∃ h, Move n ok h g g') : Inv n g' := by
  rcases hm with rfl | ⟨h, hm⟩
  · exact I
  · exact I.move hm

theorem Sim.rest (S : Sim n ok s g) (I : Inv n g) {u : Unit} (hcode : (s.hart h).code = .ret u) (hp : (s.hart h).proc = some p) :
    g.on h = .proc p ∧ g.acct h = { role := .user p } := by
  have hC := (S.hart h).code
  have hc := (S.hart h).cur.trans hp
  rw [hcode] at hC
  obtain ⟨ha, hr | ⟨r, hr⟩⟩ := hC
  · rw [hr] at hc
    cases hc
  · rw [hr] at hc
    cases hc
    exact ⟨on_eq_proc.2 (I.locks.stack_of_user hr), by rw [ha, hr]⟩

theorem Sim.enter (hn : initproc < n) (S : Sim n ok s g) (I : Inv n g) (he : e.Ok ok) (hne : ∀ h ans, e ≠ .step h ans)
    (hs : s.step n e = some s') : Sim n ok s' g := by
  cases e with
  | step h ans => exact absurd rfl (hne h ans)
  | round h pol =>
    simp only [step] at hs
    split at hs
    · rename_i hcode hstack
      cases hs
      refine S.goto ?_
      have hC := (S.hart h).code
      rw [hcode] at hC
      obtain ⟨ha, hr | ⟨p, hr⟩⟩ := hC
      · rw [ha, hr]
        exact obeys_scheduler pol
      · cases (I.locks.stack_of_user hr).symm.trans ((S.hart h).stack.trans hstack)
    · cases hs
  | call h c =>
    simp only [step] at hs
    split at hs
    · rename_i p hcode hstack hproc
      cases hs
      refine S.goto ?_
      rw [(S.rest I hcode hproc).2]
      exact obeys_call hn he
    · cases hs
  | timer h =>
    simp only [step] at hs
    split at hs
    · rename_i p hproc
      exact S.interrupt (fun hl => obeys_yield (S.calm I hl hproc)) hs
    · cases hs
  | pause h chan k =>
    simp only [step] at hs
    split at hs
    · rename_i p hstack hproc
      exact S.interrupt (fun hl => obeys_pause (S.calm I hl hproc)) hs
    · cases hs
  | intr h chan =>
    refine S.interrupt (fun hl => ?_) hs
    have hl' : (g.acct h).locks = [] := (S.hart h).held.trans hl
    obtain ⟨hb, hscan, ho⟩ := I.jobs.calm hl'
    refine (obeys_wakeupFrom _ _ _ (I.runs.plain I.locks hl') hb hscan).mono fun _ a hw => hw.eq ?_ ho
    rw [hl']
    nofun

theorem Sys.op_of_exec {c : K Unit} (hs : s.exec h ans c = some s') : ∃ β, ∃ e : Op β, ∃ k, c = .op e k := by
  cases c with
  | ret u | panic m => cases hs
  | op e k => exact ⟨_, e, k, rfl⟩

theorem Sim.step (hn : initproc < n) (S : Sim n ok s g) (I : Inv n g) (he : e.Ok ok) (hs : s.step n e = some s') :
    ∃ g', (g' = g ∨ ∃ h, Move n ok h g g') ∧ Sim n ok s' g' := by
  by_cases hne : ∀ h ans, e ≠ .step h ans
  · exact ⟨g, .inl rfl, S.enter hn I he hne hs⟩
  push Not at hne
  obtain ⟨h, ans, rfl⟩ := hne
  obtain ⟨β, b, k, hc⟩ := op_of_exec hs
  rw [step, hc] at hs
  obtain ⟨g', hm, S', -⟩ := S.exec I hc hs
  exact ⟨g', hm.imp id fun hm => ⟨h, hm⟩, S'⟩

/-! ## What a step changes -/

theorem Sys.step_cases (hs : s.step n e = some s') :
    (∃ h ans, e = .step h ans ∧ s.exec h ans (s.hart h).code = some s') ∨ (∀ h ans, e ≠ .step h ans) ∧ ∃ h k, s' = s.goto h k := by
  have intr : ∀ {h k}, s.interrupt h k = some s' → ∃ h k, s' = s.goto h k := by
    intro h k hs
    rw [interrupt] at hs
    split at hs
    · cases hs
      exact ⟨_, _, rfl⟩
    · cases hs
  cases e with
  | step h ans => exact .inl ⟨h, ans, rfl, hs⟩
  | round h pol | call h c =>
    refine .inr ⟨nofun, ?_⟩
    simp only [step] at hs
    split at hs
    · cases hs
      exact ⟨_, _, rfl⟩
    · cases hs
  | timer h | pause h chan k =>
    refine .inr ⟨nofun, ?_⟩
    simp only [step] at hs
    split at hs
    · exact intr hs
    · cases hs
  | intr h chan => exact .inr ⟨nofun, intr hs⟩

theorem Sys.goto_ne (hne : h' ≠ h) : (s.goto h k).hart h' = s.hart h' := setHart_ne hne

theorem Sys.goto_held : ((s.goto h' k).hart h).held = (s.hart h).held := by
  rcases eq_or_ne h h' with rfl | hne
  · rw [goto, setHart_self]
  · rw [goto_ne hne]

theorem Sys.exec_ne {c : K Unit} (hs : s.exec h ans c = some s') (hne : h' ≠ h) : s'.hart h' = s.hart h' := by
  cases c with
  | ret u | panic m => cases hs
  | op e k =>
    cases e with
    | acquire l | release l | sched p =>
      simp only [exec] at hs
      split at hs
      · cases hs
        exact setHart_ne hne
      · cases hs
    | _ =>
      cases hs
      exact setHart_ne hne

theorem Sys.exec_held {c : K Unit} (hs : s.exec h ans c = some s') (hl : l ∈ (s.hart h).held) :
    (∃ k, c = .op (.release l) k) ∨ l ∈ (s'.hart h).held := by
  cases c with
  | ret u | panic m => cases hs
  | op e k =>
    cases e with
    | acquire l' =>
      simp only [exec] at hs
      split at hs
      · cases hs
        rw [setHart_self]
        exact .inr (List.mem_cons_of_mem l' hl)
      · cases hs
    | release l' =>
      simp only [exec] at hs
      split at hs
      · cases hs
        rw [setHart_self]
        rcases eq_or_ne l l' with rfl | hne
        · exact .inl ⟨k, rfl⟩
        · exact .inr ((List.mem_erase_of_ne hne).2 hl)
      · cases hs
    | sched p =>
      simp only [exec] at hs
      split at hs
      · cases hs
        rw [setHart_self]
        exact .inr hl
      · cases hs
    | setproc p | swtchTo p =>
      cases hs
      rw [setHart_self]
      exact .inr hl
    | _ =>
      cases hs
      rw [goto_held]
      exact .inr hl

theorem Sys.held_of_step (hs : s.step n e = some s') (hl : l ∈ (s.hart h).held) (hl' : l ∉ (s'.hart h).held) :
    ∃ ans k, e = .step h ans ∧ (s.hart h).code = .op (.release l) k := by
  rcases step_cases hs with ⟨h0, ans, rfl, hx⟩ | ⟨-, h0, k, rfl⟩
  · rcases eq_or_ne h h0 with rfl | hne
    · obtain ⟨k, hk⟩ := (exec_held hx hl).resolve_right hl'
      exact ⟨ans, k, rfl, hk⟩
    · rw [exec_ne hx hne] at hl'
      exact absurd hl hl'
  · rw [goto_held] at hl'
    exact absurd hl hl'

/-! ## All runs -/

def Th.rest : Th N → Acct
  | .cpu _ => { role := .idle }
  | .proc p => { role := .user p }

def Sys.rest (s : Sys N) : St N := ⟨s.proc, s.nextpid, fun _ => none, Th.rest⟩

section
variable {root : Nat} {t0 tm : UInt64}

theorem Sys.boot_proc_ne (hp : p ≠ initproc) : (boot N root t0 tm).proc p = {} := if_neg hp

theorem Sys.boot_phase (p : Nat) : phase ((boot N root t0 tm).proc p) = .live ∧ p = initproc ∨
    phase ((boot N root t0 tm).proc p) = .unused ∧ p ≠ initproc := by
  by_cases hp : p = initproc
  · subst hp
    exact .inl ⟨rfl, rfl⟩
  · rw [boot_proc_ne hp]
    exact .inr ⟨rfl, hp⟩

theorem Sys.boot_parent (p : Nat) : ((boot N root t0 tm).proc p).parent = none := by
  by_cases hp : p = initproc
  · subst hp
    rfl
  · rw [boot_proc_ne hp]

theorem Sys.boot_state (p : Nat) : ((boot N root t0 tm).proc p).state = .runnable ∨ ((boot N root t0 tm).proc p).state = .unused := by
  by_cases hp : p = initproc
  · subst hp
    exact .inl rfl
  · rw [boot_proc_ne hp]
    exact .inr rfl

theorem Th.rest_held (t : Th N) : t.rest.held = [] := by cases t <;> rfl

theorem Th.rest_fam (t : Th N) : t.rest.fam = {} := by cases t <;> rfl

theorem Th.rest_locks (t : Th N) : t.rest.locks = [] := by rw [locks, t.rest_held]; rfl

theorem Th.not_mem_rest (t : Th N) : l ∉ t.rest.locks := by
  rw [t.rest_locks]
  nofun

theorem Locks.boot : Locks (boot N root t0 tm).rest where
  role t := by
    cases t with
    | cpu h => exact nofun
    | proc p => rfl
  excl t _ l hl := absurd hl t.not_mem_rest
  nodup t := by
    change t.rest.locks.Nodup
    rw [t.rest_locks]
    exact .nil
  off t _ := t.rest_held
  knows t q x hx := by
    rw [show ((Sys.boot N root t0 tm).rest.acc t).held = [] from t.rest_held] at hx
    cases hx

theorem Runs.boot : Runs (boot N root t0 tm).rest where
  uniq := nofun
  holds := nofun
  cpu := nofun
  running p hp := by
    rcases boot_state (N := N) p with h | h
    · cases h.symm.trans hp
    · cases h.symm.trans hp
  saved := nofun

theorem Jobs.boot : Jobs (boot N root t0 tm).rest where
  cpu _ := rfl
  fine _ := trivial
  par t hl := absurd hl t.not_mem_rest
  kid := nofun
  context _ _ h := h.elim
  zombie q hq := by
    rcases boot_phase (N := N) q with ⟨h, -⟩ | ⟨h, -⟩
    · cases h.symm.trans hq
    · cases h.symm.trans hq
  on := nofun

theorem Tree.boot (hn : initproc < n) : Tree n (boot N root t0 tm).proc where
  init := ⟨rfl, rfl⟩
  bound q hq := by
    rcases boot_phase q with ⟨-, rfl⟩ | ⟨h, -⟩
    · exact hn
    · exact absurd h hq
  unused q _ := boot_parent q
  live q r hr := by cases (boot_parent q).symm.trans hr
  parent q hq hne := by
    rcases boot_phase q with ⟨-, rfl⟩ | ⟨h, -⟩
    · exact absurd rfl hne
    · rcases hq with hq | hq
      · cases h.symm.trans hq
      · cases h.symm.trans hq

theorem Wake.boot : Wake (boot N root t0 tm).rest where
  awake t _ hl := absurd hl t.not_mem_rest
  owe t r ho := by
    rw [show ((Sys.boot N root t0 tm).rest.acc t).fam = {} from t.rest_fam] at ho
    cases ho
  zombie q r _ hr := by cases (boot_parent (N := N) q).symm.trans hr

theorem Inv.boot (hn : initproc < n) : Inv n (boot N root t0 tm).rest := ⟨.boot, .boot, .boot, Tree.boot (N := N) hn, .boot⟩

theorem Sim.boot : Sim n ok (boot N root t0 tm) (boot N root t0 tm).rest where
  proc := rfl
  nextpid := rfl
  hart _ := ⟨rfl, rfl, rfl, ⟨rfl, .inl rfl⟩, nofun⟩
  saved p _ _ _ hx := obeys_forkret hx

end

/-- The accounts go with the state and all is well with them. -/
def Kept (n : Nat) (ok : Int → Prop) (s : Sys N) : Prop := ∃ g, Sim n ok s g ∧ Inv n g

end Xv6.Harts
