import Xv6.Harts.Simulate

/-!
# A process runs on one hart

From the moment a process stops being `RUNNING` until the scheduler of its hart has released `p->lock`, the lock is held by that
hart. Nobody else can switch to the context that `sched` is saving in the meantime.
-/

namespace Xv6.Harts

open Prog
open Sched (Proc ProcState Policy)
open St Acct

variable {N n : Nat} {ok : Int → Prop} {s s' : Sys N} {g g' : St N} {h h' : Fin N} {a : Acct} {l : Lk} {p q : Nat} {w : Wr} {x : Proc}

/-! ## On the way off a hart -/

/-- Process `p` is on its way off hart `h`, which holds its lock. -/
def St.Leaves (g : St N) (h : Fin N) (p : Nat) : Prop :=
  .proc p ∈ (g.acct h).locks ∧
    ((g.acct h).role = .leaving p ∨ (g.acct h).role.cur = some p ∧ (g.proc p).state ≠ .running)

theorem Wr.running_of_apply (hx : (w.apply x).state = .running) : x.state = .running ∨ ∃ now, w = .run now := by
  cases w with
  | run now => exact .inr ⟨now, rfl⟩
  | kill pid =>
    change (if x.state = .sleeping then _ else x.state) = .running at hx
    split at hx
    · cases hx
    · exact .inl hx
  | free | publish _ | ready _ | sleep _ | zombie _ => cases hx
  | _ => exact .inl hx

theorem Wr.Allowed.stops (L : Locks g) (J : Jobs g) (hw : w.Allowed n ok (g.acct h) q) (hrun : (g.proc q).state = .running)
    (hstop : (w.apply (g.proc q)).state ≠ .running) : (g.acct h).role.cur = some q ∧ .proc q ∈ (g.acct h).locks := by
  have hst : ∀ {st}, (g.acct h).In q st → st = .running := fun hi => (L.state hi).symm.trans hrun
  have own : (g.acct h).me = some q ∧ (g.acct h).In q .running → (g.acct h).role.cur = some q ∧ .proc q ∈ (g.acct h).locks :=
    fun ⟨hme, hi⟩ => ⟨me_eq_cur hme, hi.mem⟩
  cases w with
  | free =>
    rcases hw with ⟨hi, -⟩ | ⟨hi, -⟩
    · cases hst hi
    · cases hst hi
  | publish t =>
    obtain ⟨p, he⟩ := J.on_of_job (h := h) (by simp [hw.1])
    have := phase_eq_used.1 ((J.fine p).used (by rw [← he, ← St.acct, hw.1]; rfl))
    cases this.symm.trans hrun
  | ready t =>
    rcases hw with ⟨hi, -⟩ | ⟨hi, hme, -⟩
    · cases hst hi
    · exact own ⟨hme, hi⟩
  | kill pid =>
    refine absurd ?_ hstop
    change (if (g.proc q).state = .sleeping then _ else (g.proc q).state) = .running
    rw [hrun]
    rfl
  | sleep chan | zombie st => exact own ⟨hw.1, hw.2.1⟩
  | run now => exact absurd rfl hstop
  | _ => exact absurd hrun hstop

theorem St.Leaves.act (I : Inv n g) (ha : Act n g (g.acct h) a) (hp : g.Leaves h p) :
    (g.put (g.on h) a).Leaves h p ∨ g.stack h = none ∧ .proc p ∉ a.locks := by
  obtain ⟨hl, hr⟩ := hp
  have same : ∀ {a' : Acct}, a'.role = (g.acct h).role → .proc p ∈ a'.locks → (g.put (g.on h) a').Leaves h p := by
    intro a' hr' hl'
    have hself : (g.put (g.on h) a').acct h = a' := put_acc
    rw [St.Leaves, hself, hr']
    exact ⟨hl', hr⟩
  cases ha with
  | acquire l x => exact .inl (same rfl (by rw [locks_acquire]; exact List.mem_cons_of_mem l hl))
  | release l hplain hb hm hw hc =>
    refine .inl (same rfl (mem_locks_release hl ?_))
    -- a process that releases its own lock is `RUNNING`
    rintro rfl
    rcases hr with hr | ⟨hcur, hst⟩
    · rcases hplain with hr' | ⟨r, hr'⟩ <;> cases hr.symm.trans hr'
    · exact hst (I.locks.state (hc p rfl hcur))
  | see q | ask c | copyout b | ret => exact .inl (same rfl hl)
  | current q hq =>
    rcases hr with hr | ⟨hcur, -⟩
    · cases hr.symm.trans hq
    · rw [hq] at hcur
      cases hcur
  | leave q hq =>
    rcases hr with hr | ⟨hcur, -⟩
    · cases hr.symm.trans hq
    rw [hq] at hcur
    cases hcur
    left
    have hself : (g.put (g.on h) { g.acct h with role := .leaving p }).acct h = _ := put_acc
    rw [St.Leaves, hself]
    exact ⟨hl, .inl rfl⟩
  | finish q st hq =>
    rcases hr with hr | ⟨hcur, -⟩
    · cases hr.symm.trans hq
      refine .inr ⟨?_, ?_⟩
      · cases hs : g.stack h with
        | none => rfl
        | some r =>
          have := I.locks.user r
          rw [← on_some hs, ← acct, hr] at this
          cases this
      · have := (I.locks.nodup (g.on h)).not_mem_erase (a := .proc p)
        rw [← acct, ← locks_release] at this
        exact this
    · rw [hq] at hcur
      cases hcur

theorem St.Leaves.move (I : Inv n g) (hm : Move n ok h' g g') (hp : g.Leaves h p) :
    g'.Leaves h p ∨ g.stack h = none ∧ .proc p ∉ (g'.acct h).locks := by
  rcases eq_or_ne h h' with rfl | hne
  · obtain ⟨hl, hr⟩ := id hp
    cases hm with
    | act a ha =>
      rcases hp.act I ha with hp | ⟨hs, hl⟩
      · exact .inl hp
      · refine .inr ⟨hs, ?_⟩
        have hself : (g.put (g.on h) a).acct h = a := put_acc
        rwa [hself]
    | write q w hw =>
      have hself : (g.wrote h q w).acct h = w.acct (g.acct h) q := put_acc
      have hrun : ∀ now, w ≠ .run now := by
        rintro now rfl
        rcases hr with hr | ⟨hcur, -⟩
        · cases hr.symm.trans hw.1
        · rw [hw.1] at hcur
          cases hcur
      have hrole : (w.acct (g.acct h) q).role = (g.acct h).role := by
        cases w with
        | run now => exact absurd rfl (hrun now)
        | _ => rfl
      left
      rw [St.Leaves, hself, hrole, Wr.locks_acct]
      refine ⟨hl, hr.imp id fun ⟨hcur, hst⟩ => ⟨hcur, fun he => ?_⟩⟩
      rcases setProc_cases g q (w.apply (g.proc q)) p with ⟨rfl, hx⟩ | ⟨-, hx⟩
      · rw [put_proc, hx] at he
        rcases Wr.running_of_apply he with he | ⟨now, he⟩
        · exact hst he
        · exact hrun now he
      · rw [put_proc, hx] at he
        exact hst he
    | take q hq hme hj hi =>
      have hself : ((g.setProc q (taken g.nextpid (g.proc q))).put (g.on h)
        { (g.acct h).upd q (taken g.nextpid) with job := .took q }).bump.acct h = _ := put_acc
      left
      rw [St.Leaves, hself]
      refine ⟨(locks_upd _).symm ▸ hl, hr.imp id fun ⟨hcur, hst⟩ => ⟨hcur, fun he => ?_⟩⟩
      change ((g.setProc q _).proc p).state = .running at he
      rcases setProc_cases g q (taken g.nextpid (g.proc q)) p with ⟨rfl, hx⟩ | ⟨-, hx⟩
      · rw [hx] at he
        cases he
      · rw [hx] at he
        exact hst he
    | newctx q hj =>
      have hq : g.on h ≠ .proc q := fun he => I.jobs.off_of_took hj h (on_eq_proc.1 he)
      have hself : (g.bore h q).acct h =
        { g.acct h with job := .born q } := (put_acc_ne hq).trans put_acc
      left
      rw [St.Leaves, hself]
      exact ⟨hl, hr⟩
    | swtchTo q x hx ha =>
      exfalso
      rcases hr with hr | ⟨hcur, hst⟩
      · rw [ha] at hr
        cases hr
      · rw [ha] at hcur
        cases hcur
        refine hst (I.locks.state (t := g.on h) ⟨x, ?_, hx⟩)
        rw [← acct, ha]
        exact List.mem_singleton_self _
    | sched q x hm hheld hx =>
      have hrole := me_eq hm
      rcases hr with hr | ⟨hcur, hst⟩
      · cases hr.symm.trans hrole
      rw [hrole] at hcur
      cases hcur
      left
      have hs := on_eq_proc.1 (I.locks.on_of_me hm)
      have hself : ((g.toCpu h p x) : St N).acct h = { role := .current p, held := [.proc p x] } :=
        acct_setStack_none.trans (put_acc.trans (by rw [I.runs.saved h p hs]))
      rw [St.Leaves, hself]
      exact ⟨List.mem_singleton_self _, .inr ⟨rfl, hst⟩⟩
  · obtain ⟨ha, hc⟩ := hm.frame I hne
    have hst : (g'.proc p).state = (g.proc p).state := congrArg Prod.fst (hc p hp.1)
    left
    rw [St.Leaves, ha, hst]
    exact hp

/-! ## Runs that keep a record of it -/

/-- The process whose record the code writes next. -/
def writes : K Unit → Option Nat
  | .op (.set q _) _ => some q
  | _ => none

/-- The lock that the code releases next. -/
def releases : K Unit → Option Lk
  | .op (.release l) _ => some l
  | _ => none

theorem writes_eq_some {c : K Unit} (hc : writes c = some q) : ∃ w k, c = .op (.set q w) k := by
  cases c with
  | ret u | panic m => cases hc
  | op e k =>
    cases e with
    | set r w =>
      cases hc
      exact ⟨w, k, rfl⟩
    | _ => cases hc

abbrev Leaving (N : Nat) := Fin N → Option Nat

namespace Leaving

/-- The record of hart `h` after its operation has led from `s` to `s'`. -/
def afterOp (s s' : Sys N) (h : Fin N) (o : Option Nat) : Option Nat :=
  match writes (s.hart h).code with
  | some q => if (s.proc q).state = .running ∧ (s'.proc q).state ≠ .running then some q else o
  | none => if (s.hart h).stack = none ∧ releases (s.hart h).code = o.map Lk.proc then none else o

def upd (s : Sys N) (e : Ev N) (s' : Sys N) (r : Leaving N) : Leaving N :=
  match e with
  | .step h _ => Function.update r h (afterOp s s' h (r h))
  | _ => r

variable {r : Leaving N} {e : Ev N}

theorem upd_eq_some (hp : upd s e s' r h = some p) :
    r h = some p ∧ ¬((∃ ans k, e = .step h ans ∧ (s.hart h).code = .op (.release (.proc p)) k) ∧ (s.hart h).stack = none) ∨
    ∃ ans w k, e = .step h ans ∧ (s.hart h).code = .op (.set p w) k ∧ (s.proc p).state = .running ∧ (s'.proc p).state ≠ .running := by
  cases e with
  | step h0 ans =>
    change Function.update r h0 (afterOp s s' h0 (r h0)) h = some p at hp
    rcases eq_or_ne h h0 with rfl | hne
    · rw [Function.update_self, afterOp] at hp
      cases hc : writes (s.hart h).code with
      | some q =>
        obtain ⟨w, k, hk⟩ := writes_eq_some hc
        simp only [hc] at hp
        split at hp
        · rename_i hst
          cases hp
          exact .inr ⟨ans, w, k, rfl, hk, hst⟩
        · refine .inl ⟨hp, ?_⟩
          rintro ⟨⟨_, _, -, hk'⟩, -⟩
          cases hk.symm.trans hk'
      | none =>
        simp only [hc] at hp
        split at hp
        · cases hp
        · rename_i hno
          refine .inl ⟨hp, ?_⟩
          rintro ⟨⟨_, _, -, hk⟩, hst⟩
          exact hno ⟨hst, by rw [hk, hp]; rfl⟩
    · rw [Function.update_of_ne hne] at hp
      refine .inl ⟨hp, ?_⟩
      rintro ⟨⟨_, _, he, -⟩, -⟩
      cases he
      exact hne rfl
  | _ =>
    refine .inl ⟨hp, ?_⟩
    rintro ⟨⟨_, _, he, -⟩, -⟩
    cases he

end Leaving

def Watched (n : Nat) (s : Sys N) (r : Leaving N) : Prop :=
  ∃ g, Sim n (fun _ => True) s g ∧ Inv n g ∧ ∀ h p, r h = some p → g.Leaves h p

theorem Watched.step (hn : initproc < n) {r : Leaving N} {e : Ev N} (hk : Watched n s r) (hs : s.step n e = some s') :
    Watched n s' (Leaving.upd s e s' r) := by
  obtain ⟨g, S, I, hleaves⟩ := hk
  obtain ⟨g', hm, S'⟩ := S.step hn I e.ok_true hs
  have hold : ∀ h p, r h = some p → g'.Leaves h p ∨
      (∃ ans k, e = .step h ans ∧ (s.hart h).code = .op (.release (.proc p)) k) ∧ (s.hart h).stack = none := by
    intro h p hp
    have hl := hleaves h p hp
    rcases hm with rfl | ⟨h0, hm⟩
    · exact .inl hl
    · rcases hl.move I hm with hl' | ⟨hst, hno⟩
      · exact .inl hl'
      · exact .inr ⟨Sys.held_of_step hs ((S.hart h).held ▸ hl.1) ((S'.hart h).held ▸ hno), (S.hart h).stack.symm.trans hst⟩
  refine ⟨g', S', I.step hm, fun h p hp => ?_⟩
  rcases Leaving.upd_eq_some hp with ⟨hp, hno⟩ | ⟨ans, w, k, rfl, hc, hrun, hstop⟩
  · exact (hold h p hp).resolve_right hno
  have hC := (S.hart h).code
  change s.exec h ans (s.hart h).code = some s' at hs
  rw [hc] at hC hs
  cases hs
  have hproc : ((s.setProc p (w.apply (s.proc p))).goto h (k ())).proc p = w.apply (s.proc p) := Function.update_self p _ _
  rw [hproc] at hstop
  rw [← S.proc] at hrun hstop
  obtain ⟨hcur, hl⟩ := hC.1.stops I.locks I.jobs hrun hstop
  refine ⟨?_, .inr ⟨?_, ?_⟩⟩
  · rw [(S'.hart h).held, Sys.goto_held]
    exact (S.hart h).held ▸ hl
  · rw [(S'.hart h).cur, Sys.goto, Sys.setHart_self]
    exact (S.hart h).cur ▸ hcur
  · rw [S'.proc, hproc, ← S.proc]
    exact hstop

theorem Runs.cur_of_free (L : Locks g) (R : Runs g) (hrun : (g.proc p).state = .running) (hf : g.Free (.proc p)) :
    ∃ h, (g.acct h).role.cur = some p := by
  obtain ⟨h, hh⟩ := R.running p hrun
  refine ⟨h, ?_⟩
  cases hs : g.stack h with
  | none => exact absurd (R.cpu h p hs hh) (hf _)
  | some r =>
    cases (L.has_stack hs).symm.trans hh
    rw [acct, on_some hs, L.user]
    rfl

theorem Role.has_of_cur {r : Role} (hc : r.cur = some p) : r.has = some p := by
  cases r with
  | user q | current q => exact hc
  | idle | claim q | leaving q => cases hc

theorem runs_on_one_hart (hn : initproc < n) {root : Nat} {t0 t : UInt64} {es : List (Ev N)} {o : Lts.Noted (Sys N) (Leaving N)}
    (hr : Lts.run (Lts.noted (Sys.step n) Leaving.upd) ⟨.boot N root t0 t, fun _ => none⟩ es = some o) :
    (∀ h h' p, (o.now.hart h).proc = some p → (o.now.hart h').proc = some p → h = h') ∧
    (∀ p, (o.now.proc p).state = .running → o.now.Free (.proc p) → ∃! h, (o.now.hart h).proc = some p) ∧
    (∀ h p, o.note h = some p → .proc p ∈ (o.now.hart h).held) ∧
    ∀ h p k, (o.now.hart h).code = .op (.swtchTo p) k →
      .proc p ∈ (o.now.hart h).held ∧ ∀ h', (o.now.hart h').stack ≠ some p ∧ o.note h' ≠ some p := by
  have hboot : Watched n (.boot N root t0 t) fun _ => none := ⟨_, Sim.boot, Inv.boot hn, nofun⟩
  obtain ⟨g, S, I, hleaves⟩ := Lts.noted_inv hr hboot fun _ _ _ _ hk hs => hk.step hn hs
  have huniq : ∀ h h' p, (o.now.hart h).proc = some p → (o.now.hart h').proc = some p → h = h' := by
    intro h h' p hh hh'
    rw [← (S.hart h).cur] at hh
    rw [← (S.hart h').cur] at hh'
    exact I.runs.uniq h h' p (Role.has_of_cur hh) (Role.has_of_cur hh')
  refine ⟨huniq, fun p hrun hf => ?_, fun h p hp => ?_, fun h p k hc => ?_⟩
  · obtain ⟨h, hh⟩ := I.runs.cur_of_free I.locks (S.proc ▸ hrun) (S.free I.locks hf)
    rw [(S.hart h).cur] at hh
    exact ⟨h, hh, fun h' hh' => huniq h' h p hh' hh⟩
  · exact (S.hart h).held ▸ (hleaves h p hp).1
  · have hC := (S.hart h).code
    rw [hc] at hC
    obtain ⟨x, hx, ha⟩ := hC.1
    have hl : .proc p ∈ (g.acct h).locks := by
      rw [ha]
      exact List.mem_singleton_self _
    have hst : (g.proc p).state = .running := by
      refine I.locks.state (t := g.on h) ⟨x, ?_, hx⟩
      rw [← acct, ha]
      exact List.mem_singleton_self _
    refine ⟨(S.hart h).held ▸ hl, fun h' => ⟨?_, fun hp => ?_⟩⟩
    · rw [← (S.hart h').stack]
      exact I.runs.off I.locks (I.locks.stack_of_current (by rw [ha])) (by rw [has, ha]; rfl) h'
    have hp := hleaves h' p hp
    have := I.runs.on_inj I.locks (I.locks.excl _ _ _ hp.1 hl)
    subst this
    rcases hp.2 with hr | ⟨-, hno⟩
    · rw [ha] at hr
      cases hr
    · exact hno hst

def yieldTrace : List (Ev 2) :=
  .round hart₀ .roundRobin :: Ev.steps hart₀ 7 9 ++ .timer hart₀ :: Ev.steps hart₀ 8 4

theorem runs_on_one_hart_yield :
    ∃ o, Lts.run (Lts.noted (Sys.step 64) Leaving.upd) ⟨.boot 2 1 5 5, fun _ => none⟩ yieldTrace = some o ∧
      o.note 0 = some 0 ∧ (o.now.hart 0).stack = none ∧ .proc 0 ∈ (o.now.hart 0).held := by
  have hr : (Lts.run (Lts.noted (Sys.step 64) Leaving.upd) ⟨.boot 2 1 5 5, fun _ => none⟩ yieldTrace).map
      (fun o => (o.note 0, (o.now.hart 0).stack)) = some (some 0, none) := by
    decide +kernel
  obtain ⟨o, ho, hl⟩ := Option.map_eq_some_iff.1 hr
  obtain ⟨hl, hst⟩ := Prod.mk.inj hl
  exact ⟨o, ho, hl, hst, (runs_on_one_hart (by decide) ho).2.2.1 0 0 hl⟩

end Xv6.Harts
