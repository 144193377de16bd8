import Xv6.Sleep.Awake

/-!
# No wakeup is lost

Every state of the machine goes with an account for each hart: what the hart has still to execute keeps to the rules from its account,
and so does each saved context from the account with which it will be resumed.
-/

namespace Xv6.Sleep

open Prog
open Harts (Op Lk Wr)
open Sched (Proc ProcState Policy)
open Function (update update_self update_of_ne)

def rest : Option Nat → Acct
  | some p => proc p [] .calm
  | none => idle

section
variable {N n chan : Nat} {s s' : Sys N} {acc : Fin N → Acct} {h : Fin N} {p : Nat} {b : Acct} {x : Hart}

/-- Hart `x` executes a thread with account `a`. -/
structure Hart.Sim (n chan : Nat) (x : Hart) (a : Acct) : Prop where
  stack : x.stack = a.me
  cur : x.proc = a.cur
  held : x.held = a.held
  code : Obeys (rules n chan) x.code a fun _ a' => a' = rest a.me
  /-- What `sched` will resume. -/
  back : ∀ p, a.me = some p → Obeys (rules n chan) x.ctx (returned p) fun _ a' => a' = idle

structure Sim (n chan : Nat) (s : Sys N) (acc : Fin N → Acct) : Prop where
  hart : ∀ h, (s.hart h).Sim n chan (acc h)
  /-- What `scheduler` will resume. -/
  saved : ∀ p, (∀ h, (acc h).me ≠ some p) → Obeys (rules n chan) (s.ctx p) (resumed p) fun _ a => a = proc p [] .calm

section
variable (S : Sim n chan s acc)
include S

theorem Sim.move (hhart : s'.hart = update s.hart h x) (hx : x.Sim n chan b)
    (hsaved : ∀ p, (∀ h', (update acc h b h').me ≠ some p) → Obeys (rules n chan) (s'.ctx p) (resumed p) fun _ a => a = proc p [] .calm) :
    Sim n chan s' (update acc h b) := by
  refine ⟨fun h' => ?_, hsaved⟩
  rw [hhart]
  rcases eq_or_ne h' h with rfl | hne
  · rwa [update_self, update_self]
  · rw [update_of_ne hne, update_of_ne hne]
    exact S.hart h'

theorem Sim.change (b : Acct) (hhart : s'.hart = update s.hart h x) (hctx : s'.ctx = s.ctx)
    (hme : b.me = (acc h).me) (hx : x.Sim n chan b) : Sim n chan s' (update acc h b) := by
  refine S.move hhart hx fun p hp => ?_
  rw [hctx]
  refine S.saved p fun h' hp' => hp h' ?_
  rcases eq_or_ne h' h with rfl | hne
  · rw [update_self, hme, hp']
  · rw [update_of_ne hne, hp']

theorem Sim.goto {k : K Unit} (hk : Obeys (rules n chan) k (acc h) fun _ a => a = rest (acc h).me) :
    Sim n chan (s.goto h k) acc := by
  have X := S.hart h
  have hupd : Sim n chan (s.goto h k) (update acc h (acc h)) :=
    S.change (acc h) rfl rfl rfl ⟨X.stack, X.cur, X.held, hk, X.back⟩
  rwa [Function.update_eq_self] at hupd

theorem Sim.swtchTo (I : Inv n chan s.cond s.proc acc) {k : Unit → K Unit} (hme : (acc h).me = none)
    (hcur : (acc h).cur = some p) (hheld : (acc h).held = [.proc p]) (hclaim : (acc h).claim = some p)
    (hk : Obeys (rules n chan) (k ()) (returned p) fun _ a => a = rest (acc h).me) :
    Sim n chan (s.setHart h { s.hart h with code := s.ctx p, ctx := k (), stack := some p }) (update acc h (resumed p)) := by
  have X := S.hart h
  rw [hme] at hk
  refine S.move rfl ⟨rfl, X.cur.trans hcur, X.held.trans hheld, S.saved p fun h' => I.claim h h' p hclaim, fun q hq => ?_⟩ fun q hq => ?_
  · cases hq
    exact hk
  · refine S.saved q fun h' hq' => hq h' ?_
    rcases eq_or_ne h' h with rfl | hne
    · rw [hme] at hq'
      cases hq'
    · rwa [update_of_ne hne]

theorem Sim.sched (I : Inv n chan s.cond s.proc acc) {k : Unit → K Unit} (hme : (acc h).me = some p)
    (hheld : (acc h).held = [.proc p]) (hk : Obeys (rules n chan) (k ()) (resumed p) fun _ a => a = rest (acc h).me) :
    Sim n chan ({ s with ctx := update s.ctx p (k ()) }.setHart h { s.hart h with code := (s.hart h).ctx, stack := none })
      (update acc h (returned p)) := by
  have X := S.hart h
  rw [hme] at hk
  refine S.move rfl ⟨rfl, X.cur.trans ((I.own h).cur p hme), X.held.trans hheld, X.back p hme, fun q hq => by cases hq⟩ fun q hq => ?_
  rcases eq_or_ne q p with rfl | hqp
  · simp only [Sys.setHart, update_self]
    exact hk
  · simp only [Sys.setHart, update_of_ne hqp]
    refine S.saved q fun h' hq' => hq h' ?_
    rcases eq_or_ne h' h with rfl | hne
    · exact absurd (Option.some.inj (hq'.symm.trans hme)) hqp
    · rwa [update_of_ne hne]

end

@[simp] theorem Acct.write_me (a : Acct) (q : Nat) (w : Wr) : (a.write q w).me = a.me := by cases w <;> rfl
@[simp] theorem Acct.write_cur (a : Acct) (q : Nat) (w : Wr) : (a.write q w).cur = a.cur := by cases w <;> rfl
@[simp] theorem Acct.write_held (a : Acct) (q : Nat) (w : Wr) : (a.write q w).held = a.held := by cases w <;> rfl

theorem Sim.exec (S : Sim n chan s acc) (I : Inv n chan s.cond s.proc acc) {now : UInt64} (hs : s.exec h now (s.hart h).code = some s') :
    ∃ acc', Sim n chan s' acc' ∧ Inv n chan s'.cond s'.proc acc' := by
  have X := S.hart h
  have hobey := X.code
  generalize (s.hart h).code = c at hs hobey
  cases c with
  | ret | panic => cases hs
  | op e k =>
    obtain ⟨hpre, hk⟩ := hobey
    cases e with
    | inl e =>
      cases e with
      | acquire l =>
        simp only [Sys.exec] at hs
        split at hs
        case isFalse => cases hs
        case isTrue hf =>
          cases hs
          have hl : ∀ h', l ∉ (acc h').held := fun h' => (S.hart h').held ▸ hf h'
          exact ⟨_, S.change ((acc h).acquire l) rfl rfl rfl ⟨X.stack, X.cur, congrArg _ X.held, hk () _ ⟨hl h, rfl⟩, X.back⟩, I.acquire hl⟩
      | release l =>
        simp only [Sys.exec] at hs
        split at hs
        case isFalse => cases hs
        case isTrue hl =>
          cases hs
          refine ⟨_, S.change ((acc h).release l) rfl rfl rfl ⟨X.stack, X.cur, congrArg (List.erase · l) X.held, hk () _ rfl, X.back⟩, ?_⟩
          exact I.release hpre.2
      | get q =>
        cases hs
        refine ⟨_, S.change ((acc h).see chan q (s.proc q)) rfl rfl rfl ⟨X.stack, X.cur, X.held, hk _ _ ⟨fun st hq => ?_, rfl⟩, X.back⟩, I.see hpre⟩
        exact ((I.own h).known q st hq).2
      | set q w =>
        cases hs
        have hme := (acc h).write_me q w
        refine ⟨_, S.change ((acc h).write q w) rfl rfl hme ⟨hme ▸ X.stack, ?_, ?_, hme ▸ hk _ _ rfl, hme ▸ X.back⟩, I.write hpre.1 hpre.2⟩
        · exact X.cur.trans (Acct.write_cur ..).symm
        · exact X.held.trans (Acct.write_held ..).symm
      | myproc =>
        cases hs
        exact ⟨_, S.change (acc h).skip rfl rfl rfl ⟨X.stack, X.cur, X.held, hk _ _ ⟨X.cur, rfl⟩, X.back⟩, I.skip hpre⟩
      | setproc c =>
        cases hs
        exact ⟨_, S.change { acc h with cur := c } rfl rfl rfl ⟨X.stack, rfl, X.held, hk () _ rfl, X.back⟩, I.setproc hpre c⟩
      | time =>
        cases hs
        exact ⟨acc, S.goto (hk now _ rfl), I⟩
      | swtchTo p =>
        cases hs
        obtain ⟨hme, hcur, hheld, hclaim, hplan⟩ := hpre
        exact ⟨_, S.swtchTo I hme hcur hheld hclaim (hk () _ rfl), I.swtchTo hheld hclaim hplan⟩
      | sched p =>
        simp only [Sys.exec] at hs
        split at hs
        case isFalse => cases hs
        case isTrue =>
          cases hs
          obtain ⟨hme, hheld, hplan⟩ := hpre
          exact ⟨_, S.sched I hme hheld (hk () _ rfl), I.sched hheld hplan⟩
      | _ => exact absurd hpre id
    | inr e =>
      cases e with
      | test =>
        cases hs
        exact ⟨_, S.change { acc h with plan := if s.cond then .seen else .doomed } rfl rfl rfl ⟨X.stack, X.cur, X.held, hk _ _ rfl, X.back⟩,
          I.test hpre.1 hpre.2⟩
      | assign v =>
        cases hs
        exact ⟨_, S.change { acc h with plan := if (acc h).plan = .seen then .seen else .waking 0 false } rfl rfl rfl
          ⟨X.stack, X.cur, X.held, hk () _ rfl, X.back⟩, I.assign hpre.1 hpre.2⟩

theorem Own.user {cond : Bool} {table : Nat → Proc} {a : Acct} (O : Own n cond table a) (hme : a.me = some p) (hheld : a.held = []) :
    a = proc p [] .calm := by
  have hnone : ∀ l, l ∉ a.held := by simp [hheld]
  apply Acct.ext
  · exact hme
  · exact O.cur p hme
  · exact hheld
  · funext q
    cases hk : a.known q with
    | none => rfl
    | some st => exact absurd (O.known q st hk).1 (hnone _)
  · cases hc : a.claim with
    | none => rfl
    | some q => exact absurd (O.claim q hc).2.1 (hnone _)
  · have hplan := O.plan
    unfold Acct.PlanOk at hplan
    cases hp : a.plan <;> simp_all [proc]

theorem Sim.rest (S : Sim n chan s acc) {u : Unit} (hcode : (s.hart h).code = .ret u) {o : Option Nat} (hstack : (s.hart h).stack = o) :
    acc h = Sleep.rest o := by
  have hend := (S.hart h).code
  rw [hcode] at hend
  rw [← hstack, (S.hart h).stack]
  exact hend

theorem Sim.step (S : Sim n chan s acc) (I : Inv n chan s.cond s.proc acc) {e : Ev N} (hs : s.step n chan e = some s') :
    ∃ acc', Sim n chan s' acc' ∧ Inv n chan s'.cond s'.proc acc' := by
  cases e with
  | step h now => exact S.exec I hs
  | round h pol =>
    simp only [Sys.step] at hs
    split at hs
    case h_2 => cases hs
    case h_1 hcode hstack =>
      cases hs
      have ha := S.rest hcode hstack
      refine ⟨acc, S.goto ?_, I⟩
      rw [ha]
      exact obeys_kernel (obeys_scheduler pol)
  | call h c =>
    simp only [Sys.step] at hs
    split at hs
    case h_2 => cases hs
    case h_1 p hcode hstack =>
      cases hs
      have ha := S.rest hcode hstack
      refine ⟨acc, S.goto ?_, I⟩
      rw [ha]
      exact obeys_prog c
  | timer h =>
    simp only [Sys.step] at hs
    split at hs
    case h_2 => cases hs
    case h_1 p hstack =>
      split at hs
      case isFalse => cases hs
      case isTrue hheld =>
        cases hs
        have X := S.hart h
        have ha := (I.own h).user (X.stack.symm.trans hstack) (X.held.symm.trans hheld)
        have hcode := X.code
        refine ⟨acc, S.goto ?_, I⟩
        rw [ha] at hcode ⊢
        refine obeys_bind.2 ((obeys_kernel obeys_yield).mono ?_)
        rintro _ _ rfl
        exact hcode

variable {cond : Bool} {pid : Nat → Int}

theorem sim_boot : Sim n chan (Sys.boot N n cond pid) fun _ => idle where
  hart _ := ⟨rfl, rfl, rfl, rfl, fun _ hp => by cases hp⟩
  saved _ _ := obeys_kernel obeys_forkret

theorem inv_boot : Inv n chan cond (Sys.boot N n cond pid).proc fun _ : Fin N => idle := by
  have hdoze : ∀ p, ¬Dozes chan (Sys.boot N n cond pid).proc (fun _ : Fin N => idle) p := by
    rintro p (⟨h, hme, -⟩ | ⟨hst, -⟩)
    · cases hme
    · simp only [Sys.boot] at hst
      split at hst <;> cases hst
  refine ⟨fun _ => ⟨List.nodup_nil, fun _ hp => ?_, fun _ hp => ?_, fun _ hp => ?_, fun _ _ hp => ?_, fun _ hp => ?_, trivial⟩,
    fun _ _ _ hl => ?_, fun _ _ _ hp => ?_, fun _ _ _ hc => ?_, fun p hp => ?_, fun _ p _ => hdoze p, fun _ i _ => hdoze i,
    fun p hd => absurd hd (hdoze p)⟩
  case refine_9 => simp [Sys.boot, Nat.not_lt.2 hp]
  case refine_6 => cases hl
  all_goals first | cases hp | cases hc

theorem no_lost_wakeup {es : List (Ev N)} (hrun : Lts.run (Sys.step n chan) (Sys.boot N n cond pid) es = some s) (hfree : s.Free lk)
    (hcond : s.cond = true) (p : Nat) : ¬((s.proc p).state = .sleeping ∧ (s.proc p).chan = chan) := by
  have hinv : ∃ acc, Sim n chan s acc ∧ Inv n chan s.cond s.proc acc :=
    Lts.run_inv (I := fun s => ∃ acc, Sim n chan s acc ∧ Inv n chan s.cond s.proc acc)
      (fun s e s' ⟨acc, S, I⟩ _ hs => S.step I hs) ⟨_, sim_boot, inv_boot⟩ (Lts.along_of_forall fun _ _ _ => trivial) hrun
  obtain ⟨acc, S, I⟩ := hinv
  intro hsleep
  rcases I.awake p (.inr hsleep) with hf | ⟨h, i, ok, hi, -⟩
  · rw [hcond] at hf
    cases hf
  · -- A waker holds the lock.
    have hplan := (I.own h).plan
    simp only [Acct.PlanOk, hi] at hplan
    exact hfree h ((S.hart h).held ▸ hplan.1)

end

/-- Process 0 goes to sleep, process 1 makes the condition true and wakes it. -/
def sleepAndWake : List (Ev 1) :=
  let steps (k : Nat) : List (Ev 1) := List.replicate k (.step ⟨0, Nat.one_pos⟩ 0)
  let round : Ev 1 := .round ⟨0, Nat.one_pos⟩ .roundRobin
  let call (c : Call) : Ev 1 := .call ⟨0, Nat.one_pos⟩ c
  (round :: steps 9) ++ (call (.waiter 2 []) :: steps 8) ++ (round :: steps 12) ++ (call .waker :: steps 10)

theorem no_lost_wakeup_two :
    (Lts.run (Sys.step 2 7) (Sys.boot 1 2 false fun p => p) (sleepAndWake.take 19)).map (fun s => ((s.proc 0).state, (s.proc 0).chan)) =
      some (.sleeping, 7) ∧
    ∃ s, Lts.run (Sys.step 2 7) (Sys.boot 1 2 false fun p => p) sleepAndWake = some s ∧ s.Free lk ∧ s.cond = true ∧
      ∀ p, ¬((s.proc p).state = .sleeping ∧ (s.proc p).chan = 7) := by
  refine ⟨by decide +kernel, ?_⟩
  have hr : (Lts.run (Sys.step 2 7) (Sys.boot 1 2 false fun p => p) sleepAndWake).map (fun s => decide (s.Free lk ∧ s.cond = true)) = some true := by
    decide +kernel
  obtain ⟨s, hs, hd⟩ := Option.map_eq_some_iff.1 hr
  obtain ⟨hfree, hcond⟩ := of_decide_eq_true hd
  exact ⟨s, hs, hfree, hcond, no_lost_wakeup hs hfree hcond⟩

end Xv6.Sleep
